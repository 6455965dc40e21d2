import SilFront.Proofs.OwnCode
import SilFront.Proofs.Written

/-!
# Registers in a listing

A listing is a sequence of blocks: notes, calls, and the own code of expressions. The code of an
expression with calls is cut into blocks at these calls, and only its last block is its own.

In what is compiled, an operation that reads a register stands in the own code of an expression,
after an operation of the same code that writes the register, so that no register is in use across a
call, a note or another expression. A note that speaks of register zero follows right upon an
operation that writes it.
-/

namespace SilFront

/-- What a listing consists of: notes, calls, and the own code of expressions. -/
inductive Block where
  | note (content : Note)
  | call (function : String)
  | code (operations : List Operation)
deriving DecidableEq

namespace Block

/-- The entries of a block. -/
def entries : Block → List Entry
  | .note content => [.note content]
  | .call function => [.operation (.call function)]
  | .code operations => operations.map .operation

/-- The entries of blocks in turn. -/
def all (blocks : List Block) : List Entry :=
  blocks.flatMap entries

@[simp]
theorem all_nil :
  all [] = []
  := rfl

@[simp]
theorem all_cons (first : Block) (rest : List Block) :
  all (first :: rest) = first.entries ++ all rest
  := List.flatMap_cons

@[simp]
theorem all_append (first second : List Block) :
  all (first ++ second) = all first ++ all second
  := List.flatMap_append

/-- An operation that stands after some entries reads a register that is written before in the same
block, by an operation of the own code of an expression. -/
def Supplies (blocks : List Block) (before : List Entry) (op : Operation) (r : Nat) : Prop :=
  ∃ first own w between rest last,
    blocks = first ++ .code (own ++ w :: (between ++ op :: rest)) :: last ∧
    before = all first ++ (own ++ w :: between).map .operation ∧ w.dest? = some r

/-- Every entry of a listing stands in one of its blocks. -/
theorem exists_eq_of_all_eq {blocks : List Block} {before after : List Entry} {entry : Entry}
    (h : all blocks = before ++ entry :: after) :
  ∃ first block last front back, blocks = first ++ block :: last ∧
    block.entries = front ++ entry :: back ∧ before = all first ++ front
  := by
  induction blocks generalizing before with
  | nil => simp at h
  | cons block blocks ih =>
    rw [all_cons] at h
    obtain ⟨back, hentries, -⟩ | ⟨front, rfl, hrest⟩ := append_eq_append_cons h
    · exact ⟨[], block, blocks, before, back, rfl, hentries, rfl⟩
    · obtain ⟨first, b, last, front, back, rfl, hentries, rfl⟩ := ih hrest
      exact ⟨block :: first, b, last, front, back, rfl, hentries, by simp⟩

end Block

mutual

/-- The blocks of an expression: those of its calls, then its own code. -/
def Outline.blocks : Outline → List Block
  | .done code => [.code code]
  | .token _ rest => rest.blocks
  | .call function arguments rest => blocksOf arguments ++ .call function :: rest.blocks

/-- The blocks of expressions in turn. -/
def Outline.blocksOf : List Outline → List Block
  | [] => []
  | e :: rest => e.blocks ++ blocksOf rest

end

/-- The blocks of a section. -/
def Section.blocks : Section → List Block
  | .note content => [.note content]
  | .expression e => e.blocks
  | .call function arguments => Outline.blocksOf arguments ++ [.call function]

/-- The blocks of a program. -/
def Program.blocks (program : Program) : List Block :=
  (program.sections 0).flatMap Section.blocks

/-! ### Blocks and entries -/

mutual

/-- The blocks of an expression are its operations. -/
theorem Outline.all_blocks : ∀ e : Outline, Block.all e.blocks = e.operations.map .operation
  | .done code => by simp [Outline.blocks, Outline.operations, Block.entries]
  | .token _ rest => by
      rw [Outline.blocks, Outline.operations, rest.all_blocks]
  | .call function arguments rest => by
      rw [Outline.blocks, Outline.operations, Block.all_append, Block.all_cons,
        Outline.all_blocksOf arguments, rest.all_blocks]
      simp [Block.entries]

/-- The blocks of arguments are their operations. -/
theorem Outline.all_blocksOf : ∀ es : List Outline,
  Block.all (Outline.blocksOf es) = (Outline.operationsOf es).map .operation
  | [] => rfl
  | e :: es => by
      rw [Outline.blocksOf, Outline.operationsOf, Block.all_append, e.all_blocks,
        Outline.all_blocksOf es, List.map_append]

end

/-- The blocks of a section are its entries. -/
theorem Section.all_blocks (first : Section) :
  Block.all first.blocks = first.entries
  := by
  cases first with
  | note => rfl
  | expression e => apply e.all_blocks
  | call function arguments =>
    simp [blocks, entries, Block.entries, Outline.all_blocksOf]

/-- The blocks of sections are their entries. -/
theorem Section.all_flatMap_blocks (sections : List Section) :
  Block.all (sections.flatMap blocks) = all sections
  := by
  induction sections with
  | nil => rfl
  | cons first rest ih => rw [List.flatMap_cons, Block.all_append, all_blocks, ih, all_cons]

/-! ### Own code -/

/-- The own code of an expression is straight. -/
def Block.Straight (registers : Nat) : Block → Prop
  | .code operations => ∃ slot items, Expression.Straight registers slot items operations
  | _ => True

namespace Outline

variable {T : SymbolTable} {registers : Nat}

theorem blocksOf_eq_flatMap (es : List Outline) :
  blocksOf es = es.flatMap blocks
  := by
  induction es with
  | nil => rfl
  | cons e es ih => rw [blocksOf, ih, List.flatMap_cons]

/-- The blocks of arguments are straight if those of every argument are. -/
theorem straight_blocksOf {es : List Outline}
    (h : ∀ e ∈ es, ∀ block ∈ e.blocks, block.Straight registers) :
  ∀ block ∈ blocksOf es, block.Straight registers
  := by
  rw [blocksOf_eq_flatMap]
  intro block hblock
  obtain ⟨e, he, hblock⟩ := List.mem_flatMap.mp hblock
  apply h e he block hblock

/-- A compiled expression consists of straight blocks. -/
theorem Compiles.straight {slot : Slot} {y : Yard} {e : Outline}
    (h : e.Compiles T registers slot y) :
  ∀ block ∈ e.blocks, block.Straight registers
  := by
  induction h with
  | done _ compiles =>
    rw [blocks, List.forall_mem_singleton]
    exact ⟨_, _, Expression.straight_of_compile compiles⟩
  | token _ _ ih => exact ih
  | call _ _ _ _ _ _ ihArgs ih =>
    rw [blocks, List.forall_mem_append, List.forall_mem_cons]
    exact ⟨straight_blocksOf ihArgs, trivial, ih⟩

end Outline

/-- The own code of every expression along a run is straight. -/
theorem Section.Written.straight {registers : Nat} {T T' : SymbolTable} {sections : List Section}
    (h : Written (Outline.Compiled registers) T sections T') :
  ∀ block ∈ sections.flatMap blocks, block.Straight registers
  := by
  induction h with
  | nil => simp
  | expression accepted _ ih =>
    rw [List.flatMap_cons, List.forall_mem_append]
    exact ⟨accepted.1.straight, ih⟩
  | result accepted _ _ _ ih =>
    rw [List.flatMap_cons, List.flatMap_cons, List.forall_mem_append, List.forall_mem_append]
    exact ⟨accepted.1.straight, List.forall_mem_singleton.mpr trivial, ih⟩
  | note _ _ _ ih =>
    rw [List.flatMap_cons, List.forall_mem_append]
    exact ⟨List.forall_mem_singleton.mpr trivial, ih⟩
  | call _ _ accepted _ ih =>
    rw [List.flatMap_cons, List.forall_mem_append, blocks, List.forall_mem_append]
    refine ⟨⟨?_, List.forall_mem_singleton.mpr trivial⟩, ih⟩
    apply Outline.straight_blocksOf
    intro e he
    apply (accepted.compiles e he).straight

/-! ### Register zero -/

/-- Every note on register zero follows right upon a write of it. -/
def FollowsWrites (entries : List Entry) : Prop :=
  ∀ before n after, entries = before ++ .note n :: after → n.usesResult = true →
    ∃ front op, before = front ++ [.operation op] ∧ op.dest? = some 0

/-- There is no note on register zero among operations. -/
theorem followsWrites_operations (operations : List Operation) :
  FollowsWrites (operations.map .operation)
  := by
  intro before n after h
  have hmem : .note n ∈ operations.map Entry.operation := by simp [h]
  simp at hmem

theorem followsWrites_note {n : Note} (hplain : n.usesResult = false) :
  FollowsWrites [.note n]
  := by
  intro before m after h huses
  obtain ⟨-, heq⟩ := eq_of_singleton_eq h
  obtain rfl := Entry.note.inj heq
  rw [hplain] at huses
  cases huses

/-- Notes on register zero follow upon writes in entries in turn if they do so in both parts. -/
theorem FollowsWrites.append {first second : List Entry} (h : FollowsWrites first)
    (h' : FollowsWrites second) :
  FollowsWrites (first ++ second)
  := by
  intro before n after heq huses
  obtain ⟨back, hfirst, -⟩ | ⟨front, rfl, hsecond⟩ := append_eq_append_cons heq
  · apply h before n back hfirst huses
  · obtain ⟨front, op, rfl, hop⟩ := h' front n after hsecond huses
    exact ⟨first ++ front, op, by simp, hop⟩

/-- A note on register zero may follow the code of an expression whose value is wanted there. -/
theorem followsWrites_result {T : SymbolTable} {registers : Nat} {y : Yard} {e : Outline} {n : Note}
    (h : e.Compiles T registers .register y) :
  FollowsWrites (e.operations.map .operation ++ [.note n])
  := by
  obtain ⟨front, op, hoperations, hop⟩ := h.exists_delivers
  rw [hoperations]
  intro before m after heq _
  obtain ⟨back, hcode, -⟩ | ⟨_, rfl, hnote⟩ := append_eq_append_cons heq
  · have hmem : .note m ∈ (front ++ [op]).map Entry.operation := by simp [hcode]
    simp at hmem
  · obtain ⟨rfl, -⟩ := eq_of_singleton_eq hnote
    exact ⟨front.map .operation, op, by simp, hop⟩

/-- Along a run every note on register zero follows right upon a write of it. -/
theorem Section.Written.followsWrites {registers : Nat} {T T' : SymbolTable}
    {sections : List Section} (h : Written (Outline.Compiled registers) T sections T') :
  FollowsWrites (all sections)
  := by
  induction h with
  | nil => apply followsWrites_operations []
  | expression _ _ ih =>
    rw [all_cons]
    apply (followsWrites_operations _).append ih
  | result accepted _ _ _ ih =>
    rw [all_cons, all_cons, ← List.append_assoc]
    apply (followsWrites_result accepted.1).append ih
  | note plain _ _ ih =>
    rw [all_cons]
    apply (followsWrites_note plain).append ih
  | call _ _ _ _ ih =>
    rw [all_cons]
    apply (followsWrites_operations _).append ih

/-! ### Listings -/

namespace Block

variable {registers : Nat} {blocks : List Block}

/-- Straight blocks use no register that the machine does not have. -/
theorem lt_of_mem_all (h : ∀ block ∈ blocks, block.Straight registers) {op : Operation}
    (hop : .operation op ∈ all blocks) :
  ∀ r ∈ op.registers, r < registers
  := by
  obtain ⟨block, hblock, hop⟩ := List.mem_flatMap.mp hop
  cases block with
  | note => simp [entries] at hop
  | call function =>
    obtain rfl : op = .call function := by simpa [entries] using hop
    simp [Operation.registers, Operation.dest?, Operation.reads]
  | code operations =>
    obtain ⟨slot, items, hstraight⟩ := h _ hblock
    apply hstraight.within op (by simpa [entries] using hop)

/-- In straight blocks, every register that is read was written before, in the same block. -/
theorem supplies_of_all_eq (h : ∀ block ∈ blocks, block.Straight registers)
    {before after : List Entry} {op : Operation}
    (heq : all blocks = before ++ .operation op :: after) :
  ∀ r ∈ op.reads, Supplies blocks before op r
  := by
  intro r hr
  obtain ⟨first, block, last, front, back, rfl, hentries, rfl⟩ := exists_eq_of_all_eq heq
  -- a call reads no register, so the operation stands in the own code of an expression
  cases block with
  | note =>
    obtain ⟨-, hnote⟩ := eq_of_singleton_eq hentries
    cases hnote
  | call =>
    obtain ⟨-, hcall⟩ := eq_of_singleton_eq hentries
    obtain rfl := Entry.operation.inj hcall
    simp [Operation.reads] at hr
  | code operations =>
    obtain ⟨slot, items, hstraight⟩ := h _ (List.mem_append_right first List.mem_cons_self)
    obtain ⟨own, tail, rfl, rfl, htail⟩ := List.map_eq_append_iff.mp hentries
    obtain ⟨op', rest, rfl, hop, -⟩ := List.map_eq_cons_iff.mp htail
    obtain rfl := Entry.operation.inj hop
    obtain ⟨w, hw, hdest⟩ := hstraight.order own op' rest rfl r hr
    obtain ⟨own, between, rfl⟩ := List.append_of_mem hw
    refine ⟨first, own, w, between, rest, last, ?_, rfl, hdest⟩
    rw [List.append_assoc, List.cons_append]

end Block

/-- In what is compiled, no register is beyond those of the machine, every register that is read is
written before in the own code of the same expression, which contains no call, and every note on
register zero follows right upon a write of it. -/
theorem register_discipline_of_compile {source : String} {registers : Nat} {listing : Listing}
    (h : compile source registers = .ok listing) :
  (∀ op, .operation op ∈ listing.toList → ∀ r ∈ op.registers, r < registers) ∧
    (∃ program : Program, program.SpelledBy source registers ∧
      listing.toList = Block.all program.blocks ∧
      (∀ code, .code code ∈ program.blocks → ∀ function, .call function ∉ code) ∧
      ∀ before op after, listing.toList = before ++ .operation op :: after →
        ∀ r ∈ op.reads, Block.Supplies program.blocks before op r) ∧
    ∀ before n after, listing.toList = before ++ .note n :: after → n.usesResult = true →
      ∃ front op, before = front ++ [.operation op] ∧ op.dest? = some 0
  := by
  obtain ⟨program, hprogram, hlisting⟩ := exists_spelledBy_of_compile h
  obtain ⟨T, hwritten⟩ := hprogram.written
  have hstraight : ∀ block ∈ program.blocks, block.Straight registers := hwritten.straight
  have hblocks : listing.toList = Block.all program.blocks := by
    rw [hlisting, Program.blocks, Section.all_flatMap_blocks]
  refine ⟨?_, ⟨program, hprogram, hblocks, ?_, ?_⟩, ?_⟩
  · intro op hop
    rw [hblocks] at hop
    apply Block.lt_of_mem_all hstraight hop
  · intro code hcode function hcall
    obtain ⟨slot, items, hcode⟩ := hstraight _ hcode
    obtain hdest | hpush | ⟨n, hpush⟩ := hcode.writes_or_pushes _ hcall
    · cases hdest
    · cases hpush
    · cases hpush
  · intro before op after hsplit
    rw [hblocks] at hsplit
    apply Block.supplies_of_all_eq hstraight hsplit
  · rw [hlisting]
    exact hwritten.followsWrites

/-- A sum needs two registers, and reads both after they are written. -/
theorem register_discipline_of_compile_sum :
  compile "int x = 1; int y = x + 2;" 2 =
    .ok ⟨#[.operation (.load 0 (.number (.int 1))),
      .note (.variableDeclared "x" (.scalar .int) 0 true), .operation (.load 0 (.variable "x")),
      .operation (.load 1 (.number (.int 2))), .operation (.binary 0 0 .add 1),
      .note (.variableDeclared "y" (.scalar .int) 0 true)]⟩ ∧
    ∃ program : Program, program.SpelledBy "int x = 1; int y = x + 2;" 2 ∧
      ∀ r ∈ [0, 1], Block.Supplies program.blocks
        [.operation (.load 0 (.number (.int 1))),
          .note (.variableDeclared "x" (.scalar .int) 0 true), .operation (.load 0 (.variable "x")),
          .operation (.load 1 (.number (.int 2)))] (.binary 0 0 .add 1) r
  := by
  apply (and_iff_left_of_imp _).mpr
  · decide +kernel
  · intro hcompile
    obtain ⟨-, ⟨program, hprogram, -, -, hsupplies⟩, -⟩ := register_discipline_of_compile hcompile
    refine ⟨program, hprogram, ?_⟩
    intro r hr
    apply hsupplies _ (.binary 0 0 .add 1) _ rfl r hr

end SilFront
