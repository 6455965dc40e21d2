import SilFront.Proofs.Execution
import SilFront.Proofs.Grammar
import SilFront.Proofs.Reading

/-!
# Trees in a yard

`Yard.after` is what a tree leaves in a yard. If the tree is grouped, then the operators that it
leaves to wait are those on its right edge, and letting them go completes its postorder:
`after_eq_of_grouped`.

`Tree.Emits` says which operations the calls in a tree write while it is read. Where they can be
written, a grouped tree is read from its first token to the one after its last, `reading_of_emits`.
It follows that the queue of an expression is the postorder of its grouped tree.
-/

namespace SilFront

namespace Yard

/-! ### Open parentheses -/

@[simp]
theorem unclosed_operand (y : Yard) (token : Located Token) :
  (y.operand token).unclosed = y.unclosed
  := rfl

@[simp]
theorem unclosed_openParenthesis (y : Yard) :
  y.openParenthesis.unclosed = y.unclosed + 1
  := rfl

theorem unclosed_release (p : BinaryOp → Bool) (unclosed : Nat) (output : List Item)
    (waiting : List Waiting) :
  (release p unclosed output waiting).unclosed = unclosed
  := by
  fun_induction release p unclosed output waiting with
  | case1 output op rest _ ih => exact ih
  | case2 => rfl
  | case3 => rfl

@[simp]
theorem unclosed_operator (y : Yard) (op : Located BinaryOp) :
  (y.operator op).unclosed = y.unclosed
  := unclosed_release ..

/-- A closing parenthesis closes one of those that are open. -/
theorem unclosed_closeParenthesis (y : Yard) :
  y.closeParenthesis.unclosed = y.unclosed - 1
  := by
  have h := unclosed_release (fun _ => true) y.unclosed y.output y.waiting
  rw [closeParenthesis, drain, h]

/-! ### Operators that wait -/

/-- Operators that may go do so, the latest first. -/
theorem release_map_append {p : BinaryOp → Bool} {ops : List (Located BinaryOp)}
    (h : ∀ op ∈ ops, p op.value = true) (unclosed : Nat) (output : List Item)
    (waiting : List Waiting) :
  release p unclosed output (ops.map .operator ++ waiting) =
    release p unclosed ((ops.map .operator).reverse ++ output) waiting
  := by
  induction ops generalizing output with
  | nil => rfl
  | cons op ops ih =>
    obtain ⟨hop, hops⟩ := List.forall_mem_cons.mp h
    rw [List.map_cons, List.cons_append, release, if_pos hop, ih hops]
    simp

/-- If an operator is on top, then it binds less tightly than given. -/
def TopBelow (tightness : Nat) (waiting : List Waiting) : Prop :=
  ∀ op rest, waiting = .operator op :: rest → op.value.tightness < tightness

theorem TopBelow.mono {tightness tightness' : Nat} {waiting : List Waiting}
    (h : TopBelow tightness waiting) (hle : tightness ≤ tightness') :
  TopBelow tightness' waiting
  := by
  intro op rest hop
  apply Nat.lt_of_lt_of_le (h op rest hop) hle

/-- No operator goes if the one on top must stay. -/
theorem release_of_topBelow {op : BinaryOp} {waiting : List Waiting}
    (h : TopBelow op.tightness waiting) (unclosed : Nat) (output : List Item) :
  release (fun waiting => waiting.drainsBefore op) unclosed output waiting =
    ⟨output, waiting, unclosed⟩
  := by
  cases waiting with
  | nil => rfl
  | cons w waiting =>
    cases w with
    | parenthesis => rfl
    | operator top =>
      have hlt := h top waiting rfl
      rw [release, if_neg]
      rw [BinaryOp.drainsBefore_iff]
      exact Nat.not_le_of_lt hlt

/-! ### Trees -/

/-- What a tree leaves in a yard. -/
def after (y : Yard) : Tree → Yard
  | .leaf operand => y.operand (operand.map Leaf.token)
  | .call name _ => y.operand ⟨.returnValue, name.location⟩
  | .parenthesis inner => (y.openParenthesis.after inner).closeParenthesis
  | .binary lhs op rhs => ((y.after lhs).operator op).after rhs

@[simp]
theorem unclosed_after (y : Yard) (tree : Tree) :
  (y.after tree).unclosed = y.unclosed
  := by
  fun_induction after y tree with
  | case1 y operand => rfl
  | case2 y name _ => rfl
  | case3 y inner ih => rw [unclosed_closeParenthesis, ih, unclosed_openParenthesis,
      Nat.add_sub_cancel]
  | case4 y lhs op rhs ihLeft ihRight => rw [ihRight, unclosed_operator, ihLeft]

/-- After a grouped tree, some of its operators wait on top of those that waited before. All of
them bind at least as tightly as the operator on top of the tree, and letting them go completes the
postorder of the tree. -/
theorem after_eq_of_grouped {tree : Tree} (h : tree.Grouped) :
  ∀ {tightness : Nat} {y : Yard}, tree.Above tightness → TopBelow tightness y.waiting →
    ∃ (output : List Item) (ops : List (Located BinaryOp)),
      y.after tree = ⟨output, ops.map .operator ++ y.waiting, y.unclosed⟩ ∧
      (ops.map .operator).reverse ++ output = tree.postorder.reverse ++ y.output ∧
      ∀ op ∈ ops, tightness ≤ op.value.tightness
  := by
  induction h with
  | leaf operand =>
    intro tightness y _ _
    exact ⟨_, [], rfl, rfl, by simp⟩
  | call grouped =>
    intro tightness y _ _
    exact ⟨_, [], rfl, rfl, by simp⟩
  | @parenthesis inner grouped ih =>
    intro tightness y _ _
    have htop : TopBelow 0 y.openParenthesis.waiting := by
      intro op rest hop
      cases hop
    obtain ⟨output, ops, hafter, houtput, -⟩ := ih inner.above_zero htop
    use inner.postorder.reverse ++ y.output, []
    constructor
    · rw [after, hafter, closeParenthesis, drain, release_map_append (by simp), houtput]
      rfl
    · exact ⟨rfl, by simp⟩
  | @binary lhs rhs op left right aboveLeft aboveRight ihLeft ihRight =>
    intro tightness y habove hy
    have hle : tightness ≤ op.value.tightness := habove
    obtain ⟨leftOutput, leftOps, hleft, hleftOutput, hleftOps⟩ := ihLeft aboveLeft (hy.mono hle)
    -- the operators that wait for the left operand go, and those below them stay
    have hoperator : (y.after lhs).operator op =
        ⟨lhs.postorder.reverse ++ y.output, .operator op :: y.waiting, y.unclosed⟩ := by
      rw [hleft, operator, release_map_append, hleftOutput, release_of_topBelow (hy.mono hle)]
      intro waiting hwaiting
      exact BinaryOp.drainsBefore_iff.mpr (hleftOps waiting hwaiting)
    have htop : TopBelow (op.value.tightness + 1) ((y.after lhs).operator op).waiting := by
      rw [hoperator]
      intro top rest hop
      cases hop
      apply Nat.lt_succ_self
    obtain ⟨output, ops, hright, houtput, hops⟩ := ihRight aboveRight htop
    rw [hoperator] at hright houtput
    use output, ops ++ [op]
    constructor
    · rw [after, hoperator, hright]
      simp
    · constructor
      · calc ((ops ++ [op]).map .operator).reverse ++ output
          _ = .operator op :: ((ops.map .operator).reverse ++ output) := by simp
          _ = .operator op :: (rhs.postorder.reverse ++ (lhs.postorder.reverse ++ y.output)) := by
            rw [houtput]
          _ = (Tree.binary lhs op rhs).postorder.reverse ++ y.output := by simp [Tree.postorder]
      · intro waiting hwaiting
        obtain hmem | hmem := List.mem_append.mp hwaiting
        · apply Nat.le_trans hle (Nat.le_of_succ_le (hops waiting hmem))
        · rw [List.mem_singleton.mp hmem]
          apply hle

/-- The queue of a grouped tree is its postorder. -/
theorem queue_after_of_grouped {tree : Tree} (h : tree.Grouped) :
  (empty.after tree).queue = tree.postorder
  := by
  have htop : TopBelow 0 empty.waiting := by
    intro op rest hop
    cases hop
  obtain ⟨output, ops, hafter, houtput, -⟩ := after_eq_of_grouped h tree.above_zero htop
  rw [queue, hafter, drain, release_map_append (by simp), houtput]
  simp [release, empty]

/-- Whether reading stops depends on the number of open parentheses only. -/
theorem Stops.of_unclosed_eq {y y' : Yard} {token : Token} (h : y.Stops token)
    (heq : y'.unclosed = y.unclosed) :
  y'.Stops token
  := by
  unfold Stops at h ⊢
  rw [heq]
  exact h

/-- Reading stops at the end of an argument if all parentheses are closed. -/
theorem stops_of_unclosed_eq_zero {y : Yard} {token : Token} (h : y.unclosed = 0)
    (hend : token = .mark .comma ∨ token = .mark .rparen) :
  y.Stops token
  := by
  obtain rfl | rfl := hend
  · rfl
  · exact h

end Yard

namespace Expression

/-- Where an expression begins shows in its errors only. -/
theorem compile_of_compile {items : List Item} {slot : Slot} {registers : Nat}
    {location : Location} {code : List Operation}
    (h : compile items slot registers location = .ok code) (location' : Location) :
  compile items slot registers location' = .ok code
  := by
  apply compile_eq_ok_iff.mpr (compile_eq_ok_iff.mp h)

theorem ne_nil_of_compile {items : List Item} {slot : Slot} {registers : Nat}
    {location : Location} {code : List Operation}
    (h : compile items slot registers location = .ok code) :
  items ≠ []
  := by
  rintro rfl
  cases h

end Expression

namespace Tree

/-! ### What the calls in a tree write -/

/-- An argument of a call: its tree, the operations of the calls inside it, and its own. -/
structure Pushed where
  tree : Tree
  calls : List Operation
  code : List Operation

/-- All operations of an argument. -/
def Pushed.operations (a : Pushed) : List Operation :=
  a.calls ++ a.code

/-- The operations that push an argument are those of its postorder. -/
def Pushed.Compiles (registers : Nat) (a : Pushed) : Prop :=
  ∃ location, Expression.compile a.tree.postorder .stack registers location = .ok a.code

/-- The operations that the calls in a tree write while it is read. Names must be visible variables,
and a call must be one of a function that returns a value, with as many arguments as it takes, all
of which compile. -/
inductive Emits (T : SymbolTable) (registers : Nat) : Tree → List Operation → Prop
  | leaf {leaf : Located Leaf} (operand : leaf.value.token.IsOperand T) : Emits T registers (.leaf leaf) []
  | call {name : Located String} {f : Function} {arguments : List Tree} {pushed : List Pushed}
      (kind : T.kind? name.value = some .function)
      (function : T.functionNamed? name.value = some f)
      (trees : pushed.map Pushed.tree = arguments)
      (emits : ∀ a ∈ pushed, Emits T registers a.tree a.calls)
      (compiles : ∀ a ∈ pushed, a.Compiles registers)
      (arity : arguments.length = f.arity) (returns : f.returns ≠ .void) :
      Emits T registers (.call name arguments)
        (pushed.flatMap Pushed.operations ++ [.call name.value])
  | parenthesis {inner : Tree} {code : List Operation} (emits : Emits T registers inner code) :
      Emits T registers (.parenthesis inner) code
  | binary {lhs rhs : Tree} {op : Located BinaryOp} {left right : List Operation}
      (emitsLeft : Emits T registers lhs left) (emitsRight : Emits T registers rhs right) :
      Emits T registers (.binary lhs op rhs) (left ++ right)

/-! ### Reading what is emitted -/

/-- An argument of a call that is read between two positions. -/
def Pushed.argument (a : Pushed) (start stop : Position) : Argument :=
  ⟨start, stop, a.calls, Yard.empty.after a.tree, a.code⟩

theorem Pushed.Compiles.argument {registers : Nat} {a : Pushed} (h : a.Compiles registers)
    (hgrouped : a.tree.Grouped) (start stop : Position) :
  (a.argument start stop).Compiles registers
  := by
  obtain ⟨location, hcode⟩ := h
  have hqueue := Yard.queue_after_of_grouped hgrouped
  use Yard.unclosed_after _ _
  rw [show (a.argument start stop).yard = Yard.empty.after a.tree from rfl, hqueue]
  constructor
  · apply Expression.ne_nil_of_compile hcode
  · apply Expression.compile_of_compile hcode

section

variable {T : SymbolTable} {registers : Nat}

/-- Arguments that are written after each other are read after each other. -/
theorem exists_arguments {q : Position} (hq : q.lookahead.value = .mark .rparen) :
  ∀ {written : List (Tree × List (Located Token))} {pushed : List Pushed}
    {inner : List (Located Token)} {p : Position},
    pushed.map Pushed.tree = written.map Prod.fst →
    (∀ a ∈ written, ∀ {calls p q}, a.1.Emits T registers calls → p.Passes a.2 q →
      Yard.empty.Stops q.lookahead.value →
      Reading T registers .empty p calls (Yard.empty.after a.1) q) →
    (∀ a ∈ pushed, a.tree.Grouped ∧ a.tree.Emits T registers a.calls ∧ a.Compiles registers) →
    Joined (written.map Prod.snd) inner → p.Passes inner q →
    ∃ arguments, Argument.Chain p arguments q ∧ arguments.length = pushed.length ∧
      (∀ a ∈ arguments, Reading T registers .empty a.start a.calls a.yard a.stop) ∧
      (∀ a ∈ arguments, a.Compiles registers) ∧
      arguments.flatMap Argument.operations = pushed.flatMap Pushed.operations
  | [], [], _, p, _, _, _, rfl, hpasses => by
      obtain rfl : p = q := Position.passes_nil_iff.mp hpasses
      exact ⟨[], rfl, rfl, by simp, by simp, rfl⟩
  | [(_, ts)], [a], _, p, htrees, hread, hpushed, rfl, hpasses => by
      obtain rfl := List.head_eq_of_cons_eq htrees
      obtain ⟨hgrouped, hemits, hcompiles⟩ := hpushed a List.mem_cons_self
      have hstops := Yard.stops_of_unclosed_eq_zero (y := .empty) rfl (.inr hq)
      use [a.argument p q], ⟨rfl, rfl⟩, rfl
      constructor
      · rw [List.forall_mem_singleton]
        apply hread _ List.mem_cons_self hemits hpasses hstops
      · constructor
        · rw [List.forall_mem_singleton]
          apply hcompiles.argument hgrouped
        · rfl
  | (_, ts) :: w :: written, a :: b :: pushed, _, p, htrees, hread, hpushed,
      ⟨comma, us, hcomma, rfl, hjoined⟩, hpasses => by
      obtain rfl := List.head_eq_of_cons_eq htrees
      obtain ⟨hgrouped, hemits, hcompiles⟩ := hpushed a List.mem_cons_self
      obtain ⟨stop, hfirst, hrest⟩ := Position.passes_append_iff.mp hpasses
      obtain ⟨rfl, -, start, hnext, hmore⟩ := Position.passes_cons_iff.mp hrest
      have hstops := Yard.stops_of_unclosed_eq_zero (y := .empty) rfl (.inl hcomma)
      obtain ⟨_ | ⟨second, arguments⟩, hchain, hlength, hreads, hall, hcode⟩ := exists_arguments hq
        (List.tail_eq_of_cons_eq htrees) (fun a ha => hread a (List.mem_cons_of_mem _ ha))
        (fun a ha => hpushed a (List.mem_cons_of_mem _ ha)) hjoined hmore
      · cases hlength
      · use a.argument p stop :: second :: arguments, ⟨rfl, hcomma, start, hnext, hchain⟩
        constructor
        · simpa using hlength
        · constructor
          · rw [List.forall_mem_cons]
            exact ⟨hread _ List.mem_cons_self hemits hfirst hstops, hreads⟩
          · constructor
            · rw [List.forall_mem_cons]
              exact ⟨hcompiles.argument hgrouped p stop, hall⟩
            · rw [List.flatMap_cons, hcode, List.flatMap_cons]
              rfl

/-- A grouped tree is read if its calls write operations, and reading goes on after it. -/
theorem reading_of_emits {tree : Tree} {ts : List (Located Token)} (h : tree.Spells ts) :
  ∀ {y y' : Yard} {p q r : Position} {calls code : List Operation}, tree.Grouped →
    tree.Emits T registers calls → p.Passes ts q →
    Reading T registers (y.after tree) q code y' r → Reading T registers y p (calls ++ code) y' r
  := by
  induction h with
  | leaf leaf =>
    intro y y' p q r calls code _ hemits hpasses hread
    obtain ⟨hleaf, -, hnext⟩ := Position.passes_singleton_iff.mp hpasses
    cases hemits with
    | leaf operand =>
      have hvalue : p.lookahead.value = leaf.value.token := by rw [← hleaf]; rfl
      apply Reading.operand
      · rw [hvalue]
        exact operand
      · exact hnext
      · rw [← hleaf]
        exact hread
  | @call name opening closing arguments written inner opens trees spells joined closes ih =>
    intro y y' p q r calls code hgrouped hemits hpasses hread
    obtain ⟨hname, -, p₁, hp₁, hrest⟩ := Position.passes_cons_iff.mp hpasses
    obtain ⟨p₂, p₃, rfl, hp₂, hinner, rfl, hq⟩ := hrest.enclosed
    cases hgrouped with
    | call grouped =>
      cases hemits with
      | @call _ f _ pushed kind function trees' emits compiles arity returns =>
        have hpushed : ∀ a ∈ pushed,
            a.tree.Grouped ∧ a.tree.Emits T registers a.calls ∧ a.Compiles registers := by
          intro a ha
          refine ⟨grouped a.tree ?_, emits a ha, compiles a ha⟩
          rw [← trees']
          apply List.mem_map_of_mem ha
        have hwritten : ∀ a ∈ written, ∀ {calls p q}, a.1.Emits T registers calls →
            p.Passes a.2 q → Yard.empty.Stops q.lookahead.value →
            Reading T registers .empty p calls (Yard.empty.after a.1) q := by
          intro a ha calls p q hemits hpasses hstops
          have hgrouped : a.1.Grouped := by
            apply grouped
            rw [← trees]
            apply List.mem_map_of_mem ha
          have hstop : Reading T registers (Yard.empty.after a.1) q [] (Yard.empty.after a.1) q :=
            .stop (hstops.of_unclosed_eq (Yard.unclosed_after .empty a.1))
          have hread := ih a ha hgrouped hemits hpasses hstop
          rwa [List.append_nil] at hread
        obtain ⟨args, hchain, hlength, hreads, hall, hcode⟩ :=
          exists_arguments closes (trees'.trans trees.symm) hwritten hpushed joined hinner
        rw [List.append_assoc, List.singleton_append, ← hcode]
        have hlength' : args.length = f.arity := by
          rw [hlength, ← arity, ← trees', List.length_map]
        have hident : p.lookahead.value = .ident name.value := by rw [← hname]; rfl
        have hlocation : p.lookahead.location = name.location := by rw [← hname]; rfl
        apply Reading.call hident kind function hp₁ opens hp₂ hchain hreads hall closes hq hlength'
          returns
        rw [hlocation]
        exact hread
  | parenthesis opens spells closes ih =>
    intro y y' p q r calls code hgrouped hemits hpasses hread
    obtain ⟨p₁, p₂, rfl, hp₁, hinner, rfl, hq⟩ := hpasses.enclosed
    cases hgrouped with
    | parenthesis grouped =>
      cases hemits with
      | parenthesis emits =>
        apply Reading.opening opens hp₁
        apply ih grouped emits hinner
        apply Reading.closing closes _ hq hread
        simp
  | @binary lhs rhs t op ts us left operator right ihLeft ihRight =>
    intro y y' p q r calls code hgrouped hemits hpasses hread
    obtain ⟨p₁, hleft, hpasses⟩ := Position.passes_append_iff.mp hpasses
    obtain ⟨rfl, -, p₂, hp₂, hright⟩ := Position.passes_cons_iff.mp hpasses
    cases hgrouped with
    | binary groupedLeft groupedRight =>
      cases hemits with
      | binary emitsLeft emitsRight =>
        rw [List.append_assoc]
        apply ihLeft groupedLeft emitsLeft hleft
        apply Reading.operator (Token.operator?_eq_some_iff.mpr operator) hp₂
        apply ihRight groupedRight emitsRight hright hread

/-- A grouped tree is read on its own before a token at which reading stops. -/
theorem reading_of_emits_of_stops {tree : Tree} {ts : List (Located Token)} {p q : Position}
    {calls : List Operation} (hspells : tree.Spells ts) (hgrouped : tree.Grouped)
    (hemits : tree.Emits T registers calls) (hpasses : p.Passes ts q)
    (hstops : Yard.empty.Stops q.lookahead.value) :
  Reading T registers .empty p calls (Yard.empty.after tree) q
  := by
  have hstop : Reading T registers (Yard.empty.after tree) q [] (Yard.empty.after tree) q :=
    .stop (hstops.of_unclosed_eq (Yard.unclosed_after .empty tree))
  have hread := reading_of_emits hspells hgrouped hemits hpasses hstop
  rwa [List.append_nil] at hread

end

end Tree

namespace Pass

/-- Every expression has a grouped tree. If the names in it are visible and the calls in it can be
made, then its queue is read up to the token that follows it, and is the postorder of that tree. -/
theorem run_queue_of_derives {s : Pass} {q : Position} {ts : List (Located Token)}
    (h : Derives .expression ts) (hpasses : s.position.Passes ts q)
    (hfollows : Yard.empty.Stops q.lookahead.value) :
  (∃ tree : Tree, tree.Spells ts ∧ tree.Grouped) ∧
    ∀ (tree : Tree) (calls : List Operation), tree.Spells ts → tree.Grouped →
      tree.Emits s.symbols s.registers calls →
      s.run PassM.queue = (.ok tree.postorder, s.goto q calls)
  := by
  constructor
  · obtain ⟨tree, hspells, hgrouped, -⟩ := Tree.exists_grouped_of_derives h
    use tree, hspells, hgrouped
  · intro tree calls hspells hgrouped hemits
    have hread := Tree.reading_of_emits_of_stops hspells hgrouped hemits hpasses hfollows
    apply run_queue_eq_ok_iff.mpr
    use calls, Yard.empty.after tree, q, hread, Yard.unclosed_after .empty tree
    exact ⟨(Yard.queue_after_of_grouped hgrouped).symm, rfl⟩

/-- The queue of `x + 2 * f(1) < 3 == 4 - 5` before a semicolon: the operators up to the equation bind
more and more tightly, and all of them go before the difference. -/
theorem run_queue_of_derives_call :
  let int : DataType := .scalar .int
  let symbols : SymbolTable := ⟨[⟨"x", int, 0⟩], [], [⟨"f", [int], .scalar .int⟩], []⟩
  let here (token : Token) : Located Token := ⟨token, .start⟩
  let number (n : Int64) : Located Token := here (.number (.int n))
  let ts := [here (.ident "x"), here (.mark .plus), number 2, here (.mark .star), here (.ident "f"),
    here (.mark .lparen), number 1, here (.mark .rparen), here (.mark .lt), number 3,
    here (.mark .eqEq), number 4, here (.mark .minus), number 5]
  let q := Position.ofTokens [here (.mark .semicolon)] .start
  let p := Position.ofTokens (ts ++ [here (.mark .semicolon)]) .start
  let s : Pass := ⟨p.lookahead, p.stream, symbols, .empty, 3⟩
  Derives .expression ts ∧ s.position.Passes ts q ∧ Yard.empty.Stops q.lookahead.value ∧
    s.run PassM.queue =
      (.ok [.operand (here (.ident "x")), .operand (number 2), .operand (here .returnValue),
        .operand (number 3), .operand (number 4), .operator ⟨.eq, .start⟩, .operator ⟨.lt, .start⟩,
        .operator ⟨.mul, .start⟩, .operator ⟨.add, .start⟩, .operand (number 5),
        .operator ⟨.sub, .start⟩],
      s.goto q [.push (.number (.int 1)), .call "f"])
  := by
  intro int symbols here number ts q p s
  let callTokens : List (Located Token) :=
    here (.ident "f") :: here (.mark .lparen) :: ([number 1] ++ [here (.mark .rparen)])
  have hx : Derives .operand [here (.ident "x")] :=
    .leaf (show Token.ident "x" = (Leaf.name "x").token from rfl)
  have hnumber : ∀ n, Derives .operand [number n] := fun n =>
    .leaf (show Token.number (.int n) = (Leaf.number (.int n)).token from rfl)
  have hcall : Derives .operand callTokens :=
    .call rfl rfl (List.forall_mem_singleton.mpr (.single (hnumber 1))) rfl rfl
  have hoperator : ∀ op : BinaryOp, (here (.mark op.mark)).value = .mark op.mark := fun _ => rfl
  have hderives : Derives .expression ts :=
    .more (.more (.more (.more (.more (.single hx) (hoperator .add) (hnumber 2))
      (hoperator .mul) hcall) (hoperator .lt) (hnumber 3)) (hoperator .eq) (hnumber 4))
      (hoperator .sub) (hnumber 5)
  have hmore : ∀ t ∈ ts, t.value ≠ .eof := by decide
  have hpasses : s.position.Passes ts q := Position.passes_ofTokens hmore _ _
  let leaf (n : Int64) : Tree := .leaf ⟨.number (.int n), .start⟩
  let call : Tree := .call ⟨"f", .start⟩ [leaf 1]
  let equation : Tree := .binary (leaf 3) ⟨.eq, .start⟩ (leaf 4)
  let comparison : Tree := .binary call ⟨.lt, .start⟩ equation
  let product : Tree := .binary (leaf 2) ⟨.mul, .start⟩ comparison
  let sum : Tree := .binary (.leaf ⟨.name "x", .start⟩) ⟨.add, .start⟩ product
  let difference : Tree := .binary sum ⟨.sub, .start⟩ (leaf 5)
  have hleaf : ∀ n, (leaf n).Spells [number n] := fun n => .leaf ⟨.number (.int n), .start⟩
  have hcallSpells : call.Spells callTokens :=
    .call rfl (show [(leaf 1, [number 1])].map Prod.fst = [leaf 1] from rfl)
      (List.forall_mem_singleton.mpr (hleaf 1)) rfl rfl
  have hequation : equation.Spells ([number 3] ++ here (.mark .eqEq) :: [number 4]) :=
    .binary (hleaf 3) (hoperator .eq) (hleaf 4)
  have hproduct : product.Spells ([number 2] ++ here (.mark .star) :: (callTokens ++
      here (.mark .lt) :: ([number 3] ++ here (.mark .eqEq) :: [number 4]))) :=
    .binary (hleaf 2) (hoperator .mul) (.binary hcallSpells (hoperator .lt) hequation)
  have hspells : difference.Spells ts :=
    .binary (.binary (.leaf ⟨.name "x", .start⟩) (hoperator .add) hproduct) (hoperator .sub)
      (hleaf 5)
  have hgrouped : difference.Grouped := by
    have hcomparison : comparison.Grouped :=
      .binary (.call (List.forall_mem_singleton.mpr (.leaf _)))
        (.binary (.leaf _) (.leaf _) trivial trivial) trivial (show 3 ≤ 3 by decide)
    have hsum : sum.Grouped :=
      .binary (.leaf _) (.binary (.leaf _) hcomparison trivial (show 2 ≤ 2 by decide)) trivial
        (show 1 ≤ 1 by decide)
    exact .binary hsum (.leaf _) (show 0 ≤ 0 by decide) trivial
  have hemits : difference.Emits symbols 3 [.push (.number (.int 1)), .call "f"] := by
    have hcallEmits : call.Emits symbols 3 [.push (.number (.int 1)), .call "f"] :=
      .call rfl rfl (show [Tree.Pushed.mk (leaf 1) [] [.push (.number (.int 1))]].map
        Tree.Pushed.tree = [leaf 1] from rfl) (List.forall_mem_singleton.mpr (.leaf trivial))
        (List.forall_mem_singleton.mpr ⟨.start, rfl⟩) rfl (by decide)
    have hvisible : (Leaf.name "x").token.IsOperand symbols := rfl
    have hliteral : ∀ n, (leaf n).Emits symbols 3 [] := fun n => .leaf trivial
    exact .binary (.binary (.leaf hvisible) (.binary (hliteral 2)
      (.binary hcallEmits (.binary (hliteral 3) (hliteral 4))))) (hliteral 5)
  exact ⟨hderives, hpasses, rfl,
    (run_queue_of_derives hderives hpasses rfl).2 _ _ hspells hgrouped hemits⟩

end Pass

end SilFront
