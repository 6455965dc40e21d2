import SilFront.Proofs.OwnCode
import SilFront.Proofs.Written

/-!
# Pushes and calls

Calls nest in the arguments of calls, and a call consumes what was pushed last. A `Tally` follows
this through a listing: it counts the pushes, takes off what every call consumes, and keeps the
positions of both. In what is compiled the count is never below zero and is zero at every note, and
every call consumes what its own arguments have pushed, in their order.

The code of an argument has the net effect of one push, whatever calls it contains
(`Outline.Compiles.leads`), so that a call finds above the older pushes just those of its arguments
(`Tally.leads_call`).
-/

namespace SilFront

/-- A call in a listing: its position, and the positions at which the values were pushed that it
consumes. -/
structure CallSite where
  position : Nat
  function : String
  pushes : List Nat
deriving DecidableEq

/-! ### The calls of a program -/

namespace Outline

/-- The positions at which the values of arguments are pushed: the last operation of each, if they
are written from a position on. -/
def pushes (start : Nat) : List Outline → List Nat
  | [] => []
  | e :: rest =>
    (start + e.operations.length - 1) :: pushes (start + e.operations.length) rest

/-- A call on arguments that are written from a position on. -/
def site (start : Nat) (function : String) (arguments : List Outline) : CallSite :=
  ⟨start + (operationsOf arguments).length, function, pushes start arguments⟩

theorem length_pushes (start : Nat) (arguments : List Outline) :
  (pushes start arguments).length = arguments.length
  := by
  induction arguments generalizing start with
  | nil => rfl
  | cons e rest ih => rw [pushes, List.length_cons, ih, List.length_cons]

mutual

/-- The calls of an expression that is written from a position on. -/
def sites (start : Nat) : Outline → List CallSite
  | .done _ => []
  | .token _ rest => rest.sites start
  | .call function arguments rest =>
    sitesOf start arguments ++ site start function arguments ::
      rest.sites (start + (operationsOf arguments).length + 1)

/-- The calls of expressions that are written in turn from a position on. -/
def sitesOf (start : Nat) : List Outline → List CallSite
  | [] => []
  | e :: rest => e.sites start ++ sitesOf (start + e.operations.length) rest

end

end Outline

namespace Section

/-- The calls of a section that is written from a position on. -/
def sites (start : Nat) : Section → List CallSite
  | .note _ => []
  | .expression e => e.sites start
  | .call function arguments =>
    Outline.sitesOf start arguments ++ [Outline.site start function arguments]

/-- The calls of sections that are written in turn from a position on. -/
def allSites (start : Nat) : List Section → List CallSite
  | [] => []
  | first :: rest => first.sites start ++ allSites (start + first.entries.length) rest

end Section

/-! ### The calls of a listing -/

/-- What is pushed and consumed at a point of a listing. -/
@[ext]
structure Tally where
  /-- The number of entries so far. -/
  position : Nat
  /-- The functions so far, with the numbers of their arguments. -/
  arities : List (String × Nat)
  /-- The number of pushes less the numbers of arguments of the calls. -/
  counter : Int
  /-- The positions of the pushes that no call has consumed, the latest first. -/
  pending : List Nat
  /-- The calls so far. -/
  sites : List CallSite
deriving DecidableEq

namespace Tally

/-- The number of arguments that is recorded for a function. -/
def arity (s : Tally) (function : String) : Nat :=
  (s.arities.lookup function).getD 0

/-- One more entry, at which nothing is pushed or consumed. -/
def next (s : Tally) : Tally :=
  { s with position := s.position + 1 }

/-- The tally after a push. -/
def push (s : Tally) : Tally :=
  { s.next with counter := s.counter + 1, pending := s.position :: s.pending }

/-- The tally after a call of a function. -/
def call (s : Tally) (function : String) : Tally :=
  { s.next with
    counter := s.counter - s.arity function
    pending := s.pending.drop (s.arity function)
    sites := s.sites ++
      [⟨s.position, function, (s.pending.take (s.arity function)).reverse⟩] }

/-- The tally after an entry. -/
def after (s : Tally) : Entry → Tally
  | .operation (.push _) => s.push
  | .operation (.call function) => s.call function
  | .note (.functionCreated name _ arity) =>
    { s.next with arities := s.arities ++ [(name, arity)] }
  | _ => s.next

/-- The tally before a listing. -/
def start : Tally :=
  ⟨0, [], 0, [], []⟩

/-- The tally after the first entries of a listing. -/
def of (entries : List Entry) : Tally :=
  entries.foldl after start

/-- A call needs a function whose number of arguments is recorded and as many pushes, and nothing
may be pending at a note. -/
def Allows (s : Tally) : Entry → Prop
  | .operation (.call function) =>
    ∃ arity, s.arities.lookup function = some arity ∧ arity ≤ s.pending.length
  | .note _ => s.pending = []
  | _ => True

/-- The replay of a listing that follows its pushes and calls. -/
def replay : Replay Tally where
  after := after
  Allows := Allows

/-- The counter is the number of pushes that are pending. -/
def Counts (s : Tally) : Prop :=
  s.counter = s.pending.length

theorem arity_eq {s : Tally} {function : String} {arity : Nat}
    (h : s.arities.lookup function = some arity) :
  s.arity function = arity
  := by
  rw [Tally.arity, h, Option.getD_some]

/-- Every entry that is allowed keeps the count. -/
theorem Counts.after {s : Tally} {entry : Entry} (hallowed : s.Allows entry) (h : s.Counts) :
  (s.after entry).Counts
  := by
  unfold Counts at h ⊢
  unfold Tally.after
  split
  · simp [push, next, h]
  · obtain ⟨arity, hlookup, hle⟩ := hallowed
    simp only [call, next, arity_eq hlookup, List.length_drop, h]
    omega
  · exact h
  · exact h

/-- The tally after entries that leave the pushes as they are, with the calls among them. -/
def skip (s : Tally) (n : Nat) (sites : List CallSite) : Tally :=
  { s with position := s.position + n, sites := s.sites ++ sites }

/-- The tally after the operation that delivers a value. -/
def deliver (s : Tally) : Slot → Tally
  | .register => s.next
  | .stack => s.push

/-- The tally after the code of an expression. -/
def evaluate (s : Tally) (slot : Slot) (e : Outline) : Tally :=
  (s.skip (e.operations.length - 1) (e.sites s.position)).deliver slot

/-- The tally after the code of arguments. -/
def argue (s : Tally) (arguments : List Outline) : Tally :=
  { s with
    position := s.position + (Outline.operationsOf arguments).length
    counter := s.counter + arguments.length
    pending := (Outline.pushes s.position arguments).reverse ++ s.pending
    sites := s.sites ++ Outline.sitesOf s.position arguments }

/-- The tally after a call with the code of its arguments. -/
def invoke (s : Tally) (function : String) (arguments : List Outline) : Tally :=
  s.skip ((Outline.operationsOf arguments).length + 1)
    (Outline.sitesOf s.position arguments ++ [Outline.site s.position function arguments])

/-! ### Single operations -/

variable {s : Tally}

@[simp]
theorem skip_zero (s : Tally) :
  s.skip 0 [] = s
  := by
  simp [skip]

@[simp]
theorem skip_skip (s : Tally) (m n : Nat) (first second : List CallSite) :
  (s.skip m first).skip n second = s.skip (m + n) (first ++ second)
  := by
  simp [skip, Nat.add_assoc]

/-- Nothing is pushed or consumed where a register is written. -/
theorem allows_and_after_of_dest? {op : Operation} (h : op.dest?.isSome) :
  s.Allows (.operation op) ∧ s.after (.operation op) = s.next
  := by
  cases op with
  | load => exact ⟨trivial, rfl⟩
  | binary => exact ⟨trivial, rfl⟩
  | call => cases h
  | push => cases h

theorem leads_writes {code : List Operation} (h : ∀ op ∈ code, op.dest?.isSome) :
  replay.Leads s (code.map .operation) (s.skip code.length [])
  := by
  induction code generalizing s with
  | nil =>
    rw [List.length_nil, skip_zero]
    apply Replay.Leads.nil
  | cons op code ih =>
    obtain ⟨hop, hcode⟩ := List.forall_mem_cons.mp h
    obtain ⟨hallowed, hafter⟩ := allows_and_after_of_dest? (s := s) hop
    have hskip : s.skip (op :: code).length [] = (s.after (.operation op)).skip code.length [] := by
      simp [hafter, skip, next, Nat.add_assoc, Nat.add_comm 1]
    rw [hskip]
    apply Replay.Leads.cons hallowed (ih hcode)

/-- The operation that delivers a value. -/
theorem leads_delivers {slot : Slot} {op : Operation} (h : op.Delivers slot) :
  replay.Leads s [.operation op] (s.deliver slot)
  := by
  cases slot with
  | register =>
    obtain ⟨hallowed, hafter⟩ :=
      allows_and_after_of_dest? (s := s) (Option.isSome_of_eq_some h)
    apply Replay.Leads.cons hallowed
    rw [deliver, ← hafter]
    apply Replay.Leads.nil
  | stack =>
    obtain rfl | ⟨n, rfl⟩ := h
    · apply Replay.Leads.cons trivial .nil
    · apply Replay.Leads.cons trivial .nil

/-- The code of a queue delivers one value. -/
theorem leads_straight {registers : Nat} {slot : Slot} {items : List Item} {code : List Operation}
    (h : Expression.Straight registers slot items code) :
  replay.Leads s (code.map .operation) ((s.skip (code.length - 1) []).deliver slot)
  := by
  obtain ⟨body, last, rfl, hbody, hlast⟩ := h.delivers
  rw [List.map_append, List.length_append, List.length_singleton, Nat.add_sub_cancel]
  apply (leads_writes hbody).append (leads_delivers hlast)

/-! ### Calls -/

/-- A call consumes what its arguments have pushed. -/
theorem leads_call {function : String} {arguments : List Outline}
    (hlookup : s.arities.lookup function = some arguments.length) :
  replay.Leads (s.argue arguments) [.operation (.call function)] (s.invoke function arguments)
  := by
  have hlength : (Outline.pushes s.position arguments).reverse.length = arguments.length := by
    rw [List.length_reverse, Outline.length_pushes]
  have harity : (s.argue arguments).arity function = arguments.length := arity_eq hlookup
  have hallowed : (s.argue arguments).Allows (.operation (.call function)) := by
    refine ⟨arguments.length, hlookup, ?_⟩
    simp [argue, Outline.length_pushes]
  -- the pushes of the arguments lie on top, and what was pending before stays
  have hafter : (s.argue arguments).after (.operation (.call function)) =
      s.invoke function arguments := by
    simp only [after, call, harity]
    simp only [argue, invoke, next, skip, Outline.site, List.take_left' hlength,
      List.drop_left' hlength, List.reverse_reverse, List.append_assoc, Nat.add_assoc,
      Int.add_sub_cancel]
  apply Replay.Leads.cons hallowed
  rw [← hafter]
  apply Replay.Leads.nil

/-- Arguments are pushed one after the other. -/
theorem argue_cons {e : Outline} {rest : List Outline} (h : e.operations ≠ []) :
  s.argue (e :: rest) = (s.evaluate .stack e).argue rest
  := by
  obtain ⟨n, hn⟩ := Nat.exists_eq_add_one.mpr (List.length_pos_iff.mpr h)
  have hcounter : s.counter + ((rest.length : Int) + 1) = s.counter + 1 + rest.length := by omega
  simp [argue, evaluate, deliver, push, next, skip, Outline.operationsOf, Outline.pushes,
    Outline.sitesOf, hn, Nat.add_assoc, hcounter]

/-- Arguments whose code delivers one value each are pushed in their order. -/
theorem leads_arguments {arguments : List Outline}
    (h : ∀ e ∈ arguments, e.operations ≠ [] ∧ ∀ t : Tally, t.arities = s.arities →
      replay.Leads t (e.operations.map .operation) (t.evaluate .stack e)) :
  replay.Leads s ((Outline.operationsOf arguments).map .operation) (s.argue arguments)
  := by
  induction arguments generalizing s with
  | nil =>
    have hargue : s.argue [] = s := by
      simp [argue, Outline.operationsOf, Outline.pushes, Outline.sitesOf]
    rw [hargue]
    apply Replay.Leads.nil
  | cons e rest ih =>
    obtain ⟨⟨hne, he⟩, hrest⟩ := List.forall_mem_cons.mp h
    rw [Outline.operationsOf, List.map_append, argue_cons hne]
    apply (he s rfl).append (ih hrest)

/-- A call with the code of its arguments leaves the pushes as they were. -/
theorem leads_invoke {function : String} {arguments : List Outline}
    (hlookup : s.arities.lookup function = some arguments.length)
    (h : ∀ e ∈ arguments, e.operations ≠ [] ∧ ∀ t : Tally, t.arities = s.arities →
      replay.Leads t (e.operations.map .operation) (t.evaluate .stack e)) :
  replay.Leads s ((Outline.operationsOf arguments ++ [Operation.call function]).map .operation)
    (s.invoke function arguments)
  := by
  rw [List.map_append]
  apply (leads_arguments h).append (leads_call hlookup)

/-- An expression goes on after a call as if it began there. -/
theorem evaluate_call {slot : Slot} {function : String} {arguments : List Outline} {rest : Outline}
    (h : rest.operations ≠ []) :
  s.evaluate slot (.call function arguments rest) =
    (s.invoke function arguments).evaluate slot rest
  := by
  obtain ⟨n, hn⟩ := Nat.exists_eq_add_one.mpr (List.length_pos_iff.mpr h)
  have hlength : (Outline.operationsOf arguments).length + (n + 1 + 1) - 1 =
      (Outline.operationsOf arguments).length + 1 + n := by omega
  simp only [evaluate, invoke, skip_skip, Outline.operations, Outline.sites, List.length_append,
    List.length_cons, hn, hlength, List.append_assoc, List.singleton_append]
  rfl

end Tally

/-! ### Expressions -/

/-- The functions of a table with the numbers of their arguments. -/
def SymbolTable.arities (T : SymbolTable) : List (String × Nat) :=
  T.functions.map fun g => (g.name, g.arity)

theorem SymbolTable.lookup_arities {T : SymbolTable} {name : String} {g : Function}
    (h : T.functionNamed? name = some g) :
  T.arities.lookup name = some g.arity
  := by
  obtain ⟨globals, blocks, functions, packages⟩ := T
  replace h : functions.find? (fun f => f.name = name) = some g := h
  suffices (functions.map fun g => (g.name, g.arity)).lookup name = some g.arity from this
  induction functions with
  | nil => cases h
  | cons f functions ih =>
    rw [List.map_cons, List.lookup_cons]
    by_cases hname : f.name = name
    · rw [List.find?_cons_of_pos (by simpa using hname)] at h
      obtain rfl := Option.some.inj h
      simp [hname]
    · rw [List.find?_cons_of_neg (by simpa using hname)] at h
      rw [beq_eq_false_iff_ne.mpr (Ne.symm hname)]
      apply ih h

namespace Outline

variable {T : SymbolTable} {registers : Nat}

/-- The code of an expression delivers one value, and its calls consume what their own arguments
have pushed. -/
theorem Compiles.leads {slot : Slot} {y : Yard} {e : Outline}
    (h : e.Compiles T registers slot y) :
  ∀ s : Tally, s.arities = T.arities →
    Tally.replay.Leads s (e.operations.map .operation) (s.evaluate slot e)
  := by
  induction h with
  | done _ compiles =>
    intro s _
    apply Tally.leads_straight (Expression.straight_of_compile compiles)
  | token _ _ ih =>
    intro s hs
    apply ih s hs
  | @call slot y name f arguments rest _ function compiles arity _ more ihArgs ih =>
    intro s hs
    have hlookup : s.arities.lookup name = some arguments.length := by
      rw [hs, arity]
      apply SymbolTable.lookup_arities function
    have hcall : Tally.replay.Leads s
        ((operationsOf arguments ++ [Operation.call name]).map .operation)
        (s.invoke name arguments) := by
      apply Tally.leads_invoke hlookup
      intro a ha
      refine ⟨(compiles a ha).operations_ne_nil, ?_⟩
      intro t ht
      apply ihArgs a ha t (ht.trans hs)
    have hrest := ih (s.invoke name arguments) hs
    rw [Tally.evaluate_call more.operations_ne_nil, operations, List.append_cons, List.map_append]
    apply hcall.append hrest

end Outline

/-! ### Sections -/

/-- The tally after sections: nothing is pending, but functions may be new. -/
def Tally.advance (s : Tally) (n : Nat) (sites : List CallSite) (T : SymbolTable) : Tally :=
  { s.skip n sites with arities := T.arities }

theorem Tally.advance_advance (s : Tally) (m n : Nat) (first second : List CallSite)
    (T T' : SymbolTable) :
  (s.advance m first T).advance n second T' = s.advance (m + n) (first ++ second) T'
  := by
  simp [advance, skip, Nat.add_assoc]

namespace Section

variable {registers : Nat} {T T' T'' : SymbolTable}

/-- A section that leaves nothing pending and whose calls are those of the listing, with the table
before and after it. -/
def Balanced (T : SymbolTable) (first : Section) (T' : SymbolTable) : Prop :=
  ∀ s : Tally, s.arities = T.arities → s.pending = [] →
    Tally.replay.Leads s first.entries
      (s.advance first.entries.length (first.sites s.position) T')

/-- The same of sections in turn. -/
def AllBalanced (T : SymbolTable) (sections : List Section) (T' : SymbolTable) : Prop :=
  ∀ s : Tally, s.arities = T.arities → s.pending = [] →
    Tally.replay.Leads s (all sections)
      (s.advance (all sections).length (allSites s.position sections) T')

/-- A note changes nothing but the recorded numbers of arguments. -/
theorem balanced_note {n : Note} (h : n.Acts T T') :
  Balanced T (.note n) T'
  := by
  intro s hs hpending
  have hafter : s.after (.note n) = s.advance 1 [] T' := by
    have hkeep : T'.arities = T.arities → s.next = s.advance 1 [] T' := by
      intro hT'
      simp [Tally.advance, Tally.skip, Tally.next, hT', ← hs]
    induction h with
    | function =>
      simp [Tally.after, Tally.advance, Tally.skip, Tally.next, hs, SymbolTable.arities,
        SymbolTable.addFunction]
    | argument => apply hkeep (by simp [SymbolTable.arities])
    | scalar => apply hkeep (by simp [SymbolTable.arities])
    | record => apply hkeep (by simp [SymbolTable.arities])
    | _ => apply hkeep rfl
  rw [entries, List.length_singleton, sites, ← hafter]
  apply Replay.Leads.cons hpending .nil

/-- An expression whose value is wanted in a register leaves nothing pending. -/
theorem balanced_expression {e : Outline} {follower : Token}
    (h : e.Compiled registers T .register follower) :
  Balanced T (.expression e) T
  := by
  intro s hs _
  obtain ⟨n, hn⟩ := Nat.exists_eq_add_one.mpr (List.length_pos_iff.mpr h.1.operations_ne_nil)
  have hevaluate : s.evaluate .register e =
      s.advance (entries (.expression e)).length (sites s.position (.expression e)) T := by
    simp [Tally.evaluate, Tally.deliver, Tally.advance, Tally.skip, Tally.next, entries, sites, hn,
      ← hs, Nat.add_assoc]
  rw [← hevaluate]
  apply h.1.leads s hs

/-- A call that is a statement of its own consumes what its arguments push. -/
theorem balanced_call {function : String} {g : Function} {arguments : List Outline}
    (hdeclared : T.functionNamed? function = some g) (harity : arguments.length = g.arity)
    (haccepted : Outline.Arguments (Outline.Compiled registers) T arguments) :
  Balanced T (.call function arguments) T
  := by
  intro s hs _
  have hlookup : s.arities.lookup function = some arguments.length := by
    rw [hs, harity]
    apply SymbolTable.lookup_arities hdeclared
  have hadvance : s.advance (entries (.call function arguments)).length
      (sites s.position (.call function arguments)) T = s.invoke function arguments := by
    simp [Tally.advance, Tally.invoke, Tally.skip, entries, sites, ← hs]
  rw [hadvance, entries]
  apply Tally.leads_invoke hlookup
  intro e he
  have hcompiles := haccepted.compiles e he
  refine ⟨hcompiles.operations_ne_nil, ?_⟩
  intro t ht
  apply hcompiles.leads t (ht.trans hs)

theorem allBalanced_nil :
  AllBalanced T [] T
  := by
  intro s hs _
  have hadvance : s.advance 0 [] T = s := by
    simp [Tally.advance, ← hs]
  rw [all_nil, List.length_nil, allSites, hadvance]
  apply Replay.Leads.nil

theorem Balanced.cons {first : Section} {rest : List Section} (h : Balanced T first T')
    (hrest : AllBalanced T' rest T'') :
  AllBalanced T (first :: rest) T''
  := by
  intro s hs hpending
  have hmore := hrest (s.advance first.entries.length (first.sites s.position) T') rfl hpending
  rw [Tally.advance_advance] at hmore
  rw [all_cons, List.length_append, allSites]
  apply (h s hs hpending).append hmore

/-- Every run is balanced. -/
theorem Written.allBalanced {sections : List Section}
    (h : Written (Outline.Compiled registers) T sections T') :
  AllBalanced T sections T'
  := by
  induction h with
  | nil => apply allBalanced_nil
  | expression accepted _ ih => apply (balanced_expression accepted).cons ih
  | result accepted _ acts _ ih =>
    apply (balanced_expression accepted).cons
    apply (balanced_note acts).cons ih
  | note _ acts _ ih => apply (balanced_note acts).cons ih
  | call declared arity accepted _ ih => apply (balanced_call declared arity accepted).cons ih

end Section

/-! ### Listings -/

/-- In what is compiled, the count of pushes less the arguments of calls is never below zero, and is
zero at every note and at the end. Every call is one of a function whose number of arguments is
recorded before, and consumes what its own arguments push, in their order. -/
theorem pushes_balance_of_compile {source : String} {registers : Nat} {listing : Listing}
    (h : compile source registers = .ok listing) :
  (∀ before after, listing.toList = before ++ after →
    0 ≤ (Tally.of before).counter ∧
      (after = [] → (Tally.of before).counter = 0) ∧
      (∀ n rest, after = .note n :: rest → (Tally.of before).counter = 0) ∧
      ∀ function rest, after = .operation (.call function) :: rest →
        ∃ arity, (Tally.of before).arities.lookup function = some arity ∧
          arity ≤ (Tally.of before).counter) ∧
    ∃ program : Program, program.SpelledBy source registers ∧
      listing.toList = Section.all (program.sections 0) ∧
      (Tally.of listing.toList).sites = Section.allSites 0 (program.sections 0)
  := by
  obtain ⟨program, hprogram, hlisting⟩ := exists_spelledBy_of_compile h
  obtain ⟨T, hwritten⟩ := hprogram.written
  have hleads := hwritten.allBalanced .start rfl rfl
  rw [← hlisting] at hleads
  have hfinal : Tally.of listing.toList = Tally.start.advance listing.toList.length
    (Section.allSites 0 (program.sections 0)) T := hleads.state_eq
  refine ⟨?_, program, hprogram, hlisting, by rw [hfinal]; rfl⟩
  intro before after hsplit
  rw [hsplit] at hleads
  have hcounts : (Tally.of before).Counts := hleads.keeps Tally.Counts.after rfl
  unfold Tally.Counts at hcounts
  refine ⟨by omega, ?_, ?_, ?_⟩
  · rintro rfl
    rw [List.append_nil] at hsplit
    rw [← hsplit, hfinal]
    rfl
  · rintro n rest rfl
    have hpending : (Tally.of before).pending = [] := hleads.allows
    rw [hcounts, hpending]
    rfl
  · rintro function rest rfl
    obtain ⟨arity, hlookup, hle⟩ : (Tally.of before).Allows (.operation (.call function)) :=
      hleads.allows
    exact ⟨arity, hlookup, by omega⟩

/-- Calls in the first argument of a call: the inner call consumes the first two pushes, and the
outer one the value of the inner one and its own second argument. -/
theorem pushes_balance_of_compile_nested :
  compile "func g(int a, int b): int \x7b g(g(1, a), b); \x7d" 4 =
    .ok ⟨#[.note (.scopeChanged 1), .note (.argumentDeclared "a" (.scalar .int) 1),
      .note (.argumentDeclared "b" (.scalar .int) 1), .note (.functionCreated "g" (.scalar .int) 2),
      .operation (.push (.number (.int 1))), .operation (.load 0 (.variable "a")),
      .operation (.push (.register 0)), .operation (.call "g"), .operation (.load 0 .returned),
      .operation (.push (.register 0)), .operation (.load 0 (.variable "b")),
      .operation (.push (.register 0)), .operation (.call "g"), .note (.scopeChanged 0)]⟩ ∧
    ∃ program : Program,
      program.SpelledBy "func g(int a, int b): int \x7b g(g(1, a), b); \x7d" 4 ∧
      Section.allSites 0 (program.sections 0) = [⟨7, "g", [4, 6]⟩, ⟨12, "g", [9, 11]⟩]
  := by
  apply (and_iff_left_of_imp _).mpr
  · decide +kernel
  · intro hcompile
    obtain ⟨-, program, hprogram, -, hsites⟩ := pushes_balance_of_compile hcompile
    exact ⟨program, hprogram, hsites.symm.trans rfl⟩

end SilFront
