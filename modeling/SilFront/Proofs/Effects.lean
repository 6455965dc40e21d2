import SilFront.Proofs.Correspondence
import SilFront.Proofs.Progress

/-!
# What actions do to the state of a pass

An `Effect` says what may become of the table of names and of the listing while an action runs,
separately for actions that succeed and for actions that fail. It is a correspondence of an action
with itself, so it holds of all expressions, or of all programs, as soon as it holds of their steps.

The first effect is that of expressions: nothing but operations is written. An expression that fails
takes them back, and so leaves no mark (`Pass.run_expression_leaves_no_mark`).
-/

namespace SilFront

namespace Pass

/-- One action after another fails exactly if the first fails, or the second does after it. -/
theorem run_bind_eq_error_iff {α β : Type} {s t : Pass} {first : PassM α} {second : α → PassM β}
    {e : Diagnostic} :
  s.run (first >>= second) = (.error e, t) ↔
    s.run first = (.error e, t) ∨
      ∃ a u, s.run first = (.ok a, u) ∧ u.run (second a) = (.error e, t)
  := by
  rw [run_bind]
  rcases s.run first with ⟨_ | a, u⟩
  · simp
  · constructor
    · intro h
      exact .inr ⟨a, u, rfl, h⟩
    · rintro (h | ⟨a', u', h, h'⟩)
      · cases h
      · cases h
        exact h'

/-- A transaction that fails takes back what was written since it began, and nothing else. -/
theorem run_transaction_eq_error_iff {α : Type} {s t : Pass} {action : PassM α} {e : Diagnostic} :
  s.run (PassM.transaction action) = (.error e, t) ↔
    ∃ u, s.run action = (.error e, u) ∧
      t = { u with listing := u.listing.take s.listing.length }
  := by
  rw [run_transaction]
  rcases s.run action with ⟨_ | _, u⟩ <;> simp [eq_comm]

/-- A declaration that fails changes nothing. -/
theorem eq_of_run_declare_eq_error {s t : Pass} {l : Location}
    {change : SymbolTable → Except SymbolError SymbolTable} {e : Diagnostic}
    (h : s.run (PassM.declare l change) = (.error e, t)) :
  t = s
  := by
  rw [run_declare] at h
  split at h <;> cases h
  rfl

end Pass

/-- What may become of the state of a pass while actions run. -/
structure Effect where
  /-- The states before and after actions that succeed. -/
  Done : Pass → Pass → Prop
  /-- The states before and after actions that fail. -/
  Stopped : Pass → Pass → Prop
  of_eq : ∀ {s t : Pass}, t.symbols = s.symbols → t.listing = s.listing →
    t.registers = s.registers → Done s t ∧ Stopped s t
  done_trans : ∀ {s t u : Pass}, Done s t → Done t u → Done s u
  stopped_trans : ∀ {s t u : Pass}, Done s t → Stopped t u → Stopped s u

namespace Effect

open PassM

variable {E : Effect} {α : Type}

/-- An action has an effect from every state. -/
structure Of (E : Effect) (a : PassM α) : Prop where
  done : ∀ ⦃s t : Pass⦄ ⦃x : α⦄, s.run a = (.ok x, t) → E.Done s t
  stopped : ∀ ⦃s t : Pass⦄ ⦃e : Diagnostic⦄, s.run a = (.error e, t) → E.Stopped s t

/-- Effects of actions in turn are effects, where the second may rely on what the first results
in. -/
theorem Of.bind {β : Type} {Q : α → Prop} {a : PassM α} {k : α → PassM β} (h : E.Of a)
    (hQ : ∀ ⦃s t : Pass⦄ ⦃x : α⦄, s.run a = (.ok x, t) → Q x) (h' : ∀ x, Q x → E.Of (k x)) :
  E.Of (a >>= k)
  := by
  constructor
  · intro s t y hrun
    obtain ⟨x, u, hfirst, hsecond⟩ := Pass.run_bind_eq_ok_iff.mp hrun
    apply E.done_trans (h.done hfirst) ((h' x (hQ hfirst)).done hsecond)
  · intro s t e hrun
    obtain hfirst | ⟨x, u, hfirst, hsecond⟩ := Pass.run_bind_eq_error_iff.mp hrun
    · apply h.stopped hfirst
    · apply E.stopped_trans (h.done hfirst) ((h' x (hQ hfirst)).stopped hsecond)

theorem Of.andThen {β : Type} {a : PassM α} {k : α → PassM β} (h : E.Of a)
    (h' : ∀ x, E.Of (k x)) :
  E.Of (a >>= k)
  := by
  apply h.bind (Q := fun _ => True)
  · intros
    trivial
  · intro x _
    apply h'

/-- An action that only looks at the state has every effect. -/
theorem of_run_eq {a : PassM α} (h : ∀ s : Pass, (s.run a).2 = s) :
  E.Of a
  := by
  constructor
  · intro s t x hrun
    obtain rfl : t = s := by rw [← h s, hrun]
    apply (E.of_eq rfl rfl rfl).1
  · intro s t e hrun
    obtain rfl : t = s := by rw [← h s, hrun]
    apply (E.of_eq rfl rfl rfl).2

theorem of_advance :
  E.Of advance
  := by
  constructor
  · intro s t x hrun
    obtain ⟨p, -, rfl⟩ := Pass.run_advance_eq_ok_iff.mp hrun
    rw [Pass.goto_nil]
    refine (E.of_eq ?_ ?_ ?_).1 <;> rfl
  · intro s t e hrun
    rw [Pass.run_advance] at hrun
    split at hrun <;> cases hrun
    refine (E.of_eq ?_ ?_ ?_).2 <;> rfl

/-- An effect as a correspondence, of which one side only is looked at. -/
def correspondence (E : Effect) : Correspondence where
  Places _ _ := True
  Relates Q a _ := E.Of a ∧ ∀ ⦃s t : Pass⦄ ⦃x⦄, s.run a = (.ok x, t) → ∃ y, Q x y
  relates_pure := by
    intro α Q x y hQ
    refine ⟨of_run_eq fun s => rfl, ?_⟩
    rintro s t _ ⟨⟩
    exact ⟨y, hQ⟩
  relates_bind := by
    intro α β Q R a b k l h h'
    constructor
    · apply h.1.bind h.2
      rintro x ⟨y, hxy⟩
      apply (h' x y hxy).1
    · intro s t z hrun
      obtain ⟨x, u, hfirst, hsecond⟩ := Pass.run_bind_eq_ok_iff.mp hrun
      obtain ⟨y, hxy⟩ := h.2 hfirst
      apply (h' x y hxy).2 hsecond
  relates_peek := ⟨of_run_eq fun s => rfl, fun _ _ next _ => ⟨next, ⟨trivial⟩⟩⟩
  relates_advance := ⟨of_advance, fun _ _ _ _ => ⟨(), rfl⟩⟩
  relates_refuseAt := by
    intro α Q cause l l' _
    refine ⟨of_run_eq fun s => rfl, ?_⟩
    rintro s t x ⟨⟩
  relates_symbols := ⟨of_run_eq fun s => rfl, fun _ _ T _ => ⟨T, rfl⟩⟩
  relates_budget := by
    intro α Q a b h
    refine ⟨⟨?_, ?_⟩, ?_⟩
    · intro s t x hrun
      rw [Pass.run_get_bind] at hrun
      apply (h _).1.done hrun
    · intro s t e hrun
      rw [Pass.run_get_bind] at hrun
      apply (h _).1.stopped hrun
    · intro s t x hrun
      rw [Pass.run_get_bind] at hrun
      apply (h _).2 hrun

/-- Actions with an effect correspond. -/
theorem Of.relates {a b : PassM α} (h : E.Of a) :
  E.correspondence.Relates Eq a b
  := ⟨h, fun _ _ x _ => ⟨x, rfl⟩⟩

end Effect

/-! ### Expressions -/

/-- Nothing but operations is written between two states. -/
structure Pass.Emits (s t : Pass) : Prop where
  symbols : t.symbols = s.symbols
  registers : t.registers = s.registers
  listing : ∃ code : List Operation, t.listing.toList = s.listing.toList ++ code.map .operation

namespace Pass.Emits

variable {s t u : Pass}

/-- Operations that are written in turn are written as a whole. -/
theorem trans (h : s.Emits t) (h' : t.Emits u) :
  s.Emits u
  := by
  obtain ⟨code, hcode⟩ := h.listing
  obtain ⟨code', hcode'⟩ := h'.listing
  use h'.symbols.trans h.symbols, h'.registers.trans h.registers, code ++ code'
  rw [hcode', hcode, List.map_append, List.append_assoc]

/-- What was written since a state can be taken back. -/
theorem listing_take (h : s.Emits t) :
  t.listing.take s.listing.length = s.listing
  := by
  obtain ⟨code, hcode⟩ := h.listing
  apply Listing.ext_toList
  rw [Listing.toList_take, hcode, ← Listing.length_toList]
  apply List.take_left

end Pass.Emits

namespace Effect

open PassM

/-- The effect of expressions and calls. -/
def emission : Effect where
  Done := Pass.Emits
  Stopped := Pass.Emits
  of_eq := by
    intro s t hsymbols hlisting hregisters
    have h : s.Emits t := ⟨hsymbols, hregisters, [], by simp [hlisting]⟩
    exact ⟨h, h⟩
  done_trans := Pass.Emits.trans
  stopped_trans := Pass.Emits.trans

theorem emission_emit (code : List Operation) :
  emission.Of (emit code)
  := by
  constructor
  · rintro s _ _ ⟨⟩
    exact ⟨rfl, rfl, code, by simp⟩
  · rintro s t e ⟨⟩

/-- Compiling a queue writes nothing but operations. -/
theorem emission_compile (items : List Item) (slot : Slot) (location : Location) :
  emission.Of (do emit (← check (Expression.compile items slot (← get).registers location)))
  := by
  have hcheck : ∀ registers,
      emission.Of (check (Expression.compile items slot registers location)) := by
    intro registers
    apply of_run_eq
    intro s
    cases Expression.compile items slot registers location <;> rfl
  apply Of.andThen (of_run_eq fun s => rfl)
  intro s
  apply Of.andThen (hcheck s.registers)
  apply emission_emit

/-- Taking back what was written leaves less than that. -/
theorem emission_transaction {α : Type} {a : PassM α} (h : emission.Of a) :
  emission.Of (transaction a)
  := by
  constructor
  · intro s t x hrun
    apply h.done (Pass.run_transaction_eq_ok_iff.mp hrun)
  · intro s t e hrun
    obtain ⟨u, hfail, rfl⟩ := Pass.run_transaction_eq_error_iff.mp hrun
    have hu := h.stopped hfail
    exact ⟨hu.symbols, hu.registers, [], by simp [hu.listing_take]⟩

theorem emission_onExpressions :
  emission.correspondence.OnExpressions
  where
  relates_emit_call name := (emission_emit [.call name]).relates
  relates_compile slot _ _ := (emission_compile _ slot _).relates
  relates_transaction h := (emission_transaction h.1).relates

end Effect

namespace Pass

open PassM

/-- Whatever becomes of an expression, nothing but operations is written. -/
theorem emits_expression (slot : Slot) :
  Effect.emission.Of (expression slot)
  := (Effect.emission_onExpressions.relates_expression slot).1

theorem emits_call (name : String) (location : Location) :
  Effect.emission.Of (call name location)
  := by
  have h : Effect.emission.correspondence.Relates Eq (call name location) (call name location) :=
    Effect.emission_onExpressions.relates_call name trivial
  apply h.1

/-- An expression changes neither the table of names nor the number of registers. If it fails, the
listing is what it was before, and otherwise operations have come to its end. -/
theorem run_expression_leaves_no_mark (s : Pass) (slot : Slot) :
  (s.run (expression slot)).2.symbols = s.symbols ∧
    (s.run (expression slot)).2.registers = s.registers ∧
    match s.run (expression slot) with
    | (.error _, t) => t.listing = s.listing
    | (.ok _, t) =>
      ∃ code : List Operation, t.listing.toList = s.listing.toList ++ code.map .operation
  := by
  rcases hrun : s.run (expression slot) with ⟨e | u, t⟩
  · have ht := (emits_expression slot).stopped hrun
    use ht.symbols, ht.registers
    -- the listing is as long as before, and it begins with what was there before
    obtain ⟨u, -, rfl⟩ := run_transaction_eq_error_iff.mp hrun
    apply Eq.trans _ ht.listing_take
    apply Listing.ext_toList
    simp [List.take_take]
  · have ht := (emits_expression slot).done hrun
    use ht.symbols, ht.registers, ht.listing.choose
    apply ht.listing.choose_spec

end Pass

end SilFront
