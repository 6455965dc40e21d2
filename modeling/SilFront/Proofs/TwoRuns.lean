import SilFront.Proofs.Correspondence
import SilFront.Proofs.Progress

/-!
# Two runs side by side

`Twins` says in what two passes may differ: in the locations of their tokens, in the rest of their
texts, in the number of registers. Everything else about their states is the same, and it stays the
same while both run an action: either both succeed, or both fail with corresponding reports and
leave the same names and the same listing behind. The first pass, which may have fewer registers,
can also fail by itself, for a reason that is pardoned.

This is a correspondence of actions. It holds between single steps, hence between whole passes
(`Twins.agrees_program`, `Twins.agrees_text`).
-/

namespace SilFront

/-- What two passes have in common. -/
structure Twins where
  /-- The locations that correspond. -/
  Places : Location → Location → Prop
  /-- The streams that correspond. -/
  Streams : TokenStream → TokenStream → Prop
  /-- The numbers of registers that correspond. -/
  Registers : Nat → Nat → Prop
  /-- The reports that correspond. -/
  Reports : Diagnostic → Diagnostic → Prop
  /-- The reasons for which the first pass may fail by itself. -/
  Pardons : SyntaxError → Prop
  reports_syntax : ∀ {e e' : Located SyntaxError}, e.Matches Places e' →
    Reports (.ofSyntax e) (.ofSyntax e')
  /-- Corresponding streams begin with the same token, or both with an error. -/
  streams_next : ∀ {stream stream' : TokenStream}, Streams stream stream' →
    match stream.next, stream'.next with
    | (.ok token, rest), (.ok token', rest') => token.Matches Places token' ∧ Streams rest rest'
    | (.error e, _), (.error e', _) => Reports (.ofLexical e) (.ofLexical e')
    | _, _ => False
  streams_ahead : ∀ {stream stream' : TokenStream}, Streams stream stream' →
    stream.ahead = stream'.ahead
  registers_le : ∀ {n m : Nat}, Registers n m → n ≤ m
  registers_pardon : ∀ {n m : Nat}, Registers n m → n = m ∨ Pardons (.tooManyValues n)

namespace Twins

open PassM

variable {W : Twins} {α : Type} {Q : α → α → Prop}

/-- States that correspond. -/
structure States (W : Twins) (s t : Pass) : Prop where
  lookahead : s.lookahead.Matches W.Places t.lookahead
  stream : W.Streams s.stream t.stream
  symbols : s.symbols = t.symbols
  listing : s.listing = t.listing
  registers : W.Registers s.registers t.registers

/-- Outcomes that correspond. -/
inductive Agrees (W : Twins) (Q : α → α → Prop) :
    Except Diagnostic α × Pass → Except Diagnostic α × Pass → Prop
  | ok {x y : α} {s t : Pass} (result : Q x y) (states : W.States s t) :
      Agrees W Q (.ok x, s) (.ok y, t)
  | failed {e e' : Diagnostic} {s t : Pass} (report : W.Reports e e')
      (symbols : s.symbols = t.symbols) (listing : s.listing = t.listing) :
      Agrees W Q (.error e, s) (.error e', t)
  | pardoned {e : Located SyntaxError} {s : Pass} {outcome : Except Diagnostic α × Pass}
      (pardon : W.Pardons e.value) : Agrees W Q (.error (.ofSyntax e), s) outcome

/-- Actions that lead from corresponding states to corresponding outcomes. -/
def Relates (W : Twins) (Q : α → α → Prop) (a b : PassM α) : Prop :=
  ∀ ⦃s t : Pass⦄, W.States s t → W.Agrees Q (s.run a) (t.run b)

/-! ### Reading -/

/-- Actions agree one after the other from corresponding states. -/
theorem Relates.bind {β : Type} {R : β → β → Prop} {a b : PassM α} {k l : α → PassM β}
    (h : W.Relates Q a b) (h' : ∀ x y, Q x y → W.Relates R (k x) (l y)) :
  W.Relates R (a >>= k) (b >>= l)
  := by
  intro s t hst
  have hfirst := h hst
  rw [Pass.run_bind, Pass.run_bind]
  generalize s.run a = outcome at hfirst ⊢
  generalize t.run b = outcome' at hfirst ⊢
  cases hfirst with
  | ok result states => apply h' _ _ result states
  | failed report symbols listing => apply Agrees.failed report symbols listing
  | pardoned pardon => apply Agrees.pardoned pardon

theorem relates_pure {x y : α} (h : Q x y) :
  W.Relates Q (pure x) (pure y)
  := by
  intro s t hst
  apply Agrees.ok h hst

/-- The next tokens correspond, or the same error is met at corresponding locations. -/
theorem relates_advance :
  W.Relates Eq advance advance
  := by
  intro s t hst
  have hnext := W.streams_next hst.stream
  rw [Pass.run_advance, Pass.run_advance]
  generalize s.stream.next = next at hnext ⊢
  generalize t.stream.next = next' at hnext ⊢
  obtain ⟨_ | token, rest⟩ := next <;> obtain ⟨_ | token', rest'⟩ := next'
  · exact .failed hnext hst.symbols hst.listing
  · apply hnext.elim
  · apply hnext.elim
  · apply Agrees.ok rfl
    exact { hst with lookahead := hnext.1, stream := hnext.2 }

/-- Refusals at corresponding locations agree. -/
theorem relates_refuseAt (cause : SyntaxError) {l l' : Location} (h : W.Places l l') :
  W.Relates Q (refuseAt cause l) (refuseAt cause l')
  := by
  intro s t hst
  apply Agrees.failed (W.reports_syntax ⟨h⟩) hst.symbols hst.listing

/-- Twins as a correspondence of actions. -/
def correspondence (W : Twins) : Correspondence where
  Places := W.Places
  Relates := W.Relates
  relates_pure := relates_pure
  relates_bind := Relates.bind
  relates_peek _ _ hst := .ok hst.lookahead hst
  relates_advance := relates_advance
  relates_refuseAt := relates_refuseAt
  relates_symbols _ _ hst := .ok hst.symbols hst
  relates_budget := by
    intro α Q a b h s t hst
    rw [Pass.run_get_bind, Pass.run_get_bind, Pass.budget, Pass.budget, W.streams_ahead hst.stream]
    apply h _ hst

/-! ### Writing -/

/-- A change of the listing that depends on nothing else. -/
theorem relates_modify_listing (change : Listing → Listing) :
  W.Relates Eq (modify fun s => { s with listing := change s.listing })
    (modify fun s => { s with listing := change s.listing })
  := by
  intro s t hst
  apply Agrees.ok rfl
  exact { hst with listing := congrArg change hst.listing }

/-- The table of names, which is the same in corresponding states, is changed alike. -/
theorem relates_modify_symbols (change : SymbolTable → SymbolTable) :
  W.Relates Eq (modify fun s => { s with symbols := change s.symbols })
    (modify fun s => { s with symbols := change s.symbols })
  := by
  intro s t hst
  apply Agrees.ok rfl
  exact { hst with symbols := congrArg change hst.symbols }

/-- Operations are added to both listings. -/
theorem relates_emit (code : List Operation) :
  W.Relates Eq (emit code) (emit code)
  := relates_modify_listing fun listing => listing.append (code.map .operation)

theorem relates_note (content : Note) :
  W.Relates Eq (note content) (note content)
  := relates_modify_listing fun listing => listing.push (.note content)

/-! ### Expressions -/

/-- The code of counterparts is the same, unless the first pass has too few registers. -/
theorem relates_compile {items items' : List Item} {l l' : Location} (slot : Slot)
    (hitems : List.Forall₂ (Item.Matches W.Places) items items') (hplace : W.Places l l') :
  W.Relates Eq (do emit (← check (Expression.compile items slot (← get).registers l)))
    (do emit (← check (Expression.compile items' slot (← get).registers l')))
  := by
  intro s t hst
  have hcompile := Expression.agree_compile (W.registers_le hst.registers)
    (W.registers_pardon hst.registers) slot hitems hplace
  rw [Pass.run_get_bind, Pass.run_get_bind, Pass.run_bind, Pass.run_bind]
  generalize Expression.compile items slot s.registers l = code at hcompile ⊢
  generalize Expression.compile items' slot t.registers l' = code' at hcompile ⊢
  cases hcompile with
  | @ok code _ h =>
    cases h
    apply relates_emit code hst
  | refused h => apply Agrees.failed (W.reports_syntax h) hst.symbols hst.listing
  | pardoned h => apply Agrees.pardoned h

/-- What is taken back after a failure is taken back from both listings. -/
theorem relates_transaction {a b : PassM α} (h : W.Relates Q a b) :
  W.Relates Q (transaction a) (transaction b)
  := by
  intro s t hst
  have haction := h hst
  rw [Pass.run_transaction, Pass.run_transaction, hst.listing]
  generalize s.run a = outcome at haction ⊢
  generalize t.run b = outcome' at haction ⊢
  cases haction with
  | ok result states => apply Agrees.ok result states
  | failed report symbols listing =>
    exact .failed report symbols (congrArg (Listing.take · t.listing.length) listing)
  | pardoned pardon => apply Agrees.pardoned pardon

/-- Twins do the same in all steps. -/
theorem onSteps (W : Twins) :
  W.correspondence.OnSteps
  where
  relates_emit := relates_emit
  relates_note := relates_note
  relates_modify_symbols := relates_modify_symbols
  relates_compile := relates_compile
  relates_transaction := relates_transaction

/-! ### Programs -/

/-- A program does the same in corresponding states. -/
theorem agrees_program {s t : Pass} (h : W.States s t) :
  W.Agrees Eq (s.run program) (t.run program)
  := W.onSteps.onPrograms.relates_program h

/-- If the tokens of two texts correspond, then both passes fail to start, or both come to
corresponding ends. -/
theorem agrees_text {text text' : String} (htext : W.Streams (.ofText text) (.ofText text'))
    {n m : Nat} (hregisters : W.Registers n m) :
  (∃ e e', Pass.start text n = .error e ∧ Pass.start text' m = .error e' ∧ W.Reports e e') ∨
    ∃ s t, Pass.start text n = .ok s ∧ Pass.start text' m = .ok t ∧
      W.Agrees Eq (s.run program) (t.run program)
  := by
  have hnext := W.streams_next htext
  unfold Pass.start
  generalize (TokenStream.ofText text).next = next at hnext ⊢
  generalize (TokenStream.ofText text').next = next' at hnext ⊢
  obtain ⟨_ | token, rest⟩ := next <;> obtain ⟨_ | token', rest'⟩ := next'
  · exact .inl ⟨_, _, rfl, rfl, hnext⟩
  · apply hnext.elim
  · apply hnext.elim
  · exact .inr ⟨_, _, rfl, rfl, agrees_program ⟨hnext.1, hnext.2, rfl, rfl, hregisters⟩⟩

end Twins

end SilFront
