import SilFront.Proofs.TwoRuns

/-!
# The number of registers

The number of registers decides one thing only: whether an expression is too complex. A program that
is not refused for that reason comes to the same end with more registers, be it a listing or another
error (`compile_eq_of_registers_le`).
-/

namespace SilFront

/-- The category of the syntax error for which a program is refused, if there is one. -/
def errorKind? (source : String) (registers : Nat) : Option ErrorKind :=
  match compile source registers with
  | .ok _ => none
  | .error e => e.value.kind?

/-- Passes over the same tokens of which the second one has more registers, or as many. -/
def Twins.moreRegisters : Twins where
  Places := Eq
  Streams := Eq
  Registers n m := n ≤ m
  Reports := Eq
  Pardons cause := cause.kind = .tooComplex
  reports_syntax := by
    rintro _ _ ⟨rfl⟩
    rfl
  streams_next := by
    rintro stream _ rfl
    rcases stream.next with ⟨_ | token, rest⟩
    · rfl
    · exact ⟨⟨rfl⟩, rfl⟩
  streams_ahead := by
    rintro stream _ rfl
    rfl
  registers_le h := h
  registers_pardon _ := .inr rfl

variable {source : String} {N M : Nat}

/-- More registers change nothing, unless there were too few of them. -/
theorem compile_eq_or_tooComplex (source : String) (h : N ≤ M) :
  compile source M = compile source N ∨ errorKind? source N = some .tooComplex
  := by
  unfold errorKind? compile
  obtain ⟨e, e', hstart, hstart', hreport⟩ | ⟨s, t, hstart, hstart', hrun⟩ :=
    Twins.agrees_text (W := .moreRegisters) (rfl : TokenStream.ofText source = _) h
  · cases hreport
    rw [hstart, hstart']
    exact .inl rfl
  rw [hstart, hstart']
  simp only [bind, Except.bind]
  generalize s.run PassM.program = outcome at hrun ⊢
  generalize t.run PassM.program = outcome' at hrun ⊢
  cases hrun with
  | ok _ states =>
    left
    simp only [states.listing]
  | failed report =>
    cases report
    exact .inl rfl
  | pardoned pardon =>
    right
    apply congrArg some pardon

theorem compile_eq_ok_of_le {listing : Listing} (hle : N ≤ M)
    (h : compile source N = .ok listing) :
  compile source M = .ok listing
  := by
  obtain heq | hkind := compile_eq_or_tooComplex source hle
  · rw [heq, h]
  · simp [errorKind?, h] at hkind

/-- If a program is not too complex for a number of registers, then it comes to the same end with
more of them. So what compiles goes on to compile, and the listing does not depend on the number of
registers. -/
theorem compile_eq_of_registers_le (source : String) :
  (∀ N M, N ≤ M → errorKind? source N ≠ some .tooComplex →
      compile source M = compile source N) ∧
    (∀ N M listing, N ≤ M → compile source N = .ok listing → compile source M = .ok listing) ∧
    ∀ N M listing listing', compile source N = .ok listing → compile source M = .ok listing' →
      listing = listing'
  := by
  refine ⟨?_, ?_, ?_⟩
  · intro N M hle hkind
    apply (compile_eq_or_tooComplex source hle).resolve_right hkind
  · intro N M listing hle h
    apply compile_eq_ok_of_le hle h
  · intro N M listing listing' h h'
    -- both listings are what is written with the greater number of registers
    have hmax := compile_eq_ok_of_le (Nat.le_max_left N M) h
    have hmax' := compile_eq_ok_of_le (Nat.le_max_right N M) h'
    rw [hmax] at hmax'
    cases hmax'
    rfl

/-- Three values are live in this sum, so that two registers are too few and three do as well as
eight. A name that does not exist is refused with any number of registers. -/
theorem compile_eq_of_registers_le_sum :
  errorKind? "int a = 1; int b = a + (a + a);" 2 = some .tooComplex ∧
    errorKind? "int a = 1; int b = a + (a + a);" 3 = none ∧
    compile "int a = 1; int b = a + (a + a);" 8 = compile "int a = 1; int b = a + (a + a);" 3 ∧
    errorKind? "int b = c + 1;" 1 = some .undefinedReference ∧
    compile "int b = c + 1;" 8 = compile "int b = c + 1;" 1
  := by
  have hsum : errorKind? "int a = 1; int b = a + (a + a);" 3 = none := by decide +kernel
  have hname : errorKind? "int b = c + 1;" 1 = some .undefinedReference := by decide +kernel
  refine ⟨by decide +kernel, hsum, ?_, hname, ?_⟩
  · apply (compile_eq_of_registers_le _).1 3 8 (by decide)
    simp [hsum]
  · apply (compile_eq_of_registers_le _).1 1 8 (by decide)
    simp [hname]

end SilFront
