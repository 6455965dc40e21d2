import SilFront.Proofs.TwoRuns

/-!
# Layout

White space, comments, the base in which a number is written and the escapes in a string are matters
of layout. They are gone when a text is cut into tokens, but for the locations of the tokens. The
transcript of a text is what is left if the locations are left out too.

A pass depends on nothing else: two texts with the same transcript are both accepted or both refused
with the same words, and the same names and the same listing are left behind
(`account_eq_of_transcript_eq`).
-/

namespace SilFront

/-! ### Transcripts -/

namespace TokenStream

/-- The answers up to the first error or the end of the text, without locations. -/
def transcriptOf : List Step → List (Except String Token)
  | [] => [.ok .eof]
  | .ok token :: rest => .ok token.value :: transcriptOf rest
  | .error e :: _ => [.error e.value.message]

/-- What reading answers up to the end of the text or the first error, without locations. -/
def transcript (s : TokenStream) : List (Except String Token) :=
  transcriptOf s.steps

theorem length_transcriptOf (steps : List Step) :
  (transcriptOf steps).length = (steps.takeWhile Except.isOk).length + 1
  := by
  induction steps with
  | nil => rfl
  | cons step rest ih =>
    cases step with
    | error e => rfl
    | ok token =>
      rw [transcriptOf, List.length_cons, ih, List.takeWhile_cons_of_pos rfl, List.length_cons]

theorem transcriptOf_ne_nil (steps : List Step) :
  transcriptOf steps ≠ []
  := by
  apply List.ne_nil_of_length_eq_add_one (length_transcriptOf steps)

/-- Streams with the same transcript begin with the same token, or with errors that are worded
alike. -/
theorem next_of_transcript_eq {s s' : TokenStream} (h : s.transcript = s'.transcript) :
  match s.next, s'.next with
  | (.ok token, rest), (.ok token', rest') =>
    token.value = token'.value ∧ rest.transcript = rest'.transcript
  | (.error e, _), (.error e', _) => e.value.message = e'.value.message
  | _, _ => False
  := by
  obtain ⟨_ | ⟨_ | token, rest⟩, finish⟩ := s <;>
    obtain ⟨_ | ⟨_ | token', rest'⟩, finish'⟩ := s' <;>
      simp only [transcript, transcriptOf, List.cons.injEq, Except.ok.injEq, Except.error.injEq,
        reduceCtorEq, List.nil_eq, transcriptOf_ne_nil, and_true, and_false] at h
  · exact ⟨rfl, rfl⟩
  · exact h
  · exact h

end TokenStream

/-! ### Accounts -/

/-- What is said about a program that is refused, without the location. -/
structure Wording where
  /-- The category, if the program is refused for a syntax error. -/
  kind? : Option ErrorKind
  message : String
deriving DecidableEq

/-- A diagnostic without its location. -/
def Diagnostic.wording (d : Diagnostic) : Wording :=
  ⟨d.value.kind?, d.value.message⟩

/-- How a pass over a text ends, without locations, and the names and the listing that it leaves
behind. There is no pass if the first token cannot be read. -/
def account (source : String) (registers : Nat) :
    Except Wording (Except Wording Unit × SymbolTable × Listing) :=
  match Pass.start source registers with
  | .error e => .error e.wording
  | .ok s =>
    let (result, t) := s.run PassM.program
    .ok (result.mapError Diagnostic.wording, t.symbols, t.listing)

/-! ### Texts with the same transcript -/

/-- Passes over texts that differ in their layout only. -/
def Twins.anyLayout : Twins where
  Places _ _ := True
  Streams stream stream' := stream.transcript = stream'.transcript
  Registers := Eq
  Reports e e' := e.wording = e'.wording
  Pardons _ := False
  reports_syntax := by
    rintro _ _ ⟨-⟩
    rfl
  streams_next := by
    intro stream stream' h
    have hnext := TokenStream.next_of_transcript_eq h
    generalize stream.next = next at hnext ⊢
    generalize stream'.next = next' at hnext ⊢
    obtain ⟨_ | ⟨value, l⟩, rest⟩ := next <;> obtain ⟨_ | ⟨value', l'⟩, rest'⟩ := next'
    · apply congrArg (Wording.mk none) hnext
    · apply hnext
    · apply hnext
    · obtain ⟨rfl, hrest⟩ := hnext
      exact ⟨⟨trivial⟩, hrest⟩
  streams_ahead := by
    intro stream stream' h
    have hlength := congrArg List.length h
    rw [TokenStream.transcript, TokenStream.transcript, TokenStream.length_transcriptOf,
      TokenStream.length_transcriptOf] at hlength
    apply Nat.succ.inj hlength
  registers_le := Nat.le_of_eq
  registers_pardon := .inl

/-- Compilation does not depend on layout. -/
theorem account_eq_of_transcript_eq {source source' : String}
    (h : (TokenStream.ofText source).transcript = (TokenStream.ofText source').transcript)
    (registers : Nat) :
  account source registers = account source' registers
  := by
  unfold account
  obtain ⟨e, e', hstart, hstart', hreport⟩ | ⟨s, t, hstart, hstart', hrun⟩ :=
    Twins.agrees_text (W := .anyLayout) h (rfl : registers = registers)
  · rw [hstart, hstart']
    apply congrArg Except.error hreport
  rw [hstart, hstart']
  dsimp only
  generalize s.run PassM.program = outcome at hrun ⊢
  generalize t.run PassM.program = outcome' at hrun ⊢
  cases hrun with
  | ok _ states => simp only [Except.mapError, states.symbols, states.listing]
  | @failed e e' _ _ report symbols listing =>
    have hwording : e.wording = e'.wording := report
    simp only [Except.mapError, hwording, symbols, listing]
  | pardoned pardon => apply pardon.elim

/-- The second text has a comment, writes a number and a string in another way and puts everything
on one line. Both are refused at a name that does not exist, after `a` was declared. -/
theorem account_eq_of_transcript_eq_spelling :
  (TokenStream.ofText "int a = 16 + \"A\";\nint b = a + c;").transcript =
      (TokenStream.ofText "int## sum ##a=0x10+\"\\x41\";int b=a+c;").transcript ∧
    account "int a = 16 + \"A\";\nint b = a + c;" 4 =
      account "int## sum ##a=0x10+\"\\x41\";int b=a+c;" 4 ∧
    (account "int## sum ##a=0x10+\"\\x41\";int b=a+c;" 4).toOption.map (·.1) =
      some (.error ⟨some .undefinedReference,
        "Referring to a variable or function that doesn't exist [c]"⟩)
  := by
  have h : (TokenStream.ofText "int a = 16 + \"A\";\nint b = a + c;").transcript =
      (TokenStream.ofText "int## sum ##a=0x10+\"\\x41\";int b=a+c;").transcript := by
    decide +kernel
  refine ⟨h, account_eq_of_transcript_eq h 4, ?_⟩
  decide +kernel

end SilFront
