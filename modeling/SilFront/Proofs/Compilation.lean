import SilFront.Proofs.Declarations

/-!
# Programs that compile

A text compiles exactly if it has tokens that are those of a program that keeps the static rules,
and then the listing is what is to be written for that program (`compile_eq_ok_iff_of_exact`). Which
tokens an expression may consist of is left to an exact condition: that a pass accepts them, or that
they have an outline that compiles.
-/

namespace SilFront

/-! ### The end of the text is no token -/

/-- No characters spell the end of a text. -/
theorem Token.scan_ne_eof {first : Char} {rest : List Char} {token : Token}
    (h : (scan first rest).result = .ok token) :
  token ≠ .eof
  := by
  rintro rfl
  unfold scan at h
  split at h
  · cases hresult : (scanString rest).result <;> simp [Scan.map, hresult, Except.map] at h
  split at h
  · cases hresult : (scanNumber first rest).result <;> simp [Scan.map, hresult, Except.map] at h
  split at h
  · simp only [scanWord, Scan.done, ofWord] at h
    split at h <;> cases h
  · unfold scanMark scanEquals at h
    split at h <;> simp [Scan.done, Scan.fail] at h <;> split at h <;> simp at h

namespace Cursor

theorem value_ne_eof_of_next? {c c' : Cursor} {t : Located Token}
    (h : c.next? = some (.ok t, c')) :
  t.value ≠ .eof
  := by
  unfold next? at h
  split at h
  · simp at h
  · cases h
  · rename_i first rest _ _
    simp only [read, Option.some.injEq, Prod.mk.injEq] at h
    obtain ⟨hstep, -⟩ := h
    split at hstep
    · rename_i hresult
      cases hstep
      apply Token.scan_ne_eof hresult
    · cases hstep

theorem steps_of_next?_eq_none {c : Cursor} (h : c.next? = none) :
  c.steps = []
  := by
  rw [steps]
  split
  · rfl
  · simp_all

theorem steps_of_next?_eq_some {c c' : Cursor} {step : Step} (h : c.next? = some (step, c')) :
  c.steps = step :: c'.steps
  := by
  rw [steps]
  split
  · simp_all
  · simp_all

/-- Every token and every error takes a character. -/
theorem length_steps_le (c : Cursor) :
  c.steps.length ≤ c.rest.length
  := by
  induction c using steps.induct with
  | case1 c hnext =>
    rw [steps_of_next?_eq_none hnext]
    apply Nat.zero_le
  | case2 c step c' hnext ih =>
    rw [steps_of_next?_eq_some hnext, List.length_cons]
    apply Nat.lt_of_le_of_lt ih (next?_rest_length hnext)

/-- The end of a text is none of the steps to it. -/
theorem value_ne_eof_of_mem_steps (c : Cursor) {t : Located Token} (h : .ok t ∈ c.steps) :
  t.value ≠ .eof
  := by
  induction c using steps.induct with
  | case1 c hnext =>
    rw [steps_of_next?_eq_none hnext] at h
    cases h
  | case2 c step c' hnext ih =>
    rw [steps_of_next?_eq_some hnext, List.mem_cons] at h
    obtain rfl | h := h
    · apply value_ne_eof_of_next? hnext
    · apply ih h

end Cursor

/-! ### Streams of tokens -/

/-- The next position has the next token ahead. -/
theorem Position.next?_eq_some_iff {p q : Position} :
  p.next? = some q ↔ p.stream.next = (.ok q.lookahead, q.stream)
  := by
  unfold next?
  rcases p.stream.next with ⟨_ | lookahead, stream⟩
  · simp
  · cases q
    simp

namespace TokenStream

/-- Steps give tokens exactly if there is no error among them. -/
theorem mapM_id_eq_ok_iff {steps : List Step} {ts : List (Located Token)} :
  steps.mapM id = .ok ts ↔ steps = ts.map .ok
  := by
  induction steps generalizing ts with
  | nil => cases ts <;> simp [pure, Except.pure]
  | cons step steps ih =>
    rw [List.mapM_cons]
    cases step with
    | error e => cases ts <;> simp [bind, Except.bind]
    | ok t =>
      cases hrest : steps.mapM id with
      | error e => cases ts <;> simp [bind, Except.bind, ← ih, hrest]
      | ok us => cases ts <;> simp [bind, Except.bind, pure, Except.pure, ← ih, hrest]

/-- A stream has tokens if no step of it is an error. -/
theorem tokens_eq_ok_iff {st : TokenStream} {tokens : List (Located Token)} :
  st.tokens = .ok tokens ↔ ∃ ts, st.steps = ts.map .ok ∧ tokens = ts ++ [⟨.eof, st.finish⟩]
  := by
  simp only [TokenStream.tokens, ← mapM_id_eq_ok_iff]
  cases st.steps.mapM id <;> simp [bind, Except.bind, pure, Except.pure, eq_comm]

/-- A stream of tokens without errors goes on to the position of these tokens. -/
theorem next_eq_ofTokens {st : TokenStream} {ts : List (Located Token)}
    (h : st.steps = ts.map .ok) :
  st.next = (.ok (Position.ofTokens ts st.finish).lookahead, (Position.ofTokens ts st.finish).stream)
  := by
  obtain ⟨steps, finish⟩ := st
  obtain rfl := h
  cases ts <;> rfl

/-- From the beginning of a stream, exactly its own tokens are passed on the way to the end. -/
theorem exists_passes_iff {st : TokenStream} {p : Position} {ts : List (Located Token)}
    (hne : ∀ t, .ok t ∈ st.steps → t.value ≠ .eof)
    (hp : st.next = (.ok p.lookahead, p.stream)) :
  (∃ q, p.Passes ts q ∧ q.lookahead.value = .eof) ↔ st.steps = ts.map .ok
  := by
  constructor
  · rintro ⟨q, hpasses, heof⟩
    induction hpasses generalizing st with
    | nil p =>
      obtain ⟨_ | ⟨step, steps⟩, finish⟩ := st
      · rfl
      · obtain ⟨rfl, -⟩ := Prod.mk.inj hp
        exact absurd heof (hne _ List.mem_cons_self)
    | @cons p q r ts more next rest ih =>
      obtain ⟨_ | ⟨step, steps⟩, finish⟩ := st
      · obtain ⟨hlookahead, -⟩ := Prod.mk.inj hp
        rw [← Except.ok.inj hlookahead] at more
        exact absurd rfl more
      · obtain ⟨rfl, hstream⟩ := Prod.mk.inj hp
        rw [Position.next?_eq_some_iff, ← hstream] at next
        have hsteps := ih (fun t ht => hne t (List.mem_cons_of_mem _ ht)) next heof
        rw [List.map_cons, ← hsteps]
  · intro hsteps
    have hts : ∀ t ∈ ts, t.value ≠ .eof := by
      intro t ht
      apply hne
      rw [hsteps]
      apply List.mem_map_of_mem ht
    have hstart : p = .ofTokens ts st.finish := by
      rw [next_eq_ofTokens hsteps] at hp
      obtain ⟨hlookahead, hstream⟩ := Prod.mk.inj hp
      cases p
      congr
      · apply (Except.ok.inj hlookahead).symm
      · apply hstream.symm
    refine ⟨.ofTokens [] st.finish, ?_, rfl⟩
    rw [hstart]
    simpa using Position.passes_ofTokens hts [] st.finish

end TokenStream

/-! ### Programs -/

namespace Pass

/-- The pass before a text, at the position of its first token. -/
def ofPosition (p : Position) (registers : Nat) : Pass :=
  ⟨p.lookahead, p.stream, .empty, .empty, registers⟩

/-- A pass starts exactly if the first token can be read, which is ahead then. -/
theorem start_eq_ok_iff {text : String} {registers : Nat} {s : Pass} :
  start text registers = .ok s ↔
    ∃ p : Position, (TokenStream.ofText text).next = (.ok p.lookahead, p.stream) ∧
      s = ofPosition p registers
  := by
  unfold start
  rcases (TokenStream.ofText text).next with ⟨_ | lookahead, stream⟩
  · simp
  · constructor
    · intro h
      cases h
      exact ⟨⟨lookahead, stream⟩, rfl, rfl⟩
    · rintro ⟨p, hp, rfl⟩
      cases hp
      rfl

end Pass

/-- A text compiles exactly if a pass reads a program from it. -/
theorem compile_eq_ok_iff_run {source : String} {registers : Nat} {listing : Listing} :
  compile source registers = .ok listing ↔
    ∃ (p : Position) (t : Pass),
      (TokenStream.ofText source).next = (.ok p.lookahead, p.stream) ∧
      (Pass.ofPosition p registers).run PassM.program = (.ok (), t) ∧ listing = t.listing
  := by
  have hbind : compile source registers = .ok listing ↔ ∃ s, Pass.start source registers = .ok s ∧
      ∃ t, s.run PassM.program = (.ok (), t) ∧ listing = t.listing := by
    unfold compile
    cases Pass.start source registers with
    | error e => simp [bind, Except.bind]
    | ok s =>
      rcases hrun : s.run PassM.program with ⟨_ | _, t⟩ <;>
        simp [bind, Except.bind, hrun, pure, Except.pure, throw, throwThe, MonadExceptOf.throw,
          eq_comm]
  rw [hbind]
  simp only [Pass.start_eq_ok_iff]
  constructor
  · rintro ⟨_, ⟨p, hp, rfl⟩, t, hrun, rfl⟩
    exact ⟨p, t, hp, hrun, rfl⟩
  · rintro ⟨p, t, hp, hrun, rfl⟩
    exact ⟨_, ⟨p, hp, rfl⟩, t, hrun, rfl⟩

/-- A text compiles exactly if its tokens are those of a program that keeps the static rules, and
then the listing is what is to be written for that program. -/
theorem compile_eq_ok_iff_of_exact {A : Acceptance} {registers : Nat}
    (hA : Outline.Exact registers A) {source : String} {listing : Listing} :
  compile source registers = .ok listing ↔
    ∃ (tokens : List (Located Token)) (program : Program) (T : SymbolTable),
      tokenize source = .ok tokens ∧
      tokens.map Located.value = program.tokens ++ [.eof] ∧
      program.Checks A .empty T ∧ listing.toList = Section.all (program.sections 0)
  := by
  have hne : ∀ t, .ok t ∈ (TokenStream.ofText source).steps → t.value ≠ .eof := by
    intro t ht
    apply Cursor.value_ne_eof_of_mem_steps _ ht
  have hprogram : ∀ {p : Position} {t : Pass},
      (Pass.ofPosition p registers).run PassM.program = (.ok (), t) ↔
        ∃ (program : Program) (T : SymbolTable) (q : Position), program.Checks A .empty T ∧
          p.Reads program.tokens q ∧ q.lookahead.value = .eof ∧
          t = (Pass.ofPosition p registers).reach q T (Section.all (program.sections 0)) := by
    intro p t
    rw [PassM.program, Pass.run_get_bind]
    apply Pass.run_declarations_eq_ok_iff hA _ rfl (Pass.bound_position_lt_budget _)
  rw [compile_eq_ok_iff_run]
  simp only [hprogram, tokenize, TokenStream.tokens_eq_ok_iff]
  constructor
  · rintro ⟨p, _, hp, ⟨program, T, q, hchecks, ⟨ts, hpasses, hts⟩, heof, rfl⟩, rfl⟩
    refine ⟨_, program, T, ⟨ts, ?_, rfl⟩, by simp [hts], hchecks,
      by simp [Pass.reach, Pass.ofPosition]⟩
    apply (TokenStream.exists_passes_iff hne hp).mp ⟨q, hpasses, heof⟩
  · rintro ⟨_, program, T, ⟨ts, hsteps, rfl⟩, hvalues, hchecks, hlisting⟩
    have hp := TokenStream.next_eq_ofTokens hsteps
    obtain ⟨q, hpasses, heof⟩ := (TokenStream.exists_passes_iff hne hp).mpr hsteps
    have hts : ts.map Located.value = program.tokens := by simpa using hvalues
    refine ⟨_, _, hp, ⟨program, T, q, hchecks, ⟨ts, hpasses, hts⟩, heof, rfl⟩, ?_⟩
    apply Listing.ext_toList
    simpa [Pass.reach, Pass.ofPosition] using hlisting

/-- A text compiles exactly if it has tokens, these are the tokens of a program in which a pass
accepts every expression on its own and stops right after it, and which keeps the static rules from
the first declaration to the last. The listing is then the concatenation of what is to be written for
the parts of the program, in the order of the source. -/
theorem compile_eq_ok_iff_exists_program {source : String} {registers : Nat} {listing : Listing} :
  compile source registers = .ok listing ↔
    ∃ (tokens : List (Located Token)) (program : Program) (T : SymbolTable),
      tokenize source = .ok tokens ∧
      tokens.map Located.value = program.tokens ++ [.eof] ∧
      program.Checks (Outline.Accepted registers) .empty T ∧
      listing.toList = Section.all (program.sections 0)
  := compile_eq_ok_iff_of_exact (Outline.exact_accepted registers)

end SilFront
