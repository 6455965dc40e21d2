import Mathlib.Data.List.DropRight
import SilFront.Proofs.ScopeWalk
import SilFront.Proofs.Tiling

/-!
# Where things are

The location after a text can be counted in the text: its newlines tell the line, and the characters
after the last of them the column (`Location.counted`). A cursor is always where counting says, a
token is where its lexeme begins, and an error is somewhere in the text. Tokens therefore come one
after the other.

A pass invents no locations. Those that it blames come from tokens that were read, also when they
have gone through a queue and through code generation (`Correspondence.blaming`).
-/

namespace SilFront

namespace Location

/-- The location after a text, counted in the text. -/
def counted (text : List Char) : Location :=
  ⟨text.count '\n' + 1, (text.rtakeWhile (· ≠ '\n')).length + 1⟩

/-- One location comes before another. -/
def Before (l l' : Location) : Prop :=
  l.line < l'.line ∨ l.line = l'.line ∧ l.column < l'.column

/-- Going from character to character leads where counting leads. -/
theorem after_start (text : List Char) :
  start.after text = counted text
  := by
  induction text using List.reverseRecOn with
  | nil => rfl
  | append_singleton text c ih =>
    rw [after_append, ih, after_cons, after_nil, next, counted, counted]
    by_cases hc : c = '\n'
    · subst hc
      rw [if_pos rfl, List.rtakeWhile_concat_neg _ _ _ (by decide), List.count_append,
        List.count_singleton_self]
      rfl
    · rw [if_neg hc, List.rtakeWhile_concat_pos _ _ _ (by simpa using hc), List.count_append,
        List.count_singleton, List.length_append]
      simp [hc]

theorem Before.trans {l l' l'' : Location} (h : l.Before l') (h' : l'.Before l'') :
  l.Before l''
  := by
  unfold Before at *
  omega

/-- A character moves a location on. -/
theorem before_next (l : Location) (c : Char) :
  l.Before (l.next c)
  := by
  unfold next Before
  split
  · exact .inl (Nat.lt_succ_self _)
  · exact .inr ⟨rfl, Nat.lt_succ_self _⟩

/-- Every character leads on. -/
theorem before_after (l : Location) {text : List Char} (h : text ≠ []) :
  l.Before (l.after text)
  := by
  induction text generalizing l with
  | nil => contradiction
  | cons c text ih =>
    rw [after_cons]
    by_cases htext : text = []
    · rw [htext, after_nil]
      apply before_next
    · apply (before_next l c).trans (ih _ htext)

/-- A character other than a newline moves the column on by one. -/
theorem counted_concat (text : List Char) {c : Char} (h : c ≠ '\n') :
  counted (text ++ [c]) = ⟨(counted text).line, (counted text).column + 1⟩
  := by
  rw [← after_start, after_append, after_start, after_cons, after_nil, next, if_neg h]

/-- More text leads to a later location. -/
theorem before_counted (text : List Char) {more : List Char} (h : more ≠ []) :
  (counted text).Before (counted (text ++ more))
  := by
  rw [← after_start, ← after_start, after_append]
  apply before_after _ h

end Location

/-! ### One step of a cursor -/

namespace Cursor

/-- A cursor in a text, with what stands before it. -/
structure In (c : Cursor) (text before : List Char) : Prop where
  text_eq : text = before ++ c.rest
  location_eq : c.location = .counted before

/-- At first, nothing of a text lies behind. -/
theorem in_ofText (source : String) :
  (ofText source).In source.toList []
  := ⟨rfl, rfl⟩

/-- From a cursor in a text on, locations are counted from the beginning of the text. -/
theorem In.location_after {c : Cursor} {text before : List Char} (h : c.In text before)
    (more : List Char) :
  c.location.after more = .counted (before ++ more)
  := by
  rw [h.location_eq, ← Location.after_start, ← Location.after_start, Location.after_append]

/-- Going on in a text. -/
theorem In.on {c : Cursor} {text before used rest : List Char} (h : c.In text before)
    (hrest : c.rest = used ++ rest) :
  (⟨rest, c.location.after used⟩ : Cursor).In text (before ++ used)
  := by
  constructor
  · rw [h.text_eq, hrest, List.append_assoc]
  · apply h.location_after

theorem locationAt_advance (c : Cursor) (m n : Nat) :
  (c.advance m).locationAt n = c.locationAt (m + n)
  := by
  rw [locationAt, locationAt, rest_advance, advance, locationAt, List.take_add,
    Location.after_append]

theorem advance_advance (c : Cursor) (m n : Nat) :
  (c.advance m).advance n = c.advance (m + n)
  := by
  rw [advance, locationAt_advance, rest_advance, List.drop_drop]
  rfl

/-- What is blamed lies some characters ahead. -/
theorem exists_blamed_eq (c : Cursor) (n : Nat) (b : Blame) :
  ∃ k, c.blamed n b = c.locationAt k
  := by
  cases b with
  | first => exact ⟨0, rfl⟩
  | next => exact ⟨n, rfl⟩
  | last => exact ⟨n - 1, rfl⟩

/-- What reading may answer at a cursor, and where the cursor stands then. -/
inductive Answers (c : Cursor) : Step → Cursor → Prop
  | token {gap tail rest : List Char} {first : Char} {token : Token}
      (text : c.rest = gap ++ first :: (tail ++ rest)) (filler : Filler False gap)
      (spelledBy : token.SpelledBy (first :: tail)) (visible : first ≠ '\n') (more : token ≠ .eof) :
      Answers c (.ok ⟨token, c.location.after gap⟩)
        ⟨rest, c.location.after (gap ++ first :: tail)⟩
  | finish (filler : Filler True c.rest) :
      Answers c (.ok ⟨.eof, c.location.after c.rest⟩) ⟨[], c.location.after c.rest⟩
  | error {cause : LexicalError} {k n : Nat} (progress : 0 < n) (more : c.rest ≠ []) :
      Answers c (.error ⟨cause, c.locationAt k⟩) (c.advance n)

/-- No token begins with a newline. -/
theorem ne_newline_of_scan {first : Char} {rest : List Char} {token : Token}
    (h : (Token.scan first rest).result = .ok token) :
  first ≠ '\n'
  := by
  rintro rfl
  cases h

/-- Behind a closed gap, reading answers with the token that stands there, or with an error. -/
theorem answers_read {c : Cursor} {first : Char} {rest : List Char}
    (hclosed : (Gap.of c.rest).unclosed = none) (hskip : c.skip.rest = first :: rest) :
  c.Answers (c.skip.read first rest).1 (c.skip.read first rest).2
  := by
  have hdrop : c.rest.drop (Gap.of c.rest).length = first :: rest := hskip
  have htext : c.rest = c.rest.take (Gap.of c.rest).length ++ first :: rest := by
    rw [← hdrop, List.take_append_drop]
  simp only [read]
  rcases hresult : (Token.scan first rest).result with cause | token
  · obtain ⟨k, hk⟩ := c.skip.exists_blamed_eq ((Token.scan first rest).used + 1) cause.blame
    simp only [hk]
    rw [skip, locationAt_advance, advance_advance]
    apply Answers.error (Nat.add_pos_right _ (Nat.succ_pos _))
    rw [htext]
    apply List.append_ne_nil_of_right_ne_nil _ (List.cons_ne_nil _ _)
  · have hfiller : Filler False (c.rest.take (Gap.of c.rest).length) := by
      apply Filler.of_gap hclosed
      simp [hdrop]
    have hused : c.skip.advance ((Token.scan first rest).used + 1) =
        ⟨rest.drop (Token.scan first rest).used,
          c.location.after (c.rest.take (Gap.of c.rest).length ++
            first :: rest.take (Token.scan first rest).used)⟩ := by
      rw [advance, locationAt, hskip, Location.after_append]
      rfl
    simp only [hused]
    apply Answers.token _ hfiller (Token.spelledBy_of_scan hresult).1 (ne_newline_of_scan hresult)
      (Token.scan_ne_eof hresult)
    rw [List.take_append_drop, ← htext]

/-- Reading answers with a token, with the end of the text or with an error. -/
theorem answers_next (c : Cursor) :
  c.Answers c.next.1 c.next.2
  := by
  rcases hunclosed : (Gap.of c.rest).unclosed with _ | n
  · rcases hskip : c.skip.rest with _ | ⟨first, rest⟩
    · have hnext : c.next? = none := by rw [next?, hunclosed, hskip]
      have hend : c.skip = ⟨[], c.location.after c.rest⟩ := by
        rw [skip, rest_advance] at hskip
        rw [skip, advance, hskip, locationAt, List.take_of_length_le (List.drop_eq_nil_iff.mp hskip)]
      rw [next_of_next?_eq_none hnext, hend]
      apply Answers.finish (filler_of_next?_eq_none hnext).1
    · have hnext : c.next? = some (c.skip.read first rest) := by rw [next?, hunclosed, hskip]
      rw [next_of_next?_eq_some hnext]
      apply answers_read hunclosed hskip
  · have hnext : c.next? = some (.error ⟨.unclosedComment,
        c.locationAt ((Gap.of c.rest).length - n)⟩, c.skip) := by rw [next?, hunclosed]
    have hlength := Gap.length_pos_of_unclosed hunclosed
    rw [next_of_next?_eq_some hnext]
    apply Answers.error hlength.1 (List.ne_nil_of_length_pos hlength.2)

namespace In

variable {c : Cursor} {text before : List Char} {t : Located Token}

/-- A step goes on in the text. -/
theorem next (h : c.In text before) :
  ∃ used, c.next.2.In text (before ++ used)
  := by
  have hanswers := c.answers_next
  generalize c.next = answer at hanswers ⊢
  obtain ⟨step, c'⟩ := answer
  cases hanswers with
  | @token gap tail rest first _ htext =>
    use gap ++ first :: tail
    apply h.on
    rw [htext, List.append_assoc, List.cons_append]
  | finish =>
    use c.rest
    apply h.on (List.append_nil _).symm
  | @error _ _ n =>
    use c.rest.take n
    apply h.on (List.take_append_drop n _).symm

/-- A token is where its lexeme begins, and the cursor then stands where its lexeme ends. -/
theorem token (h : c.In text before) (hnext : c.next.1 = .ok t) (hmore : t.value ≠ .eof) :
  ∃ gap first tail, Filler False gap ∧ t.value.SpelledBy (first :: tail) ∧ first ≠ '\n' ∧
    t.location = .counted (before ++ gap) ∧ c.next.2.In text (before ++ gap ++ first :: tail)
  := by
  have hanswers := c.answers_next
  rw [hnext] at hanswers
  generalize c.next.2 = c' at hanswers ⊢
  cases hanswers with
  | @token gap tail rest first _ htext hfiller hspelled hvisible =>
    use gap, first, tail, hfiller, hspelled, hvisible, h.location_after gap
    rw [List.append_assoc]
    apply h.on
    rw [htext, List.append_assoc, List.cons_append]
  | finish => contradiction

/-- The end of a text is located after all of its characters. -/
theorem eof (h : c.In text before) (hnext : c.next.1 = .ok t) (heof : t.value = .eof) :
  t.location = .counted text
  := by
  have hanswers := c.answers_next
  rw [hnext] at hanswers
  generalize c.next.2 = c' at hanswers
  cases hanswers with
  | token _ _ _ _ hmore => contradiction
  | finish =>
    rw [h.text_eq]
    apply h.location_after

/-- No token is before the cursor. -/
theorem exists_location_eq (h : c.In text before) (hnext : c.next.1 = .ok t) :
  ∃ gap, t.location = .counted (before ++ gap)
  := by
  by_cases heof : t.value = .eof
  · use c.rest
    rw [← h.text_eq]
    apply h.eof hnext heof
  · obtain ⟨gap, -, -, -, -, -, hlocation, -⟩ := h.token hnext heof
    exact ⟨gap, hlocation⟩

/-- An error is somewhere in the text. -/
theorem error {e : Located LexicalError} (h : c.In text before) (hnext : c.next.1 = .error e) :
  ∃ k ≤ text.length, e.location = .counted (text.take k)
  := by
  have hanswers := c.answers_next
  rw [hnext] at hanswers
  generalize c.next.2 = c' at hanswers
  cases hanswers with
  | @error _ k =>
    refine ⟨min (before.length + k) text.length, min_le_right .., ?_⟩
    rw [← List.take_eq_take_min, h.text_eq, List.take_length_add_append]
    apply h.location_after

/-- Tokens that are read lie behind the cursor. -/
theorem after (h : c.In text before) (n : Nat) :
  ∃ used, (c.after n).In text (before ++ used)
  := by
  induction n generalizing c before with
  | zero =>
    use []
    rwa [List.append_nil]
  | succ n ih =>
    obtain ⟨used, hused⟩ := h.next
    obtain ⟨more, hmore⟩ := ih hused
    use used ++ more
    rw [after_succ, ← List.append_assoc]
    exact hmore

end In

theorem exists_in_after (source : String) (n : Nat) :
  ∃ before, ((ofText source).after n).In source.toList before
  := (in_ofText source).after n

theorem next_after (c : Cursor) (n : Nat) :
  (c.after n).next.2 = c.after (n + 1)
  := (Function.iterate_succ_apply' (fun c : Cursor => c.next.2) n c).symm

theorem after_add (c : Cursor) (m n : Nat) :
  c.after (m + n) = (c.after m).after n
  := by
  rw [Nat.add_comm]
  apply Function.iterate_add_apply

/-- Tokens come one after the other. -/
theorem before_of_lt {source : String} {m n : Nat} {t t' : Located Token} (hlt : m < n)
    (hm : ((ofText source).after m).next.1 = .ok t) (hmore : t.value ≠ .eof)
    (hn : ((ofText source).after n).next.1 = .ok t') :
  t.location.Before t'.location
  := by
  obtain ⟨k, rfl⟩ := Nat.exists_eq_add_of_lt hlt
  obtain ⟨before, hbefore⟩ := exists_in_after source m
  obtain ⟨gap, first, tail, -, -, -, hlocation, hnext⟩ := hbefore.token hm hmore
  obtain ⟨used, hused⟩ := hnext.after k
  rw [next_after, ← after_add, Nat.add_right_comm] at hused
  obtain ⟨gap', hlocation'⟩ := hused.exists_location_eq hn
  rw [hlocation, hlocation', List.append_assoc _ used, List.append_assoc (before ++ gap)]
  apply Location.before_counted
  apply List.cons_ne_nil

/-- Every answer is given at some step. -/
theorem exists_next_eq_of_mem_steps (c : Cursor) {step : Step} (h : step ∈ c.steps) :
  ∃ n, (c.after n).next.1 = step
  := by
  induction c using steps.induct with
  | case1 c hnext =>
    rw [steps_of_next?_eq_none hnext] at h
    cases h
  | case2 c first c' hnext ih =>
    rw [steps_of_next?_eq_some hnext, List.mem_cons] at h
    have hfirst := next_of_next?_eq_some hnext
    obtain rfl | h := h
    · use 0
      exact congrArg Prod.fst hfirst
    · obtain ⟨n, hn⟩ := ih h
      use n + 1
      rw [after_succ, hfirst, hn]

/-- The end of the text is reached. -/
theorem exists_next_eq_eof (c : Cursor) :
  ∃ n l, (c.after n).next.1 = .ok ⟨.eof, l⟩
  := by
  induction c using steps.induct with
  | case1 c hnext =>
    use 0, c.skip.location
    exact congrArg Prod.fst (next_of_next?_eq_none hnext)
  | case2 c first c' hnext ih =>
    obtain ⟨n, l, hn⟩ := ih
    use n + 1, l
    rw [after_succ, next_of_next?_eq_some hnext, hn]

end Cursor

/-! ### Refusals -/

/-- All tokens of a stream, the end of the text included, stand at certain places. -/
structure TokenStream.Sourced (S : Location → Prop) (stream : TokenStream) : Prop where
  steps : ∀ t, .ok t ∈ stream.steps → S t.location
  finish : S stream.finish

/-- The tokens of a stream come from where the stream does, also later on. -/
theorem TokenStream.Sourced.next {S : Location → Prop} {stream : TokenStream}
    (h : stream.Sourced S) :
  stream.next.2.Sourced S ∧ ∀ t, stream.next.1 = .ok t → S t.location
  := by
  obtain ⟨steps, finish⟩ := stream
  cases steps with
  | nil =>
    use h
    rintro _ ⟨⟩
    exact h.finish
  | cons step steps =>
    use ⟨fun t ht => h.steps t (.tail _ ht), h.finish⟩
    rintro t ⟨⟩
    apply h.steps t (.head _)

/-- All tokens that a pass can come to stand at certain places. -/
structure Pass.Sourced (S : Location → Prop) (s : Pass) : Prop where
  lookahead : S s.lookahead.location
  stream : s.stream.Sourced S

namespace Correspondence

open PassM

/-- An outcome that refuses at certain places only, and from which a pass can go on. -/
inductive Blames (S : Location → Prop) {α : Type} (Q : α → α → Prop) :
    Except Diagnostic α × Pass → Prop
  | accepted {x y : α} {t : Pass} (result : Q x y) (state : t.Sourced S) : Blames S Q (.ok x, t)
  | unreadable {e : Located LexicalError} {t : Pass} (state : t.Sourced S) :
      Blames S Q (.error (.ofLexical e), t)
  | refused {e : Located SyntaxError} {t : Pass} (place : S e.location) (state : t.Sourced S) :
      Blames S Q (.error (.ofSyntax e), t)

variable (S : Location → Prop)

/-- The actions that refuse at the places of tokens only, as a correspondence of which one side only
is looked at. -/
def blaming : Correspondence where
  Places l _ := S l
  Relates Q a _ := ∀ ⦃s : Pass⦄, s.Sourced S → Blames S Q (s.run a)
  relates_pure := by
    intro α Q x y hQ s hs
    exact .accepted hQ hs
  relates_bind := by
    intro α β Q R a b k l h h' s hs
    have hfirst := h hs
    rw [Pass.run_bind]
    generalize s.run a = outcome at hfirst ⊢
    cases hfirst with
    | accepted result state => apply h' _ _ result state
    | unreadable state => exact .unreadable state
    | refused place state => exact .refused place state
  relates_peek := by
    intro s hs
    exact .accepted (y := s.lookahead) ⟨hs.lookahead⟩ hs
  relates_advance := by
    intro s hs
    obtain ⟨hrest, hplace⟩ := hs.stream.next
    rw [Pass.run_advance]
    generalize s.stream.next = next at hrest hplace ⊢
    obtain ⟨_ | token, rest⟩ := next
    · exact .unreadable ⟨hs.lookahead, hrest⟩
    · exact .accepted rfl ⟨hplace token rfl, hrest⟩
  relates_refuseAt := by
    intro α Q cause l l' hplace s hs
    exact .refused hplace hs
  relates_symbols := by
    intro s hs
    exact .accepted rfl hs
  relates_budget := by
    intro α Q a b h s hs
    rw [Pass.run_get_bind]
    apply h _ hs

namespace blaming

variable {S}

/-- A change of the state that leaves the tokens alone refuses nothing. -/
theorem relates_modify {change : Pass → Pass}
    (h : ∀ s, (change s).lookahead = s.lookahead ∧ (change s).stream = s.stream) :
  (blaming S).Relates Eq (modify change) (modify change)
  := by
  intro s hs
  obtain ⟨hlookahead, hstream⟩ := h s
  refine .accepted rfl ⟨?_, ?_⟩
  · rw [hlookahead]
    exact hs.lookahead
  · rw [hstream]
    exact hs.stream

theorem relates_emit (code : List Operation) :
  (blaming S).Relates Eq (emit code) (emit code)
  := relates_modify fun _ => ⟨rfl, rfl⟩

theorem relates_note (content : Note) :
  (blaming S).Relates Eq (note content) (note content)
  := relates_modify fun _ => ⟨rfl, rfl⟩

theorem relates_modify_symbols (change : SymbolTable → SymbolTable) :
  (blaming S).Relates Eq (modify fun s => { s with symbols := change s.symbols })
    (modify fun s => { s with symbols := change s.symbols })
  := relates_modify fun _ => ⟨rfl, rfl⟩

/-- What code generation refuses is at the place of one of its items or of the whole. -/
theorem relates_compile {items items' : List Item} {l l' : Location} (slot : Slot)
    (hitems : List.Forall₂ (Item.Matches (blaming S).Places) items items')
    (hplace : (blaming S).Places l l') :
  (blaming S).Relates Eq (do emit (← check (Expression.compile items slot (← get).registers l)))
    (do emit (← check (Expression.compile items' slot (← get).registers l')))
  := by
  intro s hs
  have hcompile : Expression.Agree (blaming S).Places (fun _ => False) Eq
      (Expression.compile items slot s.registers l)
      (Expression.compile items' slot s.registers l') :=
    Expression.agree_compile le_rfl (.inl rfl) slot hitems hplace
  rw [Pass.run_get_bind, Pass.run_bind]
  generalize Expression.compile items slot s.registers l = code at hcompile ⊢
  generalize Expression.compile items' slot s.registers l' = code' at hcompile
  cases hcompile with
  | @ok code => apply relates_emit code hs
  | @refused e _ h =>
    refine .refused ?_ hs
    cases h with
    | mk place => exact place
  | pardoned h => apply h.elim

/-- Taking back what was written keeps to the sources. -/
theorem relates_transaction {a b : PassM Unit} (h : (blaming S).Relates Eq a b) :
  (blaming S).Relates Eq (transaction a) (transaction b)
  := by
  intro s hs
  have haction := h hs
  rw [Pass.run_transaction]
  generalize s.run a = outcome at haction ⊢
  cases haction with
  | accepted result state => exact .accepted result state
  | unreadable state => exact .unreadable ⟨state.lookahead, state.stream⟩
  | refused place state => exact .refused place ⟨state.lookahead, state.stream⟩

/-- All steps blame only locations of tokens. -/
theorem onSteps :
  (blaming S).OnSteps
  where
  relates_emit := relates_emit
  relates_note := relates_note
  relates_modify_symbols := relates_modify_symbols
  relates_compile := relates_compile
  relates_transaction := relates_transaction

end blaming
end Correspondence

namespace Pass

open PassM

/-- A program blames only locations of the tokens that it reads. -/
theorem Sourced.program {S : Location → Prop} {s : Pass} (h : s.Sourced S) :
  (s.run program).2.Sourced S ∧
    ∀ e, (s.run program).1 = .error (.ofSyntax e) → S e.location
  := by
  have hprogram := Correspondence.blaming.onSteps.onPrograms.relates_program h
  generalize s.run PassM.program = outcome at hprogram ⊢
  cases hprogram with
  | accepted _ state =>
    use state
    rintro e ⟨⟩
  | unreadable state =>
    use state
    intro e he
    cases congrArg Located.value (Except.error.inj he)
  | @refused e _ place state =>
    use state
    intro e' he
    have hsame : Diagnostic.ofSyntax e = .ofSyntax e' := Except.error.inj he
    rw [← show e.location = e'.location from (Located.mk.inj hsame).2]
    exact place

/-- Further programs in the same pass read tokens from the same source. -/
theorem Sourced.afterPrograms {S : Location → Prop} {s : Pass} (h : s.Sourced S) (n : Nat) :
  (s.afterPrograms n).Sourced S
  := by
  induction n with
  | zero => exact h
  | succ n ih => apply ih.program.1

end Pass

/-- The places of the tokens of a text. -/
def Location.OfToken (source : String) (l : Location) : Prop :=
  ∃ n t, ((Cursor.ofText source).after n).next.1 = .ok t ∧ t.location = l

/-- The tokens of a text stand where the text has them. -/
theorem TokenStream.sourced_ofText (source : String) :
  (ofText source).Sourced (Location.OfToken source)
  where
  steps := by
    intro t ht
    obtain ⟨n, hn⟩ := (Cursor.ofText source).exists_next_eq_of_mem_steps ht
    exact ⟨n, t, hn, rfl⟩
  finish := by
    obtain ⟨n, l, hn⟩ := (Cursor.ofText source).exists_next_eq_eof
    obtain ⟨before, hbefore⟩ := Cursor.exists_in_after source n
    refine ⟨n, ⟨.eof, l⟩, hn, ?_⟩
    rw [hbefore.eof hn rfl, TokenStream.ofText, Location.after_start]

/-- A pass over a text reads the tokens of that text. -/
theorem Pass.sourced_of_start {source : String} {registers : Nat} {s : Pass}
    (h : start source registers = .ok s) :
  s.Sourced (Location.OfToken source)
  := by
  obtain ⟨p, hp, rfl⟩ := start_eq_ok_iff.mp h
  obtain ⟨hrest, hplace⟩ := (TokenStream.sourced_ofText source).next
  rw [hp] at hrest hplace
  exact ⟨hplace _ rfl, hrest⟩

/-- The locations that reading a text and compiling it report. -/
structure ExactLocations (source : String) : Prop where
  /-- The cursor is always where counting leads, in its text. -/
  cursor : ∀ n, ∃ before, ((Cursor.ofText source).after n).In source.toList before
  /-- A token is where its first character is, which is not a newline. -/
  token : ∀ {n : Nat} {t : Located Token}, ((Cursor.ofText source).after n).next.1 = .ok t →
    t.value ≠ .eof → ∃ before gap first tail,
      ((Cursor.ofText source).after n).In source.toList before ∧ Filler False gap ∧
      t.value.SpelledBy (first :: tail) ∧ t.location = .counted (before ++ gap) ∧
      .counted (before ++ gap ++ [first]) = (⟨t.location.line, t.location.column + 1⟩ : Location) ∧
      ((Cursor.ofText source).after (n + 1)).In source.toList (before ++ gap ++ first :: tail)
  eof : ∀ {n : Nat} {t : Located Token}, ((Cursor.ofText source).after n).next.1 = .ok t →
    t.value = .eof → t.location = .counted source.toList
  increasing : ∀ {m n : Nat} {t t' : Located Token}, m < n →
    ((Cursor.ofText source).after m).next.1 = .ok t → t.value ≠ .eof →
      ((Cursor.ofText source).after n).next.1 = .ok t' → t.location.Before t'.location
  error : ∀ {n : Nat} {e : Located LexicalError},
    ((Cursor.ofText source).after n).next.1 = .error e →
      ∃ k ≤ source.toList.length, e.location = .counted (source.toList.take k)
  /-- What is refused, by a program or by a later one after an error, is at a token. -/
  refused : ∀ {registers k : Nat} {s : Pass} {e : Located SyntaxError},
    Pass.start source registers = .ok s →
      ((s.afterPrograms k).run PassM.program).1 = .error (.ofSyntax e) →
        Location.OfToken source e.location

/-- All locations that are reported are exact. -/
theorem exact_locations (source : String) :
  ExactLocations source
  where
  cursor := Cursor.exists_in_after source
  token := by
    intro n t hnext hmore
    obtain ⟨before, hbefore⟩ := Cursor.exists_in_after source n
    obtain ⟨gap, first, tail, hfiller, hspelled, hvisible, hlocation, hafter⟩ :=
      hbefore.token hnext hmore
    rw [Cursor.next_after] at hafter
    refine ⟨before, gap, first, tail, hbefore, hfiller, hspelled, hlocation, ?_, hafter⟩
    rw [hlocation, Location.counted_concat _ hvisible]
  eof := by
    intro n t hnext heof
    obtain ⟨before, hbefore⟩ := Cursor.exists_in_after source n
    apply hbefore.eof hnext heof
  increasing := Cursor.before_of_lt
  error := by
    intro n e hnext
    obtain ⟨before, hbefore⟩ := Cursor.exists_in_after source n
    apply hbefore.error hnext
  refused := by
    intro registers k s e hstart hrun
    apply ((Pass.sourced_of_start hstart).afterPrograms k).program.2 e hrun

end SilFront
