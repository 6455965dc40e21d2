import SilFront.Proofs.Locations
import SilFront.Proofs.NumberWords

/-!
# Reading on

A text can be read on after errors. Whatever a reader makes of a lexeme, it uses no more characters
than there are (`Token.used_scan_le`), and at least the first one, so every call that does not answer
with the end of the text takes some of it (`Cursor.taken`), and the calls together take no more than
all of it. From some call on all answers are therefore the end of the text
(`Cursor.reading_comes_to_an_end`).
-/

namespace SilFront

/-! ### Characters used -/

theorem Gap.length_scan_le (place : Place) (text : List Char) :
  (scan place text).length ≤ text.length
  := by
  fun_induction scan place text with
  | case4 | case8 | case9 => apply Nat.zero_le
  | case1 rest ih | case2 rest _ ih | case3 _ rest _ _ _ ih | case5 _ rest ih | case6 _ rest ih
  | case7 _ _ rest _ ih =>
    simp only [after, List.length_cons]
    omega

/-- A gap is no longer than the text. -/
theorem Gap.length_of_le (text : List Char) :
  (of text).length ≤ text.length
  := length_scan_le .blank text

namespace Token

theorem used_scanString_le (rest : List Char) :
  (scanString rest).used ≤ rest.length
  := by
  fun_induction scanString rest with
  | case4 _ _ rest _ _ _ _ _ ih =>
    change 4 + (scanString rest).used ≤ rest.length + 4
    omega
  | case9 _ rest _ _ _ _ ih =>
    change 2 + (scanString rest).used ≤ rest.length + 2
    omega
  | case11 _ rest _ _ _ ih =>
    change 1 + (scanString rest).used ≤ rest.length + 1
    omega
  | case7 high =>
    change ite _ 3 2 ≤ 3
    split <;> omega
  | _ => simp [Scan.done, Scan.fail]

theorem used_scanNumber_le {first : Char} (hfirst : first.isDigit) (rest : List Char) :
  (scanNumber first rest).used ≤ rest.length
  := by
  have hreach := (Stage.reach_isPrefix .start (first :: rest)).length_le
  rwa [← used_scanNumber hfirst, List.length_cons, Nat.add_le_add_iff_right] at hreach

theorem used_scanWord_le (first : Char) (rest : List Char) :
  (scanWord first rest).used ≤ rest.length
  := (List.takeWhile_sublist isWordPart).length_le

theorem used_scanMark_le (first : Char) (rest : List Char) :
  (scanMark first rest).used ≤ rest.length
  := by
  have hequals (short long : Mark) : (scanEquals short long rest).used ≤ rest.length := by
    fun_cases scanEquals short long rest with
    | case1 rest => simp [Scan.done]
    | case2 => apply Nat.zero_le
  fun_cases scanMark first rest
  case case1 | case2 | case3 => apply hequals
  case case4 => simp [Scan.done]
  all_goals apply Nat.zero_le

/-- No reader uses more characters than there are. -/
theorem used_scan_le (first : Char) (rest : List Char) :
  (scan first rest).used ≤ rest.length
  := by
  unfold scan
  split
  · apply used_scanString_le
  · split
    · rename_i hfirst
      apply used_scanNumber_le hfirst
    · split
      · apply used_scanWord_le
      · apply used_scanMark_le

end Token

/-! ### Calls -/

/-- An answer is the end of the text. -/
def Step.IsEnd (step : Step) : Prop :=
  ∃ location, step = .ok ⟨.eof, location⟩

namespace Cursor

/-- The number of characters that the next call takes: the gap at the cursor, and the lexeme after it
if there is one. -/
def taken (c : Cursor) : Nat :=
  match (Gap.of c.rest).unclosed, c.skip.rest with
  | none, first :: rest => (Gap.of c.rest).length + ((Token.scan first rest).used + 1)
  | _, _ => (Gap.of c.rest).length

/-- The number of characters that the first `k` calls take. -/
def position (c : Cursor) : Nat → Nat
  | 0 => 0
  | k + 1 => c.position k + (c.after k).taken

variable (c : Cursor)

/-- A call leaves the cursor where the characters that it takes end. -/
theorem next_eq_advance_taken :
  c.next.2 = c.advance c.taken
  := by
  rw [taken]
  rcases hunclosed : (Gap.of c.rest).unclosed with _ | n
  · rcases hskip : c.skip.rest with _ | ⟨first, rest⟩
    · have hnext : c.next? = none := by rw [next?, hunclosed, hskip]
      rw [next_of_next?_eq_none hnext]
      rfl
    · have hnext : c.next = c.skip.read first rest := by
        rw [next, next?, hunclosed, hskip, Option.getD_some]
      rw [hnext]
      apply advance_advance
  · have hnext : c.next? = some (.error ⟨.unclosedComment,
        c.locationAt ((Gap.of c.rest).length - n)⟩, c.skip) := by rw [next?, hunclosed]
    rw [next_of_next?_eq_some hnext]
    rfl

/-- No call takes more characters than there are. -/
theorem taken_le :
  c.taken ≤ c.rest.length
  := by
  have hgap := Gap.length_of_le c.rest
  unfold taken
  split
  · rename_i first rest _ hskip
    have hused := Token.used_scan_le first rest
    have hlength := congrArg List.length hskip
    rw [skip, rest_advance, List.length_drop, List.length_cons] at hlength
    omega
  · exact hgap

/-- The end of the text is answered where there is nothing to be read any more. -/
theorem isEnd_next_iff :
  c.next.1.IsEnd ↔ c.next? = none
  := by
  constructor
  · rintro ⟨location, hend⟩
    by_contra hsome
    obtain ⟨⟨step, c'⟩, hnext⟩ := Option.ne_none_iff_exists'.mp hsome
    rw [next_of_next?_eq_some hnext] at hend
    subst hend
    apply value_ne_eof_of_next? hnext rfl
  · intro hnext
    use c.skip.location
    rw [next_of_next?_eq_none hnext]

/-- Every other answer takes some of the text. -/
theorem taken_pos (h : ¬c.next.1.IsEnd) :
  0 < c.taken
  := by
  rw [isEnd_next_iff] at h
  obtain ⟨⟨step, c'⟩, hnext⟩ := Option.ne_none_iff_exists'.mp h
  have hlength := next?_rest_length hnext
  have hrest : c'.rest = c.rest.drop c.taken := by
    rw [← rest_advance, ← next_eq_advance_taken, next_of_next?_eq_some hnext]
  by_contra hzero
  rw [hrest, Nat.eq_zero_of_not_pos hzero, List.drop_zero] at hlength
  exact absurd hlength (lt_irrefl _)

/-- The end of the text takes what is left. -/
theorem taken_of_next?_eq_none (h : c.next? = none) :
  c.taken = c.rest.length
  := by
  apply Nat.le_antisymm c.taken_le
  rw [← List.drop_eq_nil_iff, ← rest_advance, ← next_eq_advance_taken, next_of_next?_eq_none h]
  apply (filler_of_next?_eq_none h).2

/-! ### All calls -/

/-- The cursor stands where the characters that the calls have taken end. -/
theorem after_eq_advance_position (k : Nat) :
  c.after k = c.advance (c.position k)
  := by
  induction k with
  | zero => rfl
  | succ k ih =>
    rw [← next_after, next_eq_advance_taken, position, ih, advance_advance]

theorem length_rest_after (k : Nat) :
  (c.after k).rest.length = c.rest.length - c.position k
  := by
  rw [after_eq_advance_position, rest_advance, List.length_drop]

theorem position_le (k : Nat) :
  c.position k ≤ c.rest.length
  := by
  induction k with
  | zero => apply Nat.zero_le
  | succ k ih =>
    have htaken := (c.after k).taken_le
    rw [length_rest_after] at htaken
    rw [position]
    omega

/-- The end of the text stays where it is, however much of the text is read. -/
theorem location_after_rest (k : Nat) :
  (c.after k).location.after (c.after k).rest = c.location.after c.rest
  := by
  rw [after_eq_advance_position, rest_advance, advance, locationAt, ← Location.after_append,
    List.take_append_drop]

/-- Where there is nothing to be read any more, the cursor goes to the end of the text. -/
theorem next_eq_end (h : c.next? = none) :
  c.next = (.ok ⟨.eof, c.location.after c.rest⟩, ⟨[], c.location.after c.rest⟩)
  := by
  have hcursor : c.next.2 = ⟨[], c.location.after c.rest⟩ := by
    rw [next_eq_advance_taken, taken_of_next?_eq_none c h, advance, locationAt, List.drop_length,
      List.take_length]
  rw [next_of_next?_eq_none h] at hcursor ⊢
  rw [show c.skip = _ from hcursor]

/-- The end of the text is answered for ever. -/
theorem next_after_eq_end (h : c.next? = none) (j : Nat) :
  (c.after j).next = (.ok ⟨.eof, c.location.after c.rest⟩, ⟨[], c.location.after c.rest⟩)
  := by
  induction j generalizing c with
  | zero => apply next_eq_end c h
  | succ j ih =>
    rw [after_succ, next_eq_end c h]
    exact ih ⟨[], c.location.after c.rest⟩ rfl

/-- Everything before the end is answered by the first calls. -/
theorem steps_eq_map_range :
  c.steps = (List.range c.steps.length).map fun j => (c.after j).next.1
  := by
  induction c using steps.induct with
  | case1 c hnext => rw [steps_of_next?_eq_none hnext, List.length_nil, List.range_zero, List.map_nil]
  | case2 c step c' hnext ih =>
    have hfirst : c.next = (step, c') := next_of_next?_eq_some hnext
    rw [steps_of_next?_eq_some hnext, List.length_cons, List.range_succ_eq_map, List.map_cons,
      List.map_map, List.cons.injEq]
    constructor
    · exact (congrArg Prod.fst hfirst).symm
    · conv => lhs; rw [ih]
      congr
      funext j
      rw [Function.comp_apply, after_succ, hfirst]

theorem next?_after_length :
  (c.after c.steps.length).next? = none
  := by
  induction c using steps.induct with
  | case1 c hnext =>
    rw [steps_of_next?_eq_none hnext]
    exact hnext
  | case2 c step c' hnext ih =>
    rw [steps_of_next?_eq_some hnext, List.length_cons, after_succ, next_of_next?_eq_some hnext]
    exact ih

/-- From some call on every call answers with the end of the text and goes there. -/
theorem next_after_of_le {j : Nat} (h : c.steps.length ≤ j) :
  (c.after j).next = (.ok ⟨.eof, c.location.after c.rest⟩, ⟨[], c.location.after c.rest⟩)
  := by
  obtain ⟨i, rfl⟩ := Nat.exists_eq_add_of_le h
  rw [after_add, next_after_eq_end _ c.next?_after_length, location_after_rest]

theorem isEnd_next_after_iff (j : Nat) :
  (c.after j).next.1.IsEnd ↔ c.steps.length ≤ j
  := by
  constructor
  · rintro ⟨location, hend⟩
    by_contra hlt
    have hmem : .ok ⟨.eof, location⟩ ∈ c.steps := by
      rw [c.steps_eq_map_range, ← hend]
      exact List.mem_map_of_mem (List.mem_range.mpr (Nat.lt_of_not_le hlt))
    apply c.value_ne_eof_of_mem_steps hmem rfl
  · intro hle
    rw [c.next_after_of_le hle]
    exact ⟨_, rfl⟩

end Cursor

theorem TokenStream.tokens_eq_mapM (stream : TokenStream) :
  stream.tokens = (stream.steps ++ [(.ok ⟨.eof, stream.finish⟩ : Step)]).mapM id
  := by
  rw [tokens, List.mapM_append]
  cases stream.steps.mapM id <;> rfl

/-- A text is read with finitely many calls, whatever stands in it. Every call takes some characters
of the text, but for those that answer with its end; from the first of these on the answer stays, and
after it the cursor stays too. So there are no more other answers than characters, and the tokens of
the text are the answers up to the first end, unless there is an error among them. -/
theorem Cursor.reading_comes_to_an_end (source : String) :
  (∀ k, (ofText source).after k = (ofText source).advance ((ofText source).position k) ∧
    (ofText source).position k ≤ source.toList.length ∧
    (¬((ofText source).after k).next.1.IsEnd →
      (ofText source).position k < (ofText source).position (k + 1))) ∧
  ∃ k ≤ source.toList.length,
    (∀ j, ((ofText source).after j).next.1.IsEnd ↔ k ≤ j) ∧
    (∀ j, k ≤ j → ((ofText source).after j).next.1 = .ok ⟨.eof, .counted source.toList⟩) ∧
    (∀ j, k < j → ((ofText source).after j).next.2 = (ofText source).after j) ∧
    (ofText source).position (k + 1) = source.toList.length ∧
    tokenize source = ((List.range (k + 1)).map fun j => ((ofText source).after j).next.1).mapM id
  := by
  have hfinish : (ofText source).location.after (ofText source).rest = .counted source.toList :=
    Location.after_start _
  constructor
  · intro k
    use after_eq_advance_position _ k, position_le _ k
    intro hmore
    rw [position]
    apply Nat.lt_add_of_pos_right (taken_pos _ hmore)
  · use (ofText source).steps.length, length_steps_le _, isEnd_next_after_iff _
    refine ⟨?_, ?_, ?_, ?_⟩
    · intro j hj
      rw [next_after_of_le _ hj, hfinish]
    · intro j hj
      obtain ⟨i, rfl⟩ := Nat.exists_eq_succ_of_ne_zero (Nat.ne_zero_of_lt hj)
      rw [next_after_of_le _ hj.le, ← next_after, next_after_of_le _ (Nat.le_of_lt_succ hj)]
    · rw [position, taken_of_next?_eq_none _ (next?_after_length _), length_rest_after]
      apply Nat.add_sub_of_le (position_le _ _)
    · rw [List.range_succ, List.map_append, ← steps_eq_map_range, List.map_singleton,
        next_after_of_le _ le_rfl]
      apply TokenStream.tokens_eq_mapM

end SilFront
