import SilFront.Proofs.Expansion
import SilFront.Proofs.Locations
import SilFront.Proofs.Quoting

/-!
# A line break separates

No lexeme goes beyond the end of a line, so what stands before a line break is read in the same way
whatever follows it, as long as it can be read at all: a word or a number ends there, and so does a
line comment. What follows is read in the same way as on its own, but so many lines further down.

So the tokens of a text that can be read, with a line break and another text after it, are the tokens
of the one and then those of the other (`TokenStream.ofText_append_newline`), and an error of the
other text is the error of both (`tokenize_append_newline`).
-/

namespace SilFront

namespace Token

variable (more : List Char)

/-- What a text begins with does not depend on what follows a line break after it. -/
theorem ne_cons_of_append_newline {c : Char} (hc : c ≠ '\n') {rest : List Char}
    (h : ∀ tail, rest ≠ c :: tail) (tail : List Char) :
  rest ++ '\n' :: more ≠ c :: tail
  := by
  intro heq
  cases rest with
  | nil => exact hc (List.cons.inj heq).1.symm
  | cons c' rest =>
    obtain ⟨rfl, -⟩ := List.cons.inj heq
    apply h rest rfl

/-- A word ends at a newline. -/
theorem scanWord_append_newline (first : Char) (rest : List Char) :
  scanWord first (rest ++ '\n' :: more) = scanWord first rest
  := by
  rw [scanWord, scanWord, takeWhile_append_cons rfl]

/-- The digits of a base end at a newline. -/
theorem scanRadix_append_newline (radix : Radix) (rest : List Char) :
  scanRadix radix (rest ++ '\n' :: more) = scanRadix radix rest
  := by
  rw [scanRadix, scanRadix, takeWhile_append_cons rfl]

/-- The digits of an exponent end at a newline. -/
theorem scanExponentDigits_append_newline (sign : Int) (rest : List Char) :
  scanExponentDigits sign (rest ++ '\n' :: more) = scanExponentDigits sign rest
  := by
  rw [scanExponentDigits, scanExponentDigits, takeWhile_append_cons rfl]

theorem scanExponent_append_newline (rest : List Char) :
  scanExponent (rest ++ '\n' :: more) = scanExponent rest
  := by
  fun_cases scanExponent rest with
  | case1 rest => rw [List.cons_append, scanExponent, scanExponentDigits_append_newline]
  | case2 rest => rw [List.cons_append, scanExponent, scanExponentDigits_append_newline]
  | case3 _ hplus hminus =>
    rw [scanExponent, scanExponentDigits_append_newline]
    · apply ne_cons_of_append_newline more (by decide) hplus
    · apply ne_cons_of_append_newline more (by decide) hminus

theorem scanScale_append_newline (whole fraction rest : List Char) :
  scanScale whole fraction (rest ++ '\n' :: more) = scanScale whole fraction rest
  := by
  cases rest with
  | nil => rfl
  | cons c rest => rw [List.cons_append, scanScale, scanScale, scanExponent_append_newline]

/-- A fraction ends at a newline. -/
theorem scanFraction_append_newline (whole rest : List Char) :
  scanFraction whole (rest ++ '\n' :: more) = scanFraction whole rest
  := by
  rw [scanFraction, scanFraction, takeWhile_append_cons rfl, drop_takeWhile_append,
    scanScale_append_newline]

/-- A number that can be read. -/
theorem inRange_congr {text text' : List Char} {s : Scan Float} {number : Number}
    (h : (inRange text s).result = .ok number) :
  inRange text' s = inRange text s
  := by
  revert h
  fun_cases inRange text s with
  | case1 _ hresult => simp [inRange, hresult]
  | case2 x hresult hfinite => simp [inRange, hresult, hfinite]
  | case3 => rintro ⟨⟩

/-- A number that is read ends at a newline. One that is refused may be blamed on the newline. -/
theorem scanNumber_append_newline {first : Char} {rest : List Char} {number : Number}
    (h : (scanNumber first rest).result = .ok number) :
  scanNumber first (rest ++ '\n' :: more) = scanNumber first rest
  := by
  have hdigit : Char.isDigit '\n' = false := rfl
  unfold scanNumber at h ⊢
  simp only [takeWhile_append_cons hdigit, drop_takeWhile_append] at h ⊢
  cases htail : rest.drop (rest.takeWhile Char.isDigit).length with
  | nil => rfl
  | cons c tail =>
    rw [htail] at h
    simp only [List.cons_append] at h ⊢
    generalize Radix.ofLetter? c = radix at h ⊢
    cases radix with
    | some radix => simp only [scanRadix_append_newline]
    | none =>
      simp only [scanFraction_append_newline] at h ⊢
      rw [← @List.cons_append _ c, scanScale_append_newline]
      by_cases hpoint : c = '.'
      · simp only [hpoint, if_true] at h ⊢
        apply inRange_congr h
      by_cases hmark : isExponentMark c
      · simp only [hpoint, hmark, if_true, if_false] at h ⊢
        apply inRange_congr h
      · rw [if_neg hpoint, if_neg hpoint, if_neg hmark, if_neg hmark]

theorem scanEquals_append_newline (short long : Mark) (rest : List Char) :
  scanEquals short long (rest ++ '\n' :: more) = scanEquals short long rest
  := by
  fun_cases scanEquals short long rest with
  | case1 rest => rfl
  | case2 _ hequals =>
    rw [scanEquals]
    apply ne_cons_of_append_newline more (by decide) hequals

/-- A mark ends at a newline. -/
theorem scanMark_append_newline (first : Char) (rest : List Char) :
  scanMark first (rest ++ '\n' :: more) = scanMark first rest
  := by
  fun_cases scanMark first rest
  case case1 | case2 | case3 => apply scanEquals_append_newline
  case case5 hequals =>
    rw [scanMark]
    apply ne_cons_of_append_newline more (by decide) hequals
  case case18 => rw [scanMark] <;> assumption
  all_goals rfl

/-- A string that is closed ends before a newline. -/
theorem scanString_append_newline {rest contents : List Char}
    (h : (scanString rest).result = .ok contents) :
  scanString (rest ++ '\n' :: more) = scanString rest
  := by
  obtain ⟨body, htake, hbody⟩ := stringBody_of_scanString h
  have hrest : rest = body ++ '"' :: rest.drop (scanString rest).used := by
    rw [← List.singleton_append, ← List.append_assoc, ← htake, List.take_append_drop]
  rw [hrest, List.append_assoc, List.cons_append, scanString_of_stringBody hbody,
    scanString_of_stringBody hbody]

/-- A token is read in the same way if a line break follows it. -/
theorem scan_append_newline {first : Char} {rest : List Char} {token : Token}
    (h : (scan first rest).result = .ok token) :
  scan first (rest ++ '\n' :: more) = scan first rest
  := by
  unfold scan at h ⊢
  split
  · rw [if_pos ‹_›] at h
    obtain ⟨contents, hcontents, -⟩ := Scan.result_map_eq_ok_iff.mp h
    rw [scanString_append_newline more hcontents]
  · rw [if_neg ‹_›] at h
    split
    · rw [if_pos ‹_›] at h
      obtain ⟨number, hnumber, -⟩ := Scan.result_map_eq_ok_iff.mp h
      rw [scanNumber_append_newline more hnumber]
    · rw [scanWord_append_newline, scanMark_append_newline]

/-! ### Lexemes -/

/-- There is no newline in a string. -/
theorem newline_notMem_of_stringBody {body contents : List Char} (h : StringBody body contents) :
  '\n' ∉ body
  := by
  induction h with
  | nil => simp
  | printable hprintable _ _ _ ih =>
    rw [List.mem_cons]
    rintro (rfl | hbody)
    · cases hprintable
    · apply ih hbody
  | escape hletter _ ih =>
    simp only [List.mem_cons, Char.reduceEq, false_or]
    rintro (rfl | hbody)
    · cases hletter
    · apply ih hbody
  | hex hhigh hlow _ ih =>
    simp only [List.mem_cons, Char.reduceEq, false_or]
    rintro (rfl | rfl | hbody)
    · cases hhigh
    · cases hlow
    · apply ih hbody

/-- There is no line break in a lexeme. -/
theorem newline_notMem_of_spelledBy {token : Token} {lexeme : List Char}
    (h : token.SpelledBy lexeme) :
  '\n' ∉ lexeme
  := by
  have hrun : ∀ {text : List Char}, (∀ c ∈ text, Fragment.isNumberPart c) → '\n' ∉ text := by
    intro text htext hmem
    cases htext _ hmem
  have hnumber : ∀ {number}, (Token.number number).SpelledBy lexeme → '\n' ∉ lexeme := by
    intro number h
    rcases Fragment.isRun_of_spelledBy h with h | ⟨front, sign, back, rfl, hfront, hback, hsign⟩
    · apply hrun h.2
    · rw [List.mem_append, List.mem_cons]
      rintro (hmem | rfl | hmem)
      · apply hrun hfront.2 hmem
      · simp at hsign
      · apply hrun hback.2 hmem
  cases h with
  | keyword k => apply hrun (Fragment.isNumberPart_of_spelledBy (.keyword k) rfl)
  | ident hfirst htail hkeyword =>
    apply hrun (Fragment.isNumberPart_of_spelledBy (.ident hfirst htail hkeyword) rfl)
  | mark m => cases m <;> decide
  | decimal hvalue hn => apply hnumber (.decimal hvalue hn)
  | radix hvalue hn => apply hnumber (.radix hvalue hn)
  | fraction hmantissa hplaces hfinite => apply hnumber (.fraction hmantissa hplaces hfinite)
  | scaled hmantissa hexponent hfinite => apply hnumber (.scaled hmantissa hexponent hfinite)
  | string hbody => simpa using newline_notMem_of_stringBody hbody

/-- A token is read from the text that there is. -/
theorem used_le_of_scan {first : Char} {rest : List Char} {token : Token}
    (h : (scan first rest).result = .ok token) :
  (scan first rest).used ≤ rest.length
  := by
  -- otherwise it would be spelled with the line break that may follow
  by_contra hlt
  have hscan := scan_append_newline [] h
  have hspelled := (spelledBy_of_scan (hscan ▸ h)).1
  rw [hscan, List.take_of_length_le] at hspelled
  · apply newline_notMem_of_spelledBy hspelled
    simp
  · rw [List.length_append]
    apply Nat.lt_of_not_le hlt

end Token

/-! ### Gaps -/

namespace Gap

theorem after_after (m n : Nat) (g : Gap) :
  (g.after n).after m = g.after (m + n)
  := by rw [after, after, after, Nat.add_assoc]

/-- The gap at the beginning of a text is `g`, and `g'` is the one with a line break and more text
after it: if the gap takes all of the text, then it goes on after the line break. -/
def Continued (more text : List Char) (g g' : Gap) : Prop :=
  g' = if text.drop g.length = [] then (of more).after (text.length + 1) else g

namespace Continued

variable {more text : List Char} {g g' : Gap}

theorem cons (h : Continued more text g g') (c : Char) :
  Continued more (c :: text) (g.after 1) (g'.after 1)
  := by
  have hdrop : (c :: text).drop (g.after 1).length = text.drop g.length := by
    rw [after, Nat.add_comm, List.drop_succ_cons]
  rw [Continued] at h ⊢
  rw [h, hdrop, List.length_cons, apply_ite (after 1), after_after, Nat.add_comm 1]

theorem cons_cons (h : Continued more text g g') (c c' : Char) :
  Continued more (c :: c' :: text) (g.after 2) (g'.after 2)
  := by
  rw [← after_after 1 1, ← after_after 1 1]
  apply (h.cons c').cons c

end Continued

/-- A gap that is closed by the end of a text goes on after a newline as one does there. -/
theorem continued_scan (more : List Char) {place : Place} {text : List Char}
    (hclosed : (scan place text).unclosed = none) :
  Continued more text (scan place text) (scan place (text ++ '\n' :: more))
  := by
  fun_induction scan place text with
  | case1 rest ih =>
    rw [List.cons_append, List.cons_append, scan]
    apply (ih hclosed).cons_cons
  | case2 rest hrest ih =>
    rw [List.cons_append, scan]
    · apply (ih hclosed).cons
    · apply Token.ne_cons_of_append_newline more (by decide) hrest
  | case3 c rest _ hhash hblank ih =>
    rw [List.cons_append, scan, if_pos hblank]
    · apply (ih hclosed).cons
    · intro _ hc
      exact absurd hc hhash
    · exact hhash
  | case4 c rest _ hhash hblank =>
    rw [List.cons_append, scan, if_neg hblank]
    · rfl
    · intro _ hc
      exact absurd hc hhash
    · exact hhash
  | case5 c rest ih =>
    rw [List.cons_append, scan]
    apply (ih hclosed).cons
  | case6 n rest ih =>
    rw [List.cons_append, List.cons_append, scan]
    apply (ih hclosed).cons_cons
  | case7 n c rest hc ih =>
    rw [List.cons_append, scan]
    · apply (ih hclosed).cons
    · intro tail hhash
      apply Token.ne_cons_of_append_newline more (by decide) fun rest' => hc rest' hhash
  | case8 => cases hclosed
  | case9 place hplace =>
    cases place with
    | blank => rfl
    | line => rfl
    | block n => cases hplace n rfl

/-- A gap before a token does not depend on what follows a later newline. -/
theorem of_append_newline_of_ne_nil {text : List Char} (more : List Char)
    (hclosed : (of text).unclosed = none) (h : text.drop (of text).length ≠ []) :
  of (text ++ '\n' :: more) = of text
  := (continued_scan more hclosed).trans (if_neg h)

/-- A gap up to the end of a text goes on with the gap after the newline. -/
theorem of_append_newline_of_eq_nil {text : List Char} (more : List Char)
    (hclosed : (of text).unclosed = none) (h : text.drop (of text).length = []) :
  of (text ++ '\n' :: more) = (of more).after (text.length + 1)
  := (continued_scan more hclosed).trans (if_pos h)

/-- The number of characters that are read of an open block comment. -/
def Place.opened : Place → Nat
  | .block n => n
  | _ => 0

/-- A comment that is not closed was opened within the gap. -/
theorem unclosed_le_of_scan {place : Place} {text : List Char} {m : Nat}
    (h : (scan place text).unclosed = some m) :
  m ≤ place.opened + (scan place text).length
  := by
  fun_induction scan place text with
  | case1 rest ih | case2 rest _ ih | case3 _ rest _ _ _ ih | case6 _ rest ih | case7 _ _ rest _ ih =>
    have hrest := ih h
    simp only [after, Place.opened] at hrest ⊢
    omega
  | case5 c rest ih =>
    have hrest := ih h
    have hplace : (if c = '\n' then Place.blank else .line).opened = 0 := by split <;> rfl
    rw [hplace] at hrest
    simp only [after]
    omega
  | case8 n =>
    obtain rfl := Option.some.inj h
    apply Nat.le_add_right
  | case4 | case9 => cases h

/-- An open comment is no longer than the gap. -/
theorem unclosed_le_length {text : List Char} {m : Nat} (h : (of text).unclosed = some m) :
  m ≤ (of text).length
  := by
  have hle := unclosed_le_of_scan h
  rwa [show Place.blank.opened = 0 from rfl, Nat.zero_add] at hle

end Gap

/-! ### Steps -/

namespace Cursor

/-- A cursor with a line break and more text after its own text. -/
def followedBy (c : Cursor) (more : List Char) : Cursor :=
  ⟨c.rest ++ '\n' :: more, c.location⟩

/-- When reading answers with a token. -/
theorem next?_eq_ok_iff {c c' : Cursor} {t : Located Token} :
  c.next? = some (.ok t, c') ↔
    ∃ first rest, (Gap.of c.rest).unclosed = none ∧ c.skip.rest = first :: rest ∧
      (Token.scan first rest).result = .ok t.value ∧ t.location = c.skip.location ∧
      c' = c.skip.advance ((Token.scan first rest).used + 1)
  := by
  constructor
  · intro h
    unfold next? at h
    split at h
    · cases h
    · cases h
    · rename_i first rest hclosed hskip
      use first, rest, hclosed, hskip
      obtain ⟨hstep, rfl⟩ := Prod.mk.inj (Option.some.inj h)
      split at hstep
      · rename_i token hresult
        obtain rfl := Except.ok.inj hstep
        exact ⟨hresult, rfl, rfl⟩
      · cases hstep
  · rintro ⟨first, rest, hclosed, hskip, hresult, hlocation, rfl⟩
    rw [next?, hclosed, hskip]
    simp only [read, hresult, ← hlocation]

/-- A cursor advances within its text whatever follows. -/
theorem advance_followedBy {c : Cursor} {n : Nat} (h : n ≤ c.rest.length) (more : List Char) :
  (c.followedBy more).advance n = (c.advance n).followedBy more
  := by
  rw [advance, advance, followedBy, followedBy, locationAt, locationAt,
    List.drop_append_of_le_length h, List.take_append_of_le_length h]

/-- A token is read in the same way if a line break follows somewhere after it. -/
theorem next?_followedBy {c c' : Cursor} {t : Located Token} (h : c.next? = some (.ok t, c'))
    (more : List Char) :
  (c.followedBy more).next? = some (.ok t, c'.followedBy more)
  := by
  obtain ⟨first, rest, hclosed, hskip, hresult, hlocation, rfl⟩ := next?_eq_ok_iff.mp h
  have hdrop : c.rest.drop (Gap.of c.rest).length ≠ [] := by
    rw [show c.rest.drop (Gap.of c.rest).length = first :: rest from hskip]
    apply List.cons_ne_nil
  have hgap : Gap.of (c.followedBy more).rest = Gap.of c.rest :=
    Gap.of_append_newline_of_ne_nil more hclosed hdrop
  have hskip' : (c.followedBy more).skip = c.skip.followedBy more := by
    rw [skip, hgap, advance_followedBy, skip]
    apply Nat.le_of_not_le (mt List.drop_eq_nil_of_le hdrop)
  have hscan := Token.scan_append_newline more hresult
  apply next?_eq_ok_iff.mpr
  use first, rest ++ '\n' :: more
  rw [hgap, hskip', hscan, advance_followedBy]
  · refine ⟨hclosed, ?_, hresult, hlocation, rfl⟩
    rw [followedBy, hskip, List.cons_append]
  · rw [hskip, List.length_cons, Nat.add_le_add_iff_right]
    apply Token.used_le_of_scan hresult

/-- It makes no difference where in a gap reading begins. -/
theorem next?_advance {c : Cursor} {n : Nat} (h : Gap.of c.rest = (Gap.of (c.rest.drop n)).after n) :
  c.next? = (c.advance n).next?
  := by
  have hskip : c.skip = (c.advance n).skip := by
    rw [skip, skip, advance_advance, h]
    rfl
  rw [next?, next?, hskip, h, rest_advance]
  cases hunclosed : (Gap.of (c.rest.drop n)).unclosed with
  | none =>
    simp only [Gap.after, hunclosed]
    cases (c.advance n).skip.rest <;> rfl
  | some m =>
    have hle := Gap.unclosed_le_length hunclosed
    simp only [Gap.after, hunclosed]
    rw [locationAt_advance, Nat.add_sub_assoc hle]

/-- Cursors that take the same next step take the same steps. -/
theorem steps_eq_of_next?_eq {c c' : Cursor} (h : c.next? = c'.next?) :
  c.steps = c'.steps
  := by
  rcases hnext : c'.next? with _ | ⟨step, c''⟩
  · rw [steps_of_next?_eq_none hnext, steps_of_next?_eq_none (h.trans hnext)]
  · rw [steps_of_next?_eq_some hnext, steps_of_next?_eq_some (h.trans hnext)]

/-- If all of a text can be read, then a line break after it and more text are read as that text and
then the other one, from the next line on. -/
theorem steps_followedBy {c : Cursor} (h : ∀ e, .error e ∉ c.steps) (more : List Char) :
  (c.followedBy more).steps =
    c.steps ++ (⟨more, (c.location.after c.rest).next '\n'⟩ : Cursor).steps
  := by
  induction c using steps.induct with
  | case1 c hnext =>
    have hclosed : (Gap.of c.rest).unclosed = none := by
      cases hunclosed : (Gap.of c.rest).unclosed with
      | none => rfl
      | some n =>
        rw [next?, hunclosed] at hnext
        cases hnext
    have hgap : Gap.of (c.followedBy more).rest = (Gap.of more).after (c.rest.length + 1) :=
      Gap.of_append_newline_of_eq_nil more hclosed (filler_of_next?_eq_none hnext).2
    have hdrop : (c.followedBy more).rest.drop (c.rest.length + 1) = more :=
      List.drop_length_add_append ..
    have hline : (c.followedBy more).advance (c.rest.length + 1) =
        ⟨more, (c.location.after c.rest).next '\n'⟩ := by
      rw [advance, hdrop, locationAt, followedBy, List.take_length_add_append,
        Location.after_append]
      rfl
    rw [steps_of_next?_eq_none hnext, List.nil_append, ← hline]
    apply steps_eq_of_next?_eq
    apply next?_advance
    rw [hgap, hdrop]
  | case2 c step c' hnext ih =>
    rw [steps_of_next?_eq_some hnext] at h ⊢
    cases step with
    | error e => exact absurd List.mem_cons_self (h e)
    | ok t =>
      rw [steps_of_next?_eq_some (next?_followedBy hnext more), ih, List.cons_append,
        location_after_rest_of_next? hnext]
      intro e he
      apply h e (List.mem_cons_of_mem _ he)

end Cursor

/-! ### Further down -/

/-- The same place `k` lines further down. -/
def Location.below (k : Nat) (l : Location) : Location :=
  ⟨l.line + k, l.column⟩

/-- The same thing `k` lines further down. -/
def Located.below {α : Type} (k : Nat) (x : Located α) : Located α :=
  ⟨x.value, x.location.below k⟩

/-- The same answer `k` lines further down. -/
def Step.below (k : Nat) : Step → Step
  | .ok t => .ok (t.below k)
  | .error e => .error (e.below k)

/-- The same text `k` lines further down. -/
def Cursor.below (k : Nat) (c : Cursor) : Cursor :=
  ⟨c.rest, c.location.below k⟩

/-- The same stream `k` lines further down. -/
def TokenStream.below (k : Nat) (stream : TokenStream) : TokenStream :=
  ⟨stream.steps.map (Step.below k), stream.finish.below k⟩

variable (k : Nat)

/-- Locations move on alike some lines further below. -/
theorem Location.after_below (l : Location) (text : List Char) :
  (l.below k).after text = (l.after text).below k
  := by
  induction text generalizing l with
  | nil => rfl
  | cons c text ih =>
    have hnext : (l.below k).next c = (l.next c).below k := by
      rw [next, next]
      split
      · rw [below, below, Nat.add_right_comm]
      · rfl
    rw [after_cons, after_cons, hnext, ih]

namespace Cursor

variable (c : Cursor)

theorem locationAt_below (n : Nat) :
  (c.below k).locationAt n = (c.locationAt n).below k
  := Location.after_below ..

theorem advance_below (n : Nat) :
  (c.below k).advance n = (c.advance n).below k
  := by
  rw [advance, locationAt_below]
  rfl

theorem skip_below :
  (c.below k).skip = c.skip.below k
  := advance_below ..

theorem blamed_below (n : Nat) (b : Blame) :
  (c.below k).blamed n b = (c.blamed n b).below k
  := by
  cases b with
  | first => rfl
  | next => apply locationAt_below
  | last => apply locationAt_below

/-- Some lines further below, the same is read, with its location below as well. -/
theorem read_below (first : Char) (rest : List Char) :
  (c.below k).read first rest =
    ((c.read first rest).1.below k, (c.read first rest).2.below k)
  := by
  simp only [read, blamed_below, advance_below]
  cases (Token.scan first rest).result <;> rfl

theorem next?_below :
  (c.below k).next? = c.next?.map fun answer => (answer.1.below k, answer.2.below k)
  := by
  have hrest : (c.below k).rest = c.rest := rfl
  have hrest' : (c.skip.below k).rest = c.skip.rest := rfl
  rw [next?, next?, skip_below, hrest, hrest']
  cases (Gap.of c.rest).unclosed with
  | some n =>
    simp only [locationAt_below]
    rfl
  | none =>
    cases c.skip.rest with
    | nil => rfl
    | cons first rest => simp only [read_below, Option.map_some]

/-- Some lines further below, the same steps are taken. -/
theorem steps_below :
  (c.below k).steps = c.steps.map (Step.below k)
  := by
  induction c using steps.induct with
  | case1 c hnext =>
    have hbelow : (c.below k).next? = none := by rw [next?_below, hnext, Option.map_none]
    rw [steps_of_next?_eq_none hnext, steps_of_next?_eq_none hbelow, List.map_nil]
  | case2 c step c' hnext ih =>
    have hbelow : (c.below k).next? = some (step.below k, c'.below k) := by
      rw [next?_below, hnext, Option.map_some]
    rw [steps_of_next?_eq_some hnext, steps_of_next?_eq_some hbelow, List.map_cons, ih]

end Cursor

theorem TokenStream.next_below (stream : TokenStream) :
  (stream.below k).next = (stream.next.1.below k, stream.next.2.below k)
  := by
  obtain ⟨steps, finish⟩ := stream
  cases steps <;> rfl

/-- If all of a text can be read, then it is read in the same way when a line break and another text
follow it, and the other text is read in the same way but for the lines before it. -/
theorem TokenStream.ofText_append_newline {source : String}
    (h : ∀ e, .error e ∉ (ofText source).steps) (more : String) :
  ofText (source ++ "\n" ++ more) =
    ⟨(ofText source).steps ++ ((ofText more).below (source.toList.count '\n' + 1)).steps,
      ((ofText more).below (source.toList.count '\n' + 1)).finish⟩
  := by
  have htext : (source ++ "\n" ++ more).toList = source.toList ++ '\n' :: more.toList := by
    simp
  have hline : (Location.start.after source.toList).next '\n' =
      Location.start.below (source.toList.count '\n' + 1) := by
    rw [Location.after_start, Location.counted, Location.next, if_pos rfl, Location.below,
      Nat.add_comm]
    rfl
  have hcursor : Cursor.ofText (source ++ "\n" ++ more) =
      (Cursor.ofText source).followedBy more.toList := by
    rw [Cursor.ofText, htext]
    rfl
  have hsteps := Cursor.steps_followedBy h more.toList
  rw [show (Cursor.ofText source).location.after (Cursor.ofText source).rest =
    Location.start.after source.toList from rfl, hline] at hsteps
  rw [ofText, hcursor, hsteps, htext, Location.after_append, Location.after_cons, hline,
    Location.after_below]
  congr
  apply Cursor.steps_below _ (.ofText more)

/-! ### Tokens or an error -/

namespace TokenStream

/-- Tokens before other steps are all read, and an error among the others remains. -/
theorem mapM_id_append (ts : List (Located Token)) (steps : List Step) :
  (ts.map Except.ok ++ steps).mapM id = (steps.mapM id).map (ts ++ ·)
  := by
  induction ts with
  | nil => cases h : steps.mapM id <;> simp [h, Except.map]
  | cons t ts ih =>
    rw [List.map_cons, List.cons_append, List.mapM_cons, ih]
    cases steps.mapM id <;> rfl

/-- Tokens before a stream are tokens before those of the stream, if it has any. -/
theorem tokens_append (ts : List (Located Token)) (stream : TokenStream) :
  tokens ⟨ts.map .ok ++ stream.steps, stream.finish⟩ = stream.tokens.map (ts ++ ·)
  := by
  rw [tokens, tokens, mapM_id_append]
  cases stream.steps.mapM id with
  | error e => rfl
  | ok us => exact congrArg Except.ok (List.append_assoc ..)

/-- Moving all steps below moves the tokens, or the error. -/
theorem mapM_id_below (steps : List Step) :
  (steps.map (Step.below k)).mapM id =
    ((steps.mapM id).map (List.map (.below k))).mapError (.below k)
  := by
  induction steps with
  | nil => rfl
  | cons step steps ih =>
    rw [List.map_cons, List.mapM_cons, List.mapM_cons, ih]
    cases step with
    | error e => rfl
    | ok t => cases steps.mapM id <;> rfl

/-- Further down, a stream has the same tokens or the same error further down. -/
theorem tokens_below (stream : TokenStream) :
  (stream.below k).tokens = (stream.tokens.map (List.map (.below k))).mapError (.below k)
  := by
  rw [tokens, tokens, below, mapM_id_below]
  cases stream.steps.mapM id with
  | error e => rfl
  | ok us =>
    change Except.ok _ = Except.ok (List.map _ (us ++ [_]))
    rw [List.map_append]
    rfl

end TokenStream

/-- A text with tokens, a line break and another text have the tokens of the one and then those of the
other, so many lines further down, and if the other text has an error then they have that one. -/
theorem tokenize_append_newline {source : String} {tokens : List (Located Token)}
    (h : tokenize source = .ok tokens) (more : String) :
  ∃ ts finish, tokens = ts ++ [⟨.eof, finish⟩] ∧ (∀ t ∈ ts, t.value ≠ .eof) ∧
    tokenize (source ++ "\n" ++ more) =
      ((tokenize more).map fun us => ts ++ us.map (.below (source.toList.count '\n' + 1))).mapError
        (.below (source.toList.count '\n' + 1))
  := by
  obtain ⟨ts, hsteps, rfl⟩ := TokenStream.tokens_eq_ok_iff.mp h
  use ts, (TokenStream.ofText source).finish, rfl
  constructor
  · intro t ht
    apply Cursor.value_ne_eof_of_mem_steps (.ofText source)
    rw [show (Cursor.ofText source).steps = ts.map .ok from hsteps]
    apply List.mem_map_of_mem ht
  · have hclean : ∀ e, .error e ∉ (TokenStream.ofText source).steps := by simp [hsteps]
    rw [tokenize, TokenStream.ofText_append_newline hclean more, hsteps, TokenStream.tokens_append,
      TokenStream.tokens_below, tokenize]
    cases (TokenStream.ofText more).tokens <;> rfl

/-- A text with comments and numbers, with one more line that is read, and with one that is refused
at its own place. -/
theorem tokenize_append_newline_comment :
  tokenize "x ## a\n## 0x1F # b" =
      .ok [⟨.ident "x", ⟨1, 1⟩⟩, ⟨.number (.int 31), ⟨2, 4⟩⟩, ⟨.eof, ⟨2, 12⟩⟩] ∧
    tokenize ("x ## a\n## 0x1F # b" ++ "\n" ++ " y ") =
      .ok [⟨.ident "x", ⟨1, 1⟩⟩, ⟨.number (.int 31), ⟨2, 4⟩⟩, ⟨.ident "y", ⟨3, 2⟩⟩, ⟨.eof, ⟨3, 4⟩⟩] ∧
    tokenize ("x ## a\n## 0x1F # b" ++ "\n" ++ " y !") = .error ⟨.loneBang, ⟨3, 4⟩⟩
  := by
  have hsource : tokenize "x ## a\n## 0x1F # b" =
      .ok ([⟨.ident "x", ⟨1, 1⟩⟩, ⟨.number (.int 31), ⟨2, 4⟩⟩] ++ [⟨.eof, ⟨2, 12⟩⟩]) := by
    decide +kernel
  have htokens : tokenize " y " = .ok [⟨.ident "y", ⟨1, 2⟩⟩, ⟨.eof, ⟨1, 4⟩⟩] := by decide +kernel
  have herror : tokenize " y !" = .error ⟨.loneBang, ⟨1, 4⟩⟩ := by decide +kernel
  use hsource
  constructor
  · obtain ⟨ts, finish, hts, -, hboth⟩ := tokenize_append_newline hsource " y "
    obtain ⟨rfl, -⟩ := List.append_inj' hts rfl
    rw [hboth, htokens]
    decide +kernel
  · obtain ⟨ts, finish, -, -, hboth⟩ := tokenize_append_newline hsource " y !"
    rw [hboth, herror]
    rfl

end SilFront
