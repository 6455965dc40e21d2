import Mathlib.Data.List.Infix
import SilFront.Proofs.FragmentRuns
import SilFront.Proofs.LineBreak

/-!
# Texts in turn

No fragment but a block comment goes beyond the end of a line, except that the name of a file may
stand on a later line than the directive that calls for it. So if a text ends with a line, can be cut
and leaves no block comment open, then it is cut in the same way whatever follows it
(`Fragment.cut_append`), and what follows is cut as on its own, but for the lines that errors blame
(`Fragment.cut_below`).

Expanding two such texts at once is therefore expanding them in turn, and a call for a file stands for
the text of the file (`Session.expand_in_turn`).
-/

namespace SilFront

/-! ### Ends of lines -/

namespace Text

/-- A text is empty or ends with a line. -/
def EndsLine (text : List Char) : Prop :=
  text = [] ∨ text.getLast? = some '\n'

instance (text : List Char) : Decidable (EndsLine text) :=
  inferInstanceAs (Decidable (_ ∨ _))

theorem EndsLine.drop {text : List Char} (h : EndsLine text) (n : Nat) :
  EndsLine (text.drop n)
  := by
  by_cases hn : text.length ≤ n
  · left
    apply List.drop_eq_nil_of_le hn
  · right
    rw [List.getLast?_drop, if_neg hn]
    apply h.resolve_left
    rintro rfl
    exact hn (Nat.zero_le n)

/-- A text that ends with a line has a newline after any character that is none. -/
theorem EndsLine.exists_eq {first : Char} {rest : List Char} (h : EndsLine (first :: rest))
    (hfirst : first ≠ '\n') :
  ∃ text, rest = text ++ ['\n']
  := by
  rcases rest.eq_nil_or_concat with rfl | ⟨text, last, rfl⟩
  · simp [EndsLine, hfirst] at h
  · use text
    rw [List.concat_eq_append] at h ⊢
    obtain h | h := h
    · cases h
    · rw [← List.cons_append, List.getLast?_concat] at h
      rw [Option.some.inj h]

end Text

/-! ### Lines further down -/

/-- The reason `k` lines further down. -/
def DirectiveError.below (k : Nat) : DirectiveError → DirectiveError
  | .unknownCommand command line => .unknownCommand command (line + k)
  | .missingInclude line => .missingInclude (line + k)
  | .unclosedInclude line => .unclosedInclude (line + k)
  | .missingName line => .missingName (line + k)

namespace Fragment

/-- The fragment `k` lines further down. -/
def below (k : Nat) : Fragment → Fragment
  | .fault cause => .fault (cause.below k)
  | fragment => fragment

theorem scanInclusion_below (line k : Nat) (text : List Char) :
  scanInclusion (line + k) text =
    ((scanInclusion line text).1.below k, (scanInclusion line text).2)
  := by
  simp only [scanInclusion, Nat.add_right_comm line k]
  split
  · split <;> rfl
  · rfl

theorem scanDefinition_below (line k : Nat) (text : List Char) :
  scanDefinition (line + k) text =
    ((scanDefinition line text).1.below k, (scanDefinition line text).2)
  := by
  unfold scanDefinition
  dsimp only
  split <;> rfl

theorem scanDirective_below (line k : Nat) (text : List Char) :
  scanDirective (line + k) text =
    ((scanDirective line text).1.below k, (scanDirective line text).2)
  := by
  unfold scanDirective
  dsimp only
  split
  · rw [scanInclusion_below]
  · rw [scanDefinition_below]
  · rfl

theorem scan_below (line k : Nat) (first : Char) (rest : List Char) :
  scan (line + k) first rest = ((scan line first rest).1.below k, (scan line first rest).2)
  := by
  unfold scan
  dsimp only
  split
  · apply scanDirective_below
  · repeat' split
    all_goals rfl

/-- A text is cut in the same way further down. -/
theorem cut_below (line k : Nat) (text : List Char) :
  cut (line + k) text = (cut line text).map (below k)
  := by
  fun_induction cut line text with
  | case1 line => rw [cut, List.map_nil]
  | case2 line first rest cause n hscan =>
    rw [cut, scan_below, hscan]
    rfl
  | case3 line first rest fragment n hfault hscan ih =>
    rw [cut, scan_below, hscan, List.map_cons, ← ih, Nat.add_right_comm line _ k]
    cases fragment with
    | fault cause => cases hfault cause rfl
    | _ => rfl

/-! ### Fragments before the end of a line -/

theorem stringLength_append_newline (text more : List Char) :
  stringLength (text ++ '\n' :: more) = stringLength text
  := by
  fun_induction stringLength text with
  | case1 => rfl
  | case2 => rfl
  | case3 => rfl
  | case4 => rfl
  | case5 => rfl
  | case6 c rest hnewline ih =>
    rw [List.cons_append, List.cons_append, stringLength_escape hnewline, ih]
  | case7 c rest hnewline hquote hlast hbreak hescape ih =>
    have hc : c ≠ '\\' := by
      rintro rfl
      cases rest with
      | nil => exact hlast rfl rfl
      | cons letter rest => exact hescape letter rest rfl rfl
    rw [List.cons_append, stringLength_cons hnewline hquote hc, ih]

theorem stringLength_le (text : List Char) :
  stringLength text ≤ text.length
  := by
  fun_induction stringLength text <;> simp_all

theorem blockLength_le (text : List Char) :
  blockLength text ≤ text.length
  := by
  fun_induction blockLength text <;> simp_all

/-- A block comment that is closed ends there, whatever follows. -/
theorem blockLength_append {text : List Char} (h : ['#', '#'] <:+: text) (more : List Char) :
  blockLength (text ++ more) = blockLength text
  := by
  fun_induction blockLength text with
  | case1 => simp at h
  | case2 => rfl
  | case3 c rest hnot ih =>
    have hrest : ['#', '#'] <:+: rest := by
      apply (List.infix_cons_iff.mp h).resolve_left
      intro hmark
      obtain ⟨rfl, tail, rfl⟩ := List.cons_prefix_cons.mp hmark
      exact hnot tail rfl rfl
    rw [List.cons_append, blockLength, ih hrest]
    intro tail hc htail
    cases rest with
    | nil => simp at hrest
    | cons c' rest =>
      obtain ⟨rfl, -⟩ := List.cons.inj htail
      exact hnot rest hc rfl

/-- What gives a word a meaning ends with its line. -/
theorem scanDefinition_append_newline (line : Nat) (text more : List Char) :
  scanDefinition line (text ++ '\n' :: more) = scanDefinition line text ∧
    (scanDefinition line text).2 ≤ text.length + 1
  := by
  have htake {p : Char → Bool} (hp : p '\n' = false) (rest : List Char) :
      (rest ++ '\n' :: more).takeWhile p = rest.takeWhile p :=
    takeWhile_append_cons hp rest more
  have hlength (p : Char → Bool) (rest : List Char) : (rest.takeWhile p).length ≤ rest.length :=
    (List.takeWhile_sublist p).length_le
  -- the blanks, the name, the gap and the meaning all stand before the newline
  have hblanks := hlength Text.isInlineBlank text
  have hname := hlength (fun c => !Text.isWhiteSpace c)
    (text.drop (text.takeWhile Text.isInlineBlank).length)
  unfold scanDefinition
  dsimp only
  rw [htake rfl, List.drop_append_of_le_length hblanks, htake rfl]
  generalize (text.takeWhile Text.isInlineBlank).length = blanks at hblanks hname ⊢
  generalize (text.drop blanks).takeWhile (fun c => !Text.isWhiteSpace c) = name at hname ⊢
  rw [List.length_drop] at hname
  have hrest : blanks + name.length ≤ text.length := by omega
  have hgap := hlength Text.isInlineBlank (text.drop (blanks + name.length))
  rw [List.drop_append_of_le_length hrest, htake rfl, List.drop_append_of_le_length hgap,
    htake (by simp)]
  split
  · exact ⟨rfl, Nat.zero_le _⟩
  · use rfl
    have hmeaning := hlength (· ≠ '\n') ((text.drop (blanks + name.length)).drop
      ((text.drop (blanks + name.length)).takeWhile Text.isInlineBlank).length)
    simp only [List.length_drop] at hgap hmeaning ⊢
    omega

/-- A call for a file: blanks, a quote, the name of the file and another quote. -/
theorem scanInclusion_eq_inclusion_iff {line n : Nat} {text : List Char} {file : String} :
  scanInclusion line text = (.inclusion file, n) ↔
    ∃ blanks rest, text = blanks ++ '"' :: (file.toList ++ '"' :: rest) ∧
      (∀ c ∈ blanks, Text.isWhiteSpace c) ∧ (∀ c ∈ file.toList, c ≠ '"' ∧ c ≠ '\n') ∧
      n = blanks.length + file.toList.length + 2
  := by
  have hsplit (p : Char → Bool) (rest : List Char) :
      rest = rest.takeWhile p ++ rest.drop (rest.takeWhile p).length :=
    (List.prefix_iff_eq_append.mp (List.takeWhile_prefix p)).symm
  constructor
  · intro h
    unfold scanInclusion at h
    dsimp only at h
    split at h
    · rename_i rest hquote
      split at h
      · rename_i rest' hquote'
        obtain ⟨hfile, rfl⟩ := Prod.mk.inj h
        obtain rfl := Fragment.inclusion.inj hfile
        rw [String.toList_ofList]
        refine ⟨text.takeWhile Text.isWhiteSpace, rest', ?_, ?_, ?_, rfl⟩
        · rw [← hquote', ← hsplit, ← hquote, ← hsplit]
        · intro c
          apply List.mem_takeWhile_imp
        · intro c hc
          simpa using List.mem_takeWhile_imp hc
      · cases h
    · cases h
  · rintro ⟨blanks, rest, rfl, hblanks, hfile, rfl⟩
    have hgap : (blanks ++ '"' :: (file.toList ++ '"' :: rest)).takeWhile Text.isWhiteSpace =
        blanks := by
      rw [takeWhile_append_cons rfl, List.takeWhile_eq_self_iff.mpr hblanks]
    have hname : (file.toList ++ '"' :: rest).takeWhile (fun c => c ≠ '"' ∧ c ≠ '\n') =
        file.toList := by
      rw [takeWhile_append_cons rfl, List.takeWhile_eq_self_iff.mpr (by simpa using hfile)]
    simp only [scanInclusion, hgap, List.drop_left, hname, String.ofList_toList]

/-- A call for a file does not depend on what follows it. -/
theorem scanInclusion_append {line : Nat} {text : List Char}
    (hfault : ∀ cause, (scanInclusion line text).1 ≠ .fault cause) (more : List Char) :
  scanInclusion line (text ++ more) = scanInclusion line text ∧
    (scanInclusion line text).2 ≤ text.length
  := by
  obtain ⟨file, hfile⟩ : ∃ file, (scanInclusion line text).1 = .inclusion file := by
    unfold scanInclusion at hfault ⊢
    dsimp only at hfault ⊢
    split at hfault
    · split at hfault
      · exact ⟨_, rfl⟩
      · cases hfault _ rfl
    · cases hfault _ rfl
  have h : scanInclusion line text = (.inclusion file, (scanInclusion line text).2) :=
    Prod.ext hfile rfl
  generalize (scanInclusion line text).2 = n at h ⊢
  obtain ⟨blanks, rest, rfl, hblanks, hname, rfl⟩ := scanInclusion_eq_inclusion_iff.mp h
  constructor
  · rw [h]
    apply scanInclusion_eq_inclusion_iff.mpr
    exact ⟨blanks, rest ++ more, by simp, hblanks, hname, rfl⟩
  · simp only [List.length_append, List.length_cons]
    omega

/-- A directive that can be read ends with its text, if that ends with a line. -/
theorem scanDirective_append {line : Nat} {text : List Char}
    (hfault : ∀ cause, (scanDirective line (text ++ ['\n'])).1 ≠ .fault cause) (more : List Char) :
  scanDirective line (text ++ '\n' :: more) = scanDirective line (text ++ ['\n']) ∧
    (scanDirective line (text ++ ['\n'])).2 ≤ text.length + 1
  := by
  have hlength := (List.takeWhile_sublist (fun c => !Text.isWhiteSpace c) (l := text)).length_le
  have hnewline : (!Text.isWhiteSpace '\n') = false := rfl
  unfold scanDirective at hfault ⊢
  dsimp only at hfault ⊢
  simp only [takeWhile_append_cons (p := fun c => !Text.isWhiteSpace c) hnewline] at hfault ⊢
  generalize text.takeWhile (fun c => !Text.isWhiteSpace c) = command at hlength hfault ⊢
  simp only [List.drop_append_of_le_length hlength] at hfault ⊢
  split
  · rename_i hcommand
    simp only [hcommand] at hfault
    have hinclusion := scanInclusion_append hfault more
    rw [List.append_assoc, List.singleton_append] at hinclusion
    rw [hinclusion.1]
    use rfl
    have hle := hinclusion.2
    simp only [List.length_append, List.length_drop, List.length_singleton] at hle
    omega
  · have hdefinition := scanDefinition_append_newline line (text.drop command.length)
    have hle := (hdefinition []).2
    rw [(hdefinition more).1, (hdefinition []).1]
    use rfl
    rw [List.length_drop] at hle
    omega
  · rename_i hcommand
    split at hfault
    · contradiction
    · contradiction
    · cases hfault _ rfl

/-- A fragment is a block comment that is not closed. -/
def LeftOpen : Fragment → Prop
  | .plain ('#' :: '#' :: body) => ¬ ['#', '#'] <:+: body
  | _ => False

instance : DecidablePred LeftOpen := fun fragment => by
  unfold LeftOpen
  split <;> infer_instance

/-- A comment that is not left open ends with its text, if that ends with a line. -/
theorem commentLength_append {text : List Char}
    (hopen : ¬ (plain ('#' :: (text ++ ['\n']).take (commentLength (text ++ ['\n'])))).LeftOpen)
    (more : List Char) :
  commentLength (text ++ '\n' :: more) = commentLength (text ++ ['\n']) ∧
    commentLength (text ++ ['\n']) ≤ text.length + 1
  := by
  cases text with
  | nil => exact ⟨rfl, Nat.zero_le _⟩
  | cons c text =>
    rw [List.cons_append] at hopen ⊢
    by_cases hc : c = '#'
    · subst hc
      rw [commentLength, List.take_succ_cons, LeftOpen, not_not] at hopen
      have hclosed : ['#', '#'] <:+: text ++ ['\n'] := hopen.trans (List.take_prefix ..).isInfix
      have hlength := blockLength_append hclosed more
      rw [List.append_assoc, List.singleton_append] at hlength
      rw [List.cons_append, commentLength, commentLength, hlength]
      use rfl
      have hle := blockLength_le (text ++ ['\n'])
      rw [List.length_append, List.length_singleton] at hle
      rw [List.length_cons]
      omega
    · have hline (rest : List Char) : commentLength (c :: rest) =
          ((c :: rest).takeWhile (· ≠ '\n')).length := by
        rw [commentLength]
        simp [hc]
      rw [List.cons_append, hline, hline, ← List.cons_append, ← List.cons_append,
        takeWhile_append_cons (by simp), takeWhile_append_cons (by simp)]
      use rfl
      have hle := (List.takeWhile_sublist (· ≠ '\n') (l := c :: text)).length_le
      omega

/-- A fragment that can be read and is not left open ends with its text, if that ends with a
line. -/
theorem scan_append {line : Nat} {first : Char} {rest : List Char}
    (hend : Text.EndsLine (first :: rest))
    (hfault : ∀ cause, (scan line first rest).1 ≠ .fault cause)
    (hopen : ¬ (scan line first rest).1.LeftOpen) (more : List Char) :
  scan line first (rest ++ more) = scan line first rest ∧ (scan line first rest).2 ≤ rest.length
  := by
  -- a piece that is kept is the same if it is as long as before
  have hkept {n n' : Nat} (hlength : n' = n ∧ n ≤ rest.length) :
      (plain (first :: (rest ++ more).take n'), n') = (plain (first :: rest.take n), n) ∧
        n ≤ rest.length := by
    rw [hlength.1, List.take_append_of_le_length hlength.2]
    exact ⟨rfl, hlength.2⟩
  by_cases hnewline : first = '\n'
  · subst hnewline
    exact ⟨rfl, Nat.zero_le _⟩
  obtain ⟨text, rfl⟩ := hend.exists_eq hnewline
  -- words, numbers and the like end before the newline
  have hwhile (p : Char → Bool) (hp : p '\n' = false) :
      (text ++ '\n' :: more).takeWhile p = (text ++ ['\n']).takeWhile p ∧
        ((text ++ ['\n']).takeWhile p).length ≤ text.length + 1 := by
    have hle := (List.takeWhile_sublist p (l := text)).length_le
    rw [takeWhile_append_cons hp, takeWhile_append_cons hp]
    exact ⟨rfl, by omega⟩
  rw [List.length_append, List.length_singleton, List.append_assoc, List.singleton_append] at *
  unfold scan at hfault hopen ⊢
  dsimp only at hfault hopen ⊢
  split_ifs at hfault hopen ⊢ with hdollar hquote hmark hword hdigit
  · apply scanDirective_append hfault
  · apply hkept
    have hstring := stringLength_append_newline text
    rw [hstring, hstring]
    have hle := stringLength_le text
    exact ⟨rfl, by omega⟩
  · apply hkept
    subst hmark
    apply commentLength_append hopen
  · obtain ⟨hsame, hle⟩ := hwhile Token.isWordPart rfl
    rw [hsame]
    exact ⟨rfl, hle⟩
  · apply hkept
    obtain ⟨hsame, hle⟩ := hwhile isNumberPart rfl
    rw [hsame]
    exact ⟨rfl, hle⟩
  · apply hkept
    exact ⟨rfl, Nat.zero_le _⟩

/-- If a text ends with a line, can be cut and leaves no block comment open, then what follows it is
cut on its own. -/
theorem cut_append {line : Nat} {text : List Char} (hend : Text.EndsLine text)
    (hfault : ∀ cause, .fault cause ∉ cut line text) (hopen : ∀ f ∈ cut line text, ¬ f.LeftOpen)
    (more : List Char) :
  cut line (text ++ more) = cut line text ++ cut (line + Text.newlines text) more
  := by
  fun_induction cut line text with
  | case1 line => rfl
  | case2 line first rest cause n hscan => simp at hfault
  | case3 line first rest fragment n hnot hscan ih =>
    rw [List.forall_mem_cons] at hopen
    simp only [List.mem_cons, not_or] at hfault
    have hfragment : (scan line first rest).1 = fragment := congrArg Prod.fst hscan
    have hn : (scan line first rest).2 = n := congrArg Prod.snd hscan
    obtain ⟨hsame, hle⟩ := scan_append hend (hfragment ▸ hnot) (hfragment ▸ hopen.1) more
    rw [hscan] at hsame
    rw [hn] at hle
    have hcut : cut line (first :: (rest ++ more)) =
        fragment :: cut (line + Text.newlines (first :: rest.take n)) (rest.drop n ++ more) := by
      rw [cut, hsame, ← List.take_append_of_le_length hle, ← List.drop_append_of_le_length hle]
      cases fragment with
      | fault cause => cases hnot cause rfl
      | _ => rfl
    have hlines : line + Text.newlines (first :: rest) =
        line + Text.newlines (first :: rest.take n) + Text.newlines (rest.drop n) := by
      rw [Nat.add_assoc, Text.newlines, Text.newlines, Text.newlines, ← List.count_append,
        List.cons_append, List.take_append_drop]
    rw [List.cons_append, List.cons_append, hcut, hlines,
      ih (hend.drop (n + 1)) (fun cause => (hfault cause).2) hopen.2]

/-! ### Errors further down -/

section

variable {l : Library} {opened : List String} {d d' : Definitions} {fragments : List Fragment}

/-- What is expanded holds no directive that cannot be read. -/
theorem fault_notMem_of_run_eq_ok {out : String}
    (h : d.run (expandAll l opened fragments) = (.ok out, d')) (cause : DirectiveError) :
  .fault cause ∉ fragments
  := by
  induction fragments generalizing d out with
  | nil => exact List.not_mem_nil
  | cons fragment rest ih =>
    rw [expandAll_cons, Definitions.run_bind_eq_ok_iff] at h
    obtain ⟨first, d₁, hfirst, hrest⟩ := h
    obtain ⟨more, d₂, hmore, hout⟩ := Definitions.run_bind_eq_ok_iff.mp hrest
    obtain ⟨-, rfl⟩ := Prod.mk.inj hout
    rw [List.mem_cons, not_or]
    refine ⟨?_, ih hmore⟩
    rintro rfl
    cases hfirst

variable (l opened d fragments) in
/-- The expansion of fragments comes to a directive among them that cannot be read. -/
def ComesTo (cause : DirectiveError) : Prop :=
  ∃ before after out d', fragments = before ++ .fault cause :: after ∧
    d.run (expandAll l opened before) = (.ok out, d')

theorem comesTo_cons_iff {fragment : Fragment} {out : String} {cause : DirectiveError}
    (h : d.run (fragment.expand l opened) = (.ok out, d')) :
  ComesTo l opened d (fragment :: fragments) cause ↔ ComesTo l opened d' fragments cause
  := by
  constructor
  · rintro ⟨_ | ⟨first, before⟩, after, out', d₁, hsplit, hbefore⟩
    · obtain ⟨rfl, -⟩ := List.cons.inj hsplit
      cases h
    · obtain ⟨rfl, rfl⟩ := List.cons.inj hsplit
      rw [expandAll_cons, Definitions.run_bind, h] at hbefore
      obtain ⟨more, d₂, hmore, -⟩ := Definitions.run_bind_eq_ok_iff.mp hbefore
      exact ⟨before, after, more, d₂, rfl, hmore⟩
  · rintro ⟨before, after, more, d₁, rfl, hbefore⟩
    refine ⟨fragment :: before, after, out ++ more, d₁, rfl, ?_⟩
    rw [expandAll_cons, Definitions.run_bind, h]
    exact Definitions.run_bind_eq_ok_iff.mpr ⟨more, d₁, hbefore, rfl⟩

theorem not_comesTo_of_run_eq_error {fragment : Fragment} {e : ExpansionError}
    (h : d.run (fragment.expand l opened) = (.error e, d'))
    (hfault : ∀ cause, fragment ≠ .fault cause) (cause : DirectiveError) :
  ¬ ComesTo l opened d (fragment :: fragments) cause
  := by
  rintro ⟨_ | ⟨first, before⟩, after, out', d₁, hsplit, hbefore⟩
  · exact hfault cause (List.cons.inj hsplit).1
  · obtain ⟨rfl, -⟩ := List.cons.inj hsplit
    rw [expandAll_cons, Definitions.run_bind, h] at hbefore
    cases hbefore

/-- Further down, fragments are expanded in the same way, except that the directive among them that
cannot be read is further down, too. -/
theorem run_expandAll_below (k : Nat) :
  (∃ cause d', ComesTo l opened d fragments cause ∧
      d.run (expandAll l opened fragments) = (.error (.directive cause), d') ∧
      d.run (expandAll l opened (fragments.map (below k))) =
        (.error (.directive (cause.below k)), d')) ∨
    (∀ cause, ¬ ComesTo l opened d fragments cause) ∧
      d.run (expandAll l opened (fragments.map (below k))) =
        d.run (expandAll l opened fragments)
  := by
  induction fragments generalizing d with
  | nil =>
    right
    refine ⟨?_, rfl⟩
    rintro cause ⟨before, after, -, -, hsplit, -⟩
    simp at hsplit
  | cons fragment rest ih =>
    by_cases hfault : ∃ cause, fragment = .fault cause
    · obtain ⟨cause, rfl⟩ := hfault
      left
      refine ⟨cause, d, ⟨[], rest, "", d, rfl, rfl⟩, ?_, ?_⟩
      · rw [expandAll_cons, Definitions.run_bind]
        rfl
      · rw [List.map_cons, expandAll_cons, Definitions.run_bind]
        rfl
    · have hbelow : fragment.below k = fragment := by
        cases fragment with
        | fault cause => cases hfault ⟨cause, rfl⟩
        | _ => rfl
      simp only [not_exists] at hfault
      rw [List.map_cons, hbelow, expandAll_cons, expandAll_cons, Definitions.run_bind,
        Definitions.run_bind]
      rcases hfirst : d.run (fragment.expand l opened) with ⟨e | out, d₁⟩
      · right
        exact ⟨not_comesTo_of_run_eq_error hfirst hfault, rfl⟩
      · simp only [comesTo_cons_iff hfirst, Definitions.run_bind]
        rcases ih (d := d₁) with ⟨cause, d₂, hcomes, hrun, hrun'⟩ | ⟨hnot, hrun⟩
        · left
          refine ⟨cause, d₂, hcomes, ?_, ?_⟩
          · rw [hrun]
          · rw [hrun']
        · right
          rw [hrun]
          exact ⟨hnot, rfl⟩

end

end Fragment

/-! ### Sessions -/

namespace Session

variable {s s₁ : Session} {text out : String}

/-- A session comes, in a text, to a directive of that text that cannot be read. -/
def ComesTo (s : Session) (text : String) (cause : DirectiveError) : Prop :=
  Fragment.ComesTo s.library [] s.definitions (Fragment.ofText text) cause

theorem expand_eq_ok_iff :
  s.expand text = (.ok out, s₁) ↔
    s₁.library = s.library ∧
      s.definitions.run (Fragment.expandAll s.library [] (Fragment.ofText text)) =
        (.ok out, s₁.definitions)
  := by
  obtain ⟨l, d⟩ := s₁
  rw [expand_eq]
  generalize s.definitions.run _ = outcome
  obtain ⟨result, d'⟩ := outcome
  simp only [Prod.mk.injEq, mk.injEq]
  grind

/-- If a text ends with a line, is expanded and leaves no block comment open, then what follows it is
expanded next. -/
theorem expand_append (hend : Text.EndsLine text.toList) (h : s.expand text = (.ok out, s₁))
    (hopen : ∀ f ∈ Fragment.ofText text, ¬ f.LeftOpen) (more : String) :
  s.expand (text ++ more) =
    let outcome := s₁.definitions.run (Fragment.expandAll s.library []
      ((Fragment.ofText more).map (Fragment.below (Text.newlines text.toList))))
    (outcome.1.map (out ++ ·), ⟨s.library, outcome.2⟩)
  := by
  obtain ⟨hlibrary, hrun⟩ := expand_eq_ok_iff.mp h
  have hcut : Fragment.ofText (text ++ more) = Fragment.ofText text ++
      (Fragment.ofText more).map (Fragment.below (Text.newlines text.toList)) := by
    rw [Fragment.ofText, String.toList_append,
      Fragment.cut_append hend (Fragment.fault_notMem_of_run_eq_ok hrun) hopen, Fragment.cut_below]
    rfl
  rw [expand_eq, hcut, Fragment.expandAll_append, Definitions.run_bind, hrun]
  dsimp only
  rw [Definitions.run_bind]
  generalize Definitions.run _ _ = outcome
  obtain ⟨_ | _, d⟩ := outcome <;> rfl

/-- What begins with a call for a file is cut into that call and the rest. -/
theorem ofText_inclusion {file : String} (hquote : '"' ∉ file.toList)
    (hnewline : '\n' ∉ file.toList) (more : String) :
  Fragment.ofText ("$inc \"" ++ file ++ "\"" ++ more) = .inclusion file :: Fragment.ofText more
  := by
  let call := "inc".toList ++ ' ' :: '"' :: (file.toList ++ ['"'])
  have htext : ("$inc \"" ++ file ++ "\"" ++ more).toList = '$' :: (call ++ more.toList) := by
    simp [call]
  have hinclusion : Fragment.scanInclusion 1 (' ' :: '"' :: (file.toList ++ '"' :: more.toList)) =
      (.inclusion file, 1 + file.toList.length + 2) := by
    apply Fragment.scanInclusion_eq_inclusion_iff.mpr
    refine ⟨[' '], more.toList, rfl, by simp; rfl, ?_, rfl⟩
    intro c hc
    exact ⟨ne_of_mem_of_not_mem hc hquote, ne_of_mem_of_not_mem hc hnewline⟩
  have hscan : Fragment.scan 1 '$' (call ++ more.toList) = (.inclusion file, call.length) := by
    have hcommand : (call ++ more.toList).takeWhile (fun c => !Text.isWhiteSpace c) =
        "inc".toList := by
      simp only [call, List.append_assoc, List.cons_append]
      rw [takeWhile_append_cons rfl]
      rfl
    have hafter : (call ++ more.toList).drop "inc".toList.length =
        ' ' :: '"' :: (file.toList ++ '"' :: more.toList) := by
      simp only [call, List.append_assoc, List.drop_left, List.cons_append, List.nil_append]
    simp only [Fragment.scan, Fragment.scanDirective, hcommand, hafter, String.ofList_toList,
      hinclusion, if_true]
    simp [call]
    omega
  have hlines : Text.newlines ('$' :: call) = 0 := by
    simp [Text.newlines, call, List.count_eq_zero, hnewline]
  rw [Fragment.ofText, htext, Fragment.cut, hscan]
  dsimp only
  rw [List.take_left, List.drop_left, hlines]
  rfl

/-- What begins with a call for a file opens it, and then goes on with the rest. -/
theorem exists_of_run_inclusion {l : Library} {d d₃ : Definitions} {file out : String}
    {rest : List Fragment}
    (h : d.run (Fragment.expandAll l [] (.inclusion file :: rest)) = (.ok out, d₃)) :
  ∃ contents out₁ d₂ out₂, l.read file = .ok contents ∧
    (⟨l, d⟩ : Session).expand contents = (.ok out₁, ⟨l, d₂⟩) ∧
    d₂.run (Fragment.expandAll l [] rest) = (.ok out₂, d₃) ∧ out = out₁ ++ out₂
  := by
  have hclosed : file ∉ [] := List.not_mem_nil
  rw [Fragment.expandAll_cons] at h
  obtain ⟨out₁, d₂, hfile, hrest⟩ := Definitions.run_bind_eq_ok_iff.mp h
  obtain ⟨out₂, d₃', hmore, hout⟩ := Definitions.run_bind_eq_ok_iff.mp hrest
  cases hout
  rcases hread : l.read file with reason | contents
  · rw [Fragment.expand_inclusion_of_read_eq_error hclosed hread] at hfile
    cases hfile
  · rw [Fragment.expand_inclusion_of_read_eq_ok hclosed hread] at hfile
    have hcontents := Fragment.run_expandAll_of_subset hfile (List.nil_subset _)
    exact ⟨contents, out₁, d₂, out₂, rfl, expand_eq_ok_iff.mpr ⟨rfl, hcontents⟩, hmore,
      rfl⟩

/-- If a text is expanded further down, it is expanded in the same way as at the beginning. -/
theorem expand_of_run_below {l : Library} {d d' : Definitions} {more : String} {k : Nat}
    (h : d.run (Fragment.expandAll l [] ((Fragment.ofText more).map (Fragment.below k))) =
      (.ok out, d')) :
  (⟨l, d⟩ : Session).expand more = (.ok out, ⟨l, d'⟩)
  := by
  apply expand_eq_ok_iff.mpr
  rcases Fragment.run_expandAll_below k with ⟨cause, d₁, -, -, hbelow⟩ | ⟨-, hbelow⟩
  · rw [hbelow] at h
    cases h
  · exact ⟨rfl, hbelow ▸ h⟩

/-- Texts are expanded in turn. Let a text end with a line, be expanded and leave no block comment
open. Then a text that follows is expanded as it would be next. If that fails by a directive of the
text that follows, the error is so many lines further down; an error in a file that it calls for, or
about one, is the same. And if the text is followed by a call for a file and more, and all of this is
expanded, then it is expanded to what the text, the text of the file and the rest are expanded to in
turn. -/
theorem expand_in_turn (hend : Text.EndsLine text.toList) (h : s.expand text = (.ok out, s₁))
    (hopen : ∀ f ∈ Fragment.ofText text, ¬ f.LeftOpen) :
  (∀ more : String,
    match s₁.expand more with
    | (.ok out', s₂) => s.expand (text ++ more) = (.ok (out ++ out'), s₂)
    | (.error e, s₂) =>
      (∃ cause, s₁.ComesTo more cause ∧ e = .directive cause ∧
        s.expand (text ++ more) =
          (.error (.directive (cause.below (text.toList.count '\n'))), s₂)) ∨
      (∀ cause, ¬ s₁.ComesTo more cause) ∧ s.expand (text ++ more) = (.error e, s₂)) ∧
  ∀ (file more total : String) (s₃ : Session), '"' ∉ file.toList → '\n' ∉ file.toList →
    s.expand (text ++ "$inc \"" ++ file ++ "\"" ++ more) = (.ok total, s₃) →
      ∃ contents out₁ s₂ out₂, s.library.read file = .ok contents ∧
        s₁.expand contents = (.ok out₁, s₂) ∧ s₂.expand more = (.ok out₂, s₃) ∧
        total = out ++ out₁ ++ out₂
  := by
  have hlibrary := (expand_eq_ok_iff.mp h).1
  obtain ⟨l, d₁⟩ := s₁
  obtain rfl : l = s.library := hlibrary
  constructor
  · intro more
    rw [expand_append hend h hopen more, expand_eq]
    have hbelow := @Fragment.run_expandAll_below s.library [] d₁ (Fragment.ofText more)
      (Text.newlines text.toList)
    rcases hbelow with ⟨cause, d', hcomes, hrun, hrun'⟩ | ⟨hnot, hrun⟩
    · rw [hrun]
      left
      refine ⟨cause, hcomes, rfl, ?_⟩
      rw [hrun']
      rfl
    · simp only [hrun]
      rcases hmore : d₁.run (Fragment.expandAll s.library [] (Fragment.ofText more))
        with ⟨e | out', d'⟩
      · right
        exact ⟨hnot, rfl⟩
      · rfl
  · intro file more total s₃ hquote hnewline htotal
    have hassoc : text ++ "$inc \"" ++ file ++ "\"" ++ more =
        text ++ ("$inc \"" ++ file ++ "\"" ++ more) := by
      simp only [String.append_assoc]
    rw [hassoc, expand_append hend h hopen, ofText_inclusion hquote hnewline] at htotal
    obtain ⟨hout, rfl⟩ := Prod.mk.inj htotal
    rcases hrun : d₁.run (Fragment.expandAll s.library []
      ((Fragment.inclusion file :: Fragment.ofText more).map
        (Fragment.below (Text.newlines text.toList)))) with ⟨e | out', d₃⟩
    · rw [hrun] at hout
      cases hout
    · rw [hrun] at hout
      obtain ⟨contents, out₁, d₂, out₂, hread, hfile, hrest, rfl⟩ := exists_of_run_inclusion hrun
      refine ⟨contents, out₁, ⟨s.library, d₂⟩, out₂, hread, hfile, expand_of_run_below hrest, ?_⟩
      rw [String.append_assoc]
      exact (Except.ok.inj hout).symm

/-- A text with a comment and a definition: the line of an error after it is counted from its
beginning, and a file that is called for after it is expanded with that definition. -/
theorem expand_in_turn_comment :
  let s := start (.ofFiles [("one.sil", .ok "$def one 1\none")])
  ∃ s₁ s₃ : Session, s.expand "## $inc\n##$def two 2\n" = (.ok "## $inc\n##", s₁) ∧
    s.expand ("## $inc\n##$def two 2\n" ++ "two\n$inc x") =
      (.error (.directive (.missingInclude 4)), s₁) ∧
    ∃ out₁ s₂ out₂, s₁.expand "$def one 1\none" = (.ok out₁, s₂) ∧
      s₂.expand "+two one;" = (.ok out₂, s₃) ∧ "## $inc\n##1+2 1;" = "## $inc\n##" ++ out₁ ++ out₂
  := by
  intro s
  let s₁ : Session := ⟨s.library, ⟨[("two", "2")]⟩⟩
  let s₃ : Session := ⟨s.library, ⟨[("one", "1"), ("two", "2")]⟩⟩
  have h : s.expand "## $inc\n##$def two 2\n" = (.ok "## $inc\n##", s₁) :=
    expand_eq_ok_iff.mpr ⟨rfl, by decide +kernel⟩
  obtain ⟨hmore, hfile⟩ := expand_in_turn (by decide +kernel) h (by decide +kernel)
  refine ⟨s₁, s₃, h, ?_, ?_⟩
  · have hcomes : s₁.ComesTo "two\n$inc x" (.missingInclude 2) :=
      ⟨[.word "two", .plain ['\n']], [], "2\n", s₁.definitions, by decide +kernel, by decide +kernel⟩
    have hnext : s₁.definitions.run (Fragment.expandAll s₁.library []
        (Fragment.ofText "two\n$inc x")) =
          (.error (.directive (.missingInclude 2)), s₁.definitions) := by
      decide +kernel
    specialize hmore "two\n$inc x"
    rw [expand_eq, hnext] at hmore
    obtain ⟨cause, -, hcause, herror⟩ | ⟨hnot, -⟩ := hmore
    · cases hcause
      exact herror
    · cases hnot _ hcomes
  · have hall : s.expand
        ("## $inc\n##$def two 2\n" ++ "$inc \"" ++ "one.sil" ++ "\"" ++ "+two one;") =
          (.ok "## $inc\n##1+2 1;", s₃) :=
      expand_eq_ok_iff.mpr ⟨rfl, by decide +kernel⟩
    obtain ⟨contents, out₁, s₂, out₂, hread, hrest⟩ :=
      hfile "one.sil" "+two one;" _ s₃ (by decide +kernel) (by decide +kernel) hall
    cases hread
    exact ⟨out₁, s₂, out₂, hrest⟩

end Session

end SilFront
