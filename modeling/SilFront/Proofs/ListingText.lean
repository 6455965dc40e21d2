import Mathlib.Data.List.Forall2
import SilFront.Proofs.EntryText

/-!
# Texts of listings

What is compiled can be told from its text, but for three words: what a call returned is written
`rr`, and the numbers that are not finite are written `inf` and `NaN`, each as a variable of that
name would be. Two listings have the same text exactly if they agree entry by entry up to loads of
these (`text_eq_iff_of_compile`).

Whatever strings and names stand in a program, its listing is written with one line for each entry,
in printable characters (`one_line_each_of_compile`).
-/

namespace SilFront

/-! ### Lines -/

namespace Listing

theorem toList_join_lines (lines : List String) :
  (String.join (lines.map (· ++ "\n"))).toList =
    ['\n'].intercalate (lines.map String.toList ++ [[]])
  := by
  induction lines with
  | nil => rfl
  | cons line lines ih =>
    rw [List.map_cons, String.join_cons, String.toList_append, ih, List.map_cons, List.cons_append,
      List.intercalate_cons_of_ne_nil (by simp), String.toList_append]
    rfl

theorem count_newline_join {lines : List String} (h : ∀ line ∈ lines, '\n' ∉ line.toList) :
  (String.join (lines.map (· ++ "\n"))).toList.count '\n' = lines.length
  := by
  induction lines with
  | nil => rfl
  | cons line lines ih =>
    obtain ⟨hline, hlines⟩ := List.forall_mem_cons.mp h
    rw [List.map_cons, String.join_cons, String.toList_append, String.toList_append,
      List.count_append, List.count_append, List.count_eq_zero_of_not_mem hline, ih hlines,
      List.length_cons, Nat.zero_add, Nat.add_comm]
    rfl

theorem notMem_lines {listing : Listing} (h : ∀ e ∈ listing.toList, e.MadeOf Token.Spelled) :
  ∀ line ∈ listing.lines, '\n' ∉ line.toList
  := by
  rw [lines, List.forall_mem_map]
  exact fun e he => Entry.notMem_line (h e he) (by decide) (by decide)

/-- A text is split at its newlines into the lines of its listing, with nothing after the last
newline. -/
theorem splitOn_text {listing : Listing} (h : ∀ e ∈ listing.toList, e.MadeOf Token.Spelled) :
  listing.text.toList.splitOn '\n' = listing.lines.map String.toList ++ [[]]
  := by
  rw [text, toList_join_lines, List.splitOn_intercalate]
  · rw [List.forall_mem_append, List.forall_mem_map, List.forall_mem_singleton]
    exact ⟨notMem_lines h, List.not_mem_nil⟩
  · simp

/-- A listing has the lines that its text has. -/
theorem text_eq_iff_lines {l l' : Listing} (h : ∀ e ∈ l.toList, e.MadeOf Token.Spelled)
    (h' : ∀ e ∈ l'.toList, e.MadeOf Token.Spelled) :
  l.text = l'.text ↔ l.lines = l'.lines
  := by
  constructor
  · intro heq
    have hsplit := splitOn_text h
    rw [heq, splitOn_text h', List.append_left_inj] at hsplit
    apply List.map_injective_iff.mpr (fun _ _ => String.toList_inj.mp) hsplit.symm
  · intro heq
    rw [text, text, heq]

end Listing

theorem Entry.map_line_eq_iff :
  ∀ {es es' : List Entry}, (∀ e ∈ es, e.MadeOf Token.Spelled) →
    (∀ e ∈ es', e.MadeOf Token.Spelled) →
    (es.map line = es'.map line ↔ List.Forall₂ Alike es es')
  | [], [], _, _ => by simp
  | [], _ :: _, _, _ => by simp
  | _ :: _, [], _, _ => by simp
  | e :: es, e' :: es', h, h' => by
    rw [List.forall_mem_cons] at h h'
    rw [List.map_cons, List.map_cons, List.cons.injEq, List.forall₂_cons, line_eq_iff h.1 h'.1,
      map_line_eq_iff h.2 h'.2]

/-! ### Listings that are written alike -/

/-- The words that values other than variables are written with. -/
def Value.reservedWords : List String :=
  ["rr", "inf", "NaN"]

theorem Value.Homograph.exists_name {v v' : Value} (h : Homograph v v') :
  ∃ name ∈ reservedWords, v = .variable name
  := by
  cases h with
  | returned => exact ⟨_, by decide, rfl⟩
  | infinity => exact ⟨_, by decide, rfl⟩
  | notANumber => exact ⟨_, by decide, rfl⟩

/-- Whether an entry loads a variable with a name that other values are written with. -/
def Entry.loadsReserved : Entry → Bool
  | .operation (.load _ (.variable name)) => name ∈ Value.reservedWords
  | _ => false

/-- Entries that are written alike are the same unless one of them loads a variable with a name that
other values are written with. -/
theorem Entry.Alike.eq {e e' : Entry} (h : e.Alike e') (he : e.loadsReserved = false)
    (he' : e'.loadsReserved = false) :
  e = e'
  := by
  cases e with
  | operation op =>
    cases e' with
    | operation op' =>
      obtain rfl | ⟨dest, v, v', rfl, rfl, hhomograph | hhomograph⟩ := h
      · rfl
      · obtain ⟨name, hname, rfl⟩ := hhomograph.exists_name
        exact absurd hname (of_decide_eq_false he)
      · obtain ⟨name, hname, rfl⟩ := hhomograph.exists_name
        exact absurd hname (of_decide_eq_false he')
    | note => cases h
  | note n =>
    cases e' with
    | operation => cases h
    | note n' => exact congrArg note h

theorem Entry.eq_of_forall₂_alike {es es' : List Entry} (h : List.Forall₂ Alike es es') :
  (∀ e ∈ es ++ es', e.loadsReserved = false) → es = es'
  := by
  induction h with
  | nil =>
    intro _
    rfl
  | cons halike _ ih =>
    intro hloads
    simp only [List.forall_mem_append, List.forall_mem_cons] at hloads
    obtain ⟨⟨he, hes⟩, he', hes'⟩ := hloads
    rw [halike.eq he he', ih (List.forall_mem_append.mpr ⟨hes, hes'⟩)]

/-- What can be read off the outcome of a compilation can be read off its listing. -/
theorem exists_listing_of_map {α : Type} {source : String} {registers : ℕ} {f : Listing → α} {a : α}
    (h : (compile source registers).map f = .ok a) :
  ∃ listing, compile source registers = .ok listing ∧ f listing = a
  := by
  rcases hlisting : compile source registers with _ | listing
  · rw [hlisting] at h
    cases h
  · rw [hlisting] at h
    exact ⟨listing, rfl, Except.ok.inj h⟩

/-- Programs that are compiled to the same text are compiled to the same entries, with the same
registers and operators and operands of the same kind, but for loads into the same register where
one side has a variable and the other what is written like its name: the value that a call returned
for `rr`, the positive infinity for `inf` and not-a-number for `NaN`. Conversely such entries have
the same text. Without variables of these names the text tells the listing. -/
theorem text_eq_iff_of_compile {source source' : String} {registers registers' : ℕ}
    {listing listing' : Listing} (h : compile source registers = .ok listing)
    (h' : compile source' registers' = .ok listing') :
  (listing.text = listing'.text ↔ List.Forall₂ Entry.Alike listing.toList listing'.toList) ∧
    ((∀ e ∈ listing.toList ++ listing'.toList, e.loadsReserved = false) →
      listing.text = listing'.text → listing = listing')
  := by
  have hiff : listing.text = listing'.text ↔
      List.Forall₂ Entry.Alike listing.toList listing'.toList := by
    rw [Listing.text_eq_iff_lines (madeOf_of_compile h) (madeOf_of_compile h')]
    apply Entry.map_line_eq_iff (madeOf_of_compile h) (madeOf_of_compile h')
  refine ⟨hiff, ?_⟩
  intro hloads htext
  apply Listing.ext_toList
  apply Entry.eq_of_forall₂_alike (hiff.mp htext) hloads

/-- A variable `inf` is written like a constant that overflows, and the same program is written in
the same way, however its numbers are spelled. -/
theorem text_eq_iff_of_compile_constants :
  (∃ listing listing',
    compile "float inf = 1.0; float x = inf;" 4 = .ok listing ∧
    compile "float inf = 1.0; float x = 1e308 * 10.0;" 8 = .ok listing' ∧
    listing ≠ listing' ∧ List.Forall₂ Entry.Alike listing.toList listing'.toList) ∧
  ∃ listing, compile "int y = 2; int x = y + 0x10;" 2 = .ok listing ∧
    compile "int y = 1 + 1;\nint x = y + 16; # sixteen" 16 = .ok listing
  := by
  constructor
  · have hlines : ∀ program ∈ [("float inf = 1.0; float x = inf;", 4),
        ("float inf = 1.0; float x = 1e308 * 10.0;", 8)],
        (compile program.1 program.2).map Listing.lines = .ok ["\tr0 = 1.0",
          "Define new variable \"inf\" of type \"float\" and initialize with r0 in scope 0",
          "\tr0 = inf",
          "Define new variable \"x\" of type \"float\" and initialize with r0 in scope 0"] := by
      decide +kernel
    have hvariable : ∀ program ∈ [("float inf = 1.0; float x = inf;", 4, true),
        ("float inf = 1.0; float x = 1e308 * 10.0;", 8, false)],
        (compile program.1 program.2.1).map (fun l => l.toList.any Entry.loadsReserved) =
          .ok program.2.2 := by
      decide +kernel
    obtain ⟨listing, hlisting, hlines₁⟩ := exists_listing_of_map (hlines _ List.mem_cons_self)
    obtain ⟨listing', hlisting', hlines₂⟩ :=
      exists_listing_of_map (hlines _ (List.mem_cons_of_mem _ List.mem_cons_self))
    have hloads := hvariable _ List.mem_cons_self
    have hloads' := hvariable _ (List.mem_cons_of_mem _ List.mem_cons_self)
    rw [hlisting] at hloads
    rw [hlisting'] at hloads'
    refine ⟨listing, listing', hlisting, hlisting', ?_, ?_⟩
    · rintro rfl
      cases hloads.symm.trans hloads'
    · apply (text_eq_iff_of_compile hlisting hlisting').1.mp
      rw [Listing.text, Listing.text, hlines₁, hlines₂]
  · have hlines : ∀ program ∈ [("int y = 2; int x = y + 0x10;", 2),
        ("int y = 1 + 1;\nint x = y + 16; # sixteen", 16)],
        (compile program.1 program.2).map (fun l => (l.lines, l.toList.any Entry.loadsReserved)) =
          .ok (["\tr0 = 2",
            "Define new variable \"y\" of type \"int\" and initialize with r0 in scope 0",
            "\tr0 = y", "\tr1 = 16", "\tr0 = r0 + r1",
            "Define new variable \"x\" of type \"int\" and initialize with r0 in scope 0"],
            false) := by
      decide +kernel
    obtain ⟨listing, hlisting, hlines₁⟩ := exists_listing_of_map (hlines _ List.mem_cons_self)
    obtain ⟨listing', hlisting', hlines₂⟩ :=
      exists_listing_of_map (hlines _ (List.mem_cons_of_mem _ List.mem_cons_self))
    rw [Prod.mk.injEq] at hlines₁ hlines₂
    have hsame := (text_eq_iff_of_compile hlisting hlisting').2 ?_ ?_
    · exact ⟨listing, hlisting, hsame ▸ hlisting'⟩
    · rw [List.forall_mem_append]
      exact ⟨by simpa using hlines₁.2, by simpa using hlines₂.2⟩
    · rw [Listing.text, Listing.text, hlines₁.1, hlines₂.1]

/-- A variable `rr` that is read after a call is written like what the call returned. -/
theorem same_text_of_variable_and_returned :
  ∃ listing listing',
    compile "func f():int \x7b\x7d func g(int rr):void \x7b f(); int x = rr;\x7d" 4 = .ok listing ∧
    compile "func f():int \x7b\x7d func g(int rr):void \x7b int x = f();\x7d" 4 = .ok listing' ∧
    listing.text = listing'.text ∧
    listing.toList[7]? = some (.operation (.load 0 (.variable "rr"))) ∧
    listing'.toList[7]? = some (.operation (.load 0 .returned))
  := by
  have hlines : ∀ program ∈ [
      ("func f():int \x7b\x7d func g(int rr):void \x7b f(); int x = rr;\x7d",
        Value.variable "rr"),
      ("func f():int \x7b\x7d func g(int rr):void \x7b int x = f();\x7d", .returned)],
      (compile program.1 4).map (fun l => (l.lines, l.toList[7]?)) =
        .ok (["Change scope to 1",
          "Create function \"f\" with return value of type \"int\" and 0 arguments",
          "Change scope to 0", "Change scope to 1",
          "Define new argument \"rr\" of type \"int\" in scope 1",
          "Create function \"g\" with return value of type \"void\" and 1 arguments",
          "\tcall f", "\tr0 = rr",
          "Define new variable \"x\" of type \"int\" and initialize with r0 in scope 1",
          "Change scope to 0"], some (.operation (.load 0 program.2))) := by
    decide +kernel
  obtain ⟨listing, hlisting, hlines₁⟩ := exists_listing_of_map (hlines _ List.mem_cons_self)
  obtain ⟨listing', hlisting', hlines₂⟩ :=
    exists_listing_of_map (hlines _ (List.mem_cons_of_mem _ List.mem_cons_self))
  rw [Prod.mk.injEq] at hlines₁ hlines₂
  refine ⟨listing, listing', hlisting, hlisting', ?_, hlines₁.2, hlines₂.2⟩
  rw [Listing.text, Listing.text, hlines₁.1, hlines₂.1]

/-! ### One line for each entry -/

/-- An entry is written on a line that begins with a tab exactly if the entry is an operation: a
load, an operator on registers, a call or a push. But for that tab, all characters are printable. -/
structure Entry.WrittenOn (e : Entry) (line : String) : Prop where
  tab : line.toList.head? = some '\t' ↔ ∃ op, e = .operation op
  printable : ∀ i c, line.toList[i]? = some c → i = 0 ∧ c = '\t' ∨ Text.isPrintable c

theorem Entry.writtenOn_line {e : Entry} (h : e.MadeOf Token.Spelled) :
  e.WrittenOn e.line
  := by
  have htext := printable_text h
  cases e with
  | operation op =>
    rw [line]
    constructor
    · simp
    · intro i c hc
      rw [String.toList_append] at hc
      cases i with
      | zero => exact .inl ⟨rfl, (Option.some.inj hc).symm⟩
      | succ i => exact .inr (htext c (List.mem_of_getElem? hc))
  | note n =>
    constructor
    · constructor
      · intro htab
        have hprintable := htext '\t' (List.mem_of_mem_head? htab)
        contradiction
      · rintro ⟨op, hop⟩
        cases hop
    · intro i c hc
      exact .inr (htext c (List.mem_of_getElem? hc))

/-- What is compiled is written with one line for each entry: the text has as many newlines as there
are entries, it is split at them into the lines of these, with nothing after the last newline, and
each entry is written on its line. -/
theorem one_line_each_of_compile {source : String} {registers : ℕ} {listing : Listing}
    (h : compile source registers = .ok listing) :
  listing.text.toList.count '\n' = listing.length ∧
    listing.text.toList.splitOn '\n' = listing.lines.map String.toList ++ [[]] ∧
    List.Forall₂ Entry.WrittenOn listing.toList listing.lines
  := by
  have hmade := madeOf_of_compile h
  refine ⟨?_, Listing.splitOn_text hmade, ?_⟩
  · rw [Listing.text, Listing.count_newline_join (Listing.notMem_lines hmade), Listing.lines,
      List.length_map, Listing.length_toList]
  · rw [Listing.lines, List.forall₂_map_right_iff, List.forall₂_same]
    exact fun e he => Entry.writtenOn_line (hmade e he)

/-- A string with a newline, a tab, a quote and a control code in it is written on one line. -/
theorem one_line_each_of_compile_string :
  ∃ listing, compile "byte s = \"a\\n\\t\\\"\\x9f\"; int x = s + 1;" 4 = .ok listing ∧
    listing.lines = ["\tr0 = \"a\\n\\t\\\"\\x9f\"",
      "Define new variable \"s\" of type \"byte\" and initialize with r0 in scope 0",
      "\tr0 = s", "\tr1 = 1", "\tr0 = r0 + r1",
      "Define new variable \"x\" of type \"int\" and initialize with r0 in scope 0"] ∧
    listing.text.toList.count '\n' = 6 ∧
    listing.text.toList.splitOn '\n' = listing.lines.map String.toList ++ [[]] ∧
    List.Forall₂ Entry.WrittenOn listing.toList listing.lines
  := by
  have hlines : (compile "byte s = \"a\\n\\t\\\"\\x9f\"; int x = s + 1;" 4).map Listing.lines =
      .ok ["\tr0 = \"a\\n\\t\\\"\\x9f\"",
        "Define new variable \"s\" of type \"byte\" and initialize with r0 in scope 0",
        "\tr0 = s", "\tr1 = 1", "\tr0 = r0 + r1",
        "Define new variable \"x\" of type \"int\" and initialize with r0 in scope 0"] := by
    decide +kernel
  obtain ⟨listing, hlisting, hlines⟩ := exists_listing_of_map hlines
  obtain ⟨hcount, hsplit, hwritten⟩ := one_line_each_of_compile hlisting
  have hlength : listing.length = 6 := by
    rw [← Listing.length_toList, hwritten.length_eq, hlines]
    rfl
  exact ⟨listing, hlisting, hlines, hlength ▸ hcount, hsplit, hwritten⟩

end SilFront
