import SilFront.Proofs.Expansion
import SilFront.Proofs.Tiling

/-!
# Expansion goes lexeme by lexeme

A text is cut twice, into fragments when it is expanded and into lexemes when its tokens are read,
and the two cuts agree: a text with tokens expands to the same text, with the meanings of words in
place of those of its lexemes that are words with a meaning (`Session.exists_tiling_expand`). The
cuts differ only around numbers, where a fragment takes the letters and points that follow, too; a
word there is `Tile.Glued` and is kept.

No condition on directives is needed. The mark that begins one is no token, so that it stands only
in strings and comments of a text with tokens, which are kept.
-/

namespace SilFront

namespace Tile

/-- After some tiles and a gap stands a lexeme that is glued to a number: between it and a digit of
the number there are only characters that may continue a number. -/
def Glued (before : List Tile) (gap : List Char) : Prop :=
  ∃ first number between front digit back, before = first ++ number :: between ∧
    number.token.number?.isSome ∧ number.lexeme = front ++ digit :: back ∧ digit.isDigit ∧
    ∀ c ∈ digit :: back ++ (textOf between ++ gap), Fragment.isNumberPart c

/-- Whether what comes right after some tiles is glued to a number. -/
def gluedBy (before : List Tile) : Bool :=
  before.foldl (fun glued tile => Fragment.glues tile.token tile.lexeme
    (glued && tile.gap.all Fragment.isNumberPart)) false

theorem gluedBy_concat (before : List Tile) (tile : Tile) :
  gluedBy (before ++ [tile]) = Fragment.glues tile.token tile.lexeme
    (gluedBy before && tile.gap.all Fragment.isNumberPart)
  := by
  rw [gluedBy, List.foldl_append]
  rfl

/-- Every number ends in a digit and characters that may continue a number. -/
theorem exists_digit_of_number {token : Token} {lexeme : List Char}
    (h : token.SpelledBy lexeme) (hnumber : token.number?.isSome) :
  ∃ front digit back, lexeme = front ++ digit :: back ∧ digit.isDigit ∧
    ∀ c ∈ digit :: back, Fragment.isNumberPart c
  := by
  cases token with
  | number =>
    rcases Fragment.isRun_of_spelledBy h with hrun | ⟨front, sign, back, rfl, -, hrun, -⟩
    · obtain ⟨⟨digit, hhead, hdigit⟩, hparts⟩ := hrun
      obtain ⟨back, rfl⟩ := List.head?_eq_some_iff.mp hhead
      exact ⟨[], digit, back, rfl, hdigit, hparts⟩
    · obtain ⟨⟨digit, hhead, hdigit⟩, hparts⟩ := hrun
      obtain ⟨back, rfl⟩ := List.head?_eq_some_iff.mp hhead
      exact ⟨front ++ [sign], digit, back, List.append_cons .., hdigit, hparts⟩
  | _ => cases hnumber

theorem glued_concat {before : List Tile} {tile : Tile} {gap : List Char} :
  Glued (before ++ [tile]) gap ↔
    (tile.token.number?.isSome ∧ ∀ c ∈ gap, Fragment.isNumberPart c) ∨
      Glued before (tile.text ++ gap)
  := by
  constructor
  · rintro ⟨first, number, between, front, digit, back, hsplit, hnumber, hlexeme, hdigit, hparts⟩
    rcases between.eq_nil_or_concat with rfl | ⟨between, last, rfl⟩
    · obtain ⟨-, hlast⟩ := List.append_inj' hsplit rfl
      obtain rfl := List.singleton_inj.mp hlast
      left
      use hnumber
      intro c hc
      apply hparts c
      simp [hc]
    · rw [List.concat_eq_append, ← List.cons_append, ← List.append_assoc] at hsplit
      obtain ⟨rfl, hlast⟩ := List.append_inj' hsplit rfl
      obtain rfl := List.singleton_inj.mp hlast
      right
      refine ⟨first, number, between, front, digit, back, rfl, hnumber, hlexeme, hdigit, ?_⟩
      simpa [textOf] using hparts
  · rintro (⟨hnumber, hgap⟩ | ⟨first, number, between, front, digit, back, rfl, h⟩)
    · obtain ⟨front, digit, back, hlexeme, hdigit, hparts⟩ := exists_digit_of_number tile.spelledBy hnumber
      refine ⟨before, tile, [], front, digit, back, rfl, hnumber, hlexeme, hdigit, ?_⟩
      rw [textOf_nil, List.nil_append, List.forall_mem_append]
      exact ⟨hparts, hgap⟩
    · use first, number, between ++ [tile], front, digit, back
      simpa [textOf] using h

theorem glued_iff {before : List Tile} {gap : List Char} :
  Glued before gap ↔ gluedBy before && gap.all Fragment.isNumberPart
  := by
  induction before using List.reverseRecOn generalizing gap with
  | nil => simp [Glued, gluedBy]
  | append_singleton before tile ih =>
    rw [glued_concat, gluedBy_concat, ih, Fragment.glues, text]
    cases tile.token.number?.isSome with
    | true => simp +contextual
    | false => simp [and_assoc]

instance (before : List Tile) (gap : List Char) : Decidable (Glued before gap) :=
  decidable_of_iff _ glued_iff.symm

/-- What the tiles after some others are expanded to. -/
def expansion (d : Definitions) : List Tile → List Tile → List Char
  | _, [] => []
  | before, tile :: tiles =>
    tile.gap ++ (if Glued before tile.gap then tile.lexeme
      else Fragment.substituted d tile.token tile.lexeme) ++ expansion d (before ++ [tile]) tiles

/-! ### Tiles in turn -/

theorem head?_of_filler {final : Prop} {gap : List Char} (h : Filler final gap) :
  ∀ c ∈ gap.head?, Fragment.isNumberPart c = false
  := by
  cases h with
  | nil => simp
  | blank hblank => simpa using (Fragment.isSingle_of_isBlank hblank).2
  | line => simp [Fragment.isNumberPart, Token.isWordPart]
  | lastLine => simp [Fragment.isNumberPart, Token.isWordPart]
  | block => simp [Fragment.isNumberPart, Token.isWordPart]

/-- A gap is kept, and what comes after it is glued only if it is empty. -/
theorem continues_gap {d : Definitions} {glued : Bool} {gap rest out : List Char}
    (hgap : Filler False gap)
    (h : Fragment.Continues d (glued && gap.all Fragment.isNumberPart) rest out) :
  Fragment.Continues d glued (gap ++ rest) (gap ++ out)
  := by
  have hhead := head?_of_filler hgap
  cases gap with
  | nil => simpa using h
  | cons c gap =>
    have hc : Fragment.isNumberPart c = false := hhead c rfl
    rw [List.all_cons, hc, Bool.false_and, Bool.and_false] at h
    apply Fragment.Continues.of_expands (by simpa using hc)
    apply Fragment.Expands.filler hgap False.elim h

/-- What tiles and the filler after them are expanded to. -/
theorem continues_expansion {d : Definitions} {before tiles : List Tile} {last : List Char}
    (hlast : Filler True last)
    (hseparated : ∀ before tile after, tiles = before ++ tile :: after →
      tile.token.Separated (textOf after ++ last)) :
  Fragment.Continues d (gluedBy before) (textOf tiles ++ last) (expansion d before tiles ++ last)
  := by
  -- The flag tells at every tile whether what comes next is glued to a number.
  induction tiles generalizing before with
  | nil =>
    apply Fragment.Continues.of_expands (head?_of_filler hlast)
    simpa [expansion] using Fragment.Expands.filler hlast (fun _ => rfl) Fragment.Expands.nil
  | cons tile tiles ih =>
    have htiles := @ih (before ++ [tile]) fun before' tile' after hsplit =>
      hseparated (tile :: before') tile' after (by rw [hsplit, List.cons_append])
    rw [gluedBy_concat] at htiles
    have hlexeme := Fragment.Continues.lexeme tile.spelledBy (hseparated [] tile tiles rfl) htiles
    simp only [← glued_iff] at hlexeme
    simpa [expansion, text] using continues_gap tile.filler hlexeme

end Tile

/-- A text with tokens is tiled by lexemes, and expanding it keeps everything but the lexemes that
are words with a meaning and not glued to a number, each of which is replaced by its meaning. -/
theorem Session.exists_tiling_expand {source : String} {tokens : List (Located Token)}
    (h : tokenize source = .ok tokens) :
  ∃ tiles last, (Cursor.ofText source).Tiling tokens tiles last ∧ ∀ s : Session,
    s.expand source = (.ok (String.ofList (Tile.expansion s.definitions [] tiles ++ last)), s)
  := by
  obtain ⟨ts, hsteps, rfl⟩ := TokenStream.tokens_eq_ok_iff.mp h
  obtain ⟨tiles, last, htiling⟩ := Cursor.exists_tiling hsteps
  use tiles, last, htiling
  intro s
  apply expand_of_expands
  have htext : source.toList = Tile.textOf tiles ++ last := htiling.text
  rw [htext]
  apply @Tile.continues_expansion s.definitions [] tiles last htiling.filler htiling.separated

/-- Where `a` means `bc`, the text `if 1a+a#a` is expanded to `if 1a+bc#a`: the first `a` is glued to a
number, and the last one stands in a comment. -/
theorem Session.exists_tiling_expand_glued :
  let s := (Session.start (.ofFiles [])).define "a" "bc"
  let tokens : List (Located Token) := [⟨.keyword .ifWord, ⟨1, 1⟩⟩, ⟨.number (.int 1), ⟨1, 4⟩⟩,
    ⟨.ident "a", ⟨1, 5⟩⟩, ⟨.mark .plus, ⟨1, 6⟩⟩, ⟨.ident "a", ⟨1, 7⟩⟩, ⟨.eof, ⟨1, 10⟩⟩]
  tokenize "if 1a+a#a" = .ok tokens ∧
  ∃ tiles last, (Cursor.ofText "if 1a+a#a").Tiling tokens tiles last ∧
    s.expand "if 1a+a#a" =
      (.ok (String.ofList (Tile.expansion s.definitions [] tiles ++ last)), s) ∧
    String.ofList (Tile.expansion s.definitions [] tiles ++ last) = "if 1a+bc#a"
  := by
  intro s tokens
  have htokens : tokenize "if 1a+a#a" = .ok tokens := by decide +kernel
  have hexpand : (s.expand "if 1a+a#a").1 = .ok "if 1a+bc#a" := by decide +kernel
  obtain ⟨tiles, last, htiling, hexpansion⟩ := exists_tiling_expand htokens
  refine ⟨htokens, tiles, last, htiling, hexpansion s, ?_⟩
  rw [hexpansion s] at hexpand
  exact Except.ok.inj hexpand

end SilFront
