import Mathlib.Logic.Function.Iterate
import SilFront.Proofs.Compilation
import SilFront.Proofs.Lexemes

/-!
# The tokens of a text tile it

If all of a text can be read, it is the lexemes of its tokens in turn, with filler before, between
and after them. A `Tile` is a lexeme with the filler before it; that the tiles of a text are those
of its tokens, that each ends where it cannot be continued, and that reading goes from tile to tile,
is what a `Cursor.Tiling` says. Every text with tokens has one (`exists_tiling_of_tokenize`).
-/

namespace SilFront

/-- A lexeme with the filler before it and the token that it denotes. -/
structure Tile where
  gap : List Char
  lexeme : List Char
  token : Token
  filler : Filler False gap
  spelledBy : token.SpelledBy lexeme

namespace Tile

/-- The characters of a tile. -/
def text (tile : Tile) : List Char :=
  tile.gap ++ tile.lexeme

/-- The characters of tiles that follow one another. -/
def textOf (tiles : List Tile) : List Char :=
  tiles.flatMap text

@[simp]
theorem textOf_nil :
  textOf [] = []
  := rfl

@[simp]
theorem textOf_cons (tile : Tile) (tiles : List Tile) :
  textOf (tile :: tiles) = tile.text ++ textOf tiles
  := List.flatMap_cons

end Tile

namespace Cursor

/-- The cursor after the next `n` tokens or errors. -/
def after (c : Cursor) (n : Nat) : Cursor :=
  (fun c => c.next.2)^[n] c

theorem after_succ (c : Cursor) (n : Nat) :
  c.after (n + 1) = c.next.2.after n
  := rfl

/-- Tokens, the end included, whose lexemes tile the text at a cursor; `last` is the filler after
them. -/
structure Tiling (c : Cursor) (tokens : List (Located Token)) (tiles : List Tile)
    (last : List Char) : Prop where
  text : c.rest = Tile.textOf tiles ++ last
  filler : Filler True last
  /-- There is one tile for every token but the end. -/
  values : tokens.map Located.value = tiles.map Tile.token ++ [.eof]
  separated : ∀ before tile after, tiles = before ++ tile :: after →
    tile.token.Separated (Tile.textOf after ++ last)
  /-- Reading answers with the tokens in turn. -/
  answer : ∀ before t after, tokens = before ++ t :: after →
    (c.after before.length).next.1 = .ok t
  /-- Having read the tokens of some tiles, the cursor stands right after their text. -/
  rest : ∀ before after, tiles = before ++ after →
    (c.after before.length).rest = Tile.textOf after ++ last
  /-- Having read the end too, it stands at the end of the text. -/
  finish : (c.after (tiles.length + 1)).rest = []

/-! ### One step -/

theorem next_of_next?_eq_none {c : Cursor} (h : c.next? = none) :
  c.next = (.ok ⟨.eof, c.skip.location⟩, c.skip)
  := by rw [next, h, Option.getD_none]

theorem next_of_next?_eq_some {c c' : Cursor} {step : Step} (h : c.next? = some (step, c')) :
  c.next = (step, c')
  := by rw [next, h, Option.getD_some]

/-- If there is no token any more, only filler is left. -/
theorem filler_of_next?_eq_none {c : Cursor} (h : c.next? = none) :
  Filler True c.rest ∧ c.skip.rest = []
  := by
  unfold next? at h
  split at h
  · cases h
  · rename_i hclosed hrest
    rw [skip, rest_advance] at hrest
    have hfiller := Filler.of_gap hclosed fun _ => trivial
    rw [List.take_of_length_le (List.drop_eq_nil_iff.mp hrest)] at hfiller
    exact ⟨hfiller, hrest⟩
  · cases h

/-- A token is read from a tile, and the cursor then stands right after it. -/
theorem exists_tile_of_next? {c c' : Cursor} {t : Located Token}
    (h : c.next? = some (.ok t, c')) :
  ∃ tile : Tile, tile.token = t.value ∧ c.rest = tile.text ++ c'.rest ∧
    tile.token.Separated c'.rest
  := by
  unfold next? at h
  split at h
  · cases h
  · cases h
  · rename_i first rest hclosed hrest
    obtain ⟨hstep, rfl⟩ := Prod.mk.inj (Option.some.inj h)
    rw [rest_advance, hrest, List.drop_succ_cons]
    rw [skip, rest_advance] at hrest
    split at hstep
    · rename_i token htoken
      obtain rfl := Except.ok.inj hstep
      obtain ⟨hspelled, hseparated⟩ := Token.spelledBy_of_scan htoken
      have hfiller : Filler False (c.rest.take (Gap.of c.rest).length) := by
        apply Filler.of_gap hclosed
        simp [hrest]
      use ⟨_, _, token, hfiller, hspelled⟩
      refine ⟨rfl, ?_, hseparated⟩
      rw [Tile.text, List.append_assoc, List.cons_append, List.take_append_drop, ← hrest,
        List.take_append_drop]
    · cases hstep

/-- The end of the text is the same from wherever it is counted. -/
theorem location_after_rest_of_next? {c c' : Cursor} {t : Located Token}
    (h : c.next? = some (.ok t, c')) :
  c'.location.after c'.rest = c.location.after c.rest
  := by
  have hadvance (c : Cursor) (n : Nat) :
      (c.advance n).location.after (c.advance n).rest = c.location.after c.rest := by
    rw [rest_advance, advance, locationAt, ← Location.after_append, List.take_append_drop]
  unfold next? at h
  split at h
  · cases h
  · cases h
  · obtain ⟨-, rfl⟩ := Prod.mk.inj (Option.some.inj h)
    rw [hadvance, skip, hadvance]

/-! ### All steps -/

/-- A text without tokens is tiled by filler. -/
theorem Tiling.nil {c : Cursor} (h : c.next? = none) :
  c.Tiling [⟨.eof, c.location.after c.rest⟩] [] c.rest
  where
  text := rfl
  filler := (filler_of_next?_eq_none h).1
  values := rfl
  separated := by
    intro before tile after hsplit
    simp at hsplit
  answer := by
    intro before t after hsplit
    obtain ⟨rfl, rfl, -⟩ : before = [] ∧ t = _ ∧ after = [] := by
      simpa [List.append_eq_singleton_iff] using hsplit.symm
    have hrest := (filler_of_next?_eq_none h).2
    rw [skip, rest_advance] at hrest
    change c.next.1 = _
    rw [next_of_next?_eq_none h, skip, advance, locationAt,
      List.take_of_length_le (List.drop_eq_nil_iff.mp hrest)]
  rest := by
    intro before after hsplit
    obtain ⟨rfl, rfl⟩ := List.append_eq_nil_iff.mp hsplit.symm
    rfl
  finish := by
    rw [List.length_nil, after_succ, next_of_next?_eq_none h]
    apply (filler_of_next?_eq_none h).2

/-- A tile before a tiling. -/
theorem Tiling.cons {c c' : Cursor} {t : Located Token} {tile : Tile}
    {tokens : List (Located Token)} {tiles : List Tile} {last : List Char}
    (hnext : c.next? = some (.ok t, c')) (htoken : tile.token = t.value)
    (htext : c.rest = tile.text ++ c'.rest) (hseparated : tile.token.Separated c'.rest)
    (h : c'.Tiling tokens tiles last) :
  c.Tiling (t :: tokens) (tile :: tiles) last
  := by
  have hafter (n : Nat) : c.after (n + 1) = c'.after n := by
    rw [after_succ, next_of_next?_eq_some hnext]
  constructor
  case text => rw [htext, h.text, Tile.textOf_cons, List.append_assoc]
  case filler => apply h.filler
  case values => rw [List.map_cons, List.map_cons, h.values, htoken, List.cons_append]
  case separated =>
    intro before tile' after hsplit
    cases before with
    | nil =>
      obtain ⟨rfl, rfl⟩ := List.cons.inj hsplit
      rwa [← h.text]
    | cons _ before =>
      obtain ⟨rfl, rfl⟩ := List.cons.inj hsplit
      apply h.separated before tile' after rfl
  case answer =>
    intro before t' after hsplit
    cases before with
    | nil =>
      obtain ⟨rfl, rfl⟩ := List.cons.inj hsplit
      exact congrArg Prod.fst (next_of_next?_eq_some hnext)
    | cons _ before =>
      obtain ⟨rfl, rfl⟩ := List.cons.inj hsplit
      rw [List.length_cons, hafter]
      apply h.answer before t' after rfl
  case rest =>
    intro before after hsplit
    cases before with
    | nil =>
      rw [List.nil_append] at hsplit
      subst hsplit
      rw [Tile.textOf_cons, List.append_assoc, ← h.text]
      exact htext
    | cons _ before =>
      obtain ⟨rfl, rfl⟩ := List.cons.inj hsplit
      rw [List.length_cons, hafter]
      apply h.rest before after rfl
  case finish =>
    rw [List.length_cons, hafter]
    apply h.finish

/-- The tokens at a cursor tile the text at it. -/
theorem exists_tiling {c : Cursor} {ts : List (Located Token)} (h : c.steps = ts.map .ok) :
  ∃ tiles last, c.Tiling (ts ++ [⟨.eof, c.location.after c.rest⟩]) tiles last
  := by
  induction ts generalizing c with
  | nil =>
    cases hnext : c.next? with
    | none => exact ⟨[], c.rest, .nil hnext⟩
    | some answer =>
      rw [steps_of_next?_eq_some hnext] at h
      cases h
  | cons t ts ih =>
    cases hnext : c.next? with
    | none =>
      rw [steps_of_next?_eq_none hnext] at h
      cases h
    | some answer =>
      obtain ⟨step, c'⟩ := answer
      rw [steps_of_next?_eq_some hnext, List.map_cons] at h
      obtain ⟨rfl, hsteps⟩ := List.cons.inj h
      obtain ⟨tile, htoken, htext, hseparated⟩ := exists_tile_of_next? hnext
      obtain ⟨tiles, last, htiling⟩ := ih hsteps
      use tile :: tiles, last
      rw [List.cons_append, ← location_after_rest_of_next? hnext]
      apply Tiling.cons hnext htoken htext hseparated htiling

end Cursor

/-- Every text with tokens is tiled by their lexemes. -/
theorem exists_tiling_of_tokenize {source : String} {tokens : List (Located Token)}
    (h : tokenize source = .ok tokens) :
  ∃ tiles last, (Cursor.ofText source).Tiling tokens tiles last
  := by
  obtain ⟨ts, hsteps, rfl⟩ := TokenStream.tokens_eq_ok_iff.mp h
  apply Cursor.exists_tiling hsteps

/-- A text with two comments and tokens of all kinds is tiled. -/
theorem exists_tiling_of_tokenize_comments :
  ∃ tiles last, (Cursor.ofText "if x<0x1F ## a #b ##\"\\x41\"# end").Tiling
    [⟨.keyword .ifWord, ⟨1, 1⟩⟩, ⟨.ident "x", ⟨1, 4⟩⟩, ⟨.mark .lt, ⟨1, 5⟩⟩,
      ⟨.number (.int 31), ⟨1, 6⟩⟩, ⟨.string "A", ⟨1, 21⟩⟩, ⟨.eof, ⟨1, 32⟩⟩] tiles last
  := exists_tiling_of_tokenize (by decide +kernel)

end SilFront
