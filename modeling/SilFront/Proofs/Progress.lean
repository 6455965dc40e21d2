import SilFront.Pass.Program
import SilFront.Proofs.Reading

/-!
# States that a pass reaches

`Position.Reads` says which tokens lie between two positions, whatever their locations. `Pass.reach`
is the state of a pass at another position, with another table of names and with more entries. For
each action from which the constructs of the language are put together, a lemma says exactly when it
succeeds, which tokens it reads and what state it reaches.
-/

namespace SilFront

namespace Position

/-- The tokens from one position up to another are the given ones, at whatever locations. -/
def Reads (p : Position) (tokens : List Token) (q : Position) : Prop :=
  ∃ ts, p.Passes ts q ∧ ts.map Located.value = tokens

@[simp]
theorem reads_nil_iff {p q : Position} :
  p.Reads [] q ↔ p = q
  := by
  constructor
  · rintro ⟨ts, hts, hnil⟩
    obtain rfl := List.map_eq_nil_iff.mp hnil
    apply passes_nil_iff.mp hts
  · rintro rfl
    exact ⟨[], .nil p, rfl⟩

/-- A token is read if it is the next one and another token can be read after it. -/
theorem reads_cons_iff {p r : Position} {token : Token} {tokens : List Token} :
  p.Reads (token :: tokens) r ↔
    p.lookahead.value = token ∧ token ≠ .eof ∧ ∃ q, p.next? = some q ∧ q.Reads tokens r
  := by
  constructor
  · rintro ⟨ts, hts, hcons⟩
    obtain ⟨t, ts, rfl, rfl, rfl⟩ := List.map_eq_cons_iff.mp hcons
    obtain ⟨rfl, more, q, next, rest⟩ := passes_cons_iff.mp hts
    exact ⟨rfl, more, q, next, ts, rest, rfl⟩
  · rintro ⟨rfl, more, q, next, ts, rest, rfl⟩
    exact ⟨p.lookahead :: ts, .cons more next rest, rfl⟩

/-- Tokens in turn are read up to a position in between, and from there on. -/
theorem reads_append_iff {p r : Position} {first second : List Token} :
  p.Reads (first ++ second) r ↔ ∃ q, p.Reads first q ∧ q.Reads second r
  := by
  constructor
  · rintro ⟨ts, hts, happend⟩
    obtain ⟨us, vs, rfl, rfl, rfl⟩ := List.map_eq_append_iff.mp happend
    obtain ⟨q, hus, hvs⟩ := passes_append_iff.mp hts
    exact ⟨q, ⟨us, hus, rfl⟩, vs, hvs, rfl⟩
  · rintro ⟨q, ⟨us, hus, rfl⟩, vs, hvs, rfl⟩
    exact ⟨us ++ vs, hus.append hvs, List.map_append⟩

/-- The first of some tokens is read on its own before the others. -/
theorem reads_cons_iff_exists {p r : Position} {token : Token} {tokens : List Token} :
  p.Reads (token :: tokens) r ↔ ∃ q, p.Reads [token] q ∧ q.Reads tokens r
  := show p.Reads ([token] ++ tokens) r ↔ _ from reads_append_iff

/-- One token is read if it is ahead and is not the end of the text. -/
theorem reads_singleton_iff {p q : Position} {token : Token} :
  p.Reads [token] q ↔ p.lookahead.value = token ∧ token ≠ .eof ∧ p.next? = some q
  := by
  simp [reads_cons_iff]

/-- Reading goes on from where it has led. -/
theorem Reads.append {p q r : Position} {first second : List Token}
    (h : p.Reads first q) (h' : q.Reads second r) :
  p.Reads (first ++ second) r
  := by
  apply reads_append_iff.mpr
  exact ⟨q, h, h'⟩

theorem Reads.lookahead {p q : Position} {token : Token} {tokens : List Token}
    (h : p.Reads (token :: tokens) q) :
  p.lookahead.value = token
  := (reads_cons_iff.mp h).1

/-- The tokens between two positions are unique. -/
theorem Reads.unique {p q : Position} {tokens tokens' : List Token} (h : p.Reads tokens q)
    (h' : p.Reads tokens' q) :
  tokens = tokens'
  := by
  obtain ⟨ts, hts, rfl⟩ := h
  obtain ⟨us, hus, rfl⟩ := h'
  rw [hts.unique hus]

/-- Reading tokens lowers the bound on those that can follow. -/
theorem Reads.length_add_bound_le {p q : Position} {tokens : List Token} (h : p.Reads tokens q) :
  tokens.length + q.bound ≤ p.bound
  := by
  obtain ⟨ts, hts, rfl⟩ := h
  rw [List.length_map]
  apply hts.length_add_bound_le

/-- Reading leaves no more tokens ahead. -/
theorem Reads.bound_le {p q : Position} {tokens : List Token} (h : p.Reads tokens q) {n : Nat}
    (hn : p.bound ≤ n) :
  q.bound ≤ n
  := by
  have hlower := h.length_add_bound_le
  omega

/-- Reading a token leaves fewer tokens ahead. -/
theorem Reads.bound_lt {p q : Position} {token : Token} {tokens : List Token}
    (h : p.Reads (token :: tokens) q) {n : Nat} (hn : p.bound ≤ n) :
  q.bound < n
  := by
  have hlower := h.length_add_bound_le
  rw [List.length_cons] at hlower
  omega

end Position

namespace Pass

open PassM

/-- The pass at another position, with another table of names, after it has written entries. -/
def reach (s : Pass) (p : Position) (T : SymbolTable) (entries : List Entry) : Pass :=
  { s with
    lookahead := p.lookahead
    stream := p.stream
    symbols := T
    listing := s.listing.append entries }

section

variable (s : Pass) (p q : Position) (T T' : SymbolTable) (entries entries' : List Entry)

@[simp]
theorem position_reach :
  (s.reach p T entries).position = p
  := rfl

@[simp]
theorem lookahead_reach :
  (s.reach p T entries).lookahead = p.lookahead
  := rfl

@[simp]
theorem symbols_reach :
  (s.reach p T entries).symbols = T
  := rfl

@[simp]
theorem registers_reach :
  (s.reach p T entries).registers = s.registers
  := rfl

variable {s p T entries} in
/-- The number of registers is that of the pass before. -/
theorem registers_reach_of_eq {registers : Nat} (h : s.registers = registers) :
  (s.reach p T entries).registers = registers
  := h

/-- A pass that reaches two states in turn writes the entries of both. -/
@[simp]
theorem reach_reach :
  (s.reach p T entries).reach q T' entries' = s.reach q T' (entries ++ entries')
  := by
  have h : (s.listing.append entries).append entries' = s.listing.append (entries ++ entries') := by
    apply Listing.ext_toList
    simp
  simp only [reach, h]

/-- Going on with operations keeps the table of names. -/
theorem goto_eq_reach (code : List Operation) :
  s.goto p code = s.reach p s.symbols (code.map .operation)
  := rfl

theorem reach_position :
  s.reach s.position s.symbols [] = s
  := s.goto_position

end

/-! ### Actions in sequence -/

/-- After an action that succeeds, the next one runs from the state that it has reached. -/
theorem run_bind_of_run_eq_ok {α β : Type} {s t : Pass} {first : PassM α} {value : α}
    (h : s.run first = (.ok value, t)) (second : α → PassM β) :
  s.run (first >>= second) = t.run (second value)
  := by
  rw [run_bind, h]

/-- If it is known which states an action can reach, and with which values, then it is known what can
happen after it. -/
theorem run_bind_eq_ok_iff_of_iff {α β ι : Type} {s t : Pass} {first : PassM α}
    {second : α → PassM β} {P : ι → Prop} {value : ι → α} {state : ι → Pass} {b : β}
    (h : ∀ {a u}, s.run first = (.ok a, u) ↔ ∃ i, P i ∧ a = value i ∧ u = state i) :
  s.run (first >>= second) = (.ok b, t) ↔
    ∃ i, P i ∧ (state i).run (second (value i)) = (.ok b, t)
  := by
  rw [run_bind_eq_ok_iff]
  constructor
  · rintro ⟨a, u, hfirst, hsecond⟩
    obtain ⟨i, hi, rfl, rfl⟩ := h.mp hfirst
    exact ⟨i, hi, hsecond⟩
  · rintro ⟨i, hi, hsecond⟩
    exact ⟨_, _, h.mpr ⟨i, hi, rfl, rfl⟩, hsecond⟩

/-! ### Tokens -/

/-- The next token is passed if it is a given one. -/
theorem run_expect_eq_ok_iff_reads {s t : Pass} {mark : Mark} {place : Place} {u : Unit} :
  s.run (expect mark place) = (.ok u, t) ↔
    ∃ q, s.position.Reads [.mark mark] q ∧ t = s.reach q s.symbols []
  := by
  rw [run_expect_eq_ok_iff]
  simp only [Position.reads_singleton_iff]
  constructor
  · rintro ⟨hmark, q, hq, rfl⟩
    exact ⟨q, ⟨hmark, by simp, hq⟩, rfl⟩
  · rintro ⟨q, ⟨hmark, -, hq⟩, rfl⟩
    exact ⟨hmark, q, hq, rfl⟩

/-- An action after an expected mark succeeds exactly if the mark is read and the action succeeds
from there on. -/
theorem run_expect_bind_eq_ok_iff {β : Type} {s t : Pass} {mark : Mark} {place : Place}
    {second : Unit → PassM β} {b : β} :
  s.run (expect mark place >>= second) = (.ok b, t) ↔
    ∃ q, s.position.Reads [.mark mark] q ∧ (s.reach q s.symbols []).run (second ()) = (.ok b, t)
  := by
  apply run_bind_eq_ok_iff_of_iff
  simp [run_expect_eq_ok_iff_reads]

/-- A token that is known to be the next one, and not the end of the text, is passed. -/
theorem run_advance_eq_ok_iff_reads {s t : Pass} {token : Token} {u : Unit}
    (h : s.lookahead.value = token) (more : token ≠ .eof) :
  s.run advance = (.ok u, t) ↔ ∃ q, s.position.Reads [token] q ∧ t = s.reach q s.symbols []
  := by
  rw [run_advance_eq_ok_iff]
  simp only [Position.reads_singleton_iff]
  constructor
  · rintro ⟨q, hq, rfl⟩
    exact ⟨q, ⟨h, more, hq⟩, rfl⟩
  · rintro ⟨q, ⟨-, -, hq⟩, rfl⟩
    exact ⟨q, hq, rfl⟩

/-- An action after a token that is ahead succeeds exactly if it does from behind that token on. -/
theorem run_advance_bind_eq_ok_iff_reads {β : Type} {s t : Pass} {token : Token}
    {second : Unit → PassM β} {b : β} (h : s.lookahead.value = token) (more : token ≠ .eof) :
  s.run (advance >>= second) = (.ok b, t) ↔
    ∃ q, s.position.Reads [token] q ∧ (s.reach q s.symbols []).run (second ()) = (.ok b, t)
  := by
  apply run_bind_eq_ok_iff_of_iff
  simp [run_advance_eq_ok_iff_reads h more]

/-- A token is accepted if it is the next one, and then it is passed. -/
theorem run_accept_eq_ok_iff_reads {s t : Pass} {token : Token} {b : Bool} (more : token ≠ .eof) :
  s.run (accept token) = (.ok b, t) ↔
    (b = true ∧ ∃ q, s.position.Reads [token] q ∧ t = s.reach q s.symbols []) ∨
      (b = false ∧ s.lookahead.value ≠ token ∧ t = s)
  := by
  rw [run_accept_eq_ok_iff]
  simp only [Position.reads_singleton_iff]
  constructor
  · rintro (⟨rfl, htoken, q, hq, rfl⟩ | hnot)
    · exact .inl ⟨rfl, q, ⟨htoken, more, hq⟩, rfl⟩
    · exact .inr hnot
  · rintro (⟨rfl, q, ⟨htoken, -, hq⟩, rfl⟩ | hnot)
    · exact .inl ⟨rfl, htoken, q, hq, rfl⟩
    · exact .inr hnot

/-- What follows a token that may be left out runs after it or in its place. -/
theorem run_accept_bind_eq_ok_iff {β : Type} {s t : Pass} {token : Token}
    {second : Bool → PassM β} {b : β} (more : token ≠ .eof) :
  s.run (accept token >>= second) = (.ok b, t) ↔
    (∃ q, s.position.Reads [token] q ∧ (s.reach q s.symbols []).run (second true) = (.ok b, t)) ∨
      (s.lookahead.value ≠ token ∧ s.run (second false) = (.ok b, t))
  := by
  rw [run_bind_eq_ok_iff]
  simp only [run_accept_eq_ok_iff_reads more]
  constructor
  · rintro ⟨_, _, ⟨rfl, q, hq, rfl⟩ | ⟨rfl, hnot, rfl⟩, h⟩
    · exact .inl ⟨q, hq, h⟩
    · exact .inr ⟨hnot, h⟩
  · rintro (⟨q, hq, h⟩ | ⟨hnot, h⟩)
    · exact ⟨true, _, .inl ⟨rfl, q, hq, rfl⟩, h⟩
    · exact ⟨false, s, .inr ⟨rfl, hnot, rfl⟩, h⟩

/-- A name is found exactly if it is read, and is located where it is ahead. -/
theorem run_identifier_eq_ok_iff {s t : Pass} {name : Located String} :
  s.run identifier = (.ok name, t) ↔
    name.location = s.lookahead.location ∧
      ∃ q, s.position.Reads [.ident name.value] q ∧ t = s.reach q s.symbols []
  := by
  rw [identifier, run_bind_eq_ok_iff]
  constructor
  · rintro ⟨_, _, hpeek, h⟩
    cases hpeek
    cases hvalue : s.lookahead.value with
    | ident id =>
      rw [hvalue] at h
      obtain ⟨_, u, hadvance, hname⟩ := run_bind_eq_ok_iff.mp h
      obtain ⟨q, hq, rfl⟩ := (run_advance_eq_ok_iff_reads hvalue (by simp)).mp hadvance
      cases hname
      exact ⟨rfl, q, hq, rfl⟩
    | _ => simp [hvalue] at h
  · obtain ⟨id, location⟩ := name
    rintro ⟨rfl, q, hq, rfl⟩
    have hvalue := hq.lookahead
    refine ⟨s.lookahead, s, rfl, ?_⟩
    rw [show s.lookahead.value = .ident id from hvalue]
    apply run_bind_eq_ok_iff.mpr
    exact ⟨(), _, (run_advance_eq_ok_iff_reads hvalue (by simp)).mpr ⟨q, hq, rfl⟩, rfl⟩

/-- An action after a name succeeds exactly if a name is read and the action succeeds from there
on. -/
theorem run_identifier_bind_eq_ok_iff {β : Type} {s t : Pass} {second : Located String → PassM β}
    {b : β} :
  s.run (identifier >>= second) = (.ok b, t) ↔
    ∃ name q, s.position.Reads [.ident name] q ∧
      (s.reach q s.symbols []).run (second ⟨name, s.lookahead.location⟩) = (.ok b, t)
  := by
  rw [run_bind_eq_ok_iff]
  simp only [run_identifier_eq_ok_iff]
  constructor
  · rintro ⟨⟨name, _⟩, _, ⟨rfl, q, hq, rfl⟩, h⟩
    exact ⟨name, q, hq, h⟩
  · rintro ⟨name, q, hq, h⟩
    exact ⟨_, _, ⟨rfl, q, hq, rfl⟩, h⟩

/-! ### Entries and names -/

/-- A note is added to the listing, and nothing else changes. -/
@[simp]
theorem run_note (s : Pass) (content : Note) :
  s.run (note content) = (.ok (), s.reach s.position s.symbols [.note content])
  := rfl

theorem run_note_eq_ok_iff {s t : Pass} {content : Note} {u : Unit} :
  s.run (note content) = (.ok u, t) ↔ t = s.reach s.position s.symbols [.note content]
  := by
  simp [eq_comm]

@[simp]
theorem run_note_bind {β : Type} (s : Pass) (content : Note) (second : Unit → PassM β) :
  s.run (note content >>= second) =
    (s.reach s.position s.symbols [.note content]).run (second ())
  := run_bind_of_run_eq_ok (s.run_note content) second

/-- A declaration succeeds exactly if the table of names can be changed, and changes nothing
else. -/
theorem run_declare_eq_ok_iff {s t : Pass} {location : Location}
    {change : SymbolTable → Except SymbolError SymbolTable} {u : Unit} :
  s.run (declare location change) = (.ok u, t) ↔
    ∃ T, change s.symbols = .ok T ∧ t = s.reach s.position T []
  := by
  have h : s.listing.append [] = s.listing := by
    apply Listing.ext_toList
    simp
  rw [run_declare]
  cases hchange : change s.symbols with
  | error cause => simp
  | ok T => simp [reach, position, h, eq_comm]

/-- An action after a declaration succeeds exactly if it does with the changed table. -/
theorem run_declare_bind_eq_ok_iff {β : Type} {s t : Pass} {location : Location}
    {change : SymbolTable → Except SymbolError SymbolTable} {second : Unit → PassM β} {b : β} :
  s.run (declare location change >>= second) = (.ok b, t) ↔
    ∃ T, change s.symbols = .ok T ∧ (s.reach s.position T []).run (second ()) = (.ok b, t)
  := by
  apply run_bind_eq_ok_iff_of_iff
  simp [run_declare_eq_ok_iff]

@[simp]
theorem run_depth (s : Pass) :
  s.run depth = (.ok s.symbols.depth, s)
  := rfl

@[simp]
theorem run_depth_bind {β : Type} (s : Pass) (second : Nat → PassM β) :
  s.run (depth >>= second) = s.run (second s.symbols.depth)
  := run_bind_of_run_eq_ok s.run_depth second

@[simp]
theorem run_symbols_bind {β : Type} (s : Pass) (second : SymbolTable → PassM β) :
  s.run (PassM.symbols >>= second) = s.run (second s.symbols)
  := run_bind_of_run_eq_ok s.run_symbols second

@[simp]
theorem run_peek_bind {β : Type} (s : Pass) (second : Located Token → PassM β) :
  s.run (peek >>= second) = s.run (second s.lookahead)
  := run_bind_of_run_eq_ok s.run_peek second

@[simp]
theorem run_get_bind {β : Type} (s : Pass) (second : Pass → PassM β) :
  s.run (get >>= second) = s.run (second s)
  := run_bind_of_run_eq_ok s.run_get second

/-- A refused program is not read any further. -/
@[simp]
theorem run_refuseAt_bind {α β : Type} (s : Pass) (cause : SyntaxError) (location : Location)
    (second : α → PassM β) :
  s.run (refuseAt cause location >>= second) = (.error (.ofSyntax ⟨cause, location⟩), s)
  := by
  rw [run_bind, run_refuseAt]

@[simp]
theorem run_refuse_bind {α β : Type} (s : Pass) (cause : SyntaxError) (second : α → PassM β) :
  s.run (refuse cause >>= second) = (.error (.ofSyntax ⟨cause, s.lookahead.location⟩), s)
  := by
  rw [run_bind, run_refuse]

/-- An action after entering a scope begins one deeper, with a note of it. -/
@[simp]
theorem run_enterScope_bind {β : Type} (s : Pass) (second : Unit → PassM β) :
  s.run (enterScope >>= second) =
    (s.reach s.position s.symbols.enter [.note (.scopeChanged (s.symbols.depth + 1))]).run
      (second ())
  := run_bind_of_run_eq_ok rfl second

/-- Leaving a scope always succeeds, with a note of the depth that is left to. -/
theorem run_exitScope_eq_ok_iff {s t : Pass} {u : Unit} :
  s.run exitScope = (.ok u, t) ↔
    t = s.reach s.position s.symbols.exit [.note (.scopeChanged s.symbols.exit.depth)]
  := by
  constructor
  · rintro ⟨⟩
    rfl
  · rintro rfl
    rfl

end Pass

end SilFront
