import SilFront.Pass.Expression
import Mathlib.Tactic.Common

/-!
# Positions and successful runs

A `Position` is the part of a pass that its tokens come from: the next token and what is read after
it. `Position.Passes` says which tokens lie between two positions. The end of the text is never one
of them, so that the tokens between two positions are unique.

For each action of a pass, a lemma says exactly when it succeeds and in what state.
-/

namespace SilFront

/-- The next token, and what is read after it. -/
structure Position where
  lookahead : Located Token
  stream : TokenStream

namespace Position

/-- The position after the next token, if a token can be read there. -/
def next? (p : Position) : Option Position :=
  match p.stream.next with
  | (.ok lookahead, stream) => some ⟨lookahead, stream⟩
  | (.error _, _) => none

/-- The tokens from one position up to another, none of which is the end of the text. -/
inductive Passes : Position → List (Located Token) → Position → Prop
  | nil (p : Position) : Passes p [] p
  | cons {p q r : Position} {ts : List (Located Token)} (more : p.lookahead.value ≠ .eof)
      (next : p.next? = some q) (rest : Passes q ts r) : Passes p (p.lookahead :: ts) r

theorem Passes.append {p q r : Position} {ts us : List (Located Token)}
    (h : p.Passes ts q) (h' : q.Passes us r) :
  p.Passes (ts ++ us) r
  := by
  induction h with
  | nil p => apply h'
  | cons more next _ ih => apply Passes.cons more next (ih h')

/-- Tokens in front of others are passed first. -/
theorem passes_append_iff {p r : Position} {ts us : List (Located Token)} :
  p.Passes (ts ++ us) r ↔ ∃ q, p.Passes ts q ∧ q.Passes us r
  := by
  constructor
  · intro h
    induction ts generalizing p with
    | nil => exact ⟨p, .nil p, h⟩
    | cons t ts ih =>
      obtain _ | ⟨more, next, rest⟩ := h
      obtain ⟨q, hts, hus⟩ := ih rest
      exact ⟨q, .cons more next hts, hus⟩
  · rintro ⟨q, hts, hus⟩
    apply hts.append hus

/-- Passing over one token goes on to the next position. -/
theorem passes_cons_iff {p r : Position} {t : Located Token} {ts : List (Located Token)} :
  p.Passes (t :: ts) r ↔
    t = p.lookahead ∧ t.value ≠ .eof ∧ ∃ q, p.next? = some q ∧ q.Passes ts r
  := by
  constructor
  · rintro (_ | ⟨more, next, rest⟩)
    exact ⟨rfl, more, _, next, rest⟩
  · rintro ⟨rfl, more, q, next, rest⟩
    apply Passes.cons more next rest

@[simp]
theorem passes_nil_iff {p q : Position} :
  p.Passes [] q ↔ p = q
  := by
  constructor
  · rintro ⟨⟩
    rfl
  · rintro rfl
    apply Passes.nil

theorem passes_singleton_iff {p q : Position} {t : Located Token} :
  p.Passes [t] q ↔ t = p.lookahead ∧ t.value ≠ .eof ∧ p.next? = some q
  := by
  simp [passes_cons_iff]

/-- The first and the last of some tokens are those before and after the others. -/
theorem Passes.enclosed {p q : Position} {first last : Located Token}
    {inner : List (Located Token)} (h : p.Passes (first :: (inner ++ [last])) q) :
  ∃ p₁ p₂, first = p.lookahead ∧ p.next? = some p₁ ∧ p₁.Passes inner p₂ ∧
    last = p₂.lookahead ∧ p₂.next? = some q
  := by
  obtain ⟨hfirst, -, p₁, hp₁, hrest⟩ := passes_cons_iff.mp h
  obtain ⟨p₂, hinner, hlast⟩ := passes_append_iff.mp hrest
  obtain ⟨hp₂, -, hq⟩ := passes_singleton_iff.mp hlast
  exact ⟨p₁, p₂, hfirst, hp₁, hinner, hp₂, hq⟩

/-- A bound on the number of tokens from a position on. -/
def bound (p : Position) : Nat :=
  if p.stream.steps = [] ∧ p.lookahead.value = .eof then 0 else p.stream.ahead + 1

theorem bound_le (p : Position) :
  p.bound ≤ p.stream.ahead + 1
  := by
  unfold bound
  split
  · apply Nat.zero_le
  · apply Nat.le_refl

/-- Going on to the next position lowers the bound, unless the text has ended. -/
theorem next?_bound {p q : Position} (more : p.lookahead.value ≠ .eof) (h : p.next? = some q) :
  q.bound < p.bound
  := by
  have hp : p.bound = p.stream.ahead + 1 := if_neg fun hend => more hend.2
  rw [hp]
  obtain ⟨lookahead, ⟨steps, finish⟩⟩ := p
  cases steps with
  | nil =>
    obtain rfl := Option.some.inj h
    apply Nat.zero_lt_succ
  | cons step steps =>
    cases step with
    | error e => cases h
    | ok token =>
      obtain rfl := Option.some.inj h
      apply Nat.lt_succ_of_le (bound_le _)

theorem Passes.length_add_bound_le {p q : Position} {ts : List (Located Token)}
    (h : p.Passes ts q) :
  ts.length + q.bound ≤ p.bound
  := by
  induction h with
  | nil p => simp
  | cons more next _ ih =>
    have := next?_bound more next
    rw [List.length_cons]
    omega

/-- No token is passed on the way from a position to itself. -/
theorem Passes.eq_nil {p : Position} {ts : List (Located Token)} (h : p.Passes ts p) :
  ts = []
  := by
  have := h.length_add_bound_le
  apply List.eq_nil_of_length_eq_zero
  omega

/-- The tokens between two positions are unique. -/
theorem Passes.unique {p q : Position} {ts us : List (Located Token)}
    (h : p.Passes ts q) (h' : p.Passes us q) :
  ts = us
  := by
  induction h generalizing us with
  | nil p => apply h'.eq_nil.symm
  | cons more next rest ih =>
    obtain _ | ⟨more', next', rest'⟩ := h'
    · have hloop := (Passes.cons more next rest).eq_nil
      cases hloop
    · obtain rfl := Option.some.inj (next.symm.trans next')
      rw [ih rest']

/-- The position before a run of tokens, after which the text ends. -/
def ofTokens : List (Located Token) → Location → Position
  | [], finish => ⟨⟨.eof, finish⟩, ⟨[], finish⟩⟩
  | t :: ts, finish => ⟨t, ⟨ts.map .ok, finish⟩⟩

theorem next?_ofTokens (t : Located Token) (ts : List (Located Token)) (finish : Location) :
  (ofTokens (t :: ts) finish).next? = some (ofTokens ts finish)
  := by
  cases ts <;> rfl

/-- The tokens before others are passed first. -/
theorem passes_ofTokens {ts : List (Located Token)} (h : ∀ t ∈ ts, t.value ≠ .eof)
    (us : List (Located Token)) (finish : Location) :
  (ofTokens (ts ++ us) finish).Passes ts (ofTokens us finish)
  := by
  induction ts with
  | nil => apply Passes.nil
  | cons t ts ih =>
    obtain ⟨hfirst, hrest⟩ := List.forall_mem_cons.mp h
    apply Passes.cons hfirst (next?_ofTokens t (ts ++ us) finish) (ih hrest)

end Position

/-! ### States of a pass -/

namespace Pass

/-- Where a pass stands among its tokens. -/
def position (s : Pass) : Position :=
  ⟨s.lookahead, s.stream⟩

/-- The pass at another position, after it has written operations. -/
def goto (s : Pass) (p : Position) (code : List Operation) : Pass :=
  { s with
    lookahead := p.lookahead
    stream := p.stream
    listing := s.listing.append (code.map .operation) }

@[simp]
theorem position_goto (s : Pass) (p : Position) (code : List Operation) :
  (s.goto p code).position = p
  := rfl

@[simp]
theorem lookahead_goto (s : Pass) (p : Position) (code : List Operation) :
  (s.goto p code).lookahead = p.lookahead
  := rfl

@[simp]
theorem symbols_goto (s : Pass) (p : Position) (code : List Operation) :
  (s.goto p code).symbols = s.symbols
  := rfl

@[simp]
theorem registers_goto (s : Pass) (p : Position) (code : List Operation) :
  (s.goto p code).registers = s.registers
  := rfl

/-- A pass that goes to two positions in turn writes the operations of both. -/
@[simp]
theorem goto_goto (s : Pass) (p q : Position) (first second : List Operation) :
  (s.goto p first).goto q second = s.goto q (first ++ second)
  := by
  have h : (s.listing.append (first.map .operation)).append (second.map .operation) =
      s.listing.append ((first ++ second).map .operation) := by
    apply Listing.ext_toList
    simp
  simp only [goto, h]

theorem goto_position (s : Pass) :
  s.goto s.position [] = s
  := by
  have h : s.listing.append [] = s.listing := by
    apply Listing.ext_toList
    simp
  simp only [goto, position, List.map_nil, h]

/-! ### Success -/

/-- Two actions succeed in turn if the second succeeds from where the first has led. -/
theorem run_bind_eq_ok_iff {α β : Type} {s t : Pass} {first : PassM α} {second : α → PassM β}
    {b : β} :
  s.run (first >>= second) = (.ok b, t) ↔
    ∃ a u, s.run first = (.ok a, u) ∧ u.run (second a) = (.ok b, t)
  := by
  rw [run_bind]
  rcases s.run first with ⟨_ | a, u⟩
  · simp
  · constructor
    · intro h
      exact ⟨a, u, rfl, h⟩
    · rintro ⟨a', u', h, h'⟩
      cases h
      exact h'

theorem run_map_eq_ok_iff {α β : Type} {s t : Pass} {action : PassM α} {f : α → β} {b : β} :
  s.run (f <$> action) = (.ok b, t) ↔ ∃ a, s.run action = (.ok a, t) ∧ f a = b
  := by
  rw [map_eq_pure_bind, run_bind_eq_ok_iff]
  constructor
  · rintro ⟨a, u, h, h'⟩
    cases h'
    exact ⟨a, h, rfl⟩
  · rintro ⟨a, h, rfl⟩
    exact ⟨a, t, h, rfl⟩

open PassM

theorem goto_nil (s : Pass) (p : Position) :
  s.goto p [] = { s with lookahead := p.lookahead, stream := p.stream }
  := by
  have h : s.listing.append [] = s.listing := by
    apply Listing.ext_toList
    simp
  simp only [goto, List.map_nil, h]

/-- A pass goes on to the next position if a token can be read there. -/
theorem run_advance_eq_ok_iff {s t : Pass} {u : Unit} :
  s.run advance = (.ok u, t) ↔ ∃ p, s.position.next? = some p ∧ t = s.goto p []
  := by
  rw [run_advance]
  simp only [Position.next?, position, goto_nil]
  rcases s.stream.next with ⟨_ | lookahead, stream⟩
  · simp
  · simp [eq_comm]

@[simp]
theorem run_sees (s : Pass) (token : Token) :
  s.run (sees token) = (.ok (decide (s.lookahead.value = token)), s)
  := rfl

/-- A mark is expected in vain unless it is the next token. -/
theorem run_expect_eq_ok_iff {s t : Pass} {mark : Mark} {place : Place} {u : Unit} :
  s.run (expect mark place) = (.ok u, t) ↔
    s.lookahead.value = .mark mark ∧ ∃ p, s.position.next? = some p ∧ t = s.goto p []
  := by
  simp only [expect, run_bind_eq_ok_iff, run_peek]
  by_cases h : s.lookahead.value = .mark mark
  · simp [h, run_advance_eq_ok_iff]
  · simp [h]

/-- A token is accepted, and passed, exactly if it is the next one. -/
theorem run_accept_eq_ok_iff {s t : Pass} {token : Token} {b : Bool} :
  s.run (accept token) = (.ok b, t) ↔
    (b = true ∧ s.lookahead.value = token ∧ ∃ p, s.position.next? = some p ∧ t = s.goto p []) ∨
      (b = false ∧ s.lookahead.value ≠ token ∧ t = s)
  := by
  rw [accept, run_bind_eq_ok_iff]
  constructor
  · rintro ⟨_, _, hsees, hrun⟩
    cases hsees
    by_cases h : s.lookahead.value = token
    · obtain ⟨⟨p, hp, ht⟩, hb⟩ : (∃ p, s.position.next? = some p ∧ t = s.goto p []) ∧ b = true := by
        simpa [h, run_map_eq_ok_iff, run_advance_eq_ok_iff] using hrun
      exact .inl ⟨hb, h, p, hp, ht⟩
    · obtain ⟨rfl, rfl⟩ : b = false ∧ s = t := by simpa [h] using hrun
      exact .inr ⟨rfl, h, rfl⟩
  · rintro (⟨rfl, h, hp⟩ | ⟨rfl, h, rfl⟩)
    · use true, s, by simp [h]
      simpa [run_map_eq_ok_iff, run_advance_eq_ok_iff] using hp
    · use false, t, by simp [h]
      rfl

theorem run_check_eq_ok_iff {α : Type} {s t : Pass} {result : Except (Located SyntaxError) α}
    {value : α} :
  s.run (check result) = (.ok value, t) ↔ result = .ok value ∧ t = s
  := by
  cases result with
  | error e => simp [check]
  | ok v => simp [check, eq_comm]

theorem run_transaction_eq_ok_iff {α : Type} {s t : Pass} {action : PassM α} {value : α} :
  s.run (transaction action) = (.ok value, t) ↔ s.run action = (.ok value, t)
  := by
  rw [run_transaction]
  rcases s.run action with ⟨_ | _, u⟩ <;> simp

/-- A queue is read if its items are and all of their parentheses are closed. -/
theorem run_queueWith_eq_ok_iff {s t : Pass} {read : PassM Yard} {items : List Item} :
  s.run (queueWith read) = (.ok items, t) ↔
    ∃ y, s.run read = (.ok y, t) ∧ y.unclosed = 0 ∧ items = y.queue
  := by
  simp only [queueWith, run_bind_eq_ok_iff]
  constructor
  · rintro ⟨y, u, hread, h⟩
    by_cases hy : y.unclosed = 0
    · obtain ⟨rfl, rfl⟩ : y.queue = items ∧ u = t := by simpa [hy] using h
      exact ⟨y, hread, hy, rfl⟩
    · simp [hy, run_map_eq_ok_iff] at h
  · rintro ⟨y, hread, hy, rfl⟩
    use y, t, hread
    simp [hy]

/-- An expression compiles if its queue is read, is not empty and compiles. -/
theorem run_expressionWith_eq_ok_iff {s t : Pass} {read : PassM (List Item)} {slot : Slot}
    {v : Unit} :
  s.run (expressionWith read slot) = (.ok v, t) ↔
    ∃ items u code, s.run read = (.ok items, u) ∧ items ≠ [] ∧
      Expression.compile items slot u.registers s.lookahead.location = .ok code ∧
      t = u.goto u.position code
  := by
  simp only [expressionWith, run_transaction_eq_ok_iff, run_bind_eq_ok_iff, run_peek]
  constructor
  · rintro ⟨_, _, hs, items, u, hread, h⟩
    cases hs
    cases items with
    | nil => simp [run_bind] at h
    | cons item items =>
      obtain ⟨code, hcode, rfl⟩ : ∃ code, Expression.compile (item :: items) slot u.registers
          s.lookahead.location = .ok code ∧ u.goto u.position code = t := by
        simpa [run_bind_eq_ok_iff, run_check_eq_ok_iff, goto, position] using h
      exact ⟨item :: items, u, code, hread, by simp, hcode, rfl⟩
  · rintro ⟨items, u, code, hread, hitems, hcode, rfl⟩
    refine ⟨s.lookahead, s, rfl, items, u, hread, ?_⟩
    simp [hitems, run_bind_eq_ok_iff, run_check_eq_ok_iff, hcode, goto, position]

/-- A call ends well if its parenthesis is closed after as many arguments as its function takes. -/
private theorem run_callEnd_eq_ok_iff {s t : Pass} {f : Function} {name : String}
    {location : Location} {count : Nat} {returns : ReturnType} :
  s.run (do
      expect .rparen (.afterArguments name)
      if count ≠ f.arity then refuseAt (.wrongArity name f.arity count) location
      emit [.call name]
      return f.returns) = (.ok returns, t) ↔
    count = f.arity ∧ s.lookahead.value = .mark .rparen ∧
      ∃ q, s.position.next? = some q ∧ returns = f.returns ∧ t = s.goto q [.call name]
  := by
  rw [run_bind_eq_ok_iff]
  constructor
  · rintro ⟨_, u, hexpect, h⟩
    obtain ⟨hclose, q, hq, rfl⟩ := run_expect_eq_ok_iff.mp hexpect
    by_cases hcount : count = f.arity
    · obtain ⟨rfl, rfl⟩ : (s.goto q []).goto q [.call name] = t ∧ f.returns = returns := by
        simpa [hcount, run_map_eq_ok_iff, goto] using h
      exact ⟨hcount, hclose, q, hq, rfl, goto_goto s q q [] [.call name]⟩
    · simp [hcount, run_bind] at h
  · rintro ⟨rfl, hclose, q, hq, rfl, rfl⟩
    refine ⟨(), s.goto q [], run_expect_eq_ok_iff.mpr ⟨hclose, q, hq, rfl⟩, ?_⟩
    have hgoto := goto_goto s q q [] [.call name]
    simpa [run_map_eq_ok_iff, goto] using hgoto

/-- A call succeeds if a declared function is followed by parentheses around as many arguments as it
takes. -/
theorem run_callWith_eq_ok_iff {s t : Pass} {arguments : PassM Nat} {name : String}
    {location : Location} {returns : ReturnType} :
  s.run (callWith arguments name location) = (.ok returns, t) ↔
    ∃ f p u q, s.symbols.functionNamed? name = some f ∧
      s.lookahead.value = .mark .lparen ∧ s.position.next? = some p ∧
      (if p.lookahead.value = .mark .rparen then f.arity = 0 ∧ u = s.goto p []
        else (s.goto p []).run arguments = (.ok f.arity, u)) ∧
      u.lookahead.value = .mark .rparen ∧ u.position.next? = some q ∧
      returns = f.returns ∧ t = u.goto q [.call name]
  := by
  rw [callWith, run_bind_eq_ok_iff]
  constructor
  · rintro ⟨table, _, hsymbols, h⟩
    cases hsymbols
    cases hf : s.symbols.functionNamed? name with
    | none => simp [hf] at h
    | some f =>
      simp only [hf] at h
      rw [run_bind_eq_ok_iff] at h
      obtain ⟨_, _, hexpect, h⟩ := h
      obtain ⟨hopen, p, hp, rfl⟩ := run_expect_eq_ok_iff.mp hexpect
      rw [run_bind_eq_ok_iff] at h
      obtain ⟨_, _, hsees, h⟩ := h
      cases hsees
      by_cases hclose : p.lookahead.value = .mark .rparen
      · simp only [lookahead_goto, hclose, decide_true, if_true] at h
        rw [run_bind_eq_ok_iff] at h
        obtain ⟨count, u, hu, h⟩ := h
        cases hu
        obtain ⟨hcount, hclose', q, hq, hreturns, ht⟩ := run_callEnd_eq_ok_iff.mp h
        refine ⟨f, p, _, q, rfl, hopen, hp, ?_, hclose', hq, hreturns, ht⟩
        rw [if_pos hclose]
        exact ⟨hcount.symm, rfl⟩
      · simp only [lookahead_goto, hclose, decide_false, Bool.false_eq_true, if_false] at h
        rw [run_bind_eq_ok_iff] at h
        obtain ⟨count, u, hu, h⟩ := h
        obtain ⟨rfl, hclose', q, hq, hreturns, ht⟩ := run_callEnd_eq_ok_iff.mp h
        refine ⟨f, p, u, q, rfl, hopen, hp, ?_, hclose', hq, hreturns, ht⟩
        rw [if_neg hclose]
        exact hu
  · rintro ⟨f, p, u, q, hf, hopen, hp, hu, hclose, hq, hreturns, ht⟩
    refine ⟨s.symbols, s, rfl, ?_⟩
    simp only [hf]
    rw [run_bind_eq_ok_iff]
    refine ⟨(), s.goto p [], run_expect_eq_ok_iff.mpr ⟨hopen, p, hp, rfl⟩, ?_⟩
    rw [run_bind_eq_ok_iff]
    refine ⟨_, s.goto p [], run_sees _ _, ?_⟩
    by_cases hempty : p.lookahead.value = .mark .rparen
    · rw [if_pos hempty] at hu
      obtain ⟨harity, rfl⟩ := hu
      simp only [lookahead_goto, hempty, decide_true, if_true]
      rw [run_bind_eq_ok_iff]
      exact ⟨0, s.goto p [], rfl,
        run_callEnd_eq_ok_iff.mpr ⟨harity.symm, hclose, q, hq, hreturns, ht⟩⟩
    · rw [if_neg hempty] at hu
      simp only [lookahead_goto, hempty, decide_false, Bool.false_eq_true, if_false]
      rw [run_bind_eq_ok_iff]
      exact ⟨f.arity, u, hu, run_callEnd_eq_ok_iff.mpr ⟨rfl, hclose, q, hq, hreturns, ht⟩⟩

end Pass

end SilFront
