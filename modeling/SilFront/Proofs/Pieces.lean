import SilFront.Proofs.Shunting

/-!
# Pieces of an expression

A `Piece` is what is read of an expression in one step: an operand, an operator, a parenthesis, or a
whole call, since the arguments of a call are expressions of their own. `Piece.split?` cuts tokens
into pieces. It finds the end of a call by its parentheses alone.

A yard holds the pieces that it has read (`Yard.Holds`): their operands have left it in order, each
of their operators has left it or waits, and as many parentheses wait as are open. Each piece keeps
that up (`Yard.Holds.read`), whatever was read before.
-/

namespace SilFront

/-! ### Pieces -/

/-- What is read of an expression in one step. -/
inductive Piece where
  /-- A literal or a visible variable. -/
  | operand (token : Located Token)
  /-- A call of a function, which is named first. -/
  | call (name : Located String)
  | operator (op : Located BinaryOp)
  | opening
  | closing
deriving DecidableEq

namespace Piece

/-- The piece that begins with a token, if one does. -/
def of? (T : SymbolTable) (t : Located Token) : Option Piece :=
  match t.value with
  | .number _ | .string _ => some (.operand t)
  | .ident name =>
    match T.kind? name with
    | some .variable => some (.operand t)
    | some .function => some (.call ⟨name, t.location⟩)
    | _ => none
  | .mark .lparen => some .opening
  | .mark .rparen => some .closing
  | token => token.operator?.map fun op => .operator ⟨op, t.location⟩

/-- A piece is an operand, a call, a parenthesis or an operator. -/
theorem of?_eq_some_iff {T : SymbolTable} {t : Located Token} {piece : Piece} :
  of? T t = some piece ↔
    (t.value.IsOperand T ∧ piece = .operand t) ∨
    (∃ name, t.value = .ident name ∧ T.kind? name = some .function ∧
      piece = .call ⟨name, t.location⟩) ∨
    (t.value = .mark .lparen ∧ piece = .opening) ∨
    (t.value = .mark .rparen ∧ piece = .closing) ∨
    ∃ op, t.value.operator? = some op ∧ piece = .operator ⟨op, t.location⟩
  := by
  obtain ⟨token, location⟩ := t
  cases token with
  | ident name =>
    rcases hkind : T.kind? name with _ | _ | _ | _ <;>
      simp [of?, hkind, Token.IsOperand, Token.operator?, eq_comm]
  | mark m =>
    cases m <;> simp [of?, Token.IsOperand, Token.operator?, Mark.operator?, eq_comm]
  | _ => simp [of?, Token.IsOperand, Token.operator?, eq_comm]

/-- The operand that a piece is. A call is the value that it returns, at the place of its name. -/
def operand? : Piece → Option (Located Token)
  | .operand token => some token
  | .call name => some ⟨.returnValue, name.location⟩
  | _ => none

/-- The operator that a piece is. -/
def operator? : Piece → Option (Located BinaryOp)
  | .operator op => some op
  | _ => none

/-- How many parentheses of a call are open after one more token, unless the token ends the call. -/
def inCall? (depth : Nat) : Token → Option Nat
  | .mark .lparen => some (depth + 1)
  | .mark .rparen => if depth ≤ 1 then none else some (depth - 1)
  | _ => some depth

/-- How many parentheses of a call are open after the first token of a piece, if that begins one. -/
def begun : Piece → Option Nat
  | .call _ => some 0
  | _ => none

/-- The pieces that tokens consist of, up to the end of an expression or call. They begin between two
pieces, or inside a call of which a number of parentheses are open. -/
def split? (T : SymbolTable) : Option Nat → List (Located Token) → Option (List Piece)
  | none, [] => some []
  | some _, [] => none
  | none, t :: ts => (of? T t).bind fun piece => (split? T piece.begun ts).map (piece :: ·)
  | some depth, t :: ts => split? T (inCall? depth t.value) ts

/-- How many parentheses of a call are open after some tokens, unless they end the call. -/
def skip? (depth : Nat) (ts : List (Located Token)) : Option Nat :=
  ts.foldlM (fun depth t => inCall? depth t.value) depth

theorem skip?_cons (depth : Nat) (t : Located Token) (ts : List (Located Token)) :
  skip? depth (t :: ts) = (inCall? depth t.value).bind fun depth => skip? depth ts
  := rfl

/-- Tokens in turn are skipped from the depth to which the earlier ones lead. -/
theorem skip?_append (depth : Nat) (ts us : List (Located Token)) :
  skip? depth (ts ++ us) = (skip? depth ts).bind fun depth => skip? depth us
  := List.foldlM_append

/-- The tokens inside a call are no pieces. -/
theorem split?_append_of_skip? {T : SymbolTable} {depth depth' : Nat} {ts : List (Located Token)}
    (h : skip? depth ts = some depth') (us : List (Located Token)) :
  split? T (some depth) (ts ++ us) = split? T (some depth') us
  := by
  induction ts generalizing depth with
  | nil =>
    obtain rfl := Option.some.inj h
    rfl
  | cons t ts ih =>
    rw [skip?_cons] at h
    obtain ⟨next, hnext, hrest⟩ := Option.bind_eq_some_iff.mp h
    rw [List.cons_append, split?, hnext, ih hrest]

/-- The end of a text is no piece. -/
theorem ne_eof_of_of? {T : SymbolTable} {t : Located Token} {piece : Piece}
    (h : of? T t = some piece) :
  t.value ≠ .eof
  := by
  intro heof
  simp [of?, heof, Token.operator?] at h

/-- A token that is a piece of its own is the first of the pieces. -/
theorem split?_cons_of_begun {T : SymbolTable} {t : Located Token} {piece : Piece}
    (h : of? T t = some piece) (hbegun : piece.begun = none) (us : List (Located Token)) :
  split? T none (t :: us) = (split? T none us).map (piece :: ·)
  := by
  rw [split?, h, Option.bind_some, hbegun]

/-- A call in which all parentheses are closed is the first of the pieces. -/
theorem split?_call {T : SymbolTable} {t opening closing : Located Token} {name : Located String}
    {inner : List (Located Token)} (h : of? T t = some (.call name))
    (hopening : opening.value = .mark .lparen) (hinner : skip? 1 inner = some 1)
    (hclosing : closing.value = .mark .rparen) (us : List (Located Token)) :
  split? T none (t :: opening :: (inner ++ closing :: us)) =
    (split? T none us).map (.call name :: ·)
  := by
  rw [split?, h, Option.bind_some, begun, split?, hopening, inCall?,
    split?_append_of_skip? hinner, split?, hclosing]
  rfl

example :
  let T : SymbolTable := ⟨[], [], [⟨"f", [], .scalar .int⟩], []⟩
  let here (token : Token) : Located Token := ⟨token, .start⟩
  let two := here (.number (.int 2))
  -- the tokens of `f((2)) + 2)`
  split? T none [here (.ident "f"), here (.mark .lparen), here (.mark .lparen), two,
      here (.mark .rparen), here (.mark .rparen), here (.mark .plus), two, here (.mark .rparen)] =
    some [.call ⟨"f", .start⟩, .operator ⟨.add, .start⟩, .operand two, .closing]
  := by
  decide

end Piece

/-! ### Tokens inside calls -/

/-- An operand in a call keeps the depth. -/
theorem Piece.inCall?_of_isOperand {T : SymbolTable} {token : Token} (h : token.IsOperand T)
    (depth : Nat) :
  inCall? depth token = some depth
  := by
  cases token with
  | mark => cases h
  | _ => rfl

/-- An operator in a call keeps the depth. -/
theorem Piece.inCall?_of_operator? {token : Token} {op : BinaryOp} (h : token.operator? = some op)
    (depth : Nat) :
  inCall? depth token = some depth
  := by
  cases token with
  | mark m =>
    cases m with
    | lparen => cases h
    | rparen => cases h
    | _ => rfl
  | _ => cases h

/-- Arguments that follow each other close the parentheses that they open if each of them leaves as
many open as in its yard. -/
theorem Argument.Chain.exists_skip? {registers : Nat} {q : Position} :
  ∀ {args : List Argument} {p : Position}, Argument.Chain p args q →
    (∀ a ∈ args, a.Compiles registers) →
    (∀ a ∈ args, ∃ ts, a.start.Passes ts a.stop ∧
      ∀ depth, Piece.skip? (depth + 1) ts = some (depth + a.yard.unclosed + 1)) →
    ∃ ts, p.Passes ts q ∧ ∀ depth, Piece.skip? (depth + 1) ts = some (depth + 1)
  | [], p, rfl, _, _ => ⟨[], .nil p, fun _ => rfl⟩
  | [a], _, ⟨rfl, rfl⟩, hcompiles, hargs => by
      obtain ⟨ts, hts, hskip⟩ := hargs a List.mem_cons_self
      rw [(hcompiles a List.mem_cons_self).1] at hskip
      exact ⟨ts, hts, hskip⟩
  | a :: b :: rest, _, ⟨rfl, hcomma, p, hp, hrest⟩, hcompiles, hargs => by
      obtain ⟨ts, hts, hskip⟩ := hargs a List.mem_cons_self
      rw [(hcompiles a List.mem_cons_self).1] at hskip
      obtain ⟨us, hus, hskips⟩ := hrest.exists_skip?
        (fun b hb => hcompiles b (List.mem_cons_of_mem a hb))
        (fun b hb => hargs b (List.mem_cons_of_mem a hb))
      refine ⟨ts ++ a.stop.lookahead :: us, hts.append (.cons (by simp [hcomma]) hp hus), ?_⟩
      intro depth
      rw [Piece.skip?_append, hskip, Option.bind_some, Piece.skip?_cons, hcomma]
      apply hskips

/-- What is read inside a call leaves as many more parentheses open as in its yard. -/
theorem Reading.exists_skip? {T : SymbolTable} {registers : Nat} {y y' : Yard} {p r : Position}
    {code : List Operation} (h : Reading T registers y p code y' r) :
  ∃ ts, p.Passes ts r ∧
    ∀ depth, Piece.skip? (depth + y.unclosed + 1) ts = some (depth + y'.unclosed + 1)
  := by
  induction h with
  | stop => exact ⟨[], .nil _, fun _ => rfl⟩
  | @operand y y' p q r code operand next rest ih =>
    obtain ⟨ts, hts, hskip⟩ := ih
    refine ⟨p.lookahead :: ts, .cons operand.ne_eof next hts, ?_⟩
    intro depth
    rw [Piece.skip?_cons, Piece.inCall?_of_isOperand operand]
    apply hskip
  | @call y y' p p₁ p₂ p₃ q r code name f args ident kind function next opening next₁ chain readings
      compiles closing next₃ arity returns rest ihArgs ih =>
    obtain ⟨ts, hts, hskip⟩ := ih
    obtain ⟨inner, hinner, hskips⟩ := chain.exists_skip? compiles ihArgs
    refine ⟨p.lookahead :: p₁.lookahead :: (inner ++ p₃.lookahead :: ts), ?_, ?_⟩
    · apply Position.Passes.cons (by simp [ident]) next
      apply Position.Passes.cons (by simp [opening]) next₁
      apply hinner.append (.cons (by simp [closing]) next₃ hts)
    · intro depth
      have hname : Piece.inCall? (depth + y.unclosed + 1) p.lookahead.value =
          some (depth + y.unclosed + 1) := by
        rw [ident]
        rfl
      rw [Piece.skip?_cons, hname, Option.bind_some, Piece.skip?_cons, opening, Piece.inCall?,
        Option.bind_some, Piece.skip?_append, hskips, Option.bind_some, Piece.skip?_cons, closing,
        Piece.inCall?, if_neg (by omega), Option.bind_some]
      apply hskip
  | @opening y y' p q r code opening next rest ih =>
    obtain ⟨ts, hts, hskip⟩ := ih
    refine ⟨p.lookahead :: ts, .cons (by simp [opening]) next hts, ?_⟩
    intro depth
    rw [Piece.skip?_cons, opening, Piece.inCall?]
    apply hskip
  | @closing y y' p q r code closing unclosed next rest ih =>
    obtain ⟨ts, hts, hskip⟩ := ih
    refine ⟨p.lookahead :: ts, .cons (by simp [closing]) next hts, ?_⟩
    intro depth
    -- a parenthesis of the yard is closed, and not the one of the call
    have hdepth := hskip depth
    rw [Yard.unclosed_closeParenthesis,
      show depth + (y.unclosed - 1) + 1 = depth + y.unclosed + 1 - 1 by omega] at hdepth
    rw [Piece.skip?_cons, closing, Piece.inCall?, if_neg (by omega)]
    exact hdepth
  | @operator y y' p q r code op operator next rest ih =>
    obtain ⟨ts, hts, hskip⟩ := ih
    refine ⟨p.lookahead :: ts, .cons (Token.ne_eof_of_operator? operator) next hts, ?_⟩
    intro depth
    rw [Yard.unclosed_operator] at hskip
    rw [Piece.skip?_cons, Piece.inCall?_of_operator? operator]
    apply hskip

/-! ### Nested parentheses -/

namespace Piece

/-- Pieces in which every parenthesis is closed after it has been opened, and what stands in between
is so too. -/
inductive Nested : List Piece → Prop
  | nil : Nested []
  | cons {piece : Piece} {pieces : List Piece} (opens : piece ≠ .opening)
      (closes : piece ≠ .closing) (rest : Nested pieces) : Nested (piece :: pieces)
  | enclosed {inner pieces : List Piece} (nested : Nested inner) (rest : Nested pieces) :
      Nested (.opening :: (inner ++ .closing :: pieces))

theorem Nested.append {pieces more : List Piece} (h : Nested pieces) (h' : Nested more) :
  Nested (pieces ++ more)
  := by
  induction h with
  | nil => exact h'
  | cons opens closes _ ih => apply Nested.cons opens closes ih
  | enclosed nested _ _ ih =>
    have henclosed := Nested.enclosed nested ih
    simpa using henclosed

/-- Nested pieces have as many opening parentheses as closing ones. -/
theorem Nested.count_eq {pieces : List Piece} (h : Nested pieces) :
  pieces.count .opening = pieces.count .closing
  := by
  induction h with
  | nil => rfl
  | cons opens closes _ ih =>
    rw [List.count_cons_of_ne opens, List.count_cons_of_ne closes, ih]
  | enclosed _ _ ihInner ihRest =>
    simp only [List.count_cons, List.count_append, ihInner, ihRest]
    simp
    omega

/-- Pieces whose parentheses are nested, but for some that are left open. -/
def Leaves : Nat → List Piece → Prop
  | 0, pieces => Nested pieces
  | n + 1, pieces =>
    ∃ outer inner, pieces = outer ++ .opening :: inner ∧ Leaves n outer ∧ Nested inner

namespace Leaves

variable {n : Nat} {pieces more : List Piece}

/-- Nested pieces leave as many parentheses open as before. -/
theorem append (h : Leaves n pieces) (h' : Nested more) :
  Leaves n (pieces ++ more)
  := by
  cases n with
  | zero => exact Nested.append h h'
  | succ n =>
    obtain ⟨outer, inner, rfl, houter, hinner⟩ := h
    exact ⟨outer, inner ++ more, by simp, houter, hinner.append h'⟩

/-- A piece that is no parenthesis leaves as many of them open as before. -/
theorem piece (h : Leaves n pieces) {piece : Piece} (opens : piece ≠ .opening)
    (closes : piece ≠ .closing) :
  Leaves n (pieces ++ [piece])
  := h.append (.cons opens closes .nil)

/-- An opening parenthesis leaves one more open. -/
theorem opening (h : Leaves n pieces) :
  Leaves (n + 1) (pieces ++ [.opening])
  := ⟨pieces, [], rfl, h, .nil⟩

/-- A closing parenthesis leaves one less open. -/
theorem closing (h : Leaves (n + 1) pieces) :
  Leaves n (pieces ++ [.closing])
  := by
  obtain ⟨outer, inner, rfl, houter, hinner⟩ := h
  have henclosed := houter.append (.enclosed hinner .nil)
  simpa using henclosed

/-- The parentheses that are left open are the opening ones without a closing one. -/
theorem count_eq (h : Leaves n pieces) :
  pieces.count .opening = pieces.count .closing + n
  := by
  induction n generalizing pieces with
  | zero => exact Nested.count_eq h
  | succ n ih =>
    obtain ⟨outer, inner, rfl, houter, hinner⟩ := h
    have houter := ih houter
    have hinner := hinner.count_eq
    simp only [List.count_append, List.count_cons_self,
      List.count_cons_of_ne (show Piece.opening ≠ .closing by simp)]
    omega

/-- Pieces are nested exactly if they leave no parenthesis open. -/
theorem nested_iff (h : Leaves n pieces) :
  Nested pieces ↔ n = 0
  := by
  constructor
  · intro hnested
    have hcount := h.count_eq
    have heq := hnested.count_eq
    omega
  · rintro rfl
    exact h

end Leaves

end Piece

/-! ### What a yard holds -/

/-- The operand that an item is. -/
def Item.operand? : Item → Option (Located Token)
  | .operand token => some token
  | .operator _ => none

/-- The operator that an item is. -/
def Item.operator? : Item → Option (Located BinaryOp)
  | .operand _ => none
  | .operator op => some op

/-- The operator that waits. -/
def Waiting.operator? : Waiting → Option (Located BinaryOp)
  | .operator op => some op
  | .parenthesis => none

theorem Item.filterMap_operand?_map (ops : List (Located BinaryOp)) :
  (ops.map operator).filterMap operand? = []
  := by
  rw [List.filterMap_map]
  exact List.filterMap_eq_nil_iff.mpr fun _ _ => rfl

theorem Item.filterMap_operator?_map (ops : List (Located BinaryOp)) :
  (ops.map operator).filterMap operator? = ops
  := by
  rw [List.filterMap_map]
  apply List.filterMap_some

theorem Waiting.filterMap_operator?_map (ops : List (Located BinaryOp)) :
  (ops.map operator).filterMap operator? = ops
  := by
  rw [List.filterMap_map]
  apply List.filterMap_some

namespace Yard

/-- The yard after a piece, if the piece may be read. -/
def read? (y : Yard) : Piece → Option Yard
  | .operand token => some (y.operand token)
  | .call name => some (y.operand ⟨.returnValue, name.location⟩)
  | .operator op => some (y.operator op)
  | .opening => some y.openParenthesis
  | .closing => if y.unclosed = 0 then none else some y.closeParenthesis

/-- A yard holds the pieces that it has read. -/
structure Holds (y : Yard) (pieces : List Piece) : Prop where
  /-- The operands have left in order. -/
  operands : y.output.reverse.filterMap Item.operand? = pieces.filterMap Piece.operand?
  /-- Each operator has left or waits, and no other does. -/
  operators : (y.output.filterMap Item.operator? ++ y.waiting.filterMap Waiting.operator?).Perm
    (pieces.filterMap Piece.operator?)
  /-- The parentheses that wait are counted. -/
  balance : y.unclosed = y.waiting.count .parenthesis
  /-- The parentheses that are counted are those that are open. -/
  leaves : Piece.Leaves y.unclosed pieces

/-- The operators that are let go are some of those on top of the stack, the latest first. What is
below them stays, from the first operator on that has to. -/
theorem exists_release_eq (p : BinaryOp → Bool) (unclosed : Nat) (output : List Item)
    (waiting : List Waiting) :
  ∃ (ops : List (Located BinaryOp)) (rest : List Waiting),
    waiting = ops.map .operator ++ rest ∧
    release p unclosed output waiting = ⟨(ops.map .operator).reverse ++ output, rest, unclosed⟩ ∧
    ∀ op below, rest = .operator op :: below → p op.value = false
  := by
  fun_induction release p unclosed output waiting with
  | case1 output op rest hp ih =>
    obtain ⟨ops, below, rfl, hrelease, hbelow⟩ := ih
    refine ⟨op :: ops, below, rfl, ?_, hbelow⟩
    rw [hrelease]
    simp
  | case2 output op rest hp =>
    refine ⟨[], .operator op :: rest, rfl, rfl, ?_⟩
    intro op' below heq
    cases heq
    simpa using hp
  | case3 output waiting hwaiting =>
    refine ⟨[], waiting, rfl, rfl, ?_⟩
    intro op below heq
    exact absurd heq (hwaiting op below)

/-- A closing parenthesis finds the one that it closes: the operators above that go. -/
theorem exists_drain_eq {y : Yard} (h : y.unclosed = y.waiting.count .parenthesis)
    (hopen : y.unclosed ≠ 0) :
  ∃ (ops : List (Located BinaryOp)) (rest : List Waiting),
    y.waiting = ops.map .operator ++ .parenthesis :: rest ∧
    y.drain = ⟨(ops.map .operator).reverse ++ y.output, .parenthesis :: rest, y.unclosed⟩
  := by
  obtain ⟨ops, rest, hwaiting, hdrain, hrest⟩ :=
    exists_release_eq (fun _ => true) y.unclosed y.output y.waiting
  cases rest with
  | nil =>
    rw [hwaiting, List.append_nil, List.count_eq_zero_of_not_mem (by simp)] at h
    exact absurd h hopen
  | cons top rest =>
    cases top with
    | operator op => cases hrest op rest rfl
    | parenthesis => exact ⟨ops, rest, hwaiting, hdrain⟩

/-- Nothing waits in the end if no parenthesis does. -/
theorem waiting_drain_eq_nil {y : Yard} (h : y.unclosed = y.waiting.count .parenthesis)
    (hclosed : y.unclosed = 0) :
  y.drain.waiting = []
  := by
  obtain ⟨ops, rest, hwaiting, hdrain, hrest⟩ :=
    exists_release_eq (fun _ => true) y.unclosed y.output y.waiting
  rw [drain, hdrain]
  cases rest with
  | nil => rfl
  | cons top rest =>
    cases top with
    | operator op => cases hrest op rest rfl
    | parenthesis =>
      rw [hclosed, hwaiting] at h
      simp at h

namespace Holds

variable {y y' : Yard} {pieces : List Piece}

theorem empty :
  Yard.empty.Holds []
  := ⟨rfl, .nil, rfl, .nil⟩

/-- Letting operators go keeps what a yard holds. -/
theorem release (h : y.Holds pieces) (p : BinaryOp → Bool) :
  (Yard.release p y.unclosed y.output y.waiting).Holds pieces
  := by
  obtain ⟨ops, rest, hwaiting, hrelease, -⟩ := exists_release_eq p y.unclosed y.output y.waiting
  obtain ⟨operands, operators, balance, leaves⟩ := h
  rw [hwaiting] at operators balance
  rw [hrelease]
  constructor
  · rw [List.reverse_append, List.reverse_reverse, List.filterMap_append,
      Item.filterMap_operand?_map, List.append_nil]
    exact operands
  · rw [List.filterMap_append, Waiting.filterMap_operator?_map, ← List.append_assoc] at operators
    rw [List.filterMap_append, List.filterMap_reverse, Item.filterMap_operator?_map]
    have hswap : (ops.reverse ++ y.output.filterMap Item.operator?).Perm
        (y.output.filterMap Item.operator? ++ ops) :=
      (ops.reverse_perm.append_right _).trans List.perm_append_comm
    apply (hswap.append_right _).trans operators
  · simpa [List.count_append, List.count_eq_zero_of_not_mem] using balance
  · exact leaves

/-- A yard holds one more operand. -/
theorem operand (h : y.Holds pieces) {token : Located Token} {piece : Piece}
    (htoken : piece.operand? = some token) :
  (y.operand token).Holds (pieces ++ [piece])
  := by
  obtain ⟨operands, operators, balance, leaves⟩ := h
  have hoperator : piece.operator? = none := by cases piece <;> trivial
  constructor
  · simpa [Yard.operand, List.filterMap_cons, Item.operand?, htoken] using operands
  · simpa [Yard.operand, List.filterMap_cons, Item.operator?, hoperator] using operators
  · exact balance
  · apply leaves.piece <;>
    · rintro rfl
      cases htoken

/-- A yard holds one more opening parenthesis. -/
theorem openParenthesis (h : y.Holds pieces) :
  y.openParenthesis.Holds (pieces ++ [.opening])
  := by
  obtain ⟨operands, operators, balance, leaves⟩ := h
  constructor
  · simpa [Yard.openParenthesis, List.filterMap_cons, Piece.operand?] using operands
  · simpa [Yard.openParenthesis, List.filterMap_cons, Waiting.operator?, Piece.operator?]
      using operators
  · simpa [Yard.openParenthesis] using balance
  · exact leaves.opening

/-- A yard holds one more operator, whichever operators it releases. -/
theorem operator (h : y.Holds pieces) (op : Located BinaryOp) :
  (y.operator op).Holds (pieces ++ [.operator op])
  := by
  obtain ⟨operands, operators, balance, leaves⟩ := h.release fun top => top.drainsBefore op.value
  rw [Yard.operator]
  constructor
  · simpa [List.filterMap_cons, Piece.operand?] using operands
  · rw [List.filterMap_append]
    apply List.perm_middle.trans
    apply (operators.cons op).trans (List.perm_append_singleton op _).symm
  · rw [balance]
    exact (List.count_cons_of_ne (by simp)).symm
  · exact leaves.piece (by simp) (by simp)

/-- A yard holds a closing parenthesis if another is open, and releases the operators up to that
one. -/
theorem closeParenthesis (h : y.Holds pieces) (hopen : y.unclosed ≠ 0) :
  y.closeParenthesis.Holds (pieces ++ [.closing])
  := by
  obtain ⟨ops, rest, -, hdrain⟩ := exists_drain_eq h.balance hopen
  have hdrained : y.drain.Holds pieces := h.release _
  rw [Yard.closeParenthesis]
  rw [hdrain] at hdrained ⊢
  obtain ⟨operands, operators, balance, leaves⟩ := hdrained
  constructor
  · simpa [List.filterMap_cons, Piece.operand?] using operands
  · simpa [List.filterMap_cons, Waiting.operator?, Piece.operator?] using operators
  · simp only [List.count_cons_self] at balance
    exact Nat.sub_eq_of_eq_add balance
  · obtain ⟨n, hn⟩ := Nat.exists_eq_succ_of_ne_zero hopen
    rw [hn] at leaves ⊢
    exact leaves.closing

/-- A piece that is read is held with those before it. -/
theorem read (h : y.Holds pieces) {piece : Piece} (hread : y.read? piece = some y') :
  y'.Holds (pieces ++ [piece])
  := by
  cases piece with
  | operand token =>
    obtain rfl := Option.some.inj hread
    apply h.operand rfl
  | call name =>
    obtain rfl := Option.some.inj hread
    apply h.operand rfl
  | operator op =>
    obtain rfl := Option.some.inj hread
    apply h.operator
  | opening =>
    obtain rfl := Option.some.inj hread
    apply h.openParenthesis
  | closing =>
    rw [read?, ite_eq_iff] at hread
    obtain ⟨-, hnone⟩ | ⟨hopen, hsome⟩ := hread
    · cases hnone
    · obtain rfl := Option.some.inj hsome
      apply h.closeParenthesis hopen

/-- The queue consists of the operands and operators that are held, if all parentheses are
closed. -/
theorem queue (h : y.Holds pieces) (hclosed : y.unclosed = 0) :
  y.queue.filterMap Item.operand? = pieces.filterMap Piece.operand? ∧
    (y.queue.filterMap Item.operator?).Perm (pieces.filterMap Piece.operator?) ∧
    Piece.Nested pieces
  := by
  have hnone := waiting_drain_eq_nil h.balance hclosed
  have hdrained : y.drain.Holds pieces := h.release _
  refine ⟨hdrained.operands, ?_, h.leaves.nested_iff.mpr hclosed⟩
  have hoperators := hdrained.operators
  rw [hnone, List.filterMap_nil, List.append_nil] at hoperators
  rw [Yard.queue, List.filterMap_reverse]
  apply (List.reverse_perm _).trans hoperators

end Holds

end Yard

end SilFront
