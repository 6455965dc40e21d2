import SilFront.Proofs.Position

/-!
# Readings of expressions

`Reading` says what is read as the items of one expression: from which position to which, with what
effect on the yard, and which operations the calls inside it have written meanwhile. It knows no
bound on the number of steps. `run_items_eq_ok_iff` ties it to the pass: the items are read exactly
as far as there is a reading, since every step of a reading passes over a token.
-/

namespace SilFront

/-- The tokens that are operands of their own: literals and visible variables. -/
def Token.IsOperand (T : SymbolTable) : Token → Prop
  | .number _ | .string _ => True
  | .ident name => T.kind? name = some .variable
  | _ => False

/-- The tokens at which reading stops, with what is in the yard. A closing parenthesis is one of
them if no parenthesis is open. -/
def Yard.Stops (y : Yard) : Token → Prop
  | .number _ | .string _ | .ident _ | .mark .lparen => False
  | .mark .rparen => y.unclosed = 0
  | token => token.operator? = none

/-- An argument of a call: where it begins and stops, the operations of the calls inside it, what it
leaves in the yard, and its own operations. -/
structure Argument where
  start : Position
  stop : Position
  calls : List Operation
  yard : Yard
  code : List Operation

namespace Argument

/-- All operations of an argument. -/
def operations (a : Argument) : List Operation :=
  a.calls ++ a.code

/-- The operations that push an argument are those of its queue. -/
def Compiles (registers : Nat) (a : Argument) : Prop :=
  a.yard.unclosed = 0 ∧ a.yard.queue ≠ [] ∧
    Expression.compile a.yard.queue .stack registers a.start.lookahead.location = .ok a.code

/-- Arguments follow each other from one position to another, with commas in between. -/
def Chain : Position → List Argument → Position → Prop
  | p, [], q => p = q
  | p, [a], q => a.start = p ∧ a.stop = q
  | p, a :: b :: rest, q =>
    a.start = p ∧ a.stop.lookahead.value = .mark .comma ∧
      ∃ p', a.stop.next? = some p' ∧ Chain p' (b :: rest) q

end Argument

/-- What is read as the items of an expression. In a call, every argument is read as an expression
of its own. -/
inductive Reading (T : SymbolTable) (registers : Nat) :
    Yard → Position → List Operation → Yard → Position → Prop
  | stop {y : Yard} {p : Position} (stops : y.Stops p.lookahead.value) :
      Reading T registers y p [] y p
  | operand {y y' : Yard} {p q r : Position} {code : List Operation}
      (operand : p.lookahead.value.IsOperand T) (next : p.next? = some q)
      (rest : Reading T registers (y.operand p.lookahead) q code y' r) :
      Reading T registers y p code y' r
  | call {y y' : Yard} {p p₁ p₂ p₃ q r : Position} {code : List Operation} {name : String}
      {f : Function} {arguments : List Argument}
      (ident : p.lookahead.value = .ident name) (kind : T.kind? name = some .function)
      (function : T.functionNamed? name = some f) (next : p.next? = some p₁)
      (opening : p₁.lookahead.value = .mark .lparen) (next₁ : p₁.next? = some p₂)
      (chain : Argument.Chain p₂ arguments p₃)
      (readings : ∀ a ∈ arguments, Reading T registers .empty a.start a.calls a.yard a.stop)
      (compiles : ∀ a ∈ arguments, a.Compiles registers)
      (closing : p₃.lookahead.value = .mark .rparen) (next₃ : p₃.next? = some q)
      (arity : arguments.length = f.arity) (returns : f.returns ≠ .void)
      (rest : Reading T registers (y.operand ⟨.returnValue, p.lookahead.location⟩) q code y' r) :
      Reading T registers y p (arguments.flatMap Argument.operations ++ .call name :: code) y' r
  | opening {y y' : Yard} {p q r : Position} {code : List Operation}
      (opening : p.lookahead.value = .mark .lparen) (next : p.next? = some q)
      (rest : Reading T registers y.openParenthesis q code y' r) :
      Reading T registers y p code y' r
  | closing {y y' : Yard} {p q r : Position} {code : List Operation}
      (closing : p.lookahead.value = .mark .rparen) (unclosed : y.unclosed ≠ 0)
      (next : p.next? = some q) (rest : Reading T registers y.closeParenthesis q code y' r) :
      Reading T registers y p code y' r
  | operator {y y' : Yard} {p q r : Position} {code : List Operation} {op : BinaryOp}
      (operator : p.lookahead.value.operator? = some op) (next : p.next? = some q)
      (rest : Reading T registers (y.operator ⟨op, p.lookahead.location⟩) q code y' r) :
      Reading T registers y p code y' r

theorem Token.IsOperand.ne_eof {T : SymbolTable} {token : Token} (h : token.IsOperand T) :
  token ≠ .eof
  := by
  rintro rfl
  exact h

theorem Token.ne_eof_of_operator? {token : Token} {op : BinaryOp}
    (h : token.operator? = some op) :
  token ≠ .eof
  := by
  rintro rfl
  cases h

theorem Argument.Chain.start {a : Argument} {args : List Argument} {p q : Position}
    (h : Argument.Chain p (a :: args) q) :
  a.start = p
  := by
  cases args with
  | nil => exact h.1
  | cons b rest => exact h.1

/-- Arguments that follow each other pass over tokens if each of them does. -/
theorem Argument.Chain.passes :
  ∀ {args : List Argument} {p q : Position}, Argument.Chain p args q →
    (∀ a ∈ args, ∃ ts, a.start.Passes ts a.stop) → ∃ ts, p.Passes ts q
  | [], p, _, rfl, _ => ⟨[], .nil p⟩
  | [a], _, _, ⟨rfl, rfl⟩, hargs => hargs a List.mem_cons_self
  | a :: b :: rest, _, q, ⟨rfl, hcomma, p, hp, hrest⟩, hargs => by
      obtain ⟨ts, hts⟩ := hargs a List.mem_cons_self
      obtain ⟨us, hus⟩ := hrest.passes fun b hb => hargs b (List.mem_cons_of_mem a hb)
      exact ⟨_, hts.append (.cons (by simp [hcomma]) hp hus)⟩

/-- A reading passes over tokens, none of which is the end of the text. -/
theorem Reading.passes {T : SymbolTable} {registers : Nat} {y y' : Yard} {p r : Position}
    {code : List Operation} (h : Reading T registers y p code y' r) :
  ∃ ts, p.Passes ts r
  := by
  induction h with
  | stop => exact ⟨[], .nil _⟩
  | operand operand next rest ih =>
    obtain ⟨ts, hts⟩ := ih
    exact ⟨_, .cons operand.ne_eof next hts⟩
  | call ident kind function next opening next₁ chain readings compiles closing next₃ arity returns
      rest ihArgs ih =>
    obtain ⟨us, hus⟩ := chain.passes ihArgs
    obtain ⟨ts, hts⟩ := ih
    have hclosing := Position.Passes.cons (by simp [closing]) next₃ hts
    exact ⟨_, .cons (by simp [ident]) next
      (.cons (by simp [opening]) next₁ (hus.append hclosing))⟩
  | opening opening next rest ih =>
    obtain ⟨ts, hts⟩ := ih
    exact ⟨_, .cons (by simp [opening]) next hts⟩
  | closing closing unclosed next rest ih =>
    obtain ⟨ts, hts⟩ := ih
    exact ⟨_, .cons (by simp [closing]) next hts⟩
  | operator operator next rest ih =>
    obtain ⟨ts, hts⟩ := ih
    exact ⟨_, .cons (Token.ne_eof_of_operator? operator) next hts⟩

/-- An argument that compiles does not begin with a closing parenthesis. -/
theorem Reading.lookahead_ne_rparen {T : SymbolTable} {registers : Nat}
    {y : Yard} {p r : Position} {code : List Operation}
    (h : Reading T registers .empty p code y r) (hqueue : y.queue ≠ []) :
  p.lookahead.value ≠ .mark .rparen
  := by
  intro hclose
  cases h with
  | stop => exact hqueue rfl
  | operand operand => simp [hclose, Token.IsOperand] at operand
  | call ident => simp [hclose] at ident
  | opening opening => simp [hclose] at opening
  | closing _ unclosed => exact unclosed rfl
  | operator operator => simp [hclose, Token.operator?, Mark.operator?] at operator

namespace Pass

open PassM

/-! ### One step -/

section

variable {s : Pass} {y : Yard} (fuel : Nat)

theorem run_items_of_stops (h : y.Stops s.lookahead.value) :
  s.run (items (fuel + 1) y) = (.ok y, s)
  := by
  rw [items, run_bind, run_peek]
  unfold Yard.Stops at h
  split at h
  all_goals simp_all

theorem run_items_of_isOperand (h : s.lookahead.value.IsOperand s.symbols) :
  s.run (items (fuel + 1) y) = s.run (do advance; items fuel (y.operand s.lookahead))
  := by
  rw [items, run_bind, run_peek]
  unfold Token.IsOperand at h
  split at h
  · simp_all
  · simp_all
  · rename_i name hname
    simp only [hname]
    rw [run_bind, run_symbols]
    simp only [h]
  · cases h

theorem run_items_of_function {name : String} (h : s.lookahead.value = .ident name)
    (hkind : s.symbols.kind? name = some .function) :
  s.run (items (fuel + 1) y) = s.run (do
    advance
    let returns ← callWith (arguments fuel) name s.lookahead.location
    if returns = .void then refuseAt (.voidOperand name) s.lookahead.location
    items fuel (y.operand ⟨.returnValue, s.lookahead.location⟩))
  := by
  rw [items, run_bind, run_peek]
  simp only [h]
  rw [run_bind, run_symbols]
  simp only [hkind]

theorem run_items_of_undefined {name : String} (h : s.lookahead.value = .ident name)
    (hvariable : s.symbols.kind? name ≠ some .variable)
    (hfunction : s.symbols.kind? name ≠ some .function) :
  s.run (items (fuel + 1) y) =
    (.error (.ofSyntax ⟨.undefinedName name, s.lookahead.location⟩), s)
  := by
  rw [items, run_bind, run_peek]
  simp only [h]
  rw [run_bind, run_symbols]
  cases hkind : s.symbols.kind? name with
  | none => simp [hkind]
  | some kind =>
    rcases kind with _ | _ | _
    · exact (hvariable hkind).elim
    · exact (hfunction hkind).elim
    · simp [hkind]

theorem run_items_of_opening (h : s.lookahead.value = .mark .lparen) :
  s.run (items (fuel + 1) y) = s.run (do advance; items fuel y.openParenthesis)
  := by
  rw [items, run_bind, run_peek]
  simp only [h]

theorem run_items_of_closing (h : s.lookahead.value = .mark .rparen) (hy : y.unclosed ≠ 0) :
  s.run (items (fuel + 1) y) = s.run (do advance; items fuel y.closeParenthesis)
  := by
  rw [items, run_bind, run_peek]
  simp only [h, hy, if_false]

theorem run_items_of_operator {op : BinaryOp} (h : s.lookahead.value.operator? = some op) :
  s.run (items (fuel + 1) y) =
    s.run (do advance; items fuel (y.operator ⟨op, s.lookahead.location⟩))
  := by
  rw [items, run_bind, run_peek]
  cases hvalue : s.lookahead.value with
  | mark m => cases m <;> simp_all [Token.operator?, Mark.operator?]
  | _ => simp [hvalue, Token.operator?] at h

end

/-- What the next token can be when items are read. -/
theorem lookahead_cases (T : SymbolTable) (y : Yard) (token : Token) :
  y.Stops token ∨ token.IsOperand T ∨
    (∃ name, token = .ident name ∧ T.kind? name = some .function) ∨
    (∃ name, token = .ident name ∧ T.kind? name ≠ some .variable ∧
      T.kind? name ≠ some .function) ∨
    token = .mark .lparen ∨ (token = .mark .rparen ∧ y.unclosed ≠ 0) ∨
    ∃ op, token.operator? = some op
  := by
  cases token with
  | ident name =>
    cases hkind : T.kind? name with
    | none => simp [hkind]
    | some kind => cases kind <;> simp [hkind, Token.IsOperand]
  | mark m =>
    cases m with
    | rparen =>
      by_cases hy : y.unclosed = 0
      · simp [Yard.Stops, hy]
      · simp [hy]
    | _ => simp [Yard.Stops, Token.operator?, Mark.operator?]
  | _ => simp [Token.IsOperand, Yard.Stops, Token.operator?]

theorem run_advance_bind_eq_ok_iff {α : Type} {s t : Pass} {action : PassM α} {value : α} :
  s.run (do advance; action) = (.ok value, t) ↔
    ∃ p, s.position.next? = some p ∧ (s.goto p []).run action = (.ok value, t)
  := by
  rw [run_bind_eq_ok_iff]
  constructor
  · rintro ⟨_, u, hadvance, h⟩
    obtain ⟨p, hp, rfl⟩ := run_advance_eq_ok_iff.mp hadvance
    exact ⟨p, hp, h⟩
  · rintro ⟨p, hp, h⟩
    exact ⟨(), s.goto p [], run_advance_eq_ok_iff.mpr ⟨p, hp, rfl⟩, h⟩

/-- Reading goes on after the name of a function if a call of it succeeds and returns a value. -/
theorem run_items_of_function_eq_ok_iff {s t : Pass} {y y' : Yard} {fuel : Nat} {name : String}
    (h : s.lookahead.value = .ident name) (hkind : s.symbols.kind? name = some .function) :
  s.run (items (fuel + 1) y) = (.ok y', t) ↔
    ∃ p returns u, s.position.next? = some p ∧
      (s.goto p []).run (callWith (arguments fuel) name s.lookahead.location) = (.ok returns, u) ∧
      returns ≠ .void ∧
      u.run (items fuel (y.operand ⟨.returnValue, s.lookahead.location⟩)) = (.ok y', t)
  := by
  rw [run_items_of_function fuel h hkind, run_advance_bind_eq_ok_iff]
  constructor
  · rintro ⟨p, hp, hrun⟩
    obtain ⟨returns, u, hcall, hrun⟩ := run_bind_eq_ok_iff.mp hrun
    by_cases hvoid : returns = .void
    · simp [hvoid, run_bind] at hrun
    · rw [if_neg hvoid] at hrun
      exact ⟨p, returns, u, hp, hcall, hvoid, hrun⟩
  · rintro ⟨p, returns, u, hp, hcall, hvoid, hrun⟩
    use p, hp
    apply run_bind_eq_ok_iff.mpr
    use returns, u, hcall
    rw [if_neg hvoid]
    exact hrun

/-- One argument or more are read if the first is compiled and pushed, and either no comma follows it
or more arguments are read after the comma. -/
theorem run_arguments_eq_ok_iff {s t : Pass} {fuel n : Nat} :
  s.run (arguments (fuel + 1)) = (.ok n, t) ↔
    ∃ u, s.run (expressionWith (queueWith (items fuel .empty)) .stack) = (.ok (), u) ∧
      ((u.lookahead.value = .mark .comma ∧ ∃ p k, u.position.next? = some p ∧
          (u.goto p []).run (arguments fuel) = (.ok k, t) ∧ n = k + 1) ∨
        (u.lookahead.value ≠ .mark .comma ∧ n = 1 ∧ t = u))
  := by
  rw [arguments, run_bind_eq_ok_iff]
  constructor
  · rintro ⟨_, u, hfirst, h⟩
    obtain ⟨more, v, haccept, hmore⟩ := run_bind_eq_ok_iff.mp h
    obtain ⟨rfl, hcomma, p, hp, rfl⟩ | ⟨rfl, hcomma, rfl⟩ := run_accept_eq_ok_iff.mp haccept
    · obtain ⟨k, hk, rfl⟩ := run_map_eq_ok_iff.mp (by simpa using hmore)
      exact ⟨u, hfirst, .inl ⟨hcomma, p, k, hp, hk, rfl⟩⟩
    · cases hmore
      exact ⟨t, hfirst, .inr ⟨hcomma, rfl, rfl⟩⟩
  · rintro ⟨u, hfirst, ⟨hcomma, p, k, hp, hk, rfl⟩ | ⟨hcomma, rfl, rfl⟩⟩
    · refine ⟨(), u, hfirst, ?_⟩
      apply run_bind_eq_ok_iff.mpr
      use true, u.goto p [], run_accept_eq_ok_iff.mpr (.inl ⟨rfl, hcomma, p, hp, rfl⟩)
      simpa [run_map_eq_ok_iff] using hk
    · refine ⟨(), t, hfirst, ?_⟩
      apply run_bind_eq_ok_iff.mpr
      use false, t, run_accept_eq_ok_iff.mpr (.inr ⟨rfl, hcomma, rfl⟩)
      rfl

/-- An expression compiles if its items are read, make a queue and the queue compiles. -/
theorem run_expressionWith_queueWith_eq_ok_iff {s t : Pass} {read : PassM Yard} {slot : Slot}
    {v : Unit} :
  s.run (expressionWith (queueWith read) slot) = (.ok v, t) ↔
    ∃ y u code, s.run read = (.ok y, u) ∧ y.unclosed = 0 ∧ y.queue ≠ [] ∧
      Expression.compile y.queue slot u.registers s.lookahead.location = .ok code ∧
      t = u.goto u.position code
  := by
  rw [run_expressionWith_eq_ok_iff]
  constructor
  · rintro ⟨items, u, code, hread, hitems, hcode, rfl⟩
    obtain ⟨y, hy, hclosed, rfl⟩ := run_queueWith_eq_ok_iff.mp hread
    exact ⟨y, u, code, hy, hclosed, hitems, hcode, rfl⟩
  · rintro ⟨y, u, code, hy, hclosed, hitems, hcode, rfl⟩
    exact ⟨y.queue, u, code, run_queueWith_eq_ok_iff.mpr ⟨y, hy, hclosed, rfl⟩, hitems, hcode, rfl⟩

/-! ### Soundness -/

/-- In a number of steps, only that is read as items of which there is a reading. -/
def ReadsItems (fuel : Nat) : Prop :=
  ∀ ⦃s t : Pass⦄ ⦃y y' : Yard⦄, s.run (items fuel y) = (.ok y', t) →
    ∃ code q, Reading s.symbols s.registers y s.position code y' q ∧ t = s.goto q code

/-- In a number of steps, only that is read as arguments of which there are readings. -/
def ReadsArguments (fuel : Nat) : Prop :=
  ∀ ⦃s t : Pass⦄ ⦃n : Nat⦄, s.run (arguments fuel) = (.ok n, t) →
    ∃ args q, args.length = n ∧ args ≠ [] ∧ Argument.Chain s.position args q ∧
      (∀ a ∈ args, Reading s.symbols s.registers .empty a.start a.calls a.yard a.stop) ∧
      (∀ a ∈ args, a.Compiles s.registers) ∧ t = s.goto q (args.flatMap Argument.operations)

theorem readsArguments_succ {fuel : Nat} (hitems : ReadsItems fuel) (hmore : ReadsArguments fuel) :
  ReadsArguments (fuel + 1)
  := by
  intro s t n h
  obtain ⟨u, hfirst, hrest⟩ := run_arguments_eq_ok_iff.mp h
  obtain ⟨y, v, code, hy, hclosed, hqueue, hcode, rfl⟩ :=
    run_expressionWith_queueWith_eq_ok_iff.mp hfirst
  obtain ⟨calls, q, hread, rfl⟩ := hitems hy
  have hcompiles : Argument.Compiles s.registers ⟨s.position, q, calls, y, code⟩ :=
    ⟨hclosed, hqueue, hcode⟩
  obtain ⟨hcomma, p, k, hp, hk, rfl⟩ | ⟨-, rfl, rfl⟩ := hrest
  · obtain ⟨args, r, rfl, hne, hchain, hreads, hall, rfl⟩ := hmore hk
    obtain ⟨b, rest, rfl⟩ := List.exists_cons_of_ne_nil hne
    refine ⟨⟨s.position, q, calls, y, code⟩ :: b :: rest, r, rfl, by simp,
      ⟨rfl, hcomma, p, hp, hchain⟩, ?_, ?_, ?_⟩
    · exact List.forall_mem_cons.mpr ⟨hread, hreads⟩
    · exact List.forall_mem_cons.mpr ⟨hcompiles, hall⟩
    · simp [Argument.operations]
  · refine ⟨[⟨s.position, q, calls, y, code⟩], q, rfl, by simp, ⟨rfl, rfl⟩, ?_, ?_, ?_⟩
    · exact List.forall_mem_singleton.mpr hread
    · exact List.forall_mem_singleton.mpr hcompiles
    · simp [Argument.operations]

theorem readsItems_succ {fuel : Nat} (hitems : ReadsItems fuel) (hargs : ReadsArguments fuel) :
  ReadsItems (fuel + 1)
  := by
  intro s t y y' h
  -- the cases that pass over one token all go on in the same way
  have hnext : ∀ {y₁ : Yard}, s.run (do advance; items fuel y₁) = (.ok y', t) →
      ∃ code q r, s.position.next? = some q ∧
        Reading s.symbols s.registers y₁ q code y' r ∧ t = s.goto r code := by
    intro y₁ hrun
    obtain ⟨q, hq, hrest⟩ := run_advance_bind_eq_ok_iff.mp hrun
    obtain ⟨code, r, hread, rfl⟩ := hitems hrest
    exact ⟨code, q, r, hq, hread, goto_goto ..⟩
  obtain hstops | hoperand | ⟨name, hname, hkind⟩ | ⟨name, hname, hvariable, hfunction⟩ |
    hopen | ⟨hclose, hy⟩ | ⟨op, hop⟩ := lookahead_cases s.symbols y s.lookahead.value
  · rw [run_items_of_stops fuel hstops] at h
    cases h
    exact ⟨[], s.position, .stop hstops, s.goto_position.symm⟩
  · rw [run_items_of_isOperand fuel hoperand] at h
    obtain ⟨code, q, r, hq, hread, rfl⟩ := hnext h
    exact ⟨code, r, .operand hoperand hq hread, rfl⟩
  · obtain ⟨p, returns, u, hp, hcall, hvoid, hrest⟩ :=
      (run_items_of_function_eq_ok_iff hname hkind).mp h
    obtain ⟨f, p₂, v, q, hf, hopen, hp₂, hargsRun, hclose, hq, rfl, rfl⟩ :=
      run_callWith_eq_ok_iff.mp hcall
    -- an empty list of arguments and one with arguments in it are read alike
    obtain ⟨args, p₃, hlength, hchain, hreads, hall, rfl⟩ : ∃ args p₃, args.length = f.arity ∧
        Argument.Chain p₂ args p₃ ∧
        (∀ a ∈ args, Reading s.symbols s.registers .empty a.start a.calls a.yard a.stop) ∧
        (∀ a ∈ args, a.Compiles s.registers) ∧
        v = s.goto p₃ (args.flatMap Argument.operations) := by
      split at hargsRun
      · obtain ⟨harity, rfl⟩ := hargsRun
        exact ⟨[], p₂, harity.symm, rfl, by simp, by simp, goto_goto ..⟩
      · obtain ⟨args, p₃, hlength, -, hchain, hreads, hall, rfl⟩ := hargs hargsRun
        exact ⟨args, p₃, hlength, hchain, hreads, hall, by simp⟩
    obtain ⟨code, r, hread, rfl⟩ := hitems hrest
    refine ⟨args.flatMap Argument.operations ++ .call name :: code, r, ?_, by simp⟩
    exact .call hname hkind hf hp hopen hp₂ hchain hreads hall hclose hq hlength hvoid hread
  · rw [run_items_of_undefined fuel hname hvariable hfunction] at h
    cases h
  · rw [run_items_of_opening fuel hopen] at h
    obtain ⟨code, q, r, hq, hread, rfl⟩ := hnext h
    exact ⟨code, r, .opening hopen hq hread, rfl⟩
  · rw [run_items_of_closing fuel hclose hy] at h
    obtain ⟨code, q, r, hq, hread, rfl⟩ := hnext h
    exact ⟨code, r, .closing hclose hy hq hread, rfl⟩
  · rw [run_items_of_operator fuel hop] at h
    obtain ⟨code, q, r, hq, hread, rfl⟩ := hnext h
    exact ⟨code, r, .operator hop hq hread, rfl⟩

/-- Everything that is read in a bounded number of steps has a reading. -/
theorem readsItems_and_readsArguments (fuel : Nat) :
  ReadsItems fuel ∧ ReadsArguments fuel
  := by
  induction fuel with
  | zero =>
    constructor
    · intro s t y y' h
      simp [items] at h
    · intro s t n h
      simp [arguments] at h
  | succ fuel ih =>
    obtain ⟨hitems, hargs⟩ := ih
    exact ⟨readsItems_succ hitems hargs, readsArguments_succ hitems hargs⟩

/-! ### Completeness -/

/-- Given a bound on the number of steps, items are read from one position to another with the given
effect on the yard, and operations are written meanwhile. -/
def CompletesItems (T : SymbolTable) (registers : Nat) (y : Yard) (p : Position)
    (code : List Operation) (y' : Yard) (r : Position) : Prop :=
  ∀ ⦃s : Pass⦄ ⦃fuel : Nat⦄, s.position = p → s.symbols = T → s.registers = registers →
    p.bound < fuel → s.run (items fuel y) = (.ok y', s.goto r code)

/-- The bound leaves at least one step. -/
theorem CompletesItems.intro {T : SymbolTable} {registers : Nat} {y y' : Yard} {p r : Position}
    {code : List Operation}
    (h : ∀ (s : Pass) (fuel : Nat), s.position = p → s.symbols = T → s.registers = registers →
      p.bound < fuel + 1 → s.run (items (fuel + 1) y) = (.ok y', s.goto r code)) :
  CompletesItems T registers y p code y' r
  := by
  intro s fuel hp hT hregisters hfuel
  cases fuel with
  | zero => cases hfuel
  | succ fuel => apply h s fuel hp hT hregisters hfuel

/-- Items are read on after a token has been passed. -/
theorem CompletesItems.run_advance {s : Pass} {y y' : Yard} {q r : Position}
    {code : List Operation} {fuel : Nat}
    (h : CompletesItems s.symbols s.registers y q code y' r)
    (more : s.position.lookahead.value ≠ .eof) (next : s.position.next? = some q)
    (hfuel : s.position.bound < fuel + 1) :
  s.run (do advance; items fuel y) = (.ok y', s.goto r code)
  := by
  have hlower := Position.next?_bound more next
  apply run_advance_bind_eq_ok_iff.mpr
  use q, next
  have hrest := h (position_goto s q []) rfl rfl (show q.bound < fuel by omega)
  rw [hrest, goto_goto, List.nil_append]

/-- Arguments that follow each other are read if each of them is. -/
theorem run_arguments_of_chain {q : Position} (hcomma : q.lookahead.value ≠ .mark .comma) :
  ∀ {args : List Argument} {s : Pass} {fuel : Nat}, args ≠ [] →
    Argument.Chain s.position args q →
    (∀ a ∈ args, ∃ ts, a.start.Passes ts a.stop) →
    (∀ a ∈ args, a.Compiles s.registers) →
    (∀ a ∈ args, CompletesItems s.symbols s.registers .empty a.start a.calls a.yard a.stop) →
    s.position.bound + 1 < fuel →
    s.run (arguments fuel) = (.ok args.length, s.goto q (args.flatMap Argument.operations))
  | [], _, _, hne, _, _, _, _, _ => absurd rfl hne
  | _, _, 0, _, _, _, _, _, hfuel => absurd hfuel (Nat.not_lt_zero _)
  | a :: args, s, fuel + 1, _, hchain, hpasses, hcompiles, hitems, hfuel => by
      have hstart : s.position = a.start := hchain.start.symm
      obtain ⟨hclosed, hqueue, hcode⟩ := hcompiles a List.mem_cons_self
      rw [hstart] at hfuel
      have hfirst := hitems a List.mem_cons_self hstart rfl rfl (show a.start.bound < fuel by omega)
      apply run_arguments_eq_ok_iff.mpr
      refine ⟨s.goto a.stop a.operations, ?_, ?_⟩
      · apply run_expressionWith_queueWith_eq_ok_iff.mpr
        refine ⟨a.yard, _, a.code, hfirst, hclosed, hqueue, ?_, ?_⟩
        · rw [← hstart] at hcode
          exact hcode
        · simp [Argument.operations]
      · cases args with
        | nil =>
          obtain ⟨-, rfl⟩ := hchain
          exact .inr ⟨hcomma, rfl, by simp⟩
        | cons b rest =>
          obtain ⟨-, hsep, p, hp, hrest⟩ := hchain
          refine .inl ⟨hsep, p, (b :: rest).length, hp, ?_, rfl⟩
          obtain ⟨ts, hts⟩ := hpasses a List.mem_cons_self
          have hbound := hts.length_add_bound_le
          have hlower := Position.next?_bound (by simp [hsep]) hp
          have hmore := run_arguments_of_chain (s := (s.goto a.stop a.operations).goto p [])
            hcomma (List.cons_ne_nil b rest) hrest
            (fun b hb => hpasses b (List.mem_cons_of_mem a hb))
            (fun b hb => hcompiles b (List.mem_cons_of_mem a hb))
            (fun b hb => hitems b (List.mem_cons_of_mem a hb))
            (show p.bound + 1 < fuel by omega)
          simpa using hmore

/-- A call is read if each of its arguments is. -/
theorem run_callWith_of_chain {s : Pass} {f : Function} {name : String} (location : Location)
    {args : List Argument} {p p' q : Position} {fuel : Nat}
    (function : s.symbols.functionNamed? name = some f)
    (opening : s.lookahead.value = .mark .lparen) (next : s.position.next? = some p)
    (chain : Argument.Chain p args p')
    (readings : ∀ a ∈ args, Reading s.symbols s.registers .empty a.start a.calls a.yard a.stop)
    (compiles : ∀ a ∈ args, a.Compiles s.registers)
    (hitems : ∀ a ∈ args,
      CompletesItems s.symbols s.registers .empty a.start a.calls a.yard a.stop)
    (closing : p'.lookahead.value = .mark .rparen) (next' : p'.next? = some q)
    (arity : args.length = f.arity) (hfuel : p.bound + 1 < fuel) :
  s.run (callWith (arguments fuel) name location) =
    (.ok f.returns, s.goto q (args.flatMap Argument.operations ++ [.call name]))
  := by
  apply run_callWith_eq_ok_iff.mpr
  refine ⟨f, p, s.goto p' (args.flatMap Argument.operations), q, function, opening, next, ?_,
    closing, next', rfl, by simp⟩
  cases args with
  | nil =>
    obtain rfl : p = p' := chain
    rw [if_pos closing]
    exact ⟨arity.symm, rfl⟩
  | cons a args =>
    have hne := (readings a List.mem_cons_self).lookahead_ne_rparen
      (compiles a List.mem_cons_self).2.1
    rw [chain.start] at hne
    rw [if_neg hne, ← arity]
    have hargs := run_arguments_of_chain (s := s.goto p []) (by simp [closing])
      (List.cons_ne_nil a args) chain (fun a ha => (readings a ha).passes) compiles hitems hfuel
    simpa using hargs

/-- What has a reading is read as items. -/
theorem completesItems_of_reading {T : SymbolTable} {registers : Nat} {y y' : Yard}
    {p r : Position} {code : List Operation} (h : Reading T registers y p code y' r) :
  CompletesItems T registers y p code y' r
  := by
  induction h with
  | stop stops =>
    apply CompletesItems.intro
    rintro s fuel rfl rfl rfl hfuel
    rw [run_items_of_stops fuel stops, goto_position]
  | operand operand next rest ih =>
    apply CompletesItems.intro
    rintro s fuel rfl rfl rfl hfuel
    rw [run_items_of_isOperand fuel operand]
    apply ih.run_advance operand.ne_eof next hfuel
  | @call y y' p p₁ p₂ p₃ q r code name f args ident kind function next opening next₁ chain readings
      compiles closing next₃ arity returns rest ihArgs ih =>
    apply CompletesItems.intro
    rintro s fuel rfl rfl rfl hfuel
    obtain ⟨ts, hts⟩ := chain.passes fun a ha => (readings a ha).passes
    have h₁ := Position.next?_bound (by simp [ident]) next
    have h₂ := Position.next?_bound (by simp [opening]) next₁
    have h₃ := Position.next?_bound (by simp [closing]) next₃
    have hinner := hts.length_add_bound_le
    have hcall := run_callWith_of_chain (s := s.goto p₁ []) s.lookahead.location function opening
      next₁ chain readings compiles ihArgs closing next₃ arity (show p₂.bound + 1 < fuel by omega)
    have hrest := ih (position_goto s q (args.flatMap Argument.operations ++ [.call name])) rfl
      rfl (show q.bound < fuel by omega)
    apply (run_items_of_function_eq_ok_iff ident kind).mpr
    refine ⟨p₁, f.returns, _, next, hcall, returns, ?_⟩
    rw [goto_goto, List.nil_append, show s.lookahead = s.position.lookahead from rfl, hrest]
    simp
  | opening opening next rest ih =>
    apply CompletesItems.intro
    rintro s fuel rfl rfl rfl hfuel
    rw [run_items_of_opening fuel opening]
    apply ih.run_advance (by simp [opening]) next hfuel
  | closing closing unclosed next rest ih =>
    apply CompletesItems.intro
    rintro s fuel rfl rfl rfl hfuel
    rw [run_items_of_closing fuel closing unclosed]
    apply ih.run_advance (by simp [closing]) next hfuel
  | operator operator next rest ih =>
    apply CompletesItems.intro
    rintro s fuel rfl rfl rfl hfuel
    rw [run_items_of_operator fuel operator]
    apply ih.run_advance (Token.ne_eof_of_operator? operator) next hfuel

/-! ### Readings and runs -/

theorem bound_position_lt_budget (s : Pass) :
  s.position.bound < s.budget
  := by
  have h := s.position.bound_le
  simp only [budget, position] at h ⊢
  omega

/-- Items are read exactly as far as there is a reading. -/
theorem run_items_eq_ok_iff {s t : Pass} {y y' : Yard} :
  s.run (items s.budget y) = (.ok y', t) ↔
    ∃ code q, Reading s.symbols s.registers y s.position code y' q ∧ t = s.goto q code
  := by
  constructor
  · intro h
    apply (readsItems_and_readsArguments s.budget).1 h
  · rintro ⟨code, q, h, rfl⟩
    apply completesItems_of_reading h rfl rfl rfl s.bound_position_lt_budget

/-- A queue is read exactly if there is a reading that closes all of its parentheses. -/
theorem run_queue_eq_ok_iff {s t : Pass} {items : List Item} :
  s.run queue = (.ok items, t) ↔
    ∃ calls y q, Reading s.symbols s.registers .empty s.position calls y q ∧ y.unclosed = 0 ∧
      items = y.queue ∧ t = s.goto q calls
  := by
  rw [queue, run_bind, run_get]
  simp only [run_queueWith_eq_ok_iff, run_items_eq_ok_iff]
  constructor
  · rintro ⟨y, ⟨calls, q, hread, rfl⟩, hclosed, rfl⟩
    exact ⟨calls, y, q, hread, hclosed, rfl, rfl⟩
  · rintro ⟨calls, y, q, hread, hclosed, rfl, rfl⟩
    exact ⟨y, ⟨calls, q, hread, rfl⟩, hclosed, rfl⟩

/-- An expression compiles exactly if there is a reading of it whose queue compiles. -/
theorem run_expression_eq_ok_iff {s t : Pass} {slot : Slot} {v : Unit} :
  s.run (expression slot) = (.ok v, t) ↔
    ∃ calls y q code, Reading s.symbols s.registers .empty s.position calls y q ∧
      y.unclosed = 0 ∧ y.queue ≠ [] ∧
      Expression.compile y.queue slot s.registers s.lookahead.location = .ok code ∧
      t = s.goto q (calls ++ code)
  := by
  rw [expression, run_expressionWith_eq_ok_iff]
  simp only [run_queue_eq_ok_iff]
  constructor
  · rintro ⟨items, u, code, ⟨calls, y, q, hread, hclosed, rfl, rfl⟩, hqueue, hcode, rfl⟩
    exact ⟨calls, y, q, code, hread, hclosed, hqueue, hcode, goto_goto ..⟩
  · rintro ⟨calls, y, q, code, hread, hclosed, hqueue, hcode, rfl⟩
    exact ⟨y.queue, s.goto q calls, code, ⟨calls, y, q, hread, hclosed, rfl, rfl⟩, hqueue, hcode,
      by simp⟩

end Pass

end SilFront
