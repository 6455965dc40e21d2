import SilFront.Proofs.Inversion
import SilFront.Proofs.Progress
import SilFront.Proofs.Relocation

/-!
# Outlines of expressions

An `Outline` lists the tokens of an expression in order, sets each call in it apart with the
outlines of its arguments, and ends with the operations that the expression is compiled to once its
calls are written. Its tokens and its operations can be read off it.

`Outline.Compiles` says that an outline is one of an expression that compiles. It knows neither
positions nor locations, yet an expression compiles exactly if there is such an outline of its
tokens, and then the operations of that outline are written
(`Pass.run_expression_eq_ok_iff_compiles`). The same holds of the arguments of a call.
-/

namespace SilFront

/-- The tokens of an expression, with its calls set apart, and in the end its own operations. -/
inductive Outline where
  | done (code : List Operation)
  | token (token : Token) (rest : Outline)
  | call (function : String) (arguments : List Outline) (rest : Outline)

namespace Outline

mutual

/-- The tokens of an expression. -/
def tokens : Outline → List Token
  | .done _ => []
  | .token t rest => t :: rest.tokens
  | .call function arguments rest =>
    .ident function :: .mark .lparen :: (tokensOf arguments ++ .mark .rparen :: rest.tokens)

/-- The tokens of expressions with commas in between. -/
def tokensOf : List Outline → List Token
  | [] => []
  | [e] => e.tokens
  | e :: e' :: rest => e.tokens ++ .mark .comma :: tokensOf (e' :: rest)

end

mutual

/-- The operations that are written for an expression: those of its calls, then its own. -/
def operations : Outline → List Operation
  | .done code => code
  | .token _ rest => rest.operations
  | .call function arguments rest => operationsOf arguments ++ .call function :: rest.operations

/-- The operations that are written for expressions in turn. -/
def operationsOf : List Outline → List Operation
  | [] => []
  | e :: rest => e.operations ++ operationsOf rest

end

end Outline

/-- The yard after a token that is no part of a call, if the token may stand there. -/
def Yard.next? (T : SymbolTable) (y : Yard) (t : Located Token) : Option Yard :=
  match t.value with
  | .number _ | .string _ => some (y.operand t)
  | .ident name => if T.kind? name = some .variable then some (y.operand t) else none
  | .mark .lparen => some y.openParenthesis
  | .mark .rparen => if y.unclosed = 0 then none else some y.closeParenthesis
  | token => token.operator?.map fun op => y.operator ⟨op, t.location⟩

/-- An outline of an expression that compiles, from a yard on. Names must be visible variables, and
a call must be one of a function that returns a value, with as many arguments as it takes, each of
which is pushed. -/
inductive Outline.Compiles (T : SymbolTable) (registers : Nat) : Slot → Yard → Outline → Prop
  | done {slot : Slot} {y : Yard} {code : List Operation} (closed : y.unclosed = 0)
      (compiles : Expression.compile y.queue slot registers .start = .ok code) :
      Compiles T registers slot y (.done code)
  | token {slot : Slot} {y y' : Yard} {token : Token} {rest : Outline}
      (next : y.next? T ⟨token, .start⟩ = some y') (more : Compiles T registers slot y' rest) :
      Compiles T registers slot y (.token token rest)
  | call {slot : Slot} {y : Yard} {name : String} {f : Function} {arguments : List Outline}
      {rest : Outline} (kind : T.kind? name = some .function)
      (function : T.functionNamed? name = some f)
      (compiles : ∀ a ∈ arguments, Compiles T registers .stack .empty a)
      (arity : arguments.length = f.arity) (returns : f.returns ≠ .void)
      (more : Compiles T registers slot (y.operand ⟨.returnValue, .start⟩) rest) :
      Compiles T registers slot y (.call name arguments rest)

namespace Yard

variable {T : SymbolTable} {y y' : Yard} {t : Located Token}

/-- A token that is no part of a call is an operand, a parenthesis or an operator. -/
theorem next?_eq_some_iff :
  y.next? T t = some y' ↔
    (t.value.IsOperand T ∧ y' = y.operand t) ∨
    (t.value = .mark .lparen ∧ y' = y.openParenthesis) ∨
    (t.value = .mark .rparen ∧ y.unclosed ≠ 0 ∧ y' = y.closeParenthesis) ∨
    ∃ op, t.value.operator? = some op ∧ y' = y.operator ⟨op, t.location⟩
  := by
  obtain ⟨token, location⟩ := t
  cases token with
  | mark m =>
    cases m with
    | rparen =>
      by_cases h : y.unclosed = 0 <;>
        simp [next?, h, Token.IsOperand, Token.operator?, Mark.operator?, eq_comm]
    | _ => simp [next?, Token.IsOperand, Token.operator?, Mark.operator?, eq_comm]
  | ident name =>
    by_cases h : T.kind? name = some .variable <;>
      simp [next?, h, Token.IsOperand, Token.operator?, eq_comm]
  | _ => simp [next?, Token.IsOperand, Token.operator?, eq_comm]

theorem next?_bare (T : SymbolTable) (y : Yard) (t : Located Token) :
  y.bare.next? T ⟨t.value, .start⟩ = (y.next? T t).map bare
  := by
  obtain ⟨token, location⟩ := t
  cases token with
  | mark m =>
    cases m with
    | rparen => by_cases h : y.unclosed = 0 <;> simp [next?, h]
    | _ => simp [next?, Token.operator?, Mark.operator?]
  | ident name => by_cases h : T.kind? name = some .variable <;> simp [next?, h]
  | _ => simp [next?, Token.operator?]

theorem value_ne_eof_of_next? (h : y.next? T t = some y') :
  t.value ≠ .eof
  := by
  intro heof
  simp [next?, heof, Token.operator?] at h

end Yard

/-- Reading goes on after a token that is no part of a call. -/
theorem Reading.token {T : SymbolTable} {registers : Nat} {y y₁ y' : Yard} {p q r : Position}
    {code : List Operation} (token : y.next? T p.lookahead = some y₁) (next : p.next? = some q)
    (rest : Reading T registers y₁ q code y' r) :
  Reading T registers y p code y' r
  := by
  obtain ⟨hoperand, rfl⟩ | ⟨hopen, rfl⟩ | ⟨hclose, hy, rfl⟩ | ⟨op, hop, rfl⟩ :=
    Yard.next?_eq_some_iff.mp token
  · apply Reading.operand hoperand next rest
  · apply Reading.opening hopen next rest
  · apply Reading.closing hclose hy next rest
  · apply Reading.operator hop next rest

namespace Outline

variable {T : SymbolTable} {registers : Nat}

theorem operationsOf_eq_flatMap (es : List Outline) :
  operationsOf es = es.flatMap operations
  := by
  induction es with
  | nil => rfl
  | cons e es ih => rw [operationsOf, ih, List.flatMap_cons]

theorem token_ne_eof_of_mem_tokensOf :
  ∀ {es : List Outline}, (∀ e ∈ es, ∀ t ∈ e.tokens, t ≠ .eof) → ∀ t ∈ tokensOf es, t ≠ .eof
  | [], _ => by simp [tokensOf]
  | [e], h => h e List.mem_cons_self
  | e :: e' :: es, h => by
      obtain ⟨hfirst, hrest⟩ := List.forall_mem_cons.mp h
      rw [tokensOf, List.forall_mem_append, List.forall_mem_cons]
      exact ⟨hfirst, by simp, token_ne_eof_of_mem_tokensOf hrest⟩

/-- The end of the text is no token of an expression that compiles. -/
theorem Compiles.token_ne_eof {slot : Slot} {y : Yard} {e : Outline}
    (h : e.Compiles T registers slot y) :
  ∀ t ∈ e.tokens, t ≠ .eof
  := by
  induction h with
  | done => simp [tokens]
  | token next _ ih =>
    rw [tokens, List.forall_mem_cons]
    exact ⟨Yard.value_ne_eof_of_next? next, ih⟩
  | call _ _ _ _ _ _ ihArgs ih =>
    rw [tokens, List.forall_mem_cons, List.forall_mem_cons, List.forall_mem_append,
      List.forall_mem_cons]
    exact ⟨by simp, by simp, token_ne_eof_of_mem_tokensOf ihArgs, by simp, ih⟩

/-! ### Outlines of what is read -/

/-- Arguments that follow each other have outlines with commas in between if each has an outline. -/
theorem exists_outlines_of_chain {P : Outline → Prop} :
  ∀ {args : List Argument} {p q : Position}, Argument.Chain p args q →
    (∀ a ∈ args, ∃ e : Outline, P e ∧ a.start.Reads e.tokens a.stop ∧ e.operations = a.operations) →
    ∃ es : List Outline, es.length = args.length ∧ (∀ e ∈ es, P e) ∧ p.Reads (tokensOf es) q ∧
      operationsOf es = args.flatMap Argument.operations
  | [], _, _, rfl, _ => ⟨[], rfl, by simp, by simp [tokensOf], rfl⟩
  | [a], _, _, ⟨rfl, rfl⟩, h => by
      obtain ⟨e, he, hreads, hoperations⟩ := h a List.mem_cons_self
      exact ⟨[e], rfl, List.forall_mem_singleton.mpr he, hreads,
        by simp [operationsOf, hoperations]⟩
  | a :: b :: args, _, q, ⟨rfl, hcomma, p, hp, hchain⟩, h => by
      obtain ⟨e, he, hreads, hoperations⟩ := h a List.mem_cons_self
      obtain ⟨_ | ⟨e', es⟩, hlength, hes, hrest, hmore⟩ :=
        exists_outlines_of_chain hchain fun b hb => h b (List.mem_cons_of_mem a hb)
      · cases hlength
      · refine ⟨e :: e' :: es, by simpa using hlength, List.forall_mem_cons.mpr ⟨he, hes⟩, ?_, ?_⟩
        · apply hreads.append
          apply Position.reads_cons_iff.mpr
          exact ⟨hcomma, by simp, p, hp, hrest⟩
        · rw [operationsOf, hoperations, hmore]
          rfl

/-- What is read as an expression whose queue compiles has an outline that compiles. -/
theorem exists_compiles_of_reading {y y' : Yard} {p q : Position} {calls : List Operation}
    (h : Reading T registers y p calls y' q) :
  ∀ {slot : Slot} {location : Location} {own : List Operation}, y'.unclosed = 0 →
    Expression.compile y'.queue slot registers location = .ok own →
    ∃ e : Outline, e.Compiles T registers slot y.bare ∧ p.Reads e.tokens q ∧
      e.operations = calls ++ own
  := by
  -- the cases that pass over one token all extend an outline by that token
  have hextend : ∀ {y y₁ : Yard} {p q r : Position} {slot : Slot} {operations : List Operation},
      y.next? T p.lookahead = some y₁ → p.next? = some q →
      (∃ e : Outline, e.Compiles T registers slot y₁.bare ∧ q.Reads e.tokens r ∧
        e.operations = operations) →
      ∃ e : Outline, e.Compiles T registers slot y.bare ∧ p.Reads e.tokens r ∧
        e.operations = operations := by
    rintro y y₁ p q r slot operations htoken hnext ⟨e, hcompiles, hreads, hoperations⟩
    have hbare := Yard.next?_bare T y p.lookahead
    rw [htoken] at hbare
    have hmore := Yard.value_ne_eof_of_next? htoken
    exact ⟨.token p.lookahead.value e, .token hbare hcompiles,
      Position.reads_cons_iff.mpr ⟨rfl, hmore, q, hnext, hreads⟩, hoperations⟩
  induction h with
  | stop =>
    intro slot location own hclosed hcompile
    refine ⟨.done own, .done ?_ ?_, by simp [tokens], rfl⟩
    · rwa [Yard.unclosed_bare]
    · rw [Yard.queue_bare, Expression.compile_map_bare]
      apply Expression.compile_of_compile hcompile
  | operand operand next _ ih =>
    intro slot location own hclosed hcompile
    exact hextend (Yard.next?_eq_some_iff.mpr (.inl ⟨operand, rfl⟩)) next (ih hclosed hcompile)
  | @call y y' p p₁ p₂ p₃ q r code name f args ident kind function next opening next₁ chain readings
      compiles closing next₃ arity returns rest ihArgs ih =>
    intro slot location own hclosed hcompile
    have hargs : ∀ a ∈ args, ∃ e : Outline, e.Compiles T registers .stack .empty ∧
        a.start.Reads e.tokens a.stop ∧ e.operations = a.operations := by
      intro a ha
      obtain ⟨haclosed, -, hacode⟩ := compiles a ha
      apply ihArgs a ha haclosed hacode
    obtain ⟨es, hlength, hes, hinner, hoperations⟩ := exists_outlines_of_chain chain hargs
    obtain ⟨e, he, hrest, hmore⟩ := ih hclosed hcompile
    refine ⟨.call name es e, .call kind function hes (hlength.trans arity) returns he, ?_, ?_⟩
    · apply Position.reads_cons_iff.mpr
      refine ⟨ident, by simp, p₁, next,
        Position.reads_cons_iff.mpr ⟨opening, by simp, p₂, next₁, ?_⟩⟩
      apply hinner.append
      apply Position.reads_cons_iff.mpr ⟨closing, by simp, q, next₃, hrest⟩
    · rw [operations, hoperations, hmore, List.append_assoc, List.cons_append]
  | opening opening next _ ih =>
    intro slot location own hclosed hcompile
    exact hextend (Yard.next?_eq_some_iff.mpr (.inr (.inl ⟨opening, rfl⟩))) next
      (ih hclosed hcompile)
  | closing closing unclosed next _ ih =>
    intro slot location own hclosed hcompile
    exact hextend (Yard.next?_eq_some_iff.mpr (.inr (.inr (.inl ⟨closing, unclosed, rfl⟩)))) next
      (ih hclosed hcompile)
  | operator operator next _ ih =>
    intro slot location own hclosed hcompile
    exact hextend (Yard.next?_eq_some_iff.mpr (.inr (.inr (.inr ⟨_, operator, rfl⟩)))) next
      (ih hclosed hcompile)

/-! ### Reading what is outlined -/

/-- Outlines with commas in between are those of arguments that follow each other if each is one of
an argument. -/
theorem exists_chain_of_outlines {P : Argument → Prop} {q : Position}
    (hq : q.lookahead.value = .mark .rparen) :
  ∀ {es : List Outline} {p : Position},
    (∀ e ∈ es, ∀ p q : Position, p.Reads e.tokens q → Yard.empty.Stops q.lookahead.value →
      ∃ a : Argument, P a ∧ a.start = p ∧ a.stop = q ∧ a.operations = e.operations) →
    p.Reads (tokensOf es) q →
    ∃ args, Argument.Chain p args q ∧ args.length = es.length ∧ (∀ a ∈ args, P a) ∧
      args.flatMap Argument.operations = operationsOf es
  | [], _, _, hreads => by
      obtain rfl := Position.reads_nil_iff.mp hreads
      exact ⟨[], rfl, rfl, by simp, rfl⟩
  | [e], p, h, hreads => by
      have hstops := Yard.stops_of_unclosed_eq_zero (y := .empty) rfl (.inr hq)
      obtain ⟨a, ha, hstart, hstop, hoperations⟩ := h e List.mem_cons_self p q hreads hstops
      exact ⟨[a], ⟨hstart, hstop⟩, rfl, List.forall_mem_singleton.mpr ha,
        by simp [operationsOf, hoperations]⟩
  | e :: e' :: es, p, h, hreads => by
      obtain ⟨stop, hfirst, hrest⟩ := Position.reads_append_iff.mp hreads
      obtain ⟨hcomma, -, start, hnext, hmore⟩ := Position.reads_cons_iff.mp hrest
      have hstops := Yard.stops_of_unclosed_eq_zero (y := .empty) rfl (.inl hcomma)
      obtain ⟨a, ha, rfl, rfl, hoperations⟩ := h e List.mem_cons_self p stop hfirst hstops
      obtain ⟨_ | ⟨b, args⟩, hchain, hlength, hargs, hcode⟩ := exists_chain_of_outlines hq
        (fun e he => h e (List.mem_cons_of_mem _ he)) hmore
      · cases hlength
      · refine ⟨a :: b :: args, ⟨rfl, hcomma, start, hnext, hchain⟩, by simpa using hlength,
          List.forall_mem_cons.mpr ⟨ha, hargs⟩, ?_⟩
        rw [List.flatMap_cons, hcode, hoperations]
        rfl

/-- The arguments of a call are read where outlines of theirs that compile stand. -/
theorem exists_arguments_of_compiles {es : List Outline} {p q : Position}
    (h : ∀ e ∈ es, ∀ {p q : Position}, p.Reads e.tokens q → Yard.empty.Stops q.lookahead.value →
      ∃ calls y own, Reading T registers .empty p calls y q ∧ y.unclosed = 0 ∧
        (∀ location, Expression.compile y.queue .stack registers location = .ok own) ∧
        e.operations = calls ++ own)
    (hreads : p.Reads (tokensOf es) q) (hq : q.lookahead.value = .mark .rparen) :
  ∃ args, Argument.Chain p args q ∧ args.length = es.length ∧
    (∀ a ∈ args, Reading T registers .empty a.start a.calls a.yard a.stop) ∧
    (∀ a ∈ args, a.Compiles registers) ∧
    args.flatMap Argument.operations = operationsOf es
  := by
  have hall : ∀ e ∈ es, ∀ p q : Position, p.Reads e.tokens q →
      Yard.empty.Stops q.lookahead.value →
      ∃ a : Argument, (Reading T registers .empty a.start a.calls a.yard a.stop ∧
        a.Compiles registers) ∧ a.start = p ∧ a.stop = q ∧ a.operations = e.operations := by
    intro e he p q hreads hstops
    obtain ⟨calls, y, own, hread, hclosed, hcompile, hoperations⟩ := h e he hreads hstops
    have hcode := hcompile p.lookahead.location
    exact ⟨⟨p, q, calls, y, own⟩, ⟨hread, hclosed, Expression.ne_nil_of_compile hcode, hcode⟩,
      rfl, rfl, hoperations.symm⟩
  obtain ⟨args, hchain, hlength, hargs, hcode⟩ := exists_chain_of_outlines hq hall hreads
  exact ⟨args, hchain, hlength, fun a ha => (hargs a ha).1, fun a ha => (hargs a ha).2, hcode⟩

/-- An outline that compiles is read where its tokens stand. -/
theorem exists_reading_of_compiles {slot : Slot} {y₀ : Yard} {e : Outline}
    (h : e.Compiles T registers slot y₀) :
  ∀ {y : Yard} {p q : Position}, y.bare = y₀ → p.Reads e.tokens q →
    Yard.empty.Stops q.lookahead.value →
    ∃ calls y' own, Reading T registers y p calls y' q ∧ y'.unclosed = 0 ∧
      (∀ location, Expression.compile y'.queue slot registers location = .ok own) ∧
      e.operations = calls ++ own
  := by
  induction h with
  | @done slot y₀ code closed compiles =>
    rintro y p q rfl hreads hstops
    obtain rfl := Position.reads_nil_iff.mp hreads
    rw [Yard.unclosed_bare] at closed
    rw [Yard.queue_bare, Expression.compile_map_bare] at compiles
    exact ⟨[], y, code, .stop (hstops.of_unclosed_eq closed), closed,
      Expression.compile_of_compile compiles, rfl⟩
  | @token slot y₀ y₁ token rest next _ ih =>
    rintro y p q rfl hreads hstops
    obtain ⟨rfl, -, p₁, hp₁, hrest⟩ := Position.reads_cons_iff.mp hreads
    rw [Yard.next?_bare] at next
    obtain ⟨y₂, hy₂, rfl⟩ := Option.map_eq_some_iff.mp next
    obtain ⟨calls, y', own, hread, hclosed, hcompile, hoperations⟩ := ih rfl hrest hstops
    exact ⟨calls, y', own, .token hy₂ hp₁ hread, hclosed, hcompile, hoperations⟩
  | @call slot y₀ name f es rest kind function _ arity returns _ ihArgs ih =>
    rintro y p q rfl hreads hstops
    obtain ⟨ident, -, p₁, hp₁, hreads⟩ := Position.reads_cons_iff.mp hreads
    obtain ⟨opening, -, p₂, hp₂, hreads⟩ := Position.reads_cons_iff.mp hreads
    obtain ⟨p₃, hinner, hreads⟩ := Position.reads_append_iff.mp hreads
    obtain ⟨closing, -, p₄, hp₄, hrest⟩ := Position.reads_cons_iff.mp hreads
    obtain ⟨args, hchain, hlength, hreadings, hcompiles, hcode⟩ := exists_arguments_of_compiles
      (fun e he _ _ hreads hstops => ihArgs e he Yard.bare_empty hreads hstops) hinner closing
    obtain ⟨calls, y', own, hread, hclosed, hcompile, hoperations⟩ :=
      ih (y := y.operand ⟨.returnValue, p.lookahead.location⟩) rfl hrest hstops
    refine ⟨args.flatMap Argument.operations ++ .call name :: calls, y', own, ?_, hclosed, hcompile,
      ?_⟩
    · apply Reading.call ident kind function hp₁ opening hp₂ hchain hreadings hcompiles closing hp₄
        (hlength.trans arity) returns hread
    · rw [operations, hoperations, hcode, List.append_assoc, List.cons_append]

end Outline

namespace Pass

open PassM

/-- An expression compiles exactly if there is an outline of it that compiles, before a token at
which reading stops. -/
theorem run_expression_eq_ok_iff_compiles {s t : Pass} {slot : Slot} {u : Unit} :
  s.run (expression slot) = (.ok u, t) ↔
    ∃ (e : Outline) (q : Position), e.Compiles s.symbols s.registers slot .empty ∧
      s.position.Reads e.tokens q ∧ Yard.empty.Stops q.lookahead.value ∧
      t = s.reach q s.symbols (e.operations.map .operation)
  := by
  rw [run_expression_eq_ok_iff]
  constructor
  · rintro ⟨calls, y, q, code, hread, hclosed, -, hcode, rfl⟩
    obtain ⟨e, he, hreads, hoperations⟩ := Outline.exists_compiles_of_reading hread hclosed hcode
    refine ⟨e, q, he, hreads, hread.stops.of_unclosed_eq hclosed.symm, ?_⟩
    rw [hoperations, goto_eq_reach]
  · rintro ⟨e, q, he, hreads, hstops, rfl⟩
    obtain ⟨calls, y, own, hread, hclosed, hcompile, hoperations⟩ :=
      Outline.exists_reading_of_compiles he Yard.bare_empty hreads hstops
    have hcode := hcompile s.lookahead.location
    refine ⟨calls, y, q, own, hread, hclosed, Expression.ne_nil_of_compile hcode, hcode, ?_⟩
    rw [hoperations, goto_eq_reach]

/-- A call succeeds exactly if its parentheses are around outlines that compile, as many as its
function takes. -/
theorem run_call_eq_ok_iff_compiles {s t : Pass} {name : String} {location : Location}
    {returns : ReturnType} :
  s.run (call name location) = (.ok returns, t) ↔
    ∃ (f : Function) (es : List Outline) (q : Position), s.symbols.functionNamed? name = some f ∧
      es.length = f.arity ∧ (∀ e ∈ es, e.Compiles s.symbols s.registers .stack .empty) ∧
      s.position.Reads (.mark .lparen :: (Outline.tokensOf es ++ [.mark .rparen])) q ∧
      returns = f.returns ∧
      t = s.reach q s.symbols ((Outline.operationsOf es ++ [Operation.call name]).map .operation)
  := by
  rw [call, run_bind, run_get]
  constructor
  · intro h
    obtain ⟨f, p, u, q, hf, hopen, hp, hargs, hclose, hq, rfl, rfl⟩ := run_callWith_eq_ok_iff.mp h
    obtain ⟨es, p', hlength, hes, hinner, rfl⟩ : ∃ (es : List Outline) (p' : Position),
        es.length = f.arity ∧ (∀ e ∈ es, e.Compiles s.symbols s.registers .stack .empty) ∧
        p.Reads (Outline.tokensOf es) p' ∧ u = s.goto p' (Outline.operationsOf es) := by
      split at hargs
      · obtain ⟨harity, rfl⟩ := hargs
        exact ⟨[], p, harity.symm, by simp, by simp [Outline.tokensOf], rfl⟩
      · obtain ⟨args, p', hlength, -, hchain, hreads, hall, rfl⟩ :=
          (readsItems_and_readsArguments s.budget).2 hargs
        obtain ⟨es, hlength', hes, hinner, hoperations⟩ := Outline.exists_outlines_of_chain hchain
          (fun a ha => Outline.exists_compiles_of_reading (hreads a ha) (hall a ha).1
            (hall a ha).2.2)
        exact ⟨es, p', hlength'.trans hlength, hes, hinner, by simp [hoperations]⟩
    refine ⟨f, es, q, hf, hlength, hes, ?_, rfl, by simp [goto_eq_reach]⟩
    apply Position.reads_cons_iff.mpr
    refine ⟨hopen, by simp, p, hp, hinner.append ?_⟩
    apply Position.reads_singleton_iff.mpr ⟨hclose, by simp, hq⟩
  · rintro ⟨f, es, q, hf, hlength, hes, hreads, rfl, rfl⟩
    obtain ⟨opening, -, p, hp, hreads⟩ := Position.reads_cons_iff.mp hreads
    obtain ⟨p', hinner, hreads⟩ := Position.reads_append_iff.mp hreads
    obtain ⟨closing, -, hq⟩ := Position.reads_singleton_iff.mp hreads
    obtain ⟨args, hchain, hlength', hreadings, hcompiles, hcode⟩ :=
      Outline.exists_arguments_of_compiles
        (fun e he _ _ hreads hstops => Outline.exists_reading_of_compiles (hes e he)
          Yard.bare_empty hreads hstops) hinner closing
    have hlower := Position.next?_bound (by simp [opening]) hp
    have hbudget := s.bound_position_lt_budget
    have hcall := run_callWith_of_chain location hf opening hp hchain hreadings hcompiles
      (fun a ha => completesItems_of_reading (hreadings a ha)) closing hq (hlength'.trans hlength)
      (show p.bound + 1 < s.budget by omega)
    rw [hcode, goto_eq_reach] at hcall
    exact hcall

end Pass

/-! ### Acceptance -/

/-- A condition on an expression in a program, which may depend on the visible names, on the place
where its value is wanted and on the token that follows it. -/
abbrev Acceptance :=
  SymbolTable → Slot → Token → Outline → Prop

namespace Outline

/-- An expression is accepted if a pass that reads its tokens as an expression succeeds, stops right
after them, before the given token, and has then written the operations of the expression. -/
def Accepted (registers : Nat) : Acceptance := fun T slot follower e =>
  ∃ (s : Pass) (q : Position), s.symbols = T ∧ s.registers = registers ∧
    s.position.Reads e.tokens q ∧ q.lookahead.value = follower ∧
    s.run (PassM.expression slot) = (.ok (), s.reach q T (e.operations.map .operation))

/-- The outline is one of an expression that compiles, before a token at which reading stops. -/
def Compiled (registers : Nat) : Acceptance := fun T slot follower e =>
  e.Compiles T registers slot .empty ∧ Yard.empty.Stops follower

/-- A condition is exact if it holds of every outline that compiles, and only of outlines with the
tokens and operations of one that compiles. -/
structure Exact (registers : Nat) (A : Acceptance) : Prop where
  of_compiled {T : SymbolTable} {slot : Slot} {follower : Token} {e : Outline} :
    e.Compiled registers T slot follower → A T slot follower e
  exists_compiled {T : SymbolTable} {slot : Slot} {follower : Token} {e : Outline} :
    A T slot follower e →
      ∃ e' : Outline, e'.Compiled registers T slot follower ∧ e'.tokens = e.tokens ∧
        e'.operations = e.operations

theorem exact_compiled (registers : Nat) :
  Exact registers (Compiled registers)
  := by
  constructor
  · intro T slot follower e he
    exact he
  · intro T slot follower e he
    exact ⟨e, he, rfl, rfl⟩

/-- There is a pass that stands before any tokens, with any visible names. -/
theorem exists_reads {tokens : List Token} (h : ∀ t ∈ tokens, t ≠ .eof) (follower : Token)
    (T : SymbolTable) (registers : Nat) :
  ∃ (s : Pass) (q : Position), s.symbols = T ∧ s.registers = registers ∧
    s.position.Reads tokens q ∧ q.lookahead.value = follower
  := by
  let here (t : Token) : Located Token := ⟨t, .start⟩
  let p := Position.ofTokens (tokens.map here ++ [here follower]) .start
  have hpasses : p.Passes (tokens.map here) (.ofTokens [here follower] .start) := by
    apply Position.passes_ofTokens
    intro t ht
    obtain ⟨token, htoken, rfl⟩ := List.mem_map.mp ht
    apply h token htoken
  refine ⟨⟨p.lookahead, p.stream, T, .empty, registers⟩, _, rfl, rfl, ⟨_, hpasses, ?_⟩, rfl⟩
  rw [List.map_map]
  apply List.map_id

theorem exact_accepted (registers : Nat) :
  Exact registers (Accepted registers)
  := by
  constructor
  · rintro T slot follower e ⟨he, hstops⟩
    obtain ⟨s, q, rfl, rfl, hreads, rfl⟩ := exists_reads he.token_ne_eof follower T registers
    refine ⟨s, q, rfl, rfl, hreads, rfl, ?_⟩
    apply Pass.run_expression_eq_ok_iff_compiles.mpr ⟨e, q, he, hreads, hstops, rfl⟩
  · rintro T slot follower e ⟨s, q, rfl, rfl, hreads, rfl, hrun⟩
    obtain ⟨e', q', he', hreads', hstops, hstate⟩ :=
      Pass.run_expression_eq_ok_iff_compiles.mp hrun
    obtain rfl : q = q' := congrArg Pass.position hstate
    have hlisting := congrArg (fun t => t.listing.toList) hstate
    simp only [Pass.reach, Listing.toList_append, List.append_cancel_left_eq] at hlisting
    refine ⟨e', ⟨he', hstops⟩, hreads'.unique hreads, ?_⟩
    apply (List.map_inj_right fun _ _ h => Entry.operation.inj h).mp hlisting.symm

end Outline

namespace Pass

open PassM

/-- An expression compiles exactly if it meets an exact condition. -/
theorem run_expression_eq_ok_iff_of_exact {s t : Pass} {A : Acceptance}
    (hA : Outline.Exact s.registers A) {slot : Slot} {u : Unit} :
  s.run (expression slot) = (.ok u, t) ↔
    ∃ (e : Outline) (q : Position), A s.symbols slot q.lookahead.value e ∧
      s.position.Reads e.tokens q ∧ t = s.reach q s.symbols (e.operations.map .operation)
  := by
  rw [run_expression_eq_ok_iff_compiles]
  constructor
  · rintro ⟨e, q, he, hreads, hstops, rfl⟩
    exact ⟨e, q, hA.of_compiled ⟨he, hstops⟩, hreads, rfl⟩
  · rintro ⟨e, q, he, hreads, rfl⟩
    obtain ⟨e', ⟨he', hstops⟩, htokens, hoperations⟩ := hA.exists_compiled he
    rw [← htokens] at hreads
    rw [← hoperations]
    exact ⟨e', q, he', hreads, hstops, rfl⟩

end Pass

end SilFront
