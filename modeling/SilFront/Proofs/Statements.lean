import SilFront.Proofs.Construct

/-!
# Reading statements

A construct takes a pass from one state to another (`Construct.Takes`) if it keeps the static rules,
its tokens stand between the two states, and what is to be written for it is written. The statements
that have no blocks in them are read exactly if such a construct takes the pass to the state that is
reached.
-/

namespace SilFront

/-! ### Tables of names -/

namespace SymbolTable

/-- A table is changed by a declaration exactly if the declared name is free. -/
theorem ensureFree_bind_eq_ok_iff {T T' T'' : SymbolTable} {kind : SymbolKind} {name : String} :
  (do T.ensureFree kind name; return T') = .ok T'' ↔ T.kind? name = none ∧ T'' = T'
  := by
  unfold ensureFree
  cases T.kind? name with
  | none => simp [bind, Except.bind, pure, Except.pure, eq_comm]
  | some existing => by_cases h : existing = kind <;> simp [h, bind, Except.bind]

theorem declareVariable_eq_ok_iff {T T' : SymbolTable} {name : String} {type : DataType} :
  T.declareVariable name type = .ok T' ↔ T.kind? name = none ∧ T' = T.withVariable name type
  := ensureFree_bind_eq_ok_iff

@[simp]
theorem depth_withVariable (T : SymbolTable) (name : String) (type : DataType) :
  (T.withVariable name type).depth = T.depth
  := depth_addVariable ..

/-- A variable that is declared in a scope is forgotten with the scope. -/
theorem exit_withVariable {T : SymbolTable} (h : 0 < T.depth) (name : String) (type : DataType) :
  (T.withVariable name type).exit = T.exit
  := by
  obtain ⟨globals, _ | ⟨block, blocks⟩, functions, packages⟩ := T
  · cases h
  · rfl

end SymbolTable

namespace Construct.Checks

variable {A : Acceptance} {f : Enclosing} {k : Part} {T T' : SymbolTable} {c : Construct k}

theorem depth_eq (h : c.Checks A f T T') :
  T'.depth = T.depth
  := by
  induction h with
  | scalar => apply SymbolTable.depth_withVariable
  | record => apply SymbolTable.depth_withVariable
  | more _ _ ih ih' => apply ih'.trans ih
  | _ => rfl

theorem exit_eq (h : c.Checks A f T T') :
  0 < T.depth → T'.exit = T.exit
  := by
  induction h with
  | scalar =>
    intro hdepth
    apply SymbolTable.exit_withVariable hdepth
  | record =>
    intro hdepth
    apply SymbolTable.exit_withVariable hdepth
  | more first _ ih ih' =>
    intro hdepth
    rw [ih' (by rwa [first.depth_eq]), ih hdepth]
  | _ =>
    intro _
    rfl

/-- The alternatives of a branch leave the table as it is. -/
theorem eq_of_alternatives {c : Construct .alternatives} (h : c.Checks A f T T') :
  T' = T
  := by
  cases h <;> rfl

/-- A block changes nothing outside of it. -/
theorem exit_of_enter {b : Construct .body} (h : b.Checks A f T.enter T') :
  T'.exit = T
  := h.exit_eq (Nat.succ_pos _)

end Construct.Checks

/-! ### First tokens and what may follow -/

/-- An expression that compiles begins with a token at which reading does not stop. -/
theorem Outline.Compiles.exists_tokens_eq_cons {T : SymbolTable} {registers : Nat} {slot : Slot}
    {e : Outline} (h : e.Compiles T registers slot .empty) :
  ∃ t rest, e.tokens = t :: rest ∧ ¬ Yard.empty.Stops t
  := by
  cases h with
  | done _ compiles => exact absurd rfl (Expression.ne_nil_of_compile compiles)
  | @token _ _ _ token rest next _ =>
    refine ⟨token, rest.tokens, rfl, ?_⟩
    intro hstops
    obtain ⟨hoperand, -⟩ | ⟨hopen, -⟩ | ⟨-, hunclosed, -⟩ | ⟨op, hop, -⟩ :=
      Yard.next?_eq_some_iff.mp next
    · apply hstops.not_isOperand T hoperand
    · apply hstops.ne_lparen hopen
    · apply hunclosed rfl
    · rw [hstops.operator?_eq_none] at hop
      cases hop
  | @call _ _ name _ arguments rest =>
    exact ⟨.ident name, _, rfl, fun hstops => hstops⟩

/-- What is accepted as an expression does not begin with a token at which reading stops. -/
theorem Outline.Exact.lookahead_ne {registers : Nat} {A : Acceptance} (hA : Exact registers A)
    {T : SymbolTable} {slot : Slot} {follower token : Token} {e : Outline} {p q : Position}
    (h : A T slot follower e) (hreads : p.Reads e.tokens q) (hstops : Yard.empty.Stops token) :
  p.lookahead.value ≠ token
  := by
  obtain ⟨e', ⟨he', -⟩, htokens, -⟩ := hA.exists_compiled h
  obtain ⟨t, rest, ht, hstop⟩ := he'.exists_tokens_eq_cons
  rw [← htokens, ht] at hreads
  rw [hreads.lookahead]
  rintro rfl
  apply hstop hstops

theorem ScalarType.token_ne_eof (type : ScalarType) :
  type.token ≠ .eof
  := by
  cases type <;> simp [token]

namespace Construct

/-- A statement begins with a token that neither ends a body nor continues a branch. -/
theorem exists_tokens_eq_cons (c : Construct .statement) :
  ∃ t rest, c.tokens = t :: rest ∧ t ≠ .mark .rbrace ∧ t ≠ .eof ∧ t ≠ .keyword .elseWord
  := by
  cases c with
  | scalar type name value =>
    refine ⟨type.token, _, rfl, ?_⟩
    cases type <;> simp [ScalarType.token]
  | _ => exact ⟨_, _, rfl, by simp⟩

theorem lookahead_ne_elseWord {b : Construct .body} {p q : Position} (h : p.Reads b.tokens q) :
  p.lookahead.value ≠ .keyword .elseWord
  := by
  cases b with
  | close =>
    rw [h.lookahead]
    simp
  | more first rest =>
    obtain ⟨t, ts, ht, -, -, hne⟩ := first.exists_tokens_eq_cons
    rw [tokens, ht] at h
    rwa [h.lookahead]

/-- A token may follow a construct if it does not continue it: a branch that has no last alternative
is not followed by another one. -/
def MayPrecede (follower : Token) : {k : Part} → Construct k → Prop
  | _, .branch _ _ rest => rest.MayPrecede follower
  | _, .elseIf _ _ rest => rest.MayPrecede follower
  | _, .done => follower ≠ .keyword .elseWord
  | _, _ => True

theorem mayPrecede_of_ne {follower : Token} (h : follower ≠ .keyword .elseWord) {k : Part}
    (c : Construct k) :
  c.MayPrecede follower
  := by
  induction c with
  | branch _ _ _ _ ih => exact ih
  | elseIf _ _ _ _ ih => exact ih
  | done => exact h
  | _ => trivial

end Construct

/-- A construct takes a pass from a state to another one if it keeps the static rules, its tokens
stand between the two, nothing continues it, and what is to be written for it is written. -/
def Construct.Takes (A : Acceptance) (f : Enclosing) {k : Part} (s : Pass) (c : Construct k)
    (t : Pass) : Prop :=
  ∃ (T : SymbolTable) (q : Position), c.Checks A f s.symbols T ∧ s.position.Reads c.tokens q ∧
    c.MayPrecede q.lookahead.value ∧ t = s.reach q T (Section.all (c.sections f s.symbols.depth))

namespace Outline.Exact

variable {registers : Nat} {A : Acceptance} {T : SymbolTable}

theorem arguments_of_compiles (hA : Exact registers A) :
  ∀ {es : List Outline}, (∀ e ∈ es, e.Compiles T registers .stack .empty) → Arguments A T es
  | [], _ => trivial
  | [e], h => hA.of_compiled ⟨h e List.mem_cons_self, rfl⟩
  | e :: e' :: es, h => by
      obtain ⟨hfirst, hrest⟩ := List.forall_mem_cons.mp h
      exact ⟨hA.of_compiled ⟨hfirst, rfl⟩, hA.arguments_of_compiles hrest⟩

theorem exists_compiles_of_arguments (hA : Exact registers A) :
  ∀ {es : List Outline}, Arguments A T es →
    ∃ es' : List Outline, (∀ e ∈ es', e.Compiles T registers .stack .empty) ∧
      es'.length = es.length ∧ tokensOf es' = tokensOf es ∧ operationsOf es' = operationsOf es
  | [], _ => ⟨[], by simp, rfl, rfl, rfl⟩
  | [e], h => by
      obtain ⟨e', ⟨he', -⟩, htokens, hoperations⟩ := hA.exists_compiled h
      exact ⟨[e'], List.forall_mem_singleton.mpr he', rfl, htokens,
        by simp [operationsOf, hoperations]⟩
  | e :: d :: es, ⟨hfirst, hrest⟩ => by
      obtain ⟨e', ⟨he', -⟩, htokens, hoperations⟩ := hA.exists_compiled hfirst
      obtain ⟨_ | ⟨d', es'⟩, hes', hlength, htokens', hoperations'⟩ :=
        hA.exists_compiles_of_arguments hrest
      · cases hlength
      · refine ⟨e' :: d' :: es', List.forall_mem_cons.mpr ⟨he', hes'⟩, by simpa using hlength,
          ?_, ?_⟩
        · rw [tokensOf, tokensOf, htokens, htokens']
        · rw [operationsOf, hoperations, hoperations']
          rfl

end Outline.Exact

namespace Pass

open PassM

section

variable {registers : Nat} {A : Acceptance} (hA : Outline.Exact registers A) {s t : Pass}
  (hs : s.registers = registers)

include hA hs

/-! ### Expressions and calls -/

theorem run_expression_bind_eq_ok_iff {β : Type} {slot : Slot} {second : Unit → PassM β} {b : β} :
  s.run (expression slot >>= second) = (.ok b, t) ↔
    ∃ (e : Outline) (q : Position), A s.symbols slot q.lookahead.value e ∧
      s.position.Reads e.tokens q ∧
      (s.reach q s.symbols (Section.expression e).entries).run (second ()) = (.ok b, t)
  := by
  subst hs
  rw [run_bind_eq_ok_iff]
  simp only [run_expression_eq_ok_iff_of_exact hA]
  constructor
  · rintro ⟨_, _, ⟨e, q, he, hreads, rfl⟩, h⟩
    exact ⟨e, q, he, hreads, h⟩
  · rintro ⟨e, q, he, hreads, h⟩
    exact ⟨(), _, ⟨e, q, he, hreads, rfl⟩, h⟩

/-- An expression is read with the mark after it. -/
theorem run_expression_expect_bind_eq_ok_iff {β : Type} {slot : Slot} {mark : Mark} {place : Place}
    {second : Unit → PassM β} {b : β} :
  s.run (expression slot >>= fun _ => expect mark place >>= second) = (.ok b, t) ↔
    ∃ (e : Outline) (q : Position), A s.symbols slot (.mark mark) e ∧
      s.position.Reads (e.tokens ++ [.mark mark]) q ∧
      (s.reach q s.symbols (Section.expression e).entries).run (second ()) = (.ok b, t)
  := by
  simp only [run_expression_bind_eq_ok_iff hA hs, run_expect_bind_eq_ok_iff, position_reach,
    symbols_reach, reach_reach, List.append_nil]
  constructor
  · rintro ⟨e, p, he, hreads, q, hmark, h⟩
    rw [hmark.lookahead] at he
    exact ⟨e, q, he, hreads.append hmark, h⟩
  · rintro ⟨e, q, he, hreads, h⟩
    obtain ⟨p, hreads, hmark⟩ := Position.reads_append_iff.mp hreads
    rw [← hmark.lookahead] at he
    exact ⟨e, p, he, hreads, q, hmark, h⟩

/-- A condition is an expression in parentheses. -/
theorem run_condition_bind_eq_ok_iff {β : Type} {head : Branch} {second : Unit → PassM β} {b : β} :
  s.run (condition head >>= second) = (.ok b, t) ↔
    ∃ (e : Outline) (q : Position), A s.symbols .register (.mark .rparen) e ∧
      s.position.Reads (conditionTokens e) q ∧
      (s.reach q s.symbols (Section.expression e).entries).run (second ()) = (.ok b, t)
  := by
  simp only [condition, bind_assoc, run_expect_bind_eq_ok_iff,
    run_expression_expect_bind_eq_ok_iff hA (registers_reach_of_eq hs),
    position_reach, symbols_reach, reach_reach, List.nil_append]
  constructor
  · rintro ⟨p, hopen, e, q, he, hreads, h⟩
    exact ⟨e, q, he, hopen.append hreads, h⟩
  · rintro ⟨e, q, he, hreads, h⟩
    obtain ⟨p, hopen, hreads⟩ := Position.reads_cons_iff_exists.mp hreads
    exact ⟨p, hopen, e, q, he, hreads, h⟩

/-- A call succeeds exactly if its arguments are accepted and are as many as its function takes. -/
theorem run_callStatement_eq_ok_iff {function : Located String} {u : Unit} :
  s.run (callStatement function) = (.ok u, t) ↔
    ∃ (g : Function) (es : List Outline) (q : Position),
      s.symbols.functionNamed? function.value = some g ∧ es.length = g.arity ∧
      Outline.Arguments A s.symbols es ∧
      s.position.Reads
        (.mark .lparen :: (Outline.tokensOf es ++ [.mark .rparen, .mark .semicolon])) q ∧
      t = s.reach q s.symbols (Section.call function.value es).entries
  := by
  subst hs
  simp only [callStatement, run_bind_eq_ok_iff, run_call_eq_ok_iff_compiles,
    run_expect_eq_ok_iff_reads]
  constructor
  · rintro ⟨_, _, ⟨g, es, p, hg, harity, hes, hreads, rfl, rfl⟩, q, hend, rfl⟩
    refine ⟨g, es, q, hg, harity, hA.arguments_of_compiles hes, ?_, by simp [Section.entries]⟩
    simpa using hreads.append hend
  · rintro ⟨g, es, q, hg, harity, hes, hreads, rfl⟩
    obtain ⟨es', hes', hlength, htokens, hoperations⟩ := hA.exists_compiles_of_arguments hes
    rw [← htokens, List.append_cons, ← List.cons_append] at hreads
    obtain ⟨p, hreads, hend⟩ := Position.reads_append_iff.mp hreads
    refine ⟨_, _, ⟨g, es', p, hg, hlength.trans harity, hes', hreads, rfl, rfl⟩, q, hend, ?_⟩
    simp [Section.entries, hoperations]

/-! ### Variables -/

omit hA hs in
theorem run_declareVariable_eq_ok_iff {name : Located String} {type : DataType}
    {initialized : Bool} {u : Unit} :
  s.run (declareVariable name type initialized) = (.ok u, t) ↔
    s.symbols.kind? name.value = none ∧ ∃ q, s.position.Reads [.mark .semicolon] q ∧
      t = s.reach q (s.symbols.withVariable name.value type)
        [.note (.variableDeclared name.value type s.symbols.depth initialized)]
  := by
  simp only [declareVariable, run_declare_bind_eq_ok_iff, SymbolTable.declareVariable_eq_ok_iff,
    run_depth_bind, run_note_bind, run_expect_eq_ok_iff_reads, position_reach, symbols_reach,
    reach_reach, List.append_nil, List.nil_append]
  constructor
  · rintro ⟨T, ⟨hfree, rfl⟩, q, hend, rfl⟩
    exact ⟨hfree, q, hend, by simp⟩
  · rintro ⟨hfree, q, hend, rfl⟩
    exact ⟨_, ⟨hfree, rfl⟩, q, hend, by simp⟩

/-- A scalar variable is declared if an expression that initializes it is accepted, and its name is
free. -/
theorem run_scalarVariable_eq_ok_iff {type : ScalarType} (h : s.lookahead.value = type.token)
    {u : Unit} :
  s.run (scalarVariable type) = (.ok u, t) ↔
    ∃ (name : String) (value : Option Outline) (q : Position),
      (∀ e ∈ value, A s.symbols .register (.mark .semicolon) e) ∧ s.symbols.kind? name = none ∧
      s.position.Reads (variableTokens type name value) q ∧
      t = s.reach q (s.symbols.withVariable name (.scalar type))
        (Section.all (variableSections s.symbols.depth type name value))
  := by
  simp only [scalarVariable, run_advance_bind_eq_ok_iff_reads h type.token_ne_eof,
    run_identifier_bind_eq_ok_iff,
    run_accept_bind_eq_ok_iff (show Token.mark .eq ≠ .eof by simp), if_true, if_false,
    Bool.false_eq_true, run_declareVariable_eq_ok_iff,
    run_expression_bind_eq_ok_iff hA (registers_reach_of_eq hs),
    position_reach, symbols_reach, reach_reach, List.nil_append, lookahead_reach]
  constructor
  · rintro ⟨p₁, htype, name, p₂, hname, ⟨p₃, heq, e, p₄, he, hreads, hfree, q, hend, rfl⟩ |
      ⟨-, hfree, q, hend, rfl⟩⟩
    · rw [hend.lookahead] at he
      refine ⟨name, some e, q, by simpa using he, hfree, ?_,
        by simp [variableSections, Section.entries]⟩
      apply htype.append (hname.append (heq.append hreads |>.append hend))
    · refine ⟨name, none, q, by simp, hfree, ?_, by simp [variableSections, Section.entries]⟩
      apply htype.append (hname.append hend)
  · rintro ⟨name, value, q, hvalue, hfree, hreads, rfl⟩
    obtain ⟨p₁, htype, hreads⟩ := Position.reads_cons_iff_exists.mp hreads
    obtain ⟨p₂, hname, hreads⟩ := Position.reads_cons_iff_exists.mp hreads
    obtain ⟨p₄, hreads, hend⟩ := Position.reads_append_iff.mp hreads
    refine ⟨p₁, htype, name, p₂, hname, ?_⟩
    cases value with
    | none =>
      obtain rfl := Position.reads_nil_iff.mp hreads
      refine .inr ⟨?_, hfree, q, hend, by simp [variableSections, Section.entries]⟩
      rw [hend.lookahead]
      simp
    | some e =>
      have he := hvalue e rfl
      rw [← hend.lookahead] at he
      obtain ⟨p₃, heq, hreads⟩ := Position.reads_cons_iff_exists.mp hreads
      exact .inl ⟨p₃, heq, e, p₄, he, hreads, hfree, q, hend,
        by simp [variableSections, Section.entries]⟩

omit hA hs in
/-- A record is declared if its package is declared and its name is free. -/
theorem run_recordVariable_eq_ok_iff {package name : Located String}
    (h : s.lookahead.value = .ident name.value) {u : Unit} :
  s.run (recordVariable package name) = (.ok u, t) ↔
    ∃ (p : Package) (q : Position), s.symbols.packageNamed? package.value = some p ∧
      s.symbols.kind? name.value = none ∧
      s.position.Reads [.ident name.value, .mark .semicolon] q ∧
      t = s.reach q (s.symbols.withVariable name.value (.record package.value))
        [.note (.variableDeclared name.value (.record package.value) s.symbols.depth false)]
  := by
  simp only [recordVariable, run_symbols_bind]
  cases s.symbols.packageNamed? package.value with
  | none => simp
  | some p =>
    simp only [Option.isNone_some, Bool.false_eq_true, if_false,
      run_advance_bind_eq_ok_iff_reads h (by simp), run_declareVariable_eq_ok_iff, position_reach,
      symbols_reach, reach_reach, List.nil_append]
    constructor
    · rintro ⟨p₁, hname, hfree, q, hend, rfl⟩
      exact ⟨p, q, rfl, hfree, hname.append hend, rfl⟩
    · rintro ⟨_, q, -, hfree, hreads, rfl⟩
      obtain ⟨p₁, hname, hend⟩ := Position.reads_cons_iff_exists.mp hreads
      exact ⟨p₁, hname, hfree, q, hend, rfl⟩

/-- An assignment changes a visible variable. -/
theorem run_assignment_eq_ok_iff {target : Located String} (h : s.lookahead.value = .mark .eq)
    {u : Unit} :
  s.run (assignment target) = (.ok u, t) ↔
    ∃ (e : Outline) (q : Position), s.symbols.kind? target.value = some .variable ∧
      A s.symbols .register (.mark .semicolon) e ∧
      s.position.Reads (.mark .eq :: (e.tokens ++ [.mark .semicolon])) q ∧
      t = s.reach q s.symbols
        (Section.all [.expression e, .note (.assigned target.value)])
  := by
  simp only [assignment, run_symbols_bind]
  by_cases hkind : s.symbols.kind? target.value = some .variable
  · simp only [hkind, ne_eq, not_true_eq_false, if_false, true_and,
      run_advance_bind_eq_ok_iff_reads h (show Token.mark .eq ≠ .eof by simp),
      run_expression_expect_bind_eq_ok_iff hA (registers_reach_of_eq hs),
      run_note_eq_ok_iff, position_reach, symbols_reach, reach_reach, List.nil_append]
    constructor
    · rintro ⟨p, heq, e, q, he, hreads, rfl⟩
      exact ⟨e, q, he, heq.append hreads, by simp [Section.entries]⟩
    · rintro ⟨e, q, he, hreads, rfl⟩
      obtain ⟨p, heq, hreads⟩ := Position.reads_cons_iff_exists.mp hreads
      exact ⟨p, heq, e, q, he, hreads, by simp [Section.entries]⟩
  · simp [hkind]

/-! ### Statements without blocks -/

theorem run_scalarVariable_eq_ok_iff_takes {f : Enclosing} {type : ScalarType}
    (h : s.lookahead.value = type.token) {u : Unit} :
  s.run (scalarVariable type) = (.ok u, t) ↔
    ∃ name value, (Construct.scalar type name value).Takes A f s t
  := by
  rw [run_scalarVariable_eq_ok_iff hA hs h]
  constructor
  · rintro ⟨name, value, q, hvalue, hfree, hreads, rfl⟩
    exact ⟨name, value, _, q, .scalar hvalue hfree, hreads, trivial, rfl⟩
  · rintro ⟨name, value, T, q, hchecks, hreads, -, rfl⟩
    cases hchecks with
    | scalar hvalue hfree => exact ⟨name, value, q, hvalue, hfree, hreads, rfl⟩

/-- A statement that begins with a name is an assignment, a call or a record. -/
theorem run_namedStatement_eq_ok_iff {f : Enclosing} {name : Located String}
    (h : s.lookahead.value = .ident name.value) {u : Unit} :
  s.run (namedStatement name) = (.ok u, t) ↔
    (∃ e, (Construct.assignment name.value e).Takes A f s t) ∨
    (∃ es, (Construct.call name.value es).Takes A f s t) ∨
    ∃ record, (Construct.record name.value record).Takes A f s t
  := by
  simp only [namedStatement, run_advance_bind_eq_ok_iff_reads h (by simp), run_peek_bind,
    lookahead_reach]
  constructor
  · rintro ⟨p, hname, hrun⟩
    split at hrun
    · rename_i heq
      obtain ⟨e, q, hkind, he, hreads, rfl⟩ := (run_assignment_eq_ok_iff hA
        (registers_reach_of_eq hs) heq).mp hrun
      refine .inl ⟨e, _, q, .assignment hkind he, hname.append hreads, trivial, ?_⟩
      simp [Construct.sections]
    · obtain ⟨g, es, q, hg, harity, hes, hreads, rfl⟩ := (run_callStatement_eq_ok_iff hA
        (registers_reach_of_eq hs)).mp hrun
      refine .inr (.inl ⟨es, _, q, .call hg harity hes, hname.append hreads, trivial, ?_⟩)
      simp [Construct.sections]
    · rename_i record hrecord
      obtain ⟨p, q, hp, hfree, hreads, rfl⟩ := (run_recordVariable_eq_ok_iff hrecord).mp hrun
      refine .inr (.inr ⟨record, _, q, .record hp hfree, hname.append hreads, trivial, ?_⟩)
      simp [Construct.sections, Section.entries]
    · cases hrun
  · rintro (⟨e, T, q, hchecks, hreads, -, rfl⟩ | ⟨es, T, q, hchecks, hreads, -, rfl⟩ |
      ⟨record, T, q, hchecks, hreads, -, rfl⟩)
    · obtain ⟨p, hname, hreads⟩ := Position.reads_cons_iff_exists.mp hreads
      refine ⟨p, hname, ?_⟩
      simp only [hreads.lookahead]
      cases hchecks with
      | assignment hkind he =>
        apply (run_assignment_eq_ok_iff hA (registers_reach_of_eq hs) hreads.lookahead).mpr
        exact ⟨e, q, hkind, he, hreads, by simp [Construct.sections]⟩
    · obtain ⟨p, hname, hreads⟩ := Position.reads_cons_iff_exists.mp hreads
      refine ⟨p, hname, ?_⟩
      simp only [hreads.lookahead]
      cases hchecks with
      | call hg harity hes =>
        apply (run_callStatement_eq_ok_iff hA (registers_reach_of_eq hs)).mpr
        exact ⟨_, es, q, hg, harity, hes, hreads, by simp [Construct.sections]⟩
    · obtain ⟨p, hname, hreads⟩ := Position.reads_cons_iff_exists.mp hreads
      refine ⟨p, hname, ?_⟩
      simp only [hreads.lookahead]
      cases hchecks with
      | record hp hfree =>
        apply (run_recordVariable_eq_ok_iff hreads.lookahead).mpr
        exact ⟨_, q, hp, hfree, hreads, by simp [Construct.sections, Section.entries]⟩

/-- A return has a value only if the function returns one. -/
theorem run_returnStatement_eq_ok_iff {f : Enclosing}
    (h : s.lookahead.value = .keyword .returnWord) {u : Unit} :
  s.run (returnStatement f) = (.ok u, t) ↔
    ∃ value, (Construct.returning value).Takes A f s t
  := by
  simp only [returnStatement,
    run_advance_bind_eq_ok_iff_reads h (show Token.keyword .returnWord ≠ .eof by simp),
    run_accept_bind_eq_ok_iff (show Token.mark .semicolon ≠ .eof by simp), if_true, if_false,
    Bool.false_eq_true, run_note_eq_ok_iff, position_reach, symbols_reach, reach_reach,
    List.nil_append, lookahead_reach]
  constructor
  · rintro ⟨p, hword, ⟨q, hend, rfl⟩ | ⟨-, hvalue⟩⟩
    · refine ⟨none, _, q, .returning (by simp), hword.append hend, trivial, ?_⟩
      simp [Construct.sections, Section.entries]
    · by_cases hvoid : f.returns = .void
      · simp [hvoid] at hvalue
      · rw [if_neg hvoid, run_expression_expect_bind_eq_ok_iff hA
          (registers_reach_of_eq hs)] at hvalue
        obtain ⟨e, q, he, hreads, hnote⟩ := hvalue
        obtain rfl := run_note_eq_ok_iff.mp hnote
        refine ⟨some e, _, q, .returning ?_, hword.append hreads, trivial, ?_⟩
        · rintro e' ⟨⟩
          exact ⟨hvoid, he⟩
        · simp [Construct.sections, Section.entries]
  · rintro ⟨value, T, q, hchecks, hreads, -, rfl⟩
    obtain ⟨p, hword, hreads⟩ := Position.reads_cons_iff_exists.mp hreads
    refine ⟨p, hword, ?_⟩
    cases hchecks with
    | returning hvalue =>
      cases value with
      | none => exact .inl ⟨q, hreads, by simp [Construct.sections, Section.entries]⟩
      | some e =>
        obtain ⟨hvoid, he⟩ := hvalue e rfl
        refine .inr ⟨?_, ?_⟩
        · obtain ⟨p', hreads, -⟩ := Position.reads_append_iff.mp hreads
          apply hA.lookahead_ne he hreads
          rfl
        · rw [if_neg hvoid,
            run_expression_expect_bind_eq_ok_iff hA (registers_reach_of_eq hs)]
          exact ⟨e, q, he, hreads, by simp [Construct.sections, Section.entries]⟩

end

end Pass

end SilFront
