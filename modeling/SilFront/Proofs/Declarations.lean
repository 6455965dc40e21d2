import SilFront.Proofs.Bodies
import SilFront.Proofs.Sequences

/-!
# Reading declarations

A pass reads a function, a package or a global variable exactly if a declaration takes it to the
state that is reached (`Pass.run_declaration_eq_ok_iff`).

A function is entered into the table when its name is read, and its arguments and its result are
filled in as they are read, while the static rules speak of the whole function from the beginning.
The two agree because what a name denotes depends on the names of the functions only. Packages are
filled in the same way.
-/

namespace SilFront

/-! ### Functions that are filled in -/

namespace SymbolTable

variable {T : SymbolTable} {g : Function} {p : Package}

/-- A name is free if it denotes neither a variable nor a function nor a package. -/
theorem kind?_eq_none_iff {name : String} :
  T.kind? name = none ↔
    T.variableNamed? name = none ∧ T.functionNamed? name = none ∧ T.packageNamed? name = none
  := by
  unfold kind?
  cases T.variableNamed? name <;> cases T.functionNamed? name <;> cases T.packageNamed? name <;>
    simp

@[simp]
theorem depth_addFunction (T : SymbolTable) (g : Function) :
  (T.addFunction g).depth = T.depth
  := rfl

@[simp]
theorem functionNamed?_withVariable (T : SymbolTable) (x : String) (type : DataType)
    (name : String) :
  (T.withVariable x type).functionNamed? name = T.functionNamed? name
  := by
  obtain ⟨globals, _ | ⟨block, blocks⟩, functions, packages⟩ := T <;> rfl

/-- A function and a variable may be declared in either order. -/
theorem withVariable_addFunction (T : SymbolTable) (g : Function) (name : String)
    (type : DataType) :
  (T.addFunction g).withVariable name type = (T.withVariable name type).addFunction g
  := by
  obtain ⟨globals, _ | ⟨block, blocks⟩, functions, packages⟩ := T <;> rfl

/-- A function and its arguments may be declared in either order. -/
theorem withParameters_addFunction (T : SymbolTable) (g : Function) (items : List TypedName) :
  (T.addFunction g).withParameters items = (T.withParameters items).addFunction g
  := by
  induction items generalizing T with
  | nil => rfl
  | cons item items ih =>
    rw [withParameters, List.foldl_cons, withVariable_addFunction]
    apply ih

@[simp]
theorem functionNamed?_withParameters (T : SymbolTable) (items : List TypedName) (name : String) :
  (T.withParameters items).functionNamed? name = T.functionNamed? name
  := by
  induction items generalizing T with
  | nil => rfl
  | cons item items ih =>
    rw [withParameters, List.foldl_cons]
    apply (ih _).trans (functionNamed?_withVariable ..)

@[simp]
theorem depth_withParameters (T : SymbolTable) (items : List TypedName) :
  (T.withParameters items).depth = T.depth
  := by
  induction items generalizing T with
  | nil => rfl
  | cons item items ih =>
    rw [withParameters, List.foldl_cons]
    apply (ih _).trans (depth_withVariable ..)

/-- Parameters that are declared in a scope are forgotten with the scope. -/
theorem exit_withParameters {T : SymbolTable} (h : 0 < T.depth) (items : List TypedName) :
  (T.withParameters items).exit = T.exit
  := by
  induction items generalizing T with
  | nil => rfl
  | cons item items ih =>
    rw [withParameters, List.foldl_cons]
    apply (ih (by rwa [depth_withVariable])).trans (exit_withVariable h ..)

/-- What a name denotes depends on the name of the last function only. -/
theorem kind?_addFunction_congr {g' : Function} (h : g.name = g'.name) (name : String) :
  (T.addFunction g).kind? name = (T.addFunction g').kind? name
  := by
  have hfind : ((T.addFunction g).functionNamed? name).isSome =
      ((T.addFunction g').functionNamed? name).isSome := by
    simp only [functionNamed?, addFunction, List.find?_append, List.find?_singleton, h]
    cases T.functions.find? fun f => decide (f.name = name) <;>
      by_cases hname : g'.name = name <;> simp [hname]
  simp only [kind?, hfind]
  rfl

/-- Whether arguments are free depends on the name of the function only. -/
theorem parametersFree_addFunction_congr {g' : Function} (h : g.name = g'.name)
    {items : List TypedName} :
  (T.addFunction g).ParametersFree items ↔ (T.addFunction g').ParametersFree items
  := by
  induction items generalizing T with
  | nil => rfl
  | cons item items ih =>
    simp only [ParametersFree, kind?_addFunction_congr h, withVariable_addFunction, ih]

/-- The last function is the one with its name, if no other has it. -/
theorem functionNamed?_addFunction (h : T.functionNamed? g.name = none) :
  (T.addFunction g).functionNamed? g.name = some g
  := by
  rw [functionNamed?] at h
  simp [functionNamed?, addFunction, List.find?_append, h]

/-- Only the last function is changed, if no other has its name. -/
theorem updateFunction_addFunction (h : T.functionNamed? g.name = none)
    (change : Function → Function) :
  (T.addFunction g).updateFunction g.name change = .ok (T.addFunction (change g))
  := by
  have hothers := map_ite_of_find?_eq_none h change
  rw [updateFunction, functionNamed?_addFunction h]
  simp only [addFunction, List.map_append, List.map_singleton, if_true, hothers]

/-- An argument is added to the function that was declared last. -/
theorem addArgument_addFunction {V : SymbolTable} {name : String} {arguments : List DataType}
    {returns : ReturnType} (h : V.functionNamed? name = none) (type : DataType) :
  (V.addFunction ⟨name, arguments, returns⟩).addArgument name type =
    .ok (V.addFunction ⟨name, arguments ++ [type], returns⟩)
  := updateFunction_addFunction (g := ⟨name, arguments, returns⟩) h _

/-- The return type is set for the function that was declared last. -/
theorem setReturnType_addFunction {V : SymbolTable} {name : String} {items : List TypedName}
    {returns : ReturnType} (h : V.functionNamed? name = none) (type : ReturnType) :
  (V.addFunction (TypedName.function name items returns)).setReturnType name type =
    .ok (V.addFunction (TypedName.function name items type))
  := updateFunction_addFunction (g := TypedName.function name items returns) h _

/-- A function is declared exactly if its name is free, and returns nothing at first. -/
theorem declareFunction_eq_ok_iff {T' : SymbolTable} {name : String} :
  T.declareFunction name = .ok T' ↔ T.kind? name = none ∧ T' = T.addFunction ⟨name, [], .void⟩
  := ensureFree_bind_eq_ok_iff

/-! ### Packages that are filled in -/

/-- A package is declared exactly if its name is free, and has no fields at first. -/
theorem declarePackage_eq_ok_iff {T' : SymbolTable} {name : String} :
  T.declarePackage name = .ok T' ↔ T.kind? name = none ∧ T' = T.addPackage ⟨name, []⟩
  := ensureFree_bind_eq_ok_iff

/-- The last package is the one with its name, if no other has it. -/
theorem packageNamed?_addPackage (h : T.packageNamed? p.name = none) :
  (T.addPackage p).packageNamed? p.name = some p
  := by
  rw [packageNamed?] at h
  simp [packageNamed?, addPackage, List.find?_append, h]

/-- A field is added to the last package if no other has the name of the package, and the package
has no field with the name of the field. -/
theorem addField_addPackage_eq_ok_iff {T' : SymbolTable} (h : T.packageNamed? p.name = none)
    {field : String} {type : DataType} :
  (T.addPackage p).addField p.name field type = .ok T' ↔
    field ∉ p.fields.map Field.name ∧
      T' = T.addPackage ⟨p.name, p.fields ++ [⟨field, type⟩]⟩
  := by
  have hothers := map_ite_of_find?_eq_none h
    fun p' => { p' with fields := p'.fields ++ [⟨field, type⟩] }
  have hfield : (p.field? field).isSome ↔ field ∈ p.fields.map Field.name := by
    simp [Package.field?, List.find?_isSome]
  rw [addField, packageNamed?_addPackage h]
  by_cases hmem : field ∈ p.fields.map Field.name
  · simp [hfield.mpr hmem, hmem]
  · have hnone : (p.field? field).isSome = false := by
      simpa [hmem] using hfield
    simp only [hnone, hmem, addPackage, Bool.false_eq_true, if_false, List.map_append,
      List.map_singleton, if_true, hothers, not_false_eq_true, true_and, Except.ok.injEq]
    apply eq_comm

end SymbolTable

/-- A declaration takes a pass from a state to another one if it keeps the static rules, its tokens
stand between the two, and what is to be written for it is written. -/
def Declaration.Takes (A : Acceptance) (s : Pass) (d : Declaration) (t : Pass) : Prop :=
  ∃ (T : SymbolTable) (q : Position), d.Checks A s.symbols T ∧ s.position.Reads d.tokens q ∧
    t = s.reach q T (Section.all (d.sections s.symbols.depth))

/-- A declaration has at least one token. -/
theorem Declaration.exists_tokens_eq_cons (d : Declaration) :
  ∃ t rest, d.tokens = t :: rest ∧ t ≠ .eof
  := by
  cases d with
  | global type name value => exact ⟨type.token, _, rfl, type.token_ne_eof⟩
  | _ => exact ⟨_, _, rfl, by simp⟩

/-- A declaration leaves as many scopes open as before. -/
theorem Declaration.Checks.depth_eq {A : Acceptance} {T T' : SymbolTable} {d : Declaration}
    (h : d.Checks A T T') :
  T'.depth = T.depth
  := by
  cases h with
  | global => apply SymbolTable.depth_withVariable
  | _ => rfl

/-- A scalar type is told by its token. -/
theorem ScalarType.ofToken?_eq_some_iff {token : Token} {type : ScalarType} :
  ofToken? token = some type ↔ token = type.token
  := by
  constructor
  · intro h
    unfold ofToken? at h
    split at h <;> cases h <;> rfl
  · rintro rfl
    cases type <;> rfl

theorem ScalarType.token_ne_mark (type : ScalarType) (mark : Mark) :
  type.token ≠ .mark mark
  := by
  cases type <;> simp [token]

/-- Parameters begin with the type of the first one. -/
theorem lookahead_of_reads_parameterTokens {p q : Position} {item : TypedName}
    {items : List TypedName} (h : p.Reads (parameterTokens (item :: items)) q) :
  p.lookahead.value = item.type.token
  := by
  cases items <;> exact h.lookahead

/-- A return type is told by its token. -/
theorem ReturnType.ofToken?_eq_some_iff {token : Token} {type : ReturnType} :
  ofToken? token = some type ↔ token = type.token
  := by
  constructor
  · intro h
    unfold ofToken? at h
    split at h
    · cases h
      rfl
    · obtain ⟨scalar, hscalar, rfl⟩ := Option.map_eq_some_iff.mp h
      apply ScalarType.ofToken?_eq_some_iff.mp hscalar
  · rintro rfl
    rcases type with ⟨_ | _ | _⟩ | _ <;> rfl

theorem ReturnType.token_ne_eof (type : ReturnType) :
  type.token ≠ .eof
  := by
  cases type with
  | scalar type => apply type.token_ne_eof
  | void => simp [token]

namespace Pass

open PassM

section

variable {s t : Pass}

/-! ### Types -/

/-- The token of a type is passed, and the type is answered. -/
theorem run_advance_return_eq_ok_iff {α : Type} {token : Token} (h : s.lookahead.value = token)
    (more : token ≠ .eof) (value : α) {answer : α} :
  s.run (do advance; return value) = (.ok answer, t) ↔
    answer = value ∧ ∃ q, s.position.Reads [token] q ∧ t = s.reach q s.symbols []
  := by
  simp only [run_advance_bind_eq_ok_iff_reads h more, run_pure, Prod.mk.injEq, Except.ok.injEq]
  constructor
  · rintro ⟨q, hreads, rfl, rfl⟩
    exact ⟨rfl, q, hreads, rfl⟩
  · rintro ⟨rfl, q, hreads, rfl⟩
    exact ⟨q, hreads, rfl, rfl⟩

/-- The type of an item is found exactly if its token is read. -/
theorem run_itemType_eq_ok_iff {items : ItemKind} {type : ScalarType} :
  s.run (itemType items) = (.ok type, t) ↔
    ∃ q, s.position.Reads [type.token] q ∧ t = s.reach q s.symbols []
  := by
  rw [itemType, run_peek_bind]
  constructor
  · intro h
    split at h
    · cases h
    · rename_i htype _
      rw [ScalarType.ofToken?_eq_some_iff] at htype
      obtain ⟨rfl, hreads⟩ :=
        (run_advance_return_eq_ok_iff htype (ScalarType.token_ne_eof _) _).mp h
      exact hreads
    · cases h
  · rintro ⟨q, hreads, rfl⟩
    have hvalue : s.lookahead.value = type.token := hreads.lookahead
    have hrun := (run_advance_return_eq_ok_iff hvalue type.token_ne_eof type).mpr
      ⟨rfl, q, hreads, rfl⟩
    rw [hvalue]
    cases type <;> exact hrun

/-- A return type is found exactly if its token is read. -/
theorem run_returnType_eq_ok_iff {type : ReturnType} :
  s.run returnType = (.ok type, t) ↔
    ∃ q, s.position.Reads [type.token] q ∧ t = s.reach q s.symbols []
  := by
  rw [returnType, run_peek_bind]
  constructor
  · intro h
    split at h
    · cases h
    · rename_i htype _
      rw [ReturnType.ofToken?_eq_some_iff] at htype
      obtain ⟨rfl, hreads⟩ :=
        (run_advance_return_eq_ok_iff htype (ReturnType.token_ne_eof _) _).mp h
      exact hreads
    · cases h
  · rintro ⟨q, hreads, rfl⟩
    have hvalue : s.lookahead.value = type.token := hreads.lookahead
    have hrun := (run_advance_return_eq_ok_iff hvalue type.token_ne_eof type).mpr
      ⟨rfl, q, hreads, rfl⟩
    rw [hvalue]
    rcases type with ⟨_ | _ | _⟩ | _ <;> exact hrun

/-- If an action answers with a type and passes its token, then it is known what can happen after
it. -/
theorem run_type_bind_eq_ok_iff {α β : Type} {read : PassM α} {token : α → Token}
    (h : ∀ {type : α} {u : Pass}, s.run read = (.ok type, u) ↔
      ∃ q, s.position.Reads [token type] q ∧ u = s.reach q s.symbols [])
    {second : α → PassM β} {b : β} :
  s.run (read >>= second) = (.ok b, t) ↔
    ∃ type q, s.position.Reads [token type] q ∧
      (s.reach q s.symbols []).run (second type) = (.ok b, t)
  := by
  simp only [run_bind_eq_ok_iff, h]
  constructor
  · rintro ⟨type, _, ⟨q, hreads, rfl⟩, hrun⟩
    exact ⟨type, q, hreads, hrun⟩
  · rintro ⟨type, q, hreads, hrun⟩
    exact ⟨type, _, ⟨q, hreads, rfl⟩, hrun⟩

/-! ### Functions -/

/-- Parameters are read one after the other, with enough steps. The table `V` is the one without the
function, whose arguments are filled in meanwhile. -/
theorem run_parameters_eq_ok_iff {name : String} {returns : ReturnType} (fuel : Nat) :
  ∀ {s t : Pass} {V : SymbolTable} {arguments : List DataType} {count : Nat},
    s.symbols = V.addFunction ⟨name, arguments, returns⟩ → V.functionNamed? name = none →
    s.position.bound < fuel →
    (s.run (parameters name fuel) = (.ok count, t) ↔
      ∃ (items : List TypedName) (q : Position), items ≠ [] ∧ count = items.length ∧
        s.symbols.ParametersFree items ∧ s.position.Reads (parameterTokens items) q ∧
        q.lookahead.value ≠ .mark .comma ∧
        t = s.reach q
          ((V.withParameters items).addFunction
            ⟨name, arguments ++ items.map (fun item => .scalar item.type), returns⟩)
          (Section.all (items.map (TypedName.parameterSection s.symbols.depth))))
  := by
  induction fuel with
  | zero =>
    intro s t V arguments count _ _ hfuel
    cases hfuel
  | succ fuel ih =>
    intro s t V arguments count hsymbols hname hfuel
    have hother : ∀ (x : String) (type : DataType),
        (V.withVariable x type).functionNamed? name = none := by
      intro x type
      rwa [SymbolTable.functionNamed?_withVariable]
    -- after one parameter, the function has its type as one more argument
    have hadd : ∀ (x : String) (type : ScalarType),
        (s.symbols.withVariable x (.scalar type)).addArgument name (.scalar type) =
          .ok ((V.withVariable x (.scalar type)).addFunction
            ⟨name, arguments ++ [.scalar type], returns⟩) := by
      intro x type
      rw [hsymbols, SymbolTable.withVariable_addFunction]
      apply SymbolTable.addArgument_addFunction (hother x _)
    have hdepth : s.symbols.depth = V.depth := by
      rw [hsymbols, SymbolTable.depth_addFunction]
    simp only [parameters, run_type_bind_eq_ok_iff run_itemType_eq_ok_iff,
      run_identifier_bind_eq_ok_iff, run_declare_bind_eq_ok_iff,
      SymbolTable.declareVariable_eq_ok_iff, position_reach, symbols_reach, reach_reach,
      run_depth_bind, run_note_bind, List.nil_append, and_assoc, exists_and_left, exists_eq_left,
      hadd, Except.ok.injEq, exists_eq_left',
      run_accept_bind_eq_ok_iff (show Token.mark .comma ≠ .eof by simp), if_true, if_false,
      Bool.false_eq_true, SymbolTable.depth_addFunction, SymbolTable.depth_withVariable,
      lookahead_reach, List.append_nil]
    simp only [run_bind_eq_ok_iff, run_pure, Prod.mk.injEq, Except.ok.injEq]
    constructor
    · rintro ⟨type, p₁, htype, x, p₂, hx, hfree, ⟨p₃, hcomma, n, u, hrun, rfl, rfl⟩ |
        ⟨hend, rfl, rfl⟩⟩
      · have hhead := htype.append (hx.append hcomma)
        rw [ih (symbols_reach s p₃ _ _) (hother x _)
          (hhead.bound_lt (Nat.lt_succ_iff.mp hfuel))] at hrun
        obtain ⟨items, q, hne, rfl, hitems, hreads, hend, rfl⟩ := hrun
        refine ⟨⟨type, x⟩ :: items, by simp, by simp, ⟨hfree, ?_⟩, q, ?_, hend, ?_⟩
        · rw [hsymbols, SymbolTable.withVariable_addFunction]
          apply (SymbolTable.parametersFree_addFunction_congr (by rfl)).mp hitems
        · obtain ⟨item, items, rfl⟩ := List.exists_cons_of_ne_nil hne
          apply hhead.append hreads
        · simp [TypedName.parameterSection, Section.entries, hdepth, SymbolTable.withParameters]
      · refine ⟨[⟨type, x⟩], by simp, by simp, ⟨hfree, trivial⟩, p₂, htype.append hx, hend, ?_⟩
        simp [TypedName.parameterSection, Section.entries, hdepth, SymbolTable.withParameters]
    · rintro ⟨items, hne, rfl, hitems, q, hreads, hend, rfl⟩
      rcases items with _ | ⟨⟨type, x⟩, _ | ⟨item, items⟩⟩
      · exact absurd rfl hne
      · obtain ⟨p₁, htype, hx⟩ := Position.reads_cons_iff_exists.mp hreads
        refine ⟨type, p₁, htype, x, q, hx, hitems.1, .inr ⟨hend, by simp, ?_⟩⟩
        simp [TypedName.parameterSection, Section.entries, hdepth, SymbolTable.withParameters]
      · obtain ⟨hfree, hrest⟩ := hitems
        obtain ⟨p₁, htype, hreads⟩ := Position.reads_cons_iff_exists.mp hreads
        obtain ⟨p₂, hx, hreads⟩ := Position.reads_cons_iff_exists.mp hreads
        obtain ⟨p₃, hcomma, hreads⟩ := Position.reads_cons_iff_exists.mp hreads
        have hhead := htype.append (hx.append hcomma)
        refine ⟨type, p₁, htype, x, p₂, hx, hfree,
          .inl ⟨p₃, hcomma, (item :: items).length, _, ?_, rfl, rfl⟩⟩
        rw [ih (symbols_reach s p₃ _ _) (hother x _)
          (hhead.bound_lt (Nat.lt_succ_iff.mp hfuel))]
        refine ⟨item :: items, q, by simp, rfl, ?_, hreads, hend, ?_⟩
        · rw [hsymbols, SymbolTable.withVariable_addFunction] at hrest
          apply (SymbolTable.parametersFree_addFunction_congr (by rfl)).mp hrest
        · simp [TypedName.parameterSection, Section.entries, hdepth, SymbolTable.withParameters]

/-- The parameters of a function stand between parentheses. -/
theorem run_parameterList_bind_eq_ok_iff {β : Type} {name : String} {returns : ReturnType}
    {V : SymbolTable} (hsymbols : s.symbols = V.addFunction ⟨name, [], returns⟩)
    (hname : V.functionNamed? name = none) {second : Nat → PassM β} {b : β} :
  s.run (parameterList name >>= second) = (.ok b, t) ↔
    ∃ (items : List TypedName) (q : Position), s.symbols.ParametersFree items ∧
      s.position.Reads (parameterTokens items ++ [.mark .rparen]) q ∧
      (s.reach q ((V.withParameters items).addFunction (TypedName.function name items returns))
        (Section.all (items.map (TypedName.parameterSection s.symbols.depth)))).run
          (second items.length) = (.ok b, t)
  := by
  simp only [parameterList, bind_assoc,
    run_accept_bind_eq_ok_iff (show Token.mark .rparen ≠ .eof by simp), if_true, if_false,
    Bool.false_eq_true, pure_bind, run_get_bind]
  constructor
  · rintro (⟨q, hclose, hrun⟩ | ⟨-, hrun⟩)
    · refine ⟨[], q, trivial, hclose, ?_⟩
      rw [hsymbols] at hrun
      exact hrun
    · obtain ⟨count, _, hparameters, hrun⟩ := run_bind_eq_ok_iff.mp hrun
      rw [run_parameters_eq_ok_iff _ hsymbols hname (bound_position_lt_budget s)] at hparameters
      obtain ⟨items, p, -, rfl, hitems, hreads, -, rfl⟩ := hparameters
      obtain ⟨q, hclose, hrun⟩ := run_expect_bind_eq_ok_iff.mp hrun
      refine ⟨items, q, hitems, hreads.append hclose, ?_⟩
      simpa [TypedName.function] using hrun
  · rintro ⟨items, q, hitems, hreads, hrun⟩
    obtain ⟨p, hreads, hclose⟩ := Position.reads_append_iff.mp hreads
    cases items with
    | nil =>
      obtain rfl := Position.reads_nil_iff.mp hreads
      rw [hsymbols]
      exact .inl ⟨q, hclose, hrun⟩
    | cons item items =>
      refine .inr ⟨?_, ?_⟩
      · rw [show s.lookahead.value = item.type.token from lookahead_of_reads_parameterTokens hreads]
        apply ScalarType.token_ne_mark
      · apply run_bind_eq_ok_iff.mpr
        refine ⟨(item :: items).length, _, (run_parameters_eq_ok_iff _ hsymbols hname
          (bound_position_lt_budget s)).mpr
            ⟨item :: items, p, by simp, rfl, hitems, hreads, ?_, rfl⟩, ?_⟩
        · rw [hclose.lookahead]
          simp
        · apply run_expect_bind_eq_ok_iff.mpr
          exact ⟨q, hclose, by simpa [TypedName.function] using hrun⟩

/-- What follows the opening parenthesis of a function, which is in the table already. -/
theorem run_functionRest_eq_ok_iff {A : Acceptance} (hA : Outline.Exact s.registers A)
    {V : SymbolTable} {name : String} {location : Location}
    (hsymbols : s.symbols = (V.addFunction ⟨name, [], .void⟩).enter)
    (hname : V.functionNamed? name = none) {u : Unit} :
  s.run (do
      let arity ← parameterList name
      expect .colon (.beforeReturnType name)
      let returns ← returnType
      declare location fun table => table.setReturnType name returns
      note (.functionCreated name returns arity)
      expect .lbrace (.openFunction name)
      functionBody ⟨name, returns⟩
      exitScope) = (.ok u, t) ↔
    ∃ (items : List TypedName) (returns : ReturnType) (b : Construct .body) (T : SymbolTable)
      (q : Position), s.symbols.ParametersFree items ∧
      b.Checks A ⟨name, returns⟩
        ((V.enter.withParameters items).addFunction (TypedName.function name items returns)) T ∧
      s.position.Reads (parameterTokens items ++
        .mark .rparen :: .mark .colon :: returns.token :: .mark .lbrace :: b.tokens) q ∧
      t = s.reach q (V.addFunction (TypedName.function name items returns))
        (Section.all (items.map (TypedName.parameterSection (V.depth + 1)) ++
          .note (.functionCreated name returns items.length) ::
            (b.sections ⟨name, returns⟩ (V.depth + 1) ++ [.note (.scopeChanged V.depth)])))
  := by
  have hothers : ∀ items, (V.enter.withParameters items).functionNamed? name = none := by
    intro items
    rwa [SymbolTable.functionNamed?_withParameters]
  have hdepth : s.symbols.depth = V.depth + 1 := by
    rw [hsymbols, SymbolTable.depth_enter, SymbolTable.depth_addFunction]
  have hexit : ∀ {items : List TypedName} {returns : ReturnType} {b : Construct .body}
      {T : SymbolTable}, b.Checks A ⟨name, returns⟩
        ((V.enter.withParameters items).addFunction (TypedName.function name items returns)) T →
      T.exit = V.addFunction (TypedName.function name items returns) := by
    intro items returns b T hb
    rw [← SymbolTable.withParameters_addFunction] at hb
    rw [hb.exit_eq (by simp), SymbolTable.exit_withParameters (by simp)]
    rfl
  simp only [run_parameterList_bind_eq_ok_iff (V := V.enter) hsymbols hname, hdepth,
    run_expect_bind_eq_ok_iff, run_type_bind_eq_ok_iff run_returnType_eq_ok_iff,
    run_declare_bind_eq_ok_iff, SymbolTable.setReturnType_addFunction (hothers _),
    Except.ok.injEq, exists_eq_left', run_note_bind, position_reach, symbols_reach, reach_reach,
    List.append_nil]
  simp only [run_bind_eq_ok_iff, run_functionBody_eq_ok_iff (s := s.reach _ _ _) hA,
    run_exitScope_eq_ok_iff]
  constructor
  · rintro ⟨items, p₁, hitems, hreads, p₂, hcolon, returns, p₃, hreturns, p₄, hbrace, _, _,
      ⟨b, T, q, hb, hbody, -, rfl⟩, rfl⟩
    refine ⟨items, returns, b, T, q, hitems, hb, ?_, ?_⟩
    · simpa using hreads.append (hcolon.append (hreturns.append (hbrace.append hbody)))
    · simp [hexit hb, Section.entries]
  · rintro ⟨items, returns, b, T, q, hitems, hb, hreads, rfl⟩
    rw [List.append_cons] at hreads
    obtain ⟨p₁, hreads, hrest⟩ := Position.reads_append_iff.mp hreads
    obtain ⟨p₂, hcolon, hrest⟩ := Position.reads_cons_iff_exists.mp hrest
    obtain ⟨p₃, hreturns, hrest⟩ := Position.reads_cons_iff_exists.mp hrest
    obtain ⟨p₄, hbrace, hbody⟩ := Position.reads_cons_iff_exists.mp hrest
    refine ⟨items, p₁, hitems, hreads, p₂, hcolon, returns, p₃, hreturns, p₄, hbrace, (), _,
      ⟨b, T, q, hb, hbody, by cases b <;> trivial, rfl⟩, ?_⟩
    simp [hexit hb, Section.entries]

/-- A function is read exactly if its name and those of its parameters are free and its body keeps
the static rules. -/
theorem run_functionDeclaration_eq_ok_iff {A : Acceptance} (hA : Outline.Exact s.registers A)
    (h : s.lookahead.value = .keyword .func) {u : Unit} :
  s.run functionDeclaration = (.ok u, t) ↔
    ∃ name items returns b, (Declaration.function name items returns b).Takes A s t
  := by
  have hcongr : ∀ {name : String} {items : List TypedName} {returns : ReturnType},
      (s.symbols.addFunction ⟨name, [], .void⟩).enter.ParametersFree items ↔
        (s.symbols.addFunction (TypedName.function name items returns)).enter.ParametersFree
          items := by
    intro name items returns
    apply SymbolTable.parametersFree_addFunction_congr (T := s.symbols.enter)
    rfl
  simp only [functionDeclaration,
    run_advance_bind_eq_ok_iff_reads h (show Token.keyword .func ≠ .eof by simp),
    run_identifier_bind_eq_ok_iff, run_declare_bind_eq_ok_iff,
    SymbolTable.declareFunction_eq_ok_iff, run_expect_bind_eq_ok_iff, run_enterScope_bind,
    position_reach, symbols_reach, reach_reach, List.nil_append, List.append_nil]
  constructor
  · rintro ⟨p₁, hfunc, name, p₂, hname, T, ⟨hfree, rfl⟩, p₃, hopen, hrun⟩
    obtain ⟨-, hother, -⟩ := SymbolTable.kind?_eq_none_iff.mp hfree
    rw [run_functionRest_eq_ok_iff (s := s.reach p₃ _ _) hA (symbols_reach s p₃ _ _) hother] at hrun
    obtain ⟨items, returns, b, T, q, hitems, hb, hreads, rfl⟩ := hrun
    rw [← SymbolTable.withParameters_addFunction] at hb
    refine ⟨name, items, returns, b, _, q, .function hfree (hcongr.mp hitems) hb, ?_, ?_⟩
    · apply hfunc.append (hname.append (hopen.append hreads))
    · simp [Declaration.sections, blockSections, Section.entries]
  · rintro ⟨name, items, returns, b, T, q, hchecks, hreads, rfl⟩
    obtain ⟨p₁, hfunc, hreads⟩ := Position.reads_cons_iff_exists.mp hreads
    obtain ⟨p₂, hname, hreads⟩ := Position.reads_cons_iff_exists.mp hreads
    obtain ⟨p₃, hopen, hreads⟩ := Position.reads_cons_iff_exists.mp hreads
    cases hchecks with
    | function hfree hitems hb =>
      obtain ⟨-, hother, -⟩ := SymbolTable.kind?_eq_none_iff.mp hfree
      refine ⟨p₁, hfunc, name, p₂, hname, _, ⟨hfree, rfl⟩, p₃, hopen, ?_⟩
      rw [run_functionRest_eq_ok_iff (s := s.reach p₃ _ _) hA (symbols_reach s p₃ _ _) hother]
      rw [show (s.symbols.addFunction (TypedName.function name items returns)).enter =
        s.symbols.enter.addFunction (TypedName.function name items returns) from rfl,
        SymbolTable.withParameters_addFunction] at hb
      refine ⟨items, returns, b, _, q, hcongr.mpr hitems, hb, hreads, ?_⟩
      simp [Declaration.sections, blockSections, Section.entries]

/-! ### Packages -/

/-- The fields of a package are read one after the other, with enough steps. The table `V` is the one
without the package, whose fields are filled in meanwhile. -/
theorem run_fields_eq_ok_iff {name : String} (fuel : Nat) {u : Unit} :
  ∀ {s t : Pass} {V : SymbolTable} {before : List Field},
    s.symbols = V.addPackage ⟨name, before⟩ → V.packageNamed? name = none →
    (before.map Field.name).Nodup → s.position.bound < fuel →
    (s.run (fields name fuel) = (.ok u, t) ↔
      ∃ (items : List TypedName) (q : Position),
        (before.map Field.name ++ items.map TypedName.name).Nodup ∧
        s.position.Reads (items.flatMap (fun item => item.tokens ++ [.mark .semicolon]) ++
          [.mark .rbrace]) q ∧
        t = s.reach q
          (V.addPackage ⟨name, before ++ items.map fun item => ⟨item.name, .scalar item.type⟩⟩)
          (Section.all (items.map (TypedName.fieldSection name))))
  := by
  induction fuel with
  | zero =>
    intro s t V before _ _ _ hfuel
    cases hfuel
  | succ fuel ih =>
    intro s t V before hsymbols hname hbefore hfuel
    have hadd : ∀ {x : String} {type : DataType} {T : SymbolTable},
        s.symbols.addField name x type = .ok T ↔
          x ∉ before.map Field.name ∧ T = V.addPackage ⟨name, before ++ [⟨x, type⟩]⟩ := by
      intro x type T
      rw [hsymbols]
      apply SymbolTable.addField_addPackage_eq_ok_iff (p := ⟨name, before⟩) hname
    simp only [fields, run_accept_bind_eq_ok_iff (show Token.mark .rbrace ≠ .eof by simp), if_true,
      if_false, Bool.false_eq_true, run_pure, Prod.mk.injEq,
      run_type_bind_eq_ok_iff run_itemType_eq_ok_iff, run_identifier_bind_eq_ok_iff,
      run_declare_bind_eq_ok_iff, hadd, run_note_bind, run_expect_bind_eq_ok_iff, position_reach,
      symbols_reach, reach_reach, List.nil_append, List.append_nil]
    constructor
    · rintro (⟨q, hclose, -, rfl⟩ | ⟨-, type, p₁, htype, x, p₂, hx, T, ⟨hfresh, rfl⟩, p₃, hend,
        hrun⟩)
      · exact ⟨[], q, by simpa using hbefore, hclose, by simp [hsymbols]⟩
      · have hhead := htype.append (hx.append hend)
        have hbefore' : ((before ++ [(⟨x, .scalar type⟩ : Field)]).map Field.name).Nodup := by
          simp only [List.map_append, List.map_singleton]
          grind
        rw [ih (symbols_reach s p₃ _ _) hname hbefore'
          (hhead.bound_lt (Nat.lt_succ_iff.mp hfuel))] at hrun
        obtain ⟨items, q, hnodup, hreads, rfl⟩ := hrun
        refine ⟨⟨type, x⟩ :: items, q, by simpa using hnodup, hhead.append hreads, ?_⟩
        simp [TypedName.fieldSection, Section.entries]
    · rintro ⟨items, q, hnodup, hreads, rfl⟩
      cases items with
      | nil => exact .inl ⟨q, hreads, trivial, by simp [hsymbols]⟩
      | cons item items =>
        obtain ⟨type, x⟩ := item
        obtain ⟨p₁, htype, hreads⟩ := Position.reads_cons_iff_exists.mp hreads
        obtain ⟨p₂, hx, hreads⟩ := Position.reads_cons_iff_exists.mp hreads
        obtain ⟨p₃, hend, hreads⟩ := Position.reads_cons_iff_exists.mp hreads
        have hhead := htype.append (hx.append hend)
        have hbefore' : ((before ++ [(⟨x, .scalar type⟩ : Field)]).map Field.name).Nodup := by
          simp only [List.map_append, List.map_singleton]
          grind
        have hfresh : x ∉ before.map Field.name := by
          grind
        refine .inr ⟨?_, type, p₁, htype, x, p₂, hx, _, ⟨hfresh, rfl⟩, p₃, hend, ?_⟩
        · rw [show s.lookahead.value = type.token from htype.lookahead]
          apply ScalarType.token_ne_mark
        · rw [ih (symbols_reach s p₃ _ _) hname hbefore'
            (hhead.bound_lt (Nat.lt_succ_iff.mp hfuel))]
          refine ⟨items, q, by simpa using hnodup, hreads, ?_⟩
          simp [TypedName.fieldSection, Section.entries]

/-- A package is read exactly if its name is free and it has fields with different names. -/
theorem run_packageDeclaration_eq_ok_iff {A : Acceptance} (h : s.lookahead.value = .keyword .pack)
    {u : Unit} :
  s.run packageDeclaration = (.ok u, t) ↔
    ∃ name items, (Declaration.package name items).Takes A s t
  := by
  simp only [packageDeclaration,
    run_advance_bind_eq_ok_iff_reads h (show Token.keyword .pack ≠ .eof by simp),
    run_identifier_bind_eq_ok_iff, run_declare_bind_eq_ok_iff,
    SymbolTable.declarePackage_eq_ok_iff, run_note_bind, run_expect_bind_eq_ok_iff,
    position_reach, symbols_reach, reach_reach, List.nil_append, List.append_nil]
  constructor
  · rintro ⟨p₁, hpack, name, p₂, hname, T, ⟨hfree, rfl⟩, p₃, hopen, hrun⟩
    obtain ⟨-, -, hother⟩ := SymbolTable.kind?_eq_none_iff.mp hfree
    rw [run_bind_of_run_eq_ok (run_sees _ _)] at hrun
    by_cases hempty : p₃.lookahead.value = .mark .rbrace
    · simp [hempty] at hrun
    · simp only [lookahead_reach, hempty, decide_false, Bool.false_eq_true, if_false,
        run_get_bind] at hrun
      rw [run_fields_eq_ok_iff _ (symbols_reach s p₃ (s.symbols.addPackage ⟨name, []⟩) _) hother
        List.nodup_nil
        (bound_position_lt_budget _)] at hrun
      obtain ⟨items, q, hnodup, hreads, rfl⟩ := hrun
      refine ⟨name, items, _, q, .package hfree ?_ hnodup,
        hpack.append (hname.append (hopen.append hreads)), ?_⟩
      · rintro rfl
        apply hempty hreads.lookahead
      · simp [Declaration.sections, Section.entries, TypedName.package]
  · rintro ⟨name, items, T, q, hchecks, hreads, rfl⟩
    obtain ⟨p₁, hpack, hreads⟩ := Position.reads_cons_iff_exists.mp hreads
    obtain ⟨p₂, hname, hreads⟩ := Position.reads_cons_iff_exists.mp hreads
    obtain ⟨p₃, hopen, hreads⟩ := Position.reads_cons_iff_exists.mp hreads
    cases hchecks with
    | package hfree hne hnodup =>
      obtain ⟨-, -, hother⟩ := SymbolTable.kind?_eq_none_iff.mp hfree
      obtain ⟨item, rest, rfl⟩ := List.exists_cons_of_ne_nil hne
      have hempty : p₃.lookahead.value ≠ .mark .rbrace := by
        rw [show p₃.lookahead.value = item.type.token from hreads.lookahead]
        apply ScalarType.token_ne_mark
      refine ⟨p₁, hpack, name, p₂, hname, _, ⟨hfree, rfl⟩, p₃, hopen, ?_⟩
      rw [run_bind_of_run_eq_ok (run_sees _ _)]
      simp only [lookahead_reach, hempty, decide_false, Bool.false_eq_true, if_false, run_get_bind]
      rw [run_fields_eq_ok_iff _ (symbols_reach s p₃ (s.symbols.addPackage ⟨name, []⟩) _) hother
        List.nodup_nil
        (bound_position_lt_budget _)]
      refine ⟨item :: rest, q, hnodup, hreads, ?_⟩
      simp [Declaration.sections, Section.entries, TypedName.package]

/-! ### Declarations -/

/-- A declaration is read exactly if it takes the pass to the state that is reached. -/
theorem run_declaration_eq_ok_iff {A : Acceptance} (hA : Outline.Exact s.registers A) {u : Unit} :
  s.run declaration = (.ok u, t) ↔ ∃ d : Declaration, d.Takes A s t
  := by
  have hglobal : ∀ type : ScalarType, s.lookahead.value = type.token →
      (s.run (scalarVariable type) = (.ok u, t) ↔
        ∃ name value, (Declaration.global type name value).Takes A s t) := by
    intro type hvalue
    rw [run_scalarVariable_eq_ok_iff hA rfl hvalue]
    constructor
    · rintro ⟨name, value, q, haccepted, hfree, hreads, rfl⟩
      exact ⟨name, value, _, q, .global haccepted hfree, hreads, rfl⟩
    · rintro ⟨name, value, T, q, hchecks, hreads, rfl⟩
      cases hchecks with
      | global haccepted hfree => exact ⟨name, value, q, haccepted, hfree, hreads, rfl⟩
  rw [declaration, run_peek_bind]
  constructor
  · intro h
    split at h
    · rename_i hvalue
      obtain ⟨name, items, returns, b, hd⟩ := (run_functionDeclaration_eq_ok_iff hA hvalue).mp h
      exact ⟨_, hd⟩
    · rename_i hvalue
      obtain ⟨name, items, hd⟩ := (run_packageDeclaration_eq_ok_iff hvalue).mp h
      exact ⟨_, hd⟩
    · rename_i hvalue
      obtain ⟨name, value, hd⟩ := (hglobal .byte hvalue).mp h
      exact ⟨_, hd⟩
    · rename_i hvalue
      obtain ⟨name, value, hd⟩ := (hglobal .int hvalue).mp h
      exact ⟨_, hd⟩
    · rename_i hvalue
      obtain ⟨name, value, hd⟩ := (hglobal .float hvalue).mp h
      exact ⟨_, hd⟩
    · cases h
    · cases h
    · cases h
  · rintro ⟨d, hd⟩
    have hlookahead := hd
    obtain ⟨T, q, -, hreads, -⟩ := hlookahead
    cases d with
    | function name items returns b =>
      rw [show s.lookahead.value = .keyword .func from hreads.lookahead]
      apply (run_functionDeclaration_eq_ok_iff hA hreads.lookahead).mpr ⟨_, _, _, _, hd⟩
    | package name items =>
      rw [show s.lookahead.value = .keyword .pack from hreads.lookahead]
      apply (run_packageDeclaration_eq_ok_iff hreads.lookahead).mpr ⟨_, _, hd⟩
    | global type name value =>
      have hvalue : s.lookahead.value = type.token := hreads.lookahead
      have hrun := (hglobal type hvalue).mpr ⟨_, _, hd⟩
      cases type <;> rw [hvalue] <;> exact hrun

/-- Declarations are read up to the end of the text, with enough steps. -/
theorem run_declarations_eq_ok_iff {registers : Nat} {A : Acceptance}
    (hA : Outline.Exact registers A) (fuel : Nat) {u : Unit} :
  ∀ {s t : Pass}, s.registers = registers → s.position.bound < fuel →
    (s.run (declarations fuel) = (.ok u, t) ↔
      ∃ (program : Program) (T : SymbolTable) (q : Position), program.Checks A s.symbols T ∧
        s.position.Reads program.tokens q ∧ q.lookahead.value = .eof ∧
        t = s.reach q T (Section.all (program.sections s.symbols.depth)))
  := by
  induction fuel with
  | zero =>
    intro s t _ hfuel
    cases hfuel
  | succ fuel ih =>
    intro s t hs hfuel
    subst hs
    rw [declarations, run_bind_of_run_eq_ok (run_sees _ _)]
    constructor
    · intro h
      by_cases hend : s.lookahead.value = .eof
      · obtain ⟨-, rfl⟩ := by simpa [hend] using h
        exact ⟨[], _, s.position, .nil, by simp [Program.tokens], hend, (s.reach_position).symm⟩
      · simp only [hend, decide_false, Bool.false_eq_true, if_false] at h
        obtain ⟨_, _, hfirst, hrest⟩ := run_bind_eq_ok_iff.mp h
        obtain ⟨d, T, p, hd, hreads, rfl⟩ := (run_declaration_eq_ok_iff hA).mp hfirst
        obtain ⟨token, tokens, hcons, -⟩ := d.exists_tokens_eq_cons
        have hlower : p.bound < fuel := by
          rw [hcons] at hreads
          apply hreads.bound_lt (Nat.lt_succ_iff.mp hfuel)
        obtain ⟨program, T', q, hprogram, hmore, heof, rfl⟩ :=
          (ih (s := s.reach p T _) rfl hlower).mp hrest
        refine ⟨d :: program, T', q, .cons hd hprogram, hreads.append hmore, heof, ?_⟩
        simp [Program.sections, hd.depth_eq]
    · rintro ⟨program, T, q, hchecks, hreads, heof, rfl⟩
      cases hchecks with
      | nil =>
        obtain rfl := Position.reads_nil_iff.mp hreads
        simp [show s.lookahead.value = .eof from heof, Program.sections, reach_position]
      | @cons _ T' _ d program hd hprogram =>
        obtain ⟨p, hfirst, hrest⟩ := Position.reads_append_iff.mp hreads
        obtain ⟨token, tokens, hcons, hmore⟩ := d.exists_tokens_eq_cons
        rw [hcons] at hfirst
        have hvalue : s.lookahead.value ≠ .eof := by
          rwa [show s.lookahead.value = token from hfirst.lookahead]
        have hlower := hfirst.bound_lt (Nat.lt_succ_iff.mp hfuel)
        rw [← hcons] at hfirst
        simp only [hvalue, decide_false, Bool.false_eq_true, if_false]
        apply run_bind_eq_ok_iff.mpr
        refine ⟨(), _, (run_declaration_eq_ok_iff hA).mpr ⟨d, T', p, hd, hfirst, rfl⟩, ?_⟩
        apply (ih (s := s.reach p T' _) rfl hlower).mpr
        refine ⟨program, T, q, hprogram, hrest, heof, ?_⟩
        simp [Program.sections, hd.depth_eq]

end

end Pass

end SilFront
