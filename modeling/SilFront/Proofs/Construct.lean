import SilFront.Proofs.Outline

/-!
# The grammar of programs

A program is a list of declarations, and the body of a function is a `Construct`. Both are trees of
the grammar: `tokens` gives the tokens that a tree is written with, and `sections` what is written
into a listing for it, in the order of the source.

`Checks` are the static rules. They say, for a table of the names that are visible before a tree,
whether the tree is allowed there, and which names are visible after it. A block leaves no trace in
the table. The expressions of a program must meet a condition that the rules leave open.
-/

namespace SilFront

/-- The keyword of a scalar type. -/
def ScalarType.token : ScalarType → Token
  | .byte => .keyword .byte
  | .int => .keyword .int
  | .float => .keyword .float

/-- The keyword of a return type. -/
def ReturnType.token : ReturnType → Token
  | .scalar type => type.token
  | .void => .keyword .void

/-- What is written into a listing at once: a note, the operations of an expression, or those of a
call that is a statement of its own. -/
inductive Section where
  | note (content : Note)
  | expression (e : Outline)
  | call (function : String) (arguments : List Outline)

/-- The entries of a section. -/
def Section.entries : Section → List Entry
  | .note content => [.note content]
  | .expression e => e.operations.map .operation
  | .call function arguments =>
    (Outline.operationsOf arguments ++ [Operation.call function]).map .operation

/-- The entries of sections in turn. -/
def Section.all (sections : List Section) : List Entry :=
  sections.flatMap entries

@[simp]
theorem Section.all_nil :
  all [] = []
  := rfl

@[simp]
theorem Section.all_cons (first : Section) (rest : List Section) :
  all (first :: rest) = first.entries ++ all rest
  := List.flatMap_cons

@[simp]
theorem Section.all_append (first second : List Section) :
  all (first ++ second) = all first ++ all second
  := List.flatMap_append

/-! ### Trees -/

/-- The phrases of the grammar of function bodies. -/
inductive Part where
  | statement
  /-- Statements with the brace that closes them. -/
  | body
  /-- What may follow the block of a branch. -/
  | alternatives
deriving DecidableEq

/-- The statements of a function, and what they consist of. -/
inductive Construct : Part → Type
  | scalar (type : ScalarType) (name : String) (value : Option Outline) : Construct .statement
  | assignment (target : String) (value : Outline) : Construct .statement
  | call (function : String) (arguments : List Outline) : Construct .statement
  | record (package name : String) : Construct .statement
  | returning (value : Option Outline) : Construct .statement
  | branch (condition : Outline) (body : Construct .body) (rest : Construct .alternatives) :
      Construct .statement
  | whileLoop (condition : Outline) (body : Construct .body) : Construct .statement
  | forLoop (start condition step : Outline) (body : Construct .body) : Construct .statement
  | close : Construct .body
  | more (first : Construct .statement) (rest : Construct .body) : Construct .body
  | done : Construct .alternatives
  | elseIf (condition : Outline) (body : Construct .body) (rest : Construct .alternatives) :
      Construct .alternatives
  | otherwise (body : Construct .body) : Construct .alternatives

/-- An argument of a function or a field of a package. -/
structure TypedName where
  type : ScalarType
  name : String
deriving DecidableEq

/-- A function, a package or a global variable. -/
inductive Declaration where
  | function (name : String) (parameters : List TypedName) (returns : ReturnType)
      (body : Construct .body)
  | package (name : String) (fields : List TypedName)
  | global (type : ScalarType) (name : String) (value : Option Outline)

/-- A program: its declarations in order. -/
abbrev Program :=
  List Declaration

/-! ### Tokens -/

/-- The tokens of a declaration of a scalar variable. -/
def variableTokens (type : ScalarType) (name : String) (value : Option Outline) : List Token :=
  type.token :: .ident name ::
    ((match value with | none => [] | some e => .mark .eq :: e.tokens) ++ [.mark .semicolon])

/-- A condition in parentheses. -/
def conditionTokens (e : Outline) : List Token :=
  .mark .lparen :: (e.tokens ++ [.mark .rparen])

/-- The tokens that a construct is written with. -/
def Construct.tokens : {k : Part} → Construct k → List Token
  | _, .scalar type name value => variableTokens type name value
  | _, .assignment target value =>
    .ident target :: .mark .eq :: (value.tokens ++ [.mark .semicolon])
  | _, .call function arguments =>
    .ident function :: .mark .lparen ::
      (Outline.tokensOf arguments ++ [.mark .rparen, .mark .semicolon])
  | _, .record package name => [.ident package, .ident name, .mark .semicolon]
  | _, .returning value =>
    .keyword .returnWord :: ((value.map Outline.tokens).getD [] ++ [.mark .semicolon])
  | _, .branch condition body rest =>
    .keyword .ifWord :: (conditionTokens condition ++ .mark .lbrace :: (body.tokens ++ rest.tokens))
  | _, .whileLoop condition body =>
    .keyword .whileWord :: (conditionTokens condition ++ .mark .lbrace :: body.tokens)
  | _, .forLoop start condition step body =>
    .keyword .forWord :: .mark .lparen :: (start.tokens ++ .mark .semicolon ::
      (condition.tokens ++ .mark .semicolon ::
        (step.tokens ++ .mark .rparen :: .mark .lbrace :: body.tokens)))
  | _, .close => [.mark .rbrace]
  | _, .more first rest => first.tokens ++ rest.tokens
  | _, .done => []
  | _, .elseIf condition body rest =>
    .keyword .elseWord :: .keyword .ifWord ::
      (conditionTokens condition ++ .mark .lbrace :: (body.tokens ++ rest.tokens))
  | _, .otherwise body => .keyword .elseWord :: .mark .lbrace :: body.tokens

/-- The tokens of a type and a name. -/
def TypedName.tokens (item : TypedName) : List Token :=
  [item.type.token, .ident item.name]

/-- The tokens of parameters with commas in between. -/
def parameterTokens : List TypedName → List Token
  | [] => []
  | [item] => item.tokens
  | item :: item' :: rest => item.tokens ++ .mark .comma :: parameterTokens (item' :: rest)

/-- The tokens that a declaration is written with. -/
def Declaration.tokens : Declaration → List Token
  | .function name parameters returns body =>
    .keyword .func :: .ident name :: .mark .lparen ::
      (parameterTokens parameters ++
        .mark .rparen :: .mark .colon :: returns.token :: .mark .lbrace :: body.tokens)
  | .package name fields =>
    .keyword .pack :: .ident name :: .mark .lbrace ::
      (fields.flatMap (fun item => item.tokens ++ [.mark .semicolon]) ++ [.mark .rbrace])
  | .global type name value => variableTokens type name value

/-- The tokens that a program is written with. -/
def Program.tokens (program : Program) : List Token :=
  program.flatMap Declaration.tokens

/-! ### What is written for a tree -/

/-- What is written for a declaration of a scalar variable. -/
def variableSections (depth : Nat) (type : ScalarType) (name : String) (value : Option Outline) :
    List Section :=
  (value.map Section.expression).toList ++
    [.note (.variableDeclared name (.scalar type) depth value.isSome)]

/-- What is written for a block: the change to its scope, its statements, and the change back. -/
def blockSections (depth : Nat) (statements : List Section) : List Section :=
  .note (.scopeChanged (depth + 1)) :: (statements ++ [.note (.scopeChanged depth)])

/-- What is written for a construct in a scope of the given depth. -/
def Construct.sections (f : Enclosing) : {k : Part} → Nat → Construct k → List Section
  | _, depth, .scalar type name value => variableSections depth type name value
  | _, _, .assignment target value => [.expression value, .note (.assigned target)]
  | _, _, .call function arguments => [.call function arguments]
  | _, depth, .record package name =>
    [.note (.variableDeclared name (.record package) depth false)]
  | _, _, .returning value =>
    (value.map Section.expression).toList ++ [.note (.returned f.name value.isSome)]
  | _, depth, .branch condition body rest =>
    .expression condition :: .note (.branch .ifHead) ::
      (blockSections depth (body.sections f (depth + 1)) ++ rest.sections f depth)
  | _, depth, .whileLoop condition body =>
    .expression condition :: .note (.branch .whileLoop) ::
      blockSections depth (body.sections f (depth + 1))
  | _, depth, .forLoop start condition step body =>
    .expression start :: .expression condition :: .expression step :: .note (.branch .forLoop) ::
      blockSections depth (body.sections f (depth + 1))
  | _, _, .close => []
  | _, depth, .more first rest => first.sections f depth ++ rest.sections f depth
  | _, _, .done => []
  | _, depth, .elseIf condition body rest =>
    .expression condition :: .note (.branch .elseIf) ::
      (blockSections depth (body.sections f (depth + 1)) ++ rest.sections f depth)
  | _, depth, .otherwise body =>
    .note (.branch .elseHead) :: blockSections depth (body.sections f (depth + 1))

/-- Nothing is written where the alternatives of a branch end. -/
@[simp]
theorem Construct.sections_done (f : Enclosing) (depth : Nat) :
  Construct.done.sections f depth = []
  := by
  rw [sections]

/-- What is written for a parameter. -/
def TypedName.parameterSection (depth : Nat) (item : TypedName) : Section :=
  .note (.argumentDeclared item.name (.scalar item.type) depth)

/-- What is written for a field. -/
def TypedName.fieldSection (package : String) (item : TypedName) : Section :=
  .note (.fieldAdded package item.name (.scalar item.type))

/-- What is written for a declaration in a scope of the given depth. -/
def Declaration.sections (depth : Nat) : Declaration → List Section
  | .function name parameters returns body =>
    blockSections depth (parameters.map (TypedName.parameterSection (depth + 1)) ++
      .note (.functionCreated name returns parameters.length) ::
        body.sections ⟨name, returns⟩ (depth + 1))
  | .package name fields =>
    .note (.packageCreated name) :: fields.map (TypedName.fieldSection name)
  | .global type name value => variableSections depth type name value

/-- What is written for a program. -/
def Program.sections (program : Program) (depth : Nat) : List Section :=
  program.flatMap (Declaration.sections depth)

/-! ### Static rules -/

/-- The table with one more function. -/
def SymbolTable.addFunction (T : SymbolTable) (f : Function) : SymbolTable :=
  { T with functions := T.functions ++ [f] }

/-- The table with one more package. -/
def SymbolTable.addPackage (T : SymbolTable) (p : Package) : SymbolTable :=
  { T with packages := T.packages ++ [p] }

/-- The table with one more variable in the innermost scope. -/
def SymbolTable.withVariable (T : SymbolTable) (name : String) (type : DataType) : SymbolTable :=
  T.addVariable ⟨name, type, T.depth⟩

/-- The arguments of a call meet a condition. A comma or the closing parenthesis follows each. -/
def Outline.Arguments (A : Acceptance) (T : SymbolTable) : List Outline → Prop
  | [] => True
  | [e] => A T .stack (.mark .rparen) e
  | e :: e' :: rest => A T .stack (.mark .comma) e ∧ Arguments A T (e' :: rest)

/-- The static rules of function bodies, with the visible names before and after. -/
inductive Construct.Checks (A : Acceptance) (f : Enclosing) :
    {k : Part} → SymbolTable → Construct k → SymbolTable → Prop
  | scalar {T : SymbolTable} {type : ScalarType} {name : String} {value : Option Outline}
      (accepted : ∀ e ∈ value, A T .register (.mark .semicolon) e) (free : T.kind? name = none) :
      Checks A f T (.scalar type name value) (T.withVariable name (.scalar type))
  | assignment {T : SymbolTable} {target : String} {value : Outline}
      (visible : T.kind? target = some .variable)
      (accepted : A T .register (.mark .semicolon) value) :
      Checks A f T (.assignment target value) T
  | call {T : SymbolTable} {function : String} {g : Function} {arguments : List Outline}
      (declared : T.functionNamed? function = some g) (arity : arguments.length = g.arity)
      (accepted : Outline.Arguments A T arguments) : Checks A f T (.call function arguments) T
  | record {T : SymbolTable} {package name : String} {p : Package}
      (declared : T.packageNamed? package = some p) (free : T.kind? name = none) :
      Checks A f T (.record package name) (T.withVariable name (.record package))
  | returning {T : SymbolTable} {value : Option Outline}
      (accepted : ∀ e ∈ value, f.returns ≠ .void ∧ A T .register (.mark .semicolon) e) :
      Checks A f T (.returning value) T
  | branch {T T' : SymbolTable} {condition : Outline} {body : Construct .body}
      {rest : Construct .alternatives} (accepted : A T .register (.mark .rparen) condition)
      (block : Checks A f T.enter body T') (alternatives : Checks A f T rest T) :
      Checks A f T (.branch condition body rest) T
  | whileLoop {T T' : SymbolTable} {condition : Outline} {body : Construct .body}
      (accepted : A T .register (.mark .rparen) condition) (block : Checks A f T.enter body T') :
      Checks A f T (.whileLoop condition body) T
  | forLoop {T T' : SymbolTable} {start condition step : Outline} {body : Construct .body}
      (acceptedStart : A T .register (.mark .semicolon) start)
      (acceptedCondition : A T .register (.mark .semicolon) condition)
      (acceptedStep : A T .register (.mark .rparen) step) (block : Checks A f T.enter body T') :
      Checks A f T (.forLoop start condition step body) T
  | close {T : SymbolTable} : Checks A f T .close T
  | more {T T' T'' : SymbolTable} {first : Construct .statement} {rest : Construct .body}
      (statement : Checks A f T first T') (body : Checks A f T' rest T'') :
      Checks A f T (.more first rest) T''
  | done {T : SymbolTable} : Checks A f T .done T
  | elseIf {T T' : SymbolTable} {condition : Outline} {body : Construct .body}
      {rest : Construct .alternatives} (accepted : A T .register (.mark .rparen) condition)
      (block : Checks A f T.enter body T') (alternatives : Checks A f T rest T) :
      Checks A f T (.elseIf condition body rest) T
  | otherwise {T T' : SymbolTable} {body : Construct .body} (block : Checks A f T.enter body T') :
      Checks A f T (.otherwise body) T

/-- The table with a variable for each parameter. -/
def SymbolTable.withParameters (T : SymbolTable) (parameters : List TypedName) : SymbolTable :=
  parameters.foldl (fun T item => T.withVariable item.name (.scalar item.type)) T

/-- The names of parameters are free, each after those before it are declared. -/
def SymbolTable.ParametersFree (T : SymbolTable) : List TypedName → Prop
  | [] => True
  | item :: rest =>
    T.kind? item.name = none ∧ (T.withVariable item.name (.scalar item.type)).ParametersFree rest

/-- The function that a declaration makes. -/
def TypedName.function (name : String) (parameters : List TypedName) (returns : ReturnType) :
    Function :=
  ⟨name, parameters.map fun item => .scalar item.type, returns⟩

/-- The package that a declaration makes. -/
def TypedName.package (name : String) (fields : List TypedName) : Package :=
  ⟨name, fields.map fun item => ⟨item.name, .scalar item.type⟩⟩

/-- The static rules of declarations. A function is visible in its own parameters and body. -/
inductive Declaration.Checks (A : Acceptance) :
    SymbolTable → Declaration → SymbolTable → Prop
  | function {T T' : SymbolTable} {name : String} {parameters : List TypedName}
      {returns : ReturnType} {body : Construct .body} (free : T.kind? name = none)
      (arguments : (T.addFunction (TypedName.function name parameters returns)).enter.ParametersFree
        parameters)
      (statements : body.Checks A ⟨name, returns⟩
        ((T.addFunction (TypedName.function name parameters returns)).enter.withParameters
          parameters) T') :
      Checks A T (.function name parameters returns body)
        (T.addFunction (TypedName.function name parameters returns))
  | package {T : SymbolTable} {name : String} {fields : List TypedName}
      (free : T.kind? name = none) (nonempty : fields ≠ [])
      (distinct : (fields.map TypedName.name).Nodup) :
      Checks A T (.package name fields) (T.addPackage (TypedName.package name fields))
  | global {T : SymbolTable} {type : ScalarType} {name : String} {value : Option Outline}
      (accepted : ∀ e ∈ value, A T .register (.mark .semicolon) e) (free : T.kind? name = none) :
      Checks A T (.global type name value) (T.withVariable name (.scalar type))

/-- The static rules of programs, with the visible names before and after. -/
inductive Program.Checks (A : Acceptance) : SymbolTable → Program → SymbolTable → Prop
  | nil {T : SymbolTable} : Checks A T [] T
  | cons {T T' T'' : SymbolTable} {first : Declaration} {rest : Program}
      (declaration : first.Checks A T T') (more : Checks A T' rest T'') :
      Checks A T (first :: rest) T''

end SilFront
