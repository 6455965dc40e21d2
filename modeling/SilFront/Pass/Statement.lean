import SilFront.Pass.Expression

/-!
# Statements in a pass

The statements of a function body: variables, assignments, calls, records, returns, branches and
loops. Every block has a scope of its own, which is left right after its closing brace.
-/

namespace SilFront

/-- The function whose body is read. -/
structure Enclosing where
  name : String
  returns : ReturnType
deriving DecidableEq, Repr

namespace PassM

/-! ### Variables -/

/-- The rest of a declaration of a variable, whose name is read. The variable becomes visible after
the expression that initializes it. -/
def declareVariable (name : Located String) (type : DataType) (initialized : Bool) :
    PassM Unit := do
  declare name.location fun table => table.declareVariable name.value type
  note (.variableDeclared name.value type (← depth) initialized)
  expect .semicolon (.afterDeclaration name.value)

/-- A declaration of a scalar variable, from its type on. -/
def scalarVariable (type : ScalarType) : PassM Unit := do
  advance
  let name ← identifier
  let initialized ← accept (.mark .eq)
  if initialized then expression .register
  declareVariable name (.scalar type) initialized

/-! ### Statements that begin with a name -/

/-- An assignment to the variable `target`, from the equals sign on. -/
def assignment (target : Located String) : PassM Unit := do
  if (← symbols).kind? target.value ≠ some .variable then
    refuseAt (.undefinedTarget target.value) target.location
  advance
  expression .register
  expect .semicolon (.afterAssignment target.value)
  note (.assigned target.value)

/-- A call as a statement of its own, from the opening parenthesis on. -/
def callStatement (function : Located String) : PassM Unit := do
  let _ ← call function.value function.location
  expect .semicolon (.afterCall function.value)

/-- A declaration of a record, from its name on. -/
def recordVariable (package name : Located String) : PassM Unit := do
  if ((← symbols).packageNamed? package.value).isNone then
    refuseAt (.undefinedPackage package.value) package.location
  advance
  declareVariable name (.record package.value) false

/-- A statement that begins with a name. -/
def namedStatement (name : Located String) : PassM Unit := do
  advance
  let next ← peek
  match next.value with
  | .mark .eq => assignment name
  | .mark .lparen => callStatement name
  | .ident record => recordVariable name ⟨record, next.location⟩
  | found => refuse (.missingContinuation name.value found)

/-! ### Returns, branches and loops -/

/-- A return from a function. -/
def returnStatement (f : Enclosing) : PassM Unit := do
  advance
  if ← accept (.mark .semicolon) then note (.returned f.name false)
  else
    if f.returns = .void then refuse (.voidReturnsValue f.name)
    expression .register
    expect .semicolon .afterReturnValue
    note (.returned f.name true)

/-- A block, whose statements and closing brace the action `body` reads. -/
def block (head : Branch) (body : PassM Unit) : PassM Unit := do
  expect .lbrace (.openBranch head)
  enterScope
  body
  exitScope

/-- A condition in parentheses. -/
def condition (head : Branch) : PassM Unit := do
  expect .lparen (.afterHead head)
  expression .register
  expect .rparen (.afterCondition head)

/-- The alternatives of a branch, in no more than the given number of steps. -/
def alternatives (body : PassM Unit) : Nat → PassM Unit
  | 0 => refuse .stepLimit
  | fuel + 1 => do
    if ← accept (.keyword .elseWord) then
      if ← accept (.keyword .ifWord) then
        condition .elseIf
        note (.branch .elseIf)
        block .elseIf body
        alternatives body fuel
      else
        note (.branch .elseHead)
        block .elseHead body

/-- A branch with its alternatives. -/
def ifStatement (body : PassM Unit) : PassM Unit := do
  advance
  condition .ifHead
  note (.branch .ifHead)
  block .ifHead body
  alternatives body (← get).budget

/-- A loop with a condition. -/
def whileStatement (body : PassM Unit) : PassM Unit := do
  advance
  condition .whileLoop
  note (.branch .whileLoop)
  block .whileLoop body

/-- A loop with three expressions. -/
def forStatement (body : PassM Unit) : PassM Unit := do
  advance
  expect .lparen (.afterHead .forLoop)
  expression .register
  expect .semicolon .afterForStart
  expression .register
  expect .semicolon (.afterCondition .forLoop)
  expression .register
  expect .rparen .afterForStep
  note (.branch .forLoop)
  block .forLoop body

/-! ### Bodies -/

/-- A statement of a function. The action `body` reads the statements and the closing brace of a
block inside it. -/
def statement (f : Enclosing) (body : PassM Unit) : PassM Unit := do
  let next ← peek
  match next.value with
  | .keyword .byte => scalarVariable .byte
  | .keyword .int => scalarVariable .int
  | .keyword .float => scalarVariable .float
  | .keyword .returnWord => returnStatement f
  | .keyword .ifWord => ifStatement body
  | .keyword .whileWord => whileStatement body
  | .keyword .forWord => forStatement body
  | .keyword .elseWord => refuse .elseWithoutIf
  | .keyword word => refuse (.keywordInBody (.keyword word))
  | .ident name => namedStatement ⟨name, next.location⟩
  | found => refuse (.missingStatement found)

/-- The statements of a body with its closing brace, in no more than the given number of steps. -/
def statements (f : Enclosing) : Nat → PassM Unit
  | 0 => refuse .stepLimit
  | fuel + 1 => do
    match (← peek).value with
    | .mark .rbrace => advance
    | .eof => refuse (.endInBody f.name)
    | _ =>
      statement f (statements f fuel)
      statements f fuel

/-- The body of a function, from after its opening brace through its closing brace. -/
def functionBody (f : Enclosing) : PassM Unit := do
  statements f (← get).budget

end PassM

end SilFront
