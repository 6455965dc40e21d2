import SilFront.Pass.Statement

/-!
# Programs in a pass

A program is a sequence of functions, packages and global variables.
-/

namespace SilFront

namespace PassM

/-- The type of an argument or a package field. -/
def itemType (items : ItemKind) : PassM ScalarType := do
  let next ← peek
  match next.value, ScalarType.ofToken? next.value with
  | .ident package, _ => refuse (.recordItem items package)
  | _, some type =>
    advance
    return type
  | found, none => refuse (.missingItemType items found)

/-! ### Functions -/

/-- The arguments of a function separated by commas, in no more than the given number of steps, and
their number. -/
def parameters (function : String) : Nat → PassM Nat
  | 0 => refuse .stepLimit
  | fuel + 1 => do
    let type := DataType.scalar (← itemType .argument)
    let name ← identifier
    declare name.location fun table => table.declareVariable name.value type
    declare name.location fun table => table.addArgument function type
    note (.argumentDeclared name.value type (← depth))
    if ← accept (.mark .comma) then return (← parameters function fuel) + 1
    else return 1

/-- The arguments of a function with the closing parenthesis, and their number. -/
def parameterList (function : String) : PassM Nat := do
  if ← accept (.mark .rparen) then return 0
  let count ← parameters function (← get).budget
  expect .rparen (.afterParameters function)
  return count

/-- The type that a function returns. -/
def returnType : PassM ReturnType := do
  let next ← peek
  match next.value, ReturnType.ofToken? next.value with
  | .ident package, _ => refuse (.recordResult package)
  | _, some type =>
    advance
    return type
  | found, none => refuse (.missingReturnType found)

/-- A function. It is visible from its name on, so that its body can call it. -/
def functionDeclaration : PassM Unit := do
  advance
  let ⟨name, location⟩ ← identifier
  declare location fun table => table.declareFunction name
  expect .lparen (.afterFunctionName name)
  enterScope
  let arity ← parameterList name
  expect .colon (.beforeReturnType name)
  let returns ← returnType
  declare location fun table => table.setReturnType name returns
  note (.functionCreated name returns arity)
  expect .lbrace (.openFunction name)
  functionBody ⟨name, returns⟩
  exitScope

/-! ### Packages -/

/-- The fields of a package with the closing brace, in no more than the given number of steps. -/
def fields (package : String) : Nat → PassM Unit
  | 0 => refuse .stepLimit
  | fuel + 1 => do
    if ← accept (.mark .rbrace) then return
    let type := DataType.scalar (← itemType .field)
    let ⟨field, location⟩ ← identifier
    declare location fun table => table.addField package field type
    note (.fieldAdded package field type)
    expect .semicolon .afterField
    fields package fuel

/-- A package, which has at least one field. -/
def packageDeclaration : PassM Unit := do
  advance
  let ⟨name, location⟩ ← identifier
  declare location fun table => table.declarePackage name
  note (.packageCreated name)
  expect .lbrace (.afterPackageName name)
  if ← sees (.mark .rbrace) then refuse (.emptyPackage name)
  fields name (← get).budget

/-! ### Programs -/

/-- A function, a package or a global variable. -/
def declaration : PassM Unit := do
  match (← peek).value with
  | .keyword .func => functionDeclaration
  | .keyword .pack => packageDeclaration
  | .keyword .byte => scalarVariable .byte
  | .keyword .int => scalarVariable .int
  | .keyword .float => scalarVariable .float
  | .keyword word => refuse (.keywordInGlobalScope (.keyword word))
  | .ident package => refuse (.globalRecord package)
  | found => refuse (.missingDeclaration found)

/-- Declarations up to the end of the text, in no more than the given number of steps. -/
def declarations : Nat → PassM Unit
  | 0 => refuse .stepLimit
  | fuel + 1 => do
    if ← sees .eof then return
    declaration
    declarations fuel

/-- A whole program. -/
def program : PassM Unit := do
  declarations (← get).budget

end PassM

/-- Compiles a program for a machine with a number of registers. -/
def compile (source : String) (registers : Nat) : Except Diagnostic Listing := do
  let start ← Pass.start source registers
  match start.run PassM.program with
  | (.ok _, finish) => return finish.listing
  | (.error e, _) => throw e

end SilFront
