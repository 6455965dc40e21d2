import SilFront.Listing
import SilFront.Location
import SilFront.SymbolTable
import SilFront.Token.Error

/-!
# Diagnostics

The reasons for which a program is refused, each with the location that is blamed. A lexical error
comes from reading a token; every other reason is a syntax error, which breaks a rule of the grammar
or a rule about names, types or expressions.
-/

namespace SilFront

/-- The categories of syntax errors. -/
inductive ErrorKind where
  | unexpectedToken
  | redefinition
  | undefinedReference
  | typeMismatch
  | arityMismatch
  | divideByZero
  | tooComplex
  | bracketBalance
  | malformedExpression
  | unsupported
deriving DecidableEq, Repr

/-- The name of a category. -/
def ErrorKind.text : ErrorKind → String
  | .unexpectedToken => "unexpected token"
  | .redefinition => "redefinition"
  | .undefinedReference => "undefined reference"
  | .typeMismatch => "type mismatch"
  | .arityMismatch => "arity mismatch"
  | .divideByZero => "divide by zero"
  | .tooComplex => "expression too complex"
  | .bracketBalance => "bracket balance"
  | .malformedExpression => "malformed expression"
  | .unsupported => "unsupported"

/-- The places of the grammar where one certain mark has to stand. -/
inductive Place where
  | afterFunctionName (function : String)
  | afterParameters (function : String)
  | beforeReturnType (function : String)
  | openFunction (function : String)
  | afterPackageName (package : String)
  | afterField
  | afterDeclaration (name : String)
  | afterArguments (function : String)
  | afterHead (head : Branch)
  | afterCondition (head : Branch)
  | openBranch (head : Branch)
  | afterForStart
  | afterForStep
  | afterReturnValue
  | afterAssignment (name : String)
  | afterCall (function : String)
deriving DecidableEq, Repr

/-- The wording of a place. -/
def Place.text : Place → String
  | .afterFunctionName f => s!"after function name '{f}'"
  | .afterParameters f => s!"after arguments of function '{f}'"
  | .beforeReturnType f => s!"before return type of function '{f}'"
  | .openFunction f => s!"to open body of function '{f}'"
  | .afterPackageName p => s!"after package name '{p}'"
  | .afterField => "after package item"
  | .afterDeclaration v => s!"after declaration of '{v}'"
  | .afterArguments f => s!"after arguments of call to '{f}'"
  | .afterHead b => s!"after '{b.words}'"
  | .afterCondition b => s!"after '{b.words}' condition"
  | .openBranch b => s!"to open '{b.words}' body"
  | .afterForStart => "after first 'for' expression"
  | .afterForStep => "after 'for' step"
  | .afterReturnValue => "after return value"
  | .afterAssignment v => s!"after assignment to '{v}'"
  | .afterCall f => s!"after call to '{f}'"

/-- The things whose type has to be scalar. -/
inductive ItemKind where
  | argument
  | field
deriving DecidableEq, Repr

/-- The word for several things of a kind. -/
def ItemKind.text : ItemKind → String
  | .argument => "arguments"
  | .field => "package items"

/-- The reasons for which a program is refused, lexical ones aside. -/
inductive SyntaxError where
  | missingMark (mark : Mark) (place : Place) (found : Token)
  | missingIdentifier (found : Token)
  | missingDeclaration (found : Token)
  | missingStatement (found : Token)
  | missingItemType (items : ItemKind) (found : Token)
  | missingReturnType (found : Token)
  | missingContinuation (name : String) (found : Token)
  | keywordInGlobalScope (found : Token)
  | keywordInBody (found : Token)
  | elseWithoutIf
  | endInBody (function : String)
  | emptyPackage (package : String)
  | globalRecord (package : String)
  | recordItem (items : ItemKind) (package : String)
  | recordResult (package : String)
  | symbol (cause : SymbolError)
  | undefinedName (name : String)
  | undefinedFunction (name : String)
  | undefinedPackage (name : String)
  | undefinedTarget (name : String)
  | voidOperand (function : String)
  | voidReturnsValue (function : String)
  | wrongArity (function : String) (expected found : Nat)
  | divideByZero
  | tooManyValues (registers : Nat)
  | unclosedParentheses (count : Nat)
  | missingExpression (found : Token)
  | unexpectedOperand (found : Token)
  | missingOperands (op : BinaryOp)
  | missingOperator
  | emptyExpression
  /-- The bound on the number of steps is used up. The bound is chosen so that this never
  happens. -/
  | stepLimit
deriving DecidableEq

namespace SyntaxError

/-- The category of a syntax error. -/
def kind : SyntaxError → ErrorKind
  | .globalRecord _ | .recordItem .. | .recordResult _ | .stepLimit => .unsupported
  | .symbol (.unknown ..) => .undefinedReference
  | .symbol _ => .redefinition
  | .undefinedName _ | .undefinedFunction _ | .undefinedPackage _ | .undefinedTarget _ =>
    .undefinedReference
  | .voidOperand _ | .voidReturnsValue _ => .typeMismatch
  | .wrongArity .. => .arityMismatch
  | .divideByZero => .divideByZero
  | .tooManyValues _ => .tooComplex
  | .unclosedParentheses _ => .bracketBalance
  | .missingExpression _ | .unexpectedOperand _ | .missingOperands _ | .missingOperator
  | .emptyExpression => .malformedExpression
  | _ => .unexpectedToken

/-- The wording of a syntax error. -/
def message : SyntaxError → String
  | .missingMark mark place found =>
    s!"Expected '{mark.text}' {place.text}, found {found.describe}"
  | .missingIdentifier found => s!"Expected identifier, found {found.describe}"
  | .missingDeclaration found => s!"Expected declaration, found {found.describe}"
  | .missingStatement found => s!"Expected statement, found {found.describe}"
  | .missingItemType items found => s!"Expected type of {items.text}, found {found.describe}"
  | .missingReturnType found => s!"Unexpected function return type, found {found.describe}"
  | .missingContinuation name found =>
    s!"Expected '=', '(' or a variable name after '{name}', found {found.describe}"
  | .keywordInGlobalScope found => s!"Unexpected keyword {found.describe} in the global scope"
  | .keywordInBody found => s!"Unexpected keyword {found.describe} in function body"
  | .elseWithoutIf => "'else' without a matching 'if'"
  | .endInBody function => s!"Unexpected end of file in body of function '{function}'"
  | .emptyPackage package => s!"Expected at least one item in package [{package}]"
  | .globalRecord package =>
    s!"Record variables can only be declared inside a function body [{package}]"
  | .recordItem items package =>
    s!"Using packages as {items.text} is not yet implemented [{package}]"
  | .recordResult package => s!"Returning packages is not yet implemented [{package}]"
  | .symbol cause => cause.message
  | .undefinedName name => s!"Referring to a variable or function that doesn't exist [{name}]"
  | .undefinedFunction name => s!"Call to undefined function [{name}]"
  | .undefinedPackage name => s!"Using undefined package [{name}]"
  | .undefinedTarget name => s!"Cannot assign expression to an undefined variable [{name}]"
  | .voidOperand function =>
    s!"Function '{function}' returns void and cannot be used in an expression"
  | .voidReturnsValue function => s!"Cannot return a value from void function '{function}'"
  | .wrongArity function expected found =>
    s!"Function '{function}' expects {expected} arguments, got {found}"
  | .divideByZero => "Cannot divide by zero"
  | .tooManyValues registers =>
    s!"Expression is too complex: more than {registers} values live at once"
  | .unclosedParentheses count => s!"Invalid balance of parentheses: {count} left unclosed"
  | .missingExpression found => s!"Expected expression, found {found.describe}"
  | .unexpectedOperand found => s!"Unexpected {found.describe} in expression"
  | .missingOperands op => s!"Expected 2 arguments for operation '{op.symbol}'"
  | .missingOperator => "Expected operator between operands"
  | .emptyExpression => "Expected expression"
  | .stepLimit => "Too many steps"

end SyntaxError

/-- A reason for which a program is refused. -/
inductive Problem where
  | lexical (cause : LexicalError)
  | grammatical (cause : SyntaxError)
deriving DecidableEq

/-- The wording of a reason. -/
def Problem.message : Problem → String
  | .lexical cause => cause.message
  | .grammatical cause => cause.message

/-- The category of a reason, if it is a syntax error. -/
def Problem.kind? : Problem → Option ErrorKind
  | .lexical _ => none
  | .grammatical cause => some cause.kind

/-- A reason for which a program is refused, with the location that is blamed. -/
abbrev Diagnostic :=
  Located Problem

namespace Diagnostic

/-- The diagnostic of a lexical error. -/
def ofLexical (e : Located LexicalError) : Diagnostic :=
  e.map .lexical

/-- The diagnostic of a syntax error. -/
def ofSyntax (e : Located SyntaxError) : Diagnostic :=
  e.map .grammatical

/-- The wording of a diagnostic, with its location. -/
def describe (d : Diagnostic) : String :=
  match d.value with
  | .lexical cause => s!"Lexer error at {d.location.describe}: {cause.message}"
  | .grammatical cause => s!"Syntax error at {d.location.describe}: {cause.message}"

end Diagnostic

end SilFront
