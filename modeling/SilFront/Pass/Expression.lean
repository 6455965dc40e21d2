import SilFront.Expression.Code
import SilFront.Pass.Basic

/-!
# Expressions in a pass

An expression is read into a queue up to the first token that cannot belong to it, and compiled
then. A call inside it is compiled as soon as it is read: each argument is compiled and pushed, the
call follows, and the queue holds a stand-in for the value that it returns.

An expression that fails writes nothing.
-/

namespace SilFront.PassM

/-- A call of the function `name`, which stands at a location, from the opening parenthesis on. The
action `arguments` reads one argument or more and counts them. Answers what the function returns. -/
def callWith (arguments : PassM Nat) (name : String) (location : Location) :
    PassM ReturnType := do
  match (← symbols).functionNamed? name with
  | none => refuseAt (.undefinedFunction name) location
  | some f =>
    expect .lparen (.afterFunctionName name)
    let count ← if ← sees (.mark .rparen) then pure 0 else arguments
    expect .rparen (.afterArguments name)
    if count ≠ f.arity then refuseAt (.wrongArity name f.arity count) location
    emit [.call name]
    return f.returns

/-- The queue of the items that the action `read` collects, all of whose parentheses are closed. -/
def queueWith (read : PassM Yard) : PassM (List Item) := do
  let yard ← read
  if yard.unclosed ≠ 0 then refuse (.unclosedParentheses yard.unclosed)
  return yard.queue

/-- An expression whose queue the action `read` collects. -/
def expressionWith (read : PassM (List Item)) (slot : Slot) : PassM Unit :=
  transaction do
    let start := (← peek).location
    let items ← read
    if items.isEmpty then refuse (.missingExpression (← peek).value)
    let code ← check (Expression.compile items slot (← get).registers start)
    emit code

mutual

/-- Reads the items of an expression into a yard, in no more than the given number of steps. -/
def items : Nat → Yard → PassM Yard
  | 0, _ => refuse .stepLimit
  | fuel + 1, yard => do
    let next ← peek
    match next.value with
    | .number _ | .string _ =>
      advance
      items fuel (yard.operand next)
    | .ident name =>
      match (← symbols).kind? name with
      | some .variable =>
        advance
        items fuel (yard.operand next)
      | some .function =>
        advance
        let returns ← callWith (arguments fuel) name next.location
        if returns = .void then refuseAt (.voidOperand name) next.location
        items fuel (yard.operand ⟨.returnValue, next.location⟩)
      | _ => refuseAt (.undefinedName name) next.location
    | .mark .lparen =>
      advance
      items fuel yard.openParenthesis
    | .mark .rparen =>
      if yard.unclosed = 0 then return yard
      advance
      items fuel yard.closeParenthesis
    | token =>
      match token.operator? with
      | some op =>
        advance
        items fuel (yard.operator ⟨op, next.location⟩)
      | none => return yard

/-- Compiles and pushes arguments separated by commas, in no more than the given number of steps,
and counts them. -/
def arguments : Nat → PassM Nat
  | 0 => refuse .stepLimit
  | fuel + 1 => do
    expressionWith (queueWith (items fuel .empty)) .stack
    if ← accept (.mark .comma) then return (← arguments fuel) + 1
    else return 1

end

/-- The queue of an expression, up to the first token that cannot belong to it. -/
def queue : PassM (List Item) := do
  queueWith (items (← get).budget .empty)

/-- Compiles an expression, whose value is wanted in a slot. -/
def expression (slot : Slot) : PassM Unit :=
  expressionWith queue slot

/-- A call of the function `name`, which stands at a location, from the opening parenthesis on. -/
def call (name : String) (location : Location) : PassM ReturnType := do
  callWith (arguments (← get).budget) name location

end SilFront.PassM
