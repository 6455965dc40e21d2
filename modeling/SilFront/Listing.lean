import SilFront.DataType

/-!
# Listings

A listing is what a program is compiled to: operations of a register machine, and notes that
say what was declared and where control flow begins. Every entry is one line of text, and operations
are indented by a tab.
-/

namespace SilFront

/-- A value that an operation reads. -/
inductive Value where
  | register (index : Nat)
  | number (value : Number)
  | string (text : String)
  | variable (name : String)
  /-- What the last call returned. -/
  | returned
deriving DecidableEq

namespace Value

/-- The text of a value. -/
def text : Value → String
  | .register index => s!"r{index}"
  | .number n => n.text
  | .string s => "\"" ++ Text.Quoted.encode s ++ "\""
  | .variable name => name
  | .returned => "rr"

/-- The value that a token stands for in an expression. -/
def ofToken? : Token → Option Value
  | .number n => some (.number n)
  | .string s => some (.string s)
  | .ident name => some (.variable name)
  | .returnValue => some .returned
  | _ => none

end Value

/-- The number of registers of the machine unless another is asked for. -/
def defaultRegisters : Nat :=
  16

/-- The operations of the register machine. -/
inductive Operation where
  /-- Puts a value into a register. -/
  | load (dest : Nat) (value : Value)
  /-- Puts the result of an operator on two registers into a register. -/
  | binary (dest lhs : Nat) (op : BinaryOp) (rhs : Nat)
  /-- Calls a function on the values pushed last. -/
  | call (function : String)
  /-- Pushes a value for a call. -/
  | push (value : Value)
deriving DecidableEq

/-- The text of an operation. -/
def Operation.text : Operation → String
  | .load dest value => s!"r{dest} = {value.text}"
  | .binary dest lhs op rhs => s!"r{dest} = r{lhs} {op.symbol} r{rhs}"
  | .call function => s!"call {function}"
  | .push value => s!"push({value.text})"

/-- The heads of branches and loops. -/
inductive Branch where
  | ifHead
  | elseIf
  | elseHead
  | whileLoop
  | forLoop
deriving DecidableEq, Repr

namespace Branch

/-- The words that open a branch or loop. -/
def words : Branch → String
  | .ifHead => "if"
  | .elseIf => "else if"
  | .elseHead => "else"
  | .whileLoop => "while"
  | .forLoop => "for"

/-- The text of the note on a branch or loop. -/
def text : Branch → String
  | .ifHead => "Generate if head"
  | .elseIf => "Generate else if head"
  | .elseHead => "Generate else head"
  | .whileLoop => "Generate while"
  | .forLoop => "Generate for"

end Branch

/-- The notes of a listing. -/
inductive Note where
  | functionCreated (name : String) (returns : ReturnType) (arity : Nat)
  | scopeChanged (depth : Nat)
  | argumentDeclared (name : String) (type : DataType) (depth : Nat)
  | variableDeclared (name : String) (type : DataType) (depth : Nat) (initialized : Bool)
  | packageCreated (name : String)
  | fieldAdded (package field : String) (type : DataType)
  | assigned (name : String)
  | returned (function : String) (withValue : Bool)
  | branch (head : Branch)
deriving DecidableEq

/-- The text of a note. -/
def Note.text : Note → String
  | .functionCreated name returns arity =>
    s!"Create function \"{name}\" with return value of type \"{returns.text}\" and {arity} arguments"
  | .scopeChanged depth => s!"Change scope to {depth}"
  | .argumentDeclared name type depth =>
    s!"Define new argument \"{name}\" of type \"{type.text}\" in scope {depth}"
  | .variableDeclared name type depth initialized =>
    s!"Define new variable \"{name}\" of type \"{type.text}\""
      ++ (if initialized then " and initialize with r0" else "") ++ s!" in scope {depth}"
  | .packageCreated name => s!"Create new package \"{name}\""
  | .fieldAdded package field type =>
    s!"Add item into package \"{package}\" <- \"{field}\" of type \"{type.text}\""
  | .assigned name => s!"Assign variable \"{name}\" a new value r0"
  | .returned function withValue =>
    s!"Return from function \"{function}\"" ++ (if withValue then " with r0" else "")
  | .branch head => head.text

/-- An entry of a listing. -/
inductive Entry where
  | operation (op : Operation)
  | note (content : Note)
deriving DecidableEq

namespace Entry

/-- The text of an entry. -/
def text : Entry → String
  | .operation op => op.text
  | .note n => n.text

/-- The line of an entry: operations are indented by a tab. -/
def line : Entry → String
  | .operation op => "\t" ++ op.text
  | .note n => n.text

/-- Whether an entry is a note. -/
def isNote : Entry → Bool
  | .operation _ => false
  | .note _ => true

/-- The operation of an entry. -/
def operation? : Entry → Option Operation
  | .operation op => some op
  | .note _ => none

end Entry

/-- A sequence of operations and notes. -/
structure Listing where
  entries : Array Entry
deriving DecidableEq

namespace Listing

/-- The listing without entries. -/
def empty : Listing :=
  ⟨#[]⟩

/-- The entries in order. -/
def toList (l : Listing) : List Entry :=
  l.entries.toList

/-- The number of entries. -/
def length (l : Listing) : Nat :=
  l.entries.size

/-- The listing with an entry at its end. -/
def push (l : Listing) (e : Entry) : Listing :=
  ⟨l.entries.push e⟩

/-- The listing with entries at its end. -/
def append (l : Listing) (es : List Entry) : Listing :=
  ⟨l.entries.appendList es⟩

/-- The first `n` entries of a listing. -/
def take (l : Listing) (n : Nat) : Listing :=
  ⟨l.entries.take n⟩

/-- The operations of a listing. -/
def operations (l : Listing) : List Operation :=
  l.toList.filterMap Entry.operation?

/-- The lines of a listing. -/
def lines (l : Listing) : List String :=
  l.toList.map Entry.line

/-- The text of a listing: every line with a newline after it. -/
def text (l : Listing) : String :=
  String.join (l.lines.map (· ++ "\n"))

@[simp]
theorem toList_empty :
  empty.toList = []
  := rfl

@[simp]
theorem toList_push (l : Listing) (e : Entry) :
  (l.push e).toList = l.toList ++ [e]
  := Array.toList_push

@[simp]
theorem toList_append (l : Listing) (es : List Entry) :
  (l.append es).toList = l.toList ++ es
  := by
  simp [toList, append]

@[simp]
theorem toList_take (l : Listing) (n : Nat) :
  (l.take n).toList = l.toList.take n
  := by
  simp [toList, take]

@[simp]
theorem length_toList (l : Listing) :
  l.toList.length = l.length
  := rfl

/-- Listings with the same entries in the same order are the same. -/
theorem ext_toList {l l' : Listing} (h : l.toList = l'.toList) :
  l = l'
  := by
  obtain ⟨es⟩ := l
  obtain ⟨es'⟩ := l'
  exact congrArg Listing.mk (Array.toList_inj.mp h)

end Listing

end SilFront
