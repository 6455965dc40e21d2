import SilFront.DataType

/-!
# Symbol tables

A table holds the names that are visible at one point of a program. Variables, functions and
packages share one name space: a name denotes at most one of them. Variables live in nested scopes.
The global scope is always there; leaving any other scope forgets exactly the variables declared
in it, while functions and packages stay.
-/

namespace SilFront

/-- The kinds of things that a name can denote. -/
inductive SymbolKind where
  | variable
  | function
  | package
deriving DecidableEq, Repr

/-- The word for a kind of thing. -/
def SymbolKind.text : SymbolKind → String
  | .variable => "variable"
  | .function => "function"
  | .package => "package"

/-- The reasons for which a table refuses a change. -/
inductive SymbolError where
  | redefined (kind : SymbolKind) (name : String)
  | nameClash (declaring existing : SymbolKind) (name : String)
  | fieldRedefined (package field : String)
  | unknown (kind : SymbolKind) (name : String)
deriving DecidableEq, Repr

/-- The wording of a refusal. -/
def SymbolError.message : SymbolError → String
  | .redefined kind name => s!"Cannot redefine {kind.text} [{name}]"
  | .nameClash declaring existing name =>
    s!"Cannot define {declaring.text} with same name as {existing.text} [{name}]"
  | .fieldRedefined package field =>
    s!"Cannot have same identifier for two package items [{field}] in package [{package}]"
  | .unknown kind name => s!"Unknown {kind.text} [{name}]"

/-- A variable, argument or record with the depth of the scope it was declared in. -/
structure Variable where
  name : String
  type : DataType
  depth : Nat
deriving DecidableEq, Repr

/-- A function with the types of its arguments and of its result. -/
structure Function where
  name : String
  arguments : List DataType
  returns : ReturnType
deriving DecidableEq, Repr

/-- The number of arguments of a function. -/
def Function.arity (f : Function) : Nat :=
  f.arguments.length

/-- A field of a package. -/
structure Field where
  name : String
  type : DataType
deriving DecidableEq, Repr

/-- A package with its fields in the order of their declaration. -/
structure Package where
  name : String
  fields : List Field
deriving DecidableEq, Repr

/-- The field of a package with a name. -/
def Package.field? (p : Package) (name : String) : Option Field :=
  p.fields.find? fun f => f.name = name

/-- The variables of one scope in the order of their declaration. -/
abbrev Scope :=
  List Variable

/-- The names that are visible at one point of a program. -/
structure SymbolTable where
  /-- The variables of the global scope. -/
  globals : Scope
  /-- The other open scopes, the innermost first. -/
  blocks : List Scope
  functions : List Function
  packages : List Package
deriving DecidableEq, Repr

namespace SymbolTable

/-- The table without names, in the global scope. -/
def empty : SymbolTable :=
  ⟨[], [], [], []⟩

/-- The depth of the innermost scope; that of the global scope is zero. -/
def depth (t : SymbolTable) : Nat :=
  t.blocks.length

/-- The open scopes, the innermost first. -/
def scopes (t : SymbolTable) : List Scope :=
  t.blocks ++ [t.globals]

/-- The visible variables, those of the innermost scope first. -/
def visible (t : SymbolTable) : List Variable :=
  t.scopes.flatten

/-! ### Looking names up -/

/-- The visible variable with a name. -/
def variableNamed? (t : SymbolTable) (name : String) : Option Variable :=
  t.visible.find? fun v => v.name = name

/-- The function with a name. -/
def functionNamed? (t : SymbolTable) (name : String) : Option Function :=
  t.functions.find? fun f => f.name = name

/-- The package with a name. -/
def packageNamed? (t : SymbolTable) (name : String) : Option Package :=
  t.packages.find? fun p => p.name = name

/-- The kind of thing that a name denotes. -/
def kind? (t : SymbolTable) (name : String) : Option SymbolKind :=
  if (t.variableNamed? name).isSome then some .variable
  else if (t.functionNamed? name).isSome then some .function
  else if (t.packageNamed? name).isSome then some .package
  else none

/-- Succeeds if a name denotes nothing, so that it may come to denote a thing of a kind. -/
def ensureFree (t : SymbolTable) (declaring : SymbolKind) (name : String) :
    Except SymbolError Unit :=
  match t.kind? name with
  | none => .ok ()
  | some existing =>
    if existing = declaring then .error (.redefined declaring name)
    else .error (.nameClash declaring existing name)

/-! ### Scopes -/

/-- The table in a new innermost scope. -/
def enter (t : SymbolTable) : SymbolTable :=
  { t with blocks := [] :: t.blocks }

/-- The variables forgotten by leaving the innermost scope. -/
def leaving (t : SymbolTable) : Scope :=
  t.blocks.headD []

/-- The table after leaving the innermost scope; the global scope is never left. -/
def exit (t : SymbolTable) : SymbolTable :=
  { t with blocks := t.blocks.tail }

@[simp]
theorem depth_enter (t : SymbolTable) :
  t.enter.depth = t.depth + 1
  := rfl

@[simp]
theorem visible_enter (t : SymbolTable) :
  t.enter.visible = t.visible
  := rfl

/-- Leaving a scope right after entering it changes nothing. -/
@[simp]
theorem exit_enter (t : SymbolTable) :
  t.enter.exit = t
  := rfl

/-- Leaving a scope forgets the variables declared in it, and no others. -/
theorem visible_eq_leaving_append (t : SymbolTable) :
  t.visible = t.leaving ++ t.exit.visible
  := by
  obtain ⟨globals, blocks, functions, packages⟩ := t
  cases blocks <;> rfl

/-! ### Declarations -/

/-- The table with a variable at the end of the innermost scope. -/
def addVariable (t : SymbolTable) (v : Variable) : SymbolTable :=
  match t.blocks with
  | [] => { t with globals := t.globals ++ [v] }
  | block :: outer => { t with blocks := (block ++ [v]) :: outer }

@[simp]
theorem depth_addVariable (t : SymbolTable) (v : Variable) :
  (t.addVariable v).depth = t.depth
  := by
  obtain ⟨globals, blocks, functions, packages⟩ := t
  cases blocks <;> rfl

/-- A variable that is added becomes visible, and the others stay so. -/
theorem mem_visible_addVariable {t : SymbolTable} {v w : Variable} :
  w ∈ (t.addVariable v).visible ↔ w = v ∨ w ∈ t.visible
  := by
  obtain ⟨globals, blocks, functions, packages⟩ := t
  cases blocks with
  | nil =>
    simp only [visible, scopes, addVariable, List.nil_append, List.flatten_cons, List.flatten_nil,
      List.append_nil, List.mem_append, List.mem_singleton]
    exact or_comm
  | cons block outer =>
    simp only [visible, scopes, addVariable, List.cons_append, List.flatten_cons, List.mem_append,
      List.mem_singleton]
    rw [or_comm (a := w ∈ block), or_assoc]

/-- Declares a variable in the innermost scope. -/
def declareVariable (t : SymbolTable) (name : String) (type : DataType) :
    Except SymbolError SymbolTable := do
  t.ensureFree .variable name
  return t.addVariable ⟨name, type, t.depth⟩

/-- Declares a function, which has no arguments and returns nothing for the time being. -/
def declareFunction (t : SymbolTable) (name : String) : Except SymbolError SymbolTable := do
  t.ensureFree .function name
  return { t with functions := t.functions ++ [⟨name, [], .void⟩] }

/-- Changes the function with a name. -/
def updateFunction (t : SymbolTable) (name : String) (change : Function → Function) :
    Except SymbolError SymbolTable :=
  match t.functionNamed? name with
  | none => .error (.unknown .function name)
  | some _ =>
    .ok { t with functions := t.functions.map fun f => if f.name = name then change f else f }

/-- Adds an argument to a function. -/
def addArgument (t : SymbolTable) (function : String) (type : DataType) :
    Except SymbolError SymbolTable :=
  t.updateFunction function fun f => { f with arguments := f.arguments ++ [type] }

/-- Fixes what a function returns. -/
def setReturnType (t : SymbolTable) (function : String) (type : ReturnType) :
    Except SymbolError SymbolTable :=
  t.updateFunction function fun f => { f with returns := type }

/-- Declares a package, which has no fields for the time being. -/
def declarePackage (t : SymbolTable) (name : String) : Except SymbolError SymbolTable := do
  t.ensureFree .package name
  return { t with packages := t.packages ++ [⟨name, []⟩] }

/-- Adds a field to a package. -/
def addField (t : SymbolTable) (package field : String) (type : DataType) :
    Except SymbolError SymbolTable :=
  match t.packageNamed? package with
  | none => .error (.unknown .package package)
  | some p =>
    if (p.field? field).isSome then .error (.fieldRedefined package field)
    else .ok { t with packages := t.packages.map fun p =>
      if p.name = package then { p with fields := p.fields ++ [⟨field, type⟩] } else p }

end SymbolTable

end SilFront
