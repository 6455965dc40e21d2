import SilFront.Proofs.Compilation

/-!
# What is written, section by section

`Section.Written` is a run over the sections that are written for a program, with the table of the
names that are visible before each of them. A note changes the table as `Note.Acts` says, and the
other sections leave it as it is. A note that speaks of register zero is taken in one step with the
expression before it.

The sections of every program that keeps the static rules are such a run
(`Program.Checks.written`), so what every step keeps holds all along the listing. A `Replay` reads
the same listing without the table.
-/

namespace SilFront

/-- Whether a note speaks of the value in register zero. -/
def Note.usesResult : Note → Bool
  | .variableDeclared _ _ _ initialized => initialized
  | .assigned _ => true
  | .returned _ withValue => withValue
  | .branch head => head ≠ .elseHead
  | _ => false

/-- The visible names before and after a note. -/
inductive Note.Acts : SymbolTable → Note → SymbolTable → Prop
  | enter {T : SymbolTable} : Acts T (.scopeChanged (T.depth + 1)) T.enter
  | exit {T : SymbolTable} (inside : 0 < T.depth) : Acts T (.scopeChanged T.exit.depth) T.exit
  | argument {T : SymbolTable} {name : String} {type : ScalarType} (free : T.kind? name = none) :
      Acts T (.argumentDeclared name (.scalar type) T.depth) (T.withVariable name (.scalar type))
  | scalar {T : SymbolTable} {name : String} {type : ScalarType} {initialized : Bool}
      (free : T.kind? name = none) :
      Acts T (.variableDeclared name (.scalar type) T.depth initialized)
        (T.withVariable name (.scalar type))
  | record {T : SymbolTable} {package name : String} {p : Package}
      (declared : T.packageNamed? package = some p) (free : T.kind? name = none) :
      Acts T (.variableDeclared name (.record package) T.depth false)
        (T.withVariable name (.record package))
  | function {T : SymbolTable} {g : Function} (free : T.kind? g.name = none) :
      Acts T (.functionCreated g.name g.returns g.arity) (T.addFunction g)
  | package {T : SymbolTable} {p : Package} (free : T.kind? p.name = none) :
      Acts T (.packageCreated p.name) (T.addPackage p)
  | field {T : SymbolTable} {package name : String} {type : DataType} :
      Acts T (.fieldAdded package name type) T
  | assigned {T : SymbolTable} {name : String} (visible : T.kind? name = some .variable) :
      Acts T (.assigned name) T
  | returned {T : SymbolTable} {g : Function} {withValue : Bool}
      (latest : T.functions.getLast? = some g) (value : withValue = true → g.returns ≠ .void) :
      Acts T (.returned g.name withValue) T
  | branch {T : SymbolTable} {head : Branch} : Acts T (.branch head) T

/-- A run over sections, with the visible names before and after it. -/
inductive Section.Written (A : Acceptance) : SymbolTable → List Section → SymbolTable → Prop
  | nil {T : SymbolTable} : Written A T [] T
  | expression {T T' : SymbolTable} {e : Outline} {follower : Token} {rest : List Section}
      (accepted : A T .register follower e) (more : Written A T rest T') :
      Written A T (.expression e :: rest) T'
  | result {T T' T'' : SymbolTable} {e : Outline} {follower : Token} {n : Note}
      {rest : List Section} (accepted : A T .register follower e) (uses : n.usesResult = true)
      (acts : n.Acts T T') (more : Written A T' rest T'') :
      Written A T (.expression e :: .note n :: rest) T''
  | note {T T' T'' : SymbolTable} {n : Note} {rest : List Section} (plain : n.usesResult = false)
      (acts : n.Acts T T') (more : Written A T' rest T'') : Written A T (.note n :: rest) T''
  | call {T T' : SymbolTable} {function : String} {g : Function} {arguments : List Outline}
      {rest : List Section} (declared : T.functionNamed? function = some g)
      (arity : arguments.length = g.arity) (accepted : Outline.Arguments A T arguments)
      (more : Written A T rest T') : Written A T (.call function arguments :: rest) T'

namespace SymbolTable

variable {T : SymbolTable}

/-! ### Free names -/

/-- No variable is found exactly if no visible one has the name. -/
theorem variableNamed?_eq_none_iff {name : String} :
  T.variableNamed? name = none ↔ ∀ v ∈ T.visible, v.name ≠ name
  := by
  simp [variableNamed?]

@[simp]
theorem functions_withVariable (T : SymbolTable) (name : String) (type : DataType) :
  (T.withVariable name type).functions = T.functions
  := by
  obtain ⟨globals, _ | ⟨block, blocks⟩, functions, packages⟩ := T <;> rfl

@[simp]
theorem packages_withVariable (T : SymbolTable) (name : String) (type : DataType) :
  (T.withVariable name type).packages = T.packages
  := by
  obtain ⟨globals, _ | ⟨block, blocks⟩, functions, packages⟩ := T <;> rfl

/-- A name is free after a declaration of a variable if it was free and is not that of the
variable. -/
theorem kind?_withVariable_eq_none_iff {x name : String} {type : DataType} :
  (T.withVariable x type).kind? name = none ↔ T.kind? name = none ∧ x ≠ name
  := by
  have hvariable : (T.withVariable x type).variableNamed? name = none ↔
      T.variableNamed? name = none ∧ x ≠ name := by
    simp only [variableNamed?_eq_none_iff, withVariable, mem_visible_addVariable, forall_eq_or_imp]
    apply and_comm
  simp only [kind?_eq_none_iff, hvariable, functionNamed?, packageNamed?, functions_withVariable,
    packages_withVariable]
  grind

/-- A name is free with one more function exactly if it was free and is not that of the function. -/
theorem kind?_addFunction_eq_none_iff {g : Function} {name : String} :
  (T.addFunction g).kind? name = none ↔ T.kind? name = none ∧ g.name ≠ name
  := by
  have hfunction : (T.addFunction g).functionNamed? name = none ↔
      T.functionNamed? name = none ∧ g.name ≠ name := by
    simp [functionNamed?, addFunction]
  have hvariable : (T.addFunction g).variableNamed? name = T.variableNamed? name := rfl
  have hpackage : (T.addFunction g).packageNamed? name = T.packageNamed? name := rfl
  simp only [kind?_eq_none_iff, hfunction, hvariable, hpackage]
  grind

/-- Parameters that are free beside a function are free without it, and differ from it. -/
theorem parametersFree_addFunction_iff {g : Function} {items : List TypedName} :
  (T.addFunction g).ParametersFree items ↔
    T.ParametersFree items ∧ ∀ item ∈ items, item.name ≠ g.name
  := by
  induction items generalizing T with
  | nil => simp [ParametersFree]
  | cons item items ih =>
    simp only [ParametersFree, kind?_addFunction_eq_none_iff, withVariable_addFunction, ih,
      List.forall_mem_cons]
    grind

/-- A name remains free with arguments of other names. -/
theorem kind?_withParameters_eq_none {name : String} {items : List TypedName}
    (h : T.kind? name = none) (hitems : ∀ item ∈ items, item.name ≠ name) :
  (T.withParameters items).kind? name = none
  := by
  induction items generalizing T with
  | nil => exact h
  | cons item items ih =>
    obtain ⟨hfirst, hrest⟩ := List.forall_mem_cons.mp hitems
    apply ih _ hrest
    apply kind?_withVariable_eq_none_iff.mpr ⟨h, hfirst⟩

end SymbolTable

/-! ### Runs for the parts of a program -/

namespace Section.Written

variable {A : Acceptance} {T T' T'' : SymbolTable}

/-- Sections in turn are written from the table that the earlier ones lead to. -/
theorem append {first second : List Section} (h : Written A T first T')
    (h' : Written A T' second T'') :
  Written A T (first ++ second) T''
  := by
  induction h with
  | nil => exact h'
  | expression accepted _ ih => apply expression accepted (ih h')
  | result accepted uses acts _ ih => apply result accepted uses acts (ih h')
  | note plain acts _ ih => apply note plain acts (ih h')
  | call declared arity accepted _ ih => apply call declared arity accepted (ih h')

/-- A block is entered and left. -/
theorem block {statements : List Section} (h : Written A T.enter statements T')
    (hdepth : T'.depth = T.depth + 1) (hexit : T'.exit.depth = T.depth) :
  Written A T (blockSections T.depth statements) T'.exit
  := by
  apply note rfl .enter
  apply h.append
  rw [← hexit]
  apply note rfl (.exit (by omega)) .nil

/-- The sections of arguments lead to the table with these arguments. -/
theorem parameters {items : List TypedName} (h : T.ParametersFree items) :
  Written A T (items.map (TypedName.parameterSection T.depth)) (T.withParameters items)
  := by
  induction items generalizing T with
  | nil => apply nil
  | cons item items ih =>
    obtain ⟨hfree, hrest⟩ := h
    have hmore := ih hrest
    rw [SymbolTable.depth_withVariable] at hmore
    apply note rfl (.argument hfree) hmore

/-- The sections of fields keep the table that has the package already. -/
theorem fields (package : String) (items : List TypedName) :
  Written A T (items.map (TypedName.fieldSection package)) T
  := by
  induction items with
  | nil => apply nil
  | cons item items ih => apply note rfl .field ih

/-- A declaration of a scalar variable, with or without a value. -/
theorem scalar {type : ScalarType} {name : String} {value : Option Outline}
    (haccepted : ∀ e ∈ value, A T .register (.mark .semicolon) e) (hfree : T.kind? name = none) :
  Written A T (variableSections T.depth type name value) (T.withVariable name (.scalar type))
  := by
  cases value with
  | none => apply note rfl (.scalar hfree) .nil
  | some e => apply result (haccepted e rfl) rfl (.scalar hfree) .nil

end Section.Written

namespace Construct.Checks

open Section

variable {A : Acceptance} {f : Enclosing} {k : Part} {T T' : SymbolTable} {c : Construct k}

/-- No statement declares a function. -/
theorem functions_eq (h : c.Checks A f T T') :
  T'.functions = T.functions
  := by
  induction h with
  | scalar => apply SymbolTable.functions_withVariable
  | record => apply SymbolTable.functions_withVariable
  | more _ _ ih ih' => apply ih'.trans ih
  | _ => rfl

/-- A body in a scope of its own makes a block. -/
theorem written_block {b : Construct .body} (h : b.Checks A f T.enter T')
    (hwritten : Written A T.enter (b.sections f T.enter.depth) T') :
  Written A T (blockSections T.depth (b.sections f (T.depth + 1))) T
  := by
  have hexit := h.exit_of_enter
  have hblock := hwritten.block h.depth_eq (by rw [hexit])
  rwa [hexit] at hblock

/-- What is written for the statements of the latest function is a run. -/
theorem written (h : c.Checks A f T T') :
  ∀ {g : Function}, T.functions.getLast? = some g → g.name = f.name → g.returns = f.returns →
    Written A T (c.sections f T.depth) T'
  := by
  induction h with
  | scalar accepted free =>
    intro g _ _ _
    apply Written.scalar accepted free
  | assignment visible accepted =>
    intro g _ _ _
    apply Written.result accepted rfl (.assigned visible) .nil
  | call declared arity accepted =>
    intro g _ _ _
    apply Written.call declared arity accepted .nil
  | record declared free =>
    intro g _ _ _
    apply Written.note rfl (.record declared free) .nil
  | @returning T value accepted =>
    intro g hlatest hname hreturns
    rw [sections, ← hname]
    cases value with
    | none => apply Written.note rfl (.returned hlatest (by simp)) .nil
    | some e =>
      obtain ⟨hvoid, he⟩ := accepted e rfl
      apply Written.result he rfl (.returned hlatest (by simpa [hreturns] using hvoid)) .nil
  | branch accepted block _ ih ih' =>
    intro g hlatest hname hreturns
    apply Written.result accepted rfl .branch
    apply (block.written_block (ih hlatest hname hreturns)).append (ih' hlatest hname hreturns)
  | whileLoop accepted block ih =>
    intro g hlatest hname hreturns
    apply Written.result accepted rfl .branch
    apply block.written_block (ih hlatest hname hreturns)
  | forLoop acceptedStart acceptedCondition acceptedStep block ih =>
    intro g hlatest hname hreturns
    apply Written.expression acceptedStart
    apply Written.expression acceptedCondition
    apply Written.result acceptedStep rfl .branch
    apply block.written_block (ih hlatest hname hreturns)
  | close =>
    intro g _ _ _
    apply Written.nil
  | more statement _ ih ih' =>
    intro g hlatest hname hreturns
    rw [← statement.functions_eq] at hlatest
    have hrest := ih' hlatest hname hreturns
    rw [statement.functions_eq] at hlatest
    rw [statement.depth_eq] at hrest
    apply (ih hlatest hname hreturns).append hrest
  | done =>
    intro g _ _ _
    apply Written.nil
  | elseIf accepted block _ ih ih' =>
    intro g hlatest hname hreturns
    apply Written.result accepted rfl .branch
    apply (block.written_block (ih hlatest hname hreturns)).append (ih' hlatest hname hreturns)
  | otherwise block ih =>
    intro g hlatest hname hreturns
    apply Written.note rfl .branch
    apply block.written_block (ih hlatest hname hreturns)

end Construct.Checks

open Section

/-- What is written for a declaration is a run. A function comes into the table with the note on it,
after its parameters. -/
theorem Declaration.Checks.written {A : Acceptance} {T T' : SymbolTable} {d : Declaration}
    (h : d.Checks A T T') :
  Written A T (d.sections T.depth) T'
  := by
  cases h with
  | global accepted free => apply Written.scalar accepted free
  | @package name items free nonempty distinct =>
    apply Written.note rfl (.package (p := TypedName.package name items) free)
    apply Written.fields
  | @function T' name items returns b free arguments statements =>
    have hscope : (T.addFunction (TypedName.function name items returns)).enter =
        T.enter.addFunction (TypedName.function name items returns) := rfl
    rw [hscope, SymbolTable.parametersFree_addFunction_iff] at arguments
    rw [hscope, SymbolTable.withParameters_addFunction] at statements
    obtain ⟨hitems, hdiffer⟩ := arguments
    have hexit : T'.exit = T.addFunction (TypedName.function name items returns) := by
      rw [statements.exit_eq (by simp), ← SymbolTable.withParameters_addFunction,
        SymbolTable.exit_withParameters (by simp)]
      rfl
    have hfree : (T.enter.withParameters items).kind? name = none := by
      apply SymbolTable.kind?_withParameters_eq_none (T := T.enter) free hdiffer
    have hbody := statements.written (g := TypedName.function name items returns)
      (by simp [SymbolTable.addFunction]) rfl rfl
    have hinner := (Written.parameters (A := A) hitems).append (.note rfl
      (.function (g := TypedName.function name items returns) hfree) hbody)
    have hblock := hinner.block (by simp [statements.depth_eq]) (by simp [hexit])
    rw [hexit] at hblock
    simpa [Declaration.sections, TypedName.function, Function.arity] using hblock

/-- The sections of a checked program lead through its tables. -/
theorem Program.Checks.written {A : Acceptance} {T T' : SymbolTable} {program : Program}
    (h : program.Checks A T T') :
  Written A T (program.sections T.depth) T'
  := by
  induction h with
  | nil => apply Written.nil
  | cons declaration _ ih =>
    rw [declaration.depth_eq] at ih
    apply declaration.written.append ih

/-- Arguments of outlines that compile are outlines that compile. -/
theorem Outline.Arguments.compiles {T : SymbolTable} {registers : Nat} :
  ∀ {arguments : List Outline}, Arguments (Compiled registers) T arguments →
    ∀ e ∈ arguments, e.Compiles T registers .stack .empty
  | [], _ => by simp
  | [e], h => List.forall_mem_singleton.mpr h.1
  | _ :: _ :: _, ⟨h, hrest⟩ => List.forall_mem_cons.mpr ⟨h.1, hrest.compiles⟩

/-- A program as a source spells it, for a machine with a number of registers: its tokens are those
of the source, it keeps the static rules, and its expressions compile. -/
def Program.SpelledBy (source : String) (registers : Nat) (program : Program) : Prop :=
  ∃ tokens T, tokenize source = .ok tokens ∧
    tokens.map Located.value = program.tokens ++ [.eof] ∧
    program.Checks (Outline.Compiled registers) .empty T

/-- What is compiled is written for a program that the source spells. -/
theorem exists_spelledBy_of_compile {source : String} {registers : Nat} {listing : Listing}
    (h : compile source registers = .ok listing) :
  ∃ program : Program, program.SpelledBy source registers ∧
    listing.toList = Section.all (program.sections 0)
  := by
  obtain ⟨tokens, program, T, htokens, hprogram, hchecks, hlisting⟩ :=
    (compile_eq_ok_iff_of_exact (Outline.exact_compiled registers)).mp h
  exact ⟨program, ⟨tokens, T, htokens, hprogram, hchecks⟩, hlisting⟩

/-- The sections of a program that is compiled from a text lead from the empty table to another. -/
theorem Program.SpelledBy.written {source : String} {registers : Nat} {program : Program}
    (h : program.SpelledBy source registers) :
  ∃ T, Written (Outline.Compiled registers) .empty (program.sections 0) T
  := by
  obtain ⟨tokens, T, -, -, hchecks⟩ := h
  exact ⟨T, hchecks.written⟩

/-! ### Replays -/

/-- A way to read a listing from left to right: what is known after an entry, and what is asked of
an entry where it stands. -/
structure Replay (σ : Type) where
  after : σ → Entry → σ
  Allows : σ → Entry → Prop

namespace Replay

variable {σ : Type} {R : Replay σ} {s s' s'' : σ}

/-- What is known after some entries. -/
def state (R : Replay σ) (s : σ) (entries : List Entry) : σ :=
  entries.foldl R.after s

/-- Entries that are all allowed where they stand, with what is known before and after them. -/
inductive Leads (R : Replay σ) : σ → List Entry → σ → Prop
  | nil {s : σ} : Leads R s [] s
  | cons {s s' : σ} {entry : Entry} {rest : List Entry} (allowed : R.Allows s entry)
      (more : Leads R (R.after s entry) rest s') : Leads R s (entry :: rest) s'

/-- Entries in turn lead on from each other. -/
theorem Leads.append {first second : List Entry} (h : R.Leads s first s')
    (h' : R.Leads s' second s'') :
  R.Leads s (first ++ second) s''
  := by
  induction h with
  | nil => exact h'
  | cons allowed _ ih => apply cons allowed (ih h')

/-- Entries lead to the state that they are replayed to. -/
theorem Leads.state_eq {entries : List Entry} (h : R.Leads s entries s') :
  R.state s entries = s'
  := by
  induction h with
  | nil => rfl
  | cons _ _ ih => exact ih

/-- Every entry is allowed after those before it. -/
theorem Leads.allows {before after : List Entry} {entry : Entry}
    (h : R.Leads s (before ++ entry :: after) s') :
  R.Allows (R.state s before) entry
  := by
  induction before generalizing s with
  | nil =>
    obtain _ | ⟨allowed, -⟩ := h
    exact allowed
  | cons first before ih =>
    obtain _ | ⟨-, more⟩ := h
    apply ih more

/-- What every allowed entry keeps holds after the first entries. -/
theorem Leads.keeps {P : σ → Prop}
    (hstep : ∀ {s entry}, R.Allows s entry → P s → P (R.after s entry))
    {before after : List Entry} (h : R.Leads s (before ++ after) s') (hs : P s) :
  P (R.state s before)
  := by
  induction before generalizing s with
  | nil => exact hs
  | cons first before ih =>
    obtain _ | ⟨allowed, more⟩ := h
    apply ih more (hstep allowed hs)

end Replay

end SilFront
