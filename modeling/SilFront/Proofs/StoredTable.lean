import SilFront.Proofs.Names
import SilFront.Proofs.Sequences

/-!
# Tables of names as they are stored

A table of names can be stored in more than one place: the visible variables in a map from names to
variables, their names once more in a stack of frames, one for each open scope, and the fields of a
package both in a map and in a list that gives their order. A `StoredTable` is such a table, and its
operations change all places that they have to change, one after the other.

`SymbolTable.stored` says how a table is stored. An operation on the table and the same operation on
the stored table answer the same, and lead to a table and to how that table is stored
(`SymbolTable.Proper.perform_stored`). This needs that the names of the table are distinct: leaving a
scope removes its names from the map, and would remove the variables that they hide if there were any.
-/

namespace SilFront

/-! ### Stored tables -/

/-- A package with its fields by name, and the names in the order of their declaration. -/
@[ext]
structure StoredPackage where
  name : String
  fields : String → Option DataType
  order : List String

/-- A table of names with a map for each kind of thing. -/
@[ext]
structure StoredTable where
  /-- The visible variables by name. -/
  visible : String → Option Variable
  /-- The names of the variables of each open scope, the innermost scope first. -/
  frames : List (List String)
  functions : String → Option Function
  packages : String → Option StoredPackage

/-- An operation on a stored table, which may be refused and keeps what it has changed then. -/
abbrev StoredM :=
  ExceptT SymbolError (StateM StoredTable)

namespace StoredTable

/-- The table without names, in the global scope. -/
def empty : StoredTable :=
  ⟨fun _ => none, [[]], fun _ => none, fun _ => none⟩

/-- The depth of the innermost scope. -/
def depth (S : StoredTable) : Nat :=
  S.frames.length - 1

/-- The names of the variables of the scope at a depth. -/
def frameAt (S : StoredTable) (depth : Nat) : Option (List String) :=
  S.frames.reverse[depth]?

/-- A name is in the map for a kind of thing. -/
def Holds (S : StoredTable) (name : String) : SymbolKind → Prop
  | .variable => (S.visible name).isSome
  | .function => (S.functions name).isSome
  | .package => (S.packages name).isSome

/-- The kind of thing that a name denotes: the maps are searched in turn. -/
def kind? (S : StoredTable) (name : String) : Option SymbolKind :=
  if (S.visible name).isSome then some .variable
  else if (S.functions name).isSome then some .function
  else if (S.packages name).isSome then some .package
  else none

/-- Runs an operation on a stored table. -/
def run {α : Type} (S : StoredTable) (operation : StoredM α) : Except SymbolError α × StoredTable :=
  StateT.run (ExceptT.run operation) S

end StoredTable

namespace StoredM

/-- Succeeds if a name denotes nothing. -/
def ensureFree (declaring : SymbolKind) (name : String) : StoredM Unit := do
  match (← get).kind? name with
  | none => return
  | some existing =>
    if existing = declaring then throw (.redefined declaring name)
    else throw (.nameClash declaring existing name)

/-- Enters a scope, and answers its depth. -/
def enterScope : StoredM Nat := do
  modify fun S => { S with frames := [] :: S.frames }
  return (← get).depth

/-- Leaves the innermost scope unless it is the global one, and answers the names that are
forgotten. -/
def exitScope : StoredM (List String) := do
  match (← get).frames with
  | frame :: next :: outer =>
    modify fun S => { S with frames := next :: outer }
    modify fun S => { S with
      visible := frame.foldl (fun visible name => Function.update visible name none) S.visible }
    return frame
  | _ => return []

/-- Declares a variable in the innermost scope, and answers it. -/
def declareVariable (name : String) (type : DataType) : StoredM Variable := do
  ensureFree .variable name
  let depth := (← get).depth
  modify fun S => { S with frames := S.frames.modifyHead (· ++ [name]) }
  let v := ((← get).visible name).getD ⟨name, type, depth⟩
  modify fun S => { S with visible := Function.update S.visible name (some v) }
  return v

/-- Declares a function without arguments that returns nothing. -/
def declareFunction (name : String) : StoredM Unit := do
  ensureFree .function name
  modify fun S => { S with functions := Function.update S.functions name (some ⟨name, [], .void⟩) }

/-- Changes the function with a name. -/
def updateFunction (name : String) (change : Function → Function) : StoredM Unit := do
  match (← get).functions name with
  | none => throw (.unknown .function name)
  | some f =>
    modify fun S => { S with functions := Function.update S.functions name (some (change f)) }

/-- Declares a package without fields. -/
def declarePackage (name : String) : StoredM Unit := do
  ensureFree .package name
  modify fun S => { S with
    packages := Function.update S.packages name (some ⟨name, fun _ => none, []⟩) }

/-- Adds a field to a package. -/
def addField (package field : String) (type : DataType) : StoredM Unit := do
  match (← get).packages package with
  | none => throw (.unknown .package package)
  | some p =>
    if (p.fields field).isSome then throw (.fieldRedefined package field)
    let p := { p with fields := Function.update p.fields field (some type) }
    let p := { p with order := p.order ++ [field] }
    modify fun S => { S with packages := Function.update S.packages package (some p) }

end StoredM

/-! ### Calls -/

namespace SymbolTable

/-- The operations that change a table. -/
inductive Call where
  | enter
  | exit
  | declareVariable (name : String) (type : DataType)
  | declareFunction (name : String)
  | addArgument (function : String) (type : DataType)
  | setReturnType (function : String) (type : ReturnType)
  | declarePackage (name : String)
  | addField (package field : String) (type : DataType)
deriving DecidableEq

/-- What an operation answers. -/
inductive Answer where
  | depth (depth : Nat)
  | names (names : List String)
  | declared (v : Variable)
  | done
deriving DecidableEq

/-- The outcome of a change that may be refused: the table stays then. -/
def keep (T : SymbolTable) (result : Except SymbolError SymbolTable) (answer : Answer) :
    Except SymbolError Answer × SymbolTable :=
  match result with
  | .ok T' => (.ok answer, T')
  | .error e => (.error e, T)

/-- Performs a call on a table. -/
def perform (T : SymbolTable) : Call → Except SymbolError Answer × SymbolTable
  | .enter => (.ok (.depth T.enter.depth), T.enter)
  | .exit => (.ok (.names (T.leaving.map Variable.name)), T.exit)
  | .declareVariable name type => T.keep (T.declareVariable name type) (.declared ⟨name, type, T.depth⟩)
  | .declareFunction name => T.keep (T.declareFunction name) .done
  | .addArgument function type => T.keep (T.addArgument function type) .done
  | .setReturnType function type => T.keep (T.setReturnType function type) .done
  | .declarePackage name => T.keep (T.declarePackage name) .done
  | .addField package field type => T.keep (T.addField package field type) .done

/-- The table after calls, successful or not. -/
def after (T : SymbolTable) (calls : List Call) : SymbolTable :=
  calls.foldl (fun T call => (T.perform call).2) T

end SymbolTable

namespace StoredTable

open SymbolTable (Call Answer)

/-- The operation of a call. -/
def operation : Call → StoredM Answer
  | .enter => return .depth (← StoredM.enterScope)
  | .exit => return .names (← StoredM.exitScope)
  | .declareVariable name type => return .declared (← StoredM.declareVariable name type)
  | .declareFunction name => do
    StoredM.declareFunction name
    return .done
  | .addArgument function type => do
    StoredM.updateFunction function fun f => { f with arguments := f.arguments ++ [type] }
    return .done
  | .setReturnType function type => do
    StoredM.updateFunction function fun f => { f with returns := type }
    return .done
  | .declarePackage name => do
    StoredM.declarePackage name
    return .done
  | .addField package field type => do
    StoredM.addField package field type
    return .done

/-- Performs a call on a stored table. -/
def perform (S : StoredTable) (call : Call) : Except SymbolError Answer × StoredTable :=
  S.run (operation call)

/-- The stored table after calls, successful or not. -/
def after (S : StoredTable) (calls : List Call) : StoredTable :=
  calls.foldl (fun S call => (S.perform call).2) S

end StoredTable

/-! ### How a table is stored -/

/-- How a package is stored. -/
def Package.stored (p : Package) : StoredPackage :=
  ⟨p.name, fun name => (p.field? name).map Field.type, p.fields.map Field.name⟩

namespace SymbolTable

variable {T T' : SymbolTable}

/-- How a table is stored. -/
def stored (T : SymbolTable) : StoredTable where
  visible := T.variableNamed?
  frames := T.scopes.map (List.map Variable.name)
  functions := T.functionNamed?
  packages name := (T.packageNamed? name).map Package.stored

/-- The stored table answers alike what a name stands for. -/
@[simp]
theorem kind?_stored (T : SymbolTable) (name : String) :
  T.stored.kind? name = T.kind? name
  := by
  simp [StoredTable.kind?, kind?, stored]

@[simp]
theorem depth_stored (T : SymbolTable) :
  T.stored.depth = T.depth
  := by
  simp [StoredTable.depth, stored, length_scopes]

theorem stored_empty :
  SymbolTable.empty.stored = StoredTable.empty
  := rfl

/-! ### Lookups after an operation -/

/-- No two visible variables share a name. -/
theorem Proper.nodup_visible (h : T.Proper) :
  (T.visible.map Variable.name).Nodup
  := by
  have hnodup : ((T.scopes.reverse.flatten).map Variable.name).Nodup := by
    have hall := (List.nodup_append.mp h.distinct).1
    simpa [names, Function.comp_def] using hall
  apply ((List.reverse_perm T.scopes).flatten.map Variable.name).nodup_iff.mp hnodup

/-- A new variable is found under its name, and others as before. -/
theorem variableNamed?_withVariable {x : String} (hfree : T.variableNamed? x = none)
    (type : DataType) :
  (T.withVariable x type).variableNamed? =
    Function.update T.variableNamed? x (some ⟨x, type, T.depth⟩)
  := by
  funext name
  obtain ⟨scope, outer, hscopes, hscopes'⟩ := T.scopes_withVariable x type
  have hvisible : T.visible = scope ++ outer.flatten := by
    rw [visible, hscopes, List.flatten_cons]
  have hvisible' : (T.withVariable x type).visible =
      scope ++ ⟨x, type, T.depth⟩ :: outer.flatten := by
    rw [visible, hscopes', List.flatten_cons, List.append_assoc, List.singleton_append]
  rw [variableNamed?, hvisible, List.find?_append, Option.or_eq_none_iff] at hfree
  by_cases hname : x = name
  · subst hname
    simp [variableNamed?, hvisible', List.find?_append, hfree.1]
  · simp [variableNamed?, hvisible, hvisible', List.find?_append, hname,
      Function.update_of_ne (Ne.symm hname)]

/-- The variables of the scope that is left are forgotten, and no others. -/
theorem Proper.variableNamed?_exit (h : T.Proper) (name : String) :
  T.exit.variableNamed? name =
    if name ∈ T.leaving.map Variable.name then none else T.variableNamed? name
  := by
  have hnodup := h.nodup_visible
  rw [visible_eq_leaving_append, List.map_append] at hnodup
  split
  · rename_i hleaving
    rw [variableNamed?_eq_none_iff]
    intro v hv hname
    apply (List.nodup_append.mp hnodup).2.2 _ hleaving _ (List.mem_map_of_mem hv) hname.symm
  · rename_i hkept
    have hnone : T.leaving.find? (fun v => v.name = name) = none := by
      simpa using hkept
    rw [variableNamed?, variableNamed?, T.visible_eq_leaving_append, List.find?_append, hnone,
      Option.none_or]

end SymbolTable

/-- A field that is new to a package is stored in both places. -/
theorem Package.stored_append_field {p : Package} {field : String} (hfree : p.field? field = none)
    (type : DataType) :
  (Package.mk p.name (p.fields ++ [⟨field, type⟩])).stored =
    { p.stored with
      fields := Function.update p.stored.fields field (some type)
      order := p.stored.order ++ [field] }
  := by
  have hfields := find?_append_singleton_of_new Field.name (x := ⟨field, type⟩) hfree
  apply StoredPackage.ext
  · rfl
  · funext name
    have hname := congrFun hfields name
    simp only [Package.stored, Package.field?, hname, Function.update_apply]
    split <;> rfl
  · simp [Package.stored]

namespace SymbolTable

variable {T : SymbolTable}

/-- A new function is found under its name, and others as before. -/
theorem functionNamed?_addFunction_eq_update {g : Function}
    (hfree : T.functionNamed? g.name = none) :
  (T.addFunction g).functionNamed? = Function.update T.functionNamed? g.name (some g)
  := find?_append_singleton_of_new Function.name hfree

/-- A new package is found under its name, and others as before. -/
theorem packageNamed?_addPackage_eq_update {p : Package} (hfree : T.packageNamed? p.name = none) :
  (T.addPackage p).packageNamed? = Function.update T.packageNamed? p.name (some p)
  := find?_append_singleton_of_new Package.name hfree

/-! ### Operations on tables and on stored tables -/

/-- A new variable is stored under its name, and noted in the innermost frame. -/
theorem stored_withVariable {name : String} (hfree : T.kind? name = none) (type : DataType) :
  (T.withVariable name type).stored =
    { T.stored with
      visible := Function.update T.stored.visible name (some ⟨name, type, T.depth⟩)
      frames := T.stored.frames.modifyHead (· ++ [name]) }
  := by
  obtain ⟨hvariable, -, -⟩ := kind?_eq_none_iff.mp hfree
  obtain ⟨scope, outer, hscopes, hscopes'⟩ := T.scopes_withVariable name type
  apply StoredTable.ext
  · apply variableNamed?_withVariable hvariable
  · simp [stored, hscopes, hscopes']
  · funext other
    apply functionNamed?_withVariable
  · simp [stored, packageNamed?]

/-- Leaving a scope takes away the names of its frame. -/
theorem Proper.stored_exit (h : T.Proper) :
  T.exit.stored =
    { T.stored with
      visible := (T.leaving.map Variable.name).foldl
        (fun visible name => Function.update visible name none) T.stored.visible
      frames := T.exit.scopes.map (List.map Variable.name) }
  := by
  have hforget : ∀ (names : List String) (visible : String → Option Variable) (name : String),
      names.foldl (fun visible name => Function.update visible name none) visible name =
        if name ∈ names then none else visible name := by
    intro names
    induction names with
    | nil => simp
    | cons first names ih =>
      intro visible name
      rw [List.foldl_cons, ih]
      by_cases hname : name = first
      · simp [hname]
      · simp [hname]
  apply StoredTable.ext
  · funext name
    apply (h.variableNamed?_exit name).trans
    symm
    apply hforget
  · rfl
  · rfl
  · rfl

/-- A new function is stored under its name. -/
theorem stored_addFunction {g : Function} (hfree : T.kind? g.name = none) :
  (T.addFunction g).stored =
    { T.stored with functions := Function.update T.stored.functions g.name (some g) }
  := by
  obtain ⟨-, hfunction, -⟩ := kind?_eq_none_iff.mp hfree
  apply StoredTable.ext
  · rfl
  · rfl
  · apply functionNamed?_addFunction_eq_update hfunction
  · rfl

/-- A new package is stored under its name. -/
theorem stored_addPackage {p : Package} (hfree : T.kind? p.name = none) :
  (T.addPackage p).stored =
    { T.stored with packages := Function.update T.stored.packages p.name (some p.stored) }
  := by
  obtain ⟨-, -, hpackage⟩ := kind?_eq_none_iff.mp hfree
  apply StoredTable.ext
  · rfl
  · rfl
  · rfl
  · funext name
    simp only [stored, packageNamed?_addPackage_eq_update hpackage, Function.update_apply]
    split <;> rfl

/-- Changing the function with a name changes it in the map. -/
theorem stored_updateFunction {name : String} {change : Function → Function} {g : Function}
    (hchange : ∀ f, (change f).name = f.name) (hg : T.functionNamed? name = some g) :
  ∃ T', T.updateFunction name change = .ok T' ∧
    T'.stored =
      { T.stored with functions := Function.update T.stored.functions name (some (change g)) }
  := by
  have hlookup := find?_map_of_key Function.name hchange T.functions name
  rw [show (T.functions.find? fun f => f.name = name) = some g from hg] at hlookup
  rw [updateFunction, hg]
  use { T with functions := T.functions.map fun f => if f.name = name then change f else f }
  use rfl
  apply StoredTable.ext
  · rfl
  · rfl
  · apply hlookup
  · rfl

/-- A new field is stored in its package, and is the last in order. -/
theorem stored_addField {package field : String} {p : Package}
    (hp : T.packageNamed? package = some p) (hfree : p.field? field = none) (type : DataType) :
  ∃ T', T.addField package field type = .ok T' ∧
    T'.stored =
      { T.stored with
        packages := Function.update T.stored.packages package (some
          { p.stored with
            fields := Function.update p.stored.fields field (some type)
            order := p.stored.order ++ [field] }) }
  := by
  have hchange : ∀ p : Package, (Package.mk p.name (p.fields ++ [⟨field, type⟩])).name = p.name :=
    fun _ => rfl
  have hlookup := find?_map_of_key Package.name hchange T.packages package
  rw [show (T.packages.find? fun p => p.name = package) = some p from hp] at hlookup
  use { T with packages := T.packages.map fun p =>
    if p.name = package then { p with fields := p.fields ++ [⟨field, type⟩] } else p }
  constructor
  · simp [addField, hp, hfree]
  · apply StoredTable.ext
    · rfl
    · rfl
    · rfl
    · funext name
      simp only [stored, packageNamed?, congrFun hlookup name, Function.update_apply]
      split
      · rw [Option.map_some, Option.map_some, Package.stored_append_field hfree]
      · rfl

end SymbolTable

namespace StoredTable

/-- A change that fails is not followed by others. -/
theorem run_bind {α β : Type} (S : StoredTable) (first : StoredM α) (second : α → StoredM β) :
  S.run (first >>= second) =
    match S.run first with
    | (.ok value, S') => S'.run (second value)
    | (.error e, S') => (.error e, S')
  := by
  have h : S.run (first >>= second) =
      (fun r : Except SymbolError α × StoredTable => ExceptT.bindCont second r.1 r.2)
        (S.run first) := rfl
  rw [h]
  rcases S.run first with ⟨_ | _, S'⟩ <;> rfl

end StoredTable

namespace SymbolTable

variable {T T' : SymbolTable}

/-- A name is free on both sides, or a declaration of it is refused on both for the same reason. -/
theorem ensureFree_cases (T : SymbolTable) (declaring : SymbolKind) (name : String) :
  T.kind? name = none ∧ T.ensureFree declaring name = .ok () ∧
      T.stored.run (StoredM.ensureFree declaring name) = (.ok (), T.stored) ∨
    ∃ e, T.ensureFree declaring name = .error e ∧
      T.stored.run (StoredM.ensureFree declaring name) = (.error e, T.stored)
  := by
  have hstored : T.stored.run (StoredM.ensureFree declaring name) =
      T.stored.run (match T.stored.kind? name with
        | none => return
        | some existing =>
          if existing = declaring then throw (.redefined declaring name)
          else throw (.nameClash declaring existing name)) := rfl
  rw [hstored, kind?_stored, ensureFree]
  rcases T.kind? name with _ | existing
  · exact .inl ⟨rfl, rfl, rfl⟩
  · right
    by_cases h : existing = declaring
    · use .redefined declaring name
      simp only [h, if_true, true_and]
      rfl
    · use .nameClash declaring existing name
      simp only [h, if_false, true_and]
      rfl

/-- A declaration is refused on both sides, or changes both. -/
theorem run_declaration_stored {declaring : SymbolKind} {name : String} {rest : StoredM Answer}
    {answer : Answer} (hrest : T.kind? name = none → T.stored.run rest = (.ok answer, T'.stored)) :
  T.stored.run (do StoredM.ensureFree declaring name; rest) =
    ((T.keep (do T.ensureFree declaring name; return T') answer).1,
      (T.keep (do T.ensureFree declaring name; return T') answer).2.stored)
  := by
  rw [StoredTable.run_bind]
  rcases T.ensureFree_cases declaring name with ⟨hkind, hfree, hstored⟩ | ⟨e, hrefused, hstored⟩
  · rw [hstored, hfree]
    apply hrest hkind
  · rw [hstored, hrefused]
    rfl

/-- A variable is declared alike in the stored table. -/
theorem perform_stored_declareVariable (T : SymbolTable) (name : String) (type : DataType) :
  T.stored.perform (.declareVariable name type) =
    ((T.perform (.declareVariable name type)).1, (T.perform (.declareVariable name type)).2.stored)
  := by
  rw [StoredTable.perform, StoredTable.operation, StoredM.declareVariable, bind_assoc]
  apply run_declaration_stored
  intro hkind
  have hnew : T.stored.visible name = none := (kind?_eq_none_iff.mp hkind).1
  change (Except.ok (Answer.declared ((T.stored.visible name).getD ⟨name, type, T.stored.depth⟩)),
    { T.stored with
      visible := Function.update T.stored.visible name
        (some ((T.stored.visible name).getD ⟨name, type, T.stored.depth⟩))
      frames := T.stored.frames.modifyHead (· ++ [name]) }) =
    (Except.ok (Answer.declared ⟨name, type, T.depth⟩), (T.withVariable name type).stored)
  rw [hnew, Option.getD_none, depth_stored, stored_withVariable hkind]

/-- A function is declared alike in the stored table. -/
theorem perform_stored_declareFunction (T : SymbolTable) (name : String) :
  T.stored.perform (.declareFunction name) =
    ((T.perform (.declareFunction name)).1, (T.perform (.declareFunction name)).2.stored)
  := by
  rw [StoredTable.perform, StoredTable.operation, StoredM.declareFunction, bind_assoc]
  apply run_declaration_stored
  intro hkind
  have hadded := stored_addFunction (g := ⟨name, [], .void⟩) hkind
  exact congrArg (Prod.mk (Except.ok Answer.done)) hadded.symm

/-- A package is declared alike in the stored table. -/
theorem perform_stored_declarePackage (T : SymbolTable) (name : String) :
  T.stored.perform (.declarePackage name) =
    ((T.perform (.declarePackage name)).1, (T.perform (.declarePackage name)).2.stored)
  := by
  rw [StoredTable.perform, StoredTable.operation, StoredM.declarePackage, bind_assoc]
  apply run_declaration_stored
  intro hkind
  have hadded := stored_addPackage (p := ⟨name, []⟩) hkind
  exact congrArg (Prod.mk (Except.ok Answer.done)) hadded.symm

/-- Changes of a function that keep its name are the same on both sides. -/
theorem run_updateFunction_stored {name : String} {change : Function → Function}
    (hchange : ∀ f, (change f).name = f.name) :
  T.stored.run (do StoredM.updateFunction name change; return Answer.done) =
    ((T.keep (T.updateFunction name change) .done).1,
      (T.keep (T.updateFunction name change) .done).2.stored)
  := by
  have hstored : T.stored.run (StoredM.updateFunction name change) =
      T.stored.run (match T.functionNamed? name with
        | none => throw (.unknown .function name)
        | some f => modify fun S => { S with
            functions := Function.update S.functions name (some (change f)) }) := rfl
  rw [StoredTable.run_bind, hstored]
  cases hg : T.functionNamed? name with
  | none =>
    rw [updateFunction, hg]
    rfl
  | some g =>
    obtain ⟨T', hT', hupdated⟩ := stored_updateFunction hchange hg
    rw [hT']
    exact congrArg (Prod.mk (Except.ok Answer.done)) hupdated.symm

/-- A field is added alike in the stored table. -/
theorem perform_stored_addField (T : SymbolTable) (package field : String) (type : DataType) :
  T.stored.perform (.addField package field type) =
    ((T.perform (.addField package field type)).1, (T.perform (.addField package field type)).2.stored)
  := by
  have hstored : T.stored.run (StoredM.addField package field type) =
      T.stored.run (match (T.packageNamed? package).map Package.stored with
        | none => throw (.unknown .package package)
        | some p => do
          if (p.fields field).isSome then throw (.fieldRedefined package field)
          modify fun S => { S with
            packages := Function.update S.packages package (some { p with
              fields := Function.update p.fields field (some type)
              order := p.order ++ [field] }) }) := rfl
  rw [perform, StoredTable.perform, StoredTable.operation, StoredTable.run_bind, hstored]
  cases hp : T.packageNamed? package with
  | none =>
    rw [addField, hp]
    rfl
  | some p =>
    have hfields : p.stored.fields field = (p.field? field).map Field.type := rfl
    simp only [Option.map_some, hfields]
    cases hf : p.field? field with
    | none =>
      obtain ⟨T', hT', hupdated⟩ := stored_addField hp hf type
      rw [hT']
      exact congrArg (Prod.mk (Except.ok Answer.done)) hupdated.symm
    | some f =>
      simp only [addField, hp, hf, Option.isSome_some, if_true]
      rfl

/-- A scope is left alike in the stored table, since the names in the table are distinct. -/
theorem Proper.perform_stored_exit (h : T.Proper) :
  T.stored.perform .exit = ((T.perform .exit).1, (T.perform .exit).2.stored)
  := by
  rw [perform, h.stored_exit]
  obtain ⟨globals, _ | ⟨block, _ | ⟨next, blocks⟩⟩, functions, packages⟩ := T
  · rfl
  · rfl
  · rfl

/-- A call on a table and the same call on the stored table answer the same, and lead to a table and
to how that table is stored. -/
theorem Proper.perform_stored (h : T.Proper) (call : Call) :
  T.stored.perform call = ((T.perform call).1, (T.perform call).2.stored)
  := by
  cases call with
  | enter =>
    have hdepth := T.enter.depth_stored
    exact congrArg (fun depth => (Except.ok (Answer.depth depth), T.enter.stored)) hdepth
  | exit => apply h.perform_stored_exit
  | declareVariable name type => apply perform_stored_declareVariable
  | declareFunction name => apply perform_stored_declareFunction
  | addArgument function type =>
    apply run_updateFunction_stored
    intro f
    rfl
  | setReturnType function type =>
    apply run_updateFunction_stored
    intro f
    rfl
  | declarePackage name => apply perform_stored_declarePackage
  | addField package field type => apply perform_stored_addField

end SymbolTable

end SilFront
