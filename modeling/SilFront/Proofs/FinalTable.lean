import Mathlib.Data.List.DropRight
import SilFront.Proofs.ScopeWalk

/-!
# Notes and the final table

The table of names that an accepted program leaves behind can be read off the notes of its listing
(`SymbolTable.Noted`). Its functions are those that are created, with the arguments that are declared
since the scope was changed last; its packages are those that are created, with the fields that are
added to them; and its variables are those that are declared at depth zero.

Each declaration of a program keeps the table and the notes in agreement. The statements of a
function do so because they write none of these notes: their variables are declared deeper, and are
forgotten with the body.
-/

namespace SilFront

/-! ### Readings of entries -/

namespace Entry

/-- The name of the function that an entry creates. -/
def createdFunction? : Entry → Option String
  | .note (.functionCreated name _ _) => some name
  | _ => none

/-- The name of the package that an entry creates. -/
def createdPackage? : Entry → Option String
  | .note (.packageCreated name) => some name
  | _ => none

/-- The field that an entry adds to a package. -/
def addedField? (package : String) : Entry → Option Field
  | .note (.fieldAdded package' field type) => if package' = package then some ⟨field, type⟩ else none
  | _ => none

/-- The type of the argument that an entry declares. -/
def argumentType? : Entry → Option DataType
  | .note (.argumentDeclared _ type _) => some type
  | _ => none

/-- The variable that an entry declares at depth zero. -/
def global? : Entry → Option Variable
  | .note (.variableDeclared name type 0 _) => some ⟨name, type, 0⟩
  | _ => none

/-- The types of the arguments that are declared after the last change of scope. -/
def argumentTypes (entries : List Entry) : List DataType :=
  (entries.rtakeWhile fun e => e.newDepth?.isNone).filterMap argumentType?

/-- The fields that entries add to a package. -/
def fieldsOf (package : String) (entries : List Entry) : List Field :=
  entries.filterMap (addedField? package)

@[simp]
theorem fieldsOf_append (package : String) (first second : List Entry) :
  fieldsOf package (first ++ second) = fieldsOf package first ++ fieldsOf package second
  := List.filterMap_append

/-- What stands before a change of scope does not matter. -/
theorem argumentTypes_scope {arguments : List Entry}
    (h : ∀ e ∈ arguments, e.newDepth? = none) (before : List Entry) (depth : Nat) :
  argumentTypes (before ++ .note (.scopeChanged depth) :: arguments) =
    arguments.filterMap argumentType?
  := by
  have harguments : ∀ e ∈ arguments.reverse, e.newDepth?.isNone = true := by
    simpa using h
  rw [argumentTypes, List.rtakeWhile, List.reverse_append, List.reverse_cons, List.append_assoc,
    List.takeWhile_append_of_pos harguments, List.singleton_append, List.takeWhile_cons_of_neg,
    List.append_nil, List.reverse_reverse]
  simp [newDepth?]

/-- An entry that says nothing about what is there after a program. -/
def Passing : Entry → Prop
  | .note (.functionCreated ..) => False
  | .note (.packageCreated _) => False
  | .note (.fieldAdded ..) => False
  | .note (.variableDeclared _ _ depth _) => 0 < depth
  | _ => True

namespace Passing

variable {e : Entry}

theorem createdFunction? (h : e.Passing) :
  e.createdFunction? = none
  := by
  unfold Entry.createdFunction?
  split
  · cases h
  · rfl

theorem createdPackage? (h : e.Passing) :
  e.createdPackage? = none
  := by
  unfold Entry.createdPackage?
  split
  · cases h
  · rfl

theorem addedField? (h : e.Passing) (package : String) :
  e.addedField? package = none
  := by
  unfold Entry.addedField?
  split
  · cases h
  · rfl

theorem global? (h : e.Passing) :
  e.global? = none
  := by
  unfold Entry.global?
  split
  · cases h
  · rfl

end Passing

end Entry

open Entry

/-! ### Statements pass -/

namespace Section

/-- A section whose entries say nothing about what is there after a program. -/
def Passing (s : Section) : Prop :=
  ∀ e ∈ s.entries, e.Passing

@[simp]
theorem passing_note_iff {n : Note} :
  (Section.note n).Passing ↔ (Entry.note n).Passing
  := List.forall_mem_singleton

@[simp]
theorem passing_expression (e : Outline) :
  (Section.expression e).Passing
  := by
  rw [Passing, entries, List.forall_mem_map]
  intro op _
  trivial

@[simp]
theorem passing_call (function : String) (arguments : List Outline) :
  (Section.call function arguments).Passing
  := by
  rw [Passing, entries, List.forall_mem_map]
  intro op _
  trivial

/-- A block is passing exactly if its statements are. -/
@[simp]
theorem passing_blockSections_iff {depth : Nat} {statements : List Section} :
  (∀ s ∈ blockSections depth statements, s.Passing) ↔ ∀ s ∈ statements, s.Passing
  := by
  simp [blockSections, or_imp, forall_and, Entry.Passing]

/-- The entries of passing sections are passing. -/
theorem passing_of_mem_all {sections : List Section} (h : ∀ s ∈ sections, s.Passing) :
  ∀ e ∈ all sections, e.Passing
  := by
  intro e he
  obtain ⟨s, hs, he⟩ := List.mem_flatMap.mp he
  apply h s hs e he

end Section

/-- The statements of a function write nothing about what is there after the program. -/
theorem Construct.passing_sections {k : Part} (c : Construct k) (f : Enclosing) (depth : Nat) :
  ∀ s ∈ c.sections f (depth + 1), s.Passing
  := by
  induction c generalizing depth with
  | scalar type name value => cases value <;> simp [sections, variableSections, Passing]
  | assignment target value => simp [sections, Passing]
  | call function arguments => simp [sections]
  | record package name => simp [sections, Passing]
  | returning value => cases value <;> simp [sections, Passing]
  | branch condition body rest ih ih' =>
    simpa [sections, or_imp, forall_and, Passing] using ⟨ih (depth + 1), ih' depth⟩
  | whileLoop condition body ih => simpa [sections, Passing] using ih (depth + 1)
  | forLoop start condition step body ih => simpa [sections, Passing] using ih (depth + 1)
  | close => simp [sections]
  | more first rest ih ih' =>
    simpa [sections, or_imp, forall_and] using ⟨ih depth, ih' depth⟩
  | done => simp [sections]
  | elseIf condition body rest ih ih' =>
    simpa [sections, or_imp, forall_and, Passing] using ⟨ih (depth + 1), ih' depth⟩
  | otherwise body ih => simpa [sections, Passing] using ih (depth + 1)

/-! ### Packages -/

/-- What is written for a package. -/
def packageEntries (name : String) (items : List TypedName) : List Entry :=
  .note (.packageCreated name) ::
    items.map fun item => .note (.fieldAdded name item.name (.scalar item.type))

/-- A package is listed with its name and its fields, in their order. -/
theorem all_package_sections (name : String) (items : List TypedName) (depth : Nat) :
  Section.all ((Declaration.package name items).sections depth) = packageEntries name items
  := by
  simp [Declaration.sections, Section.entries, Section.all, packageEntries, TypedName.fieldSection,
    List.flatMap_map, ← List.map_eq_flatMap]

theorem createdPackage?_packageEntries (name : String) (items : List TypedName) :
  (packageEntries name items).filterMap createdPackage? = [name]
  := by
  simp [packageEntries, createdPackage?]

/-- The fields that are listed for a package are those that it is declared with. -/
theorem fieldsOf_packageEntries (name : String) (items : List TypedName) :
  fieldsOf name (packageEntries name items) = (TypedName.package name items).fields
  := by
  have hfield : addedField? name ∘ (fun item : TypedName =>
      .note (.fieldAdded name item.name (.scalar item.type))) =
      some ∘ fun item => ⟨item.name, .scalar item.type⟩ := by
    funext item
    apply if_pos rfl
  rw [fieldsOf, packageEntries, List.filterMap_cons_none rfl, List.filterMap_map, hfield,
    List.filterMap_eq_map, TypedName.package]

/-- No fields are listed for another package. -/
theorem fieldsOf_packageEntries_of_ne {name other : String} (h : other ≠ name)
    (items : List TypedName) :
  fieldsOf other (packageEntries name items) = []
  := by
  simp [packageEntries, fieldsOf, addedField?, h.symm]

/-! ### Tables and notes -/

namespace SymbolTable

variable {T T' : SymbolTable} {entries added : List Entry}

/-- The functions of a table are those that entries create. -/
structure FunctionsNoted (T : SymbolTable) (entries : List Entry) : Prop where
  /-- A function is noted with the number of its arguments, and is in the table with the types of
  the arguments that are declared between the last change of scope and the note. -/
  found : ∀ {before after : List Entry} {name : String} {returns : ReturnType} {arity : Nat},
    entries = before ++ .note (.functionCreated name returns arity) :: after →
      arity = (argumentTypes before).length ∧
        T.functionNamed? name = some ⟨name, argumentTypes before, returns⟩
  /-- Every function of the table is noted. -/
  noted : ∀ {name : String} {g : Function}, T.functionNamed? name = some g →
    ∃ before after, entries = before ++ .note (.functionCreated name g.returns g.arity) :: after ∧
      argumentTypes before = g.arguments
  /-- The functions are in the table in the order of their notes. -/
  order : T.functions.map Function.name = entries.filterMap createdFunction?
  /-- No function is noted twice. -/
  once : (entries.filterMap createdFunction?).Nodup

/-- The packages of a table are those that entries create. -/
structure PackagesNoted (T : SymbolTable) (entries : List Entry) : Prop where
  /-- The packages are in the table in the order of their notes, with the fields that are noted. -/
  packages : T.packages =
    (entries.filterMap createdPackage?).map fun name => ⟨name, fieldsOf name entries⟩
  /-- No package is noted twice. -/
  once : (entries.filterMap createdPackage?).Nodup
  /-- Fields are noted for these packages only. -/
  known : ∀ {package field : String} {type : DataType},
    .note (.fieldAdded package field type) ∈ entries → .note (.packageCreated package) ∈ entries
  /-- Every package has fields, and no two of them share a name. -/
  fields : ∀ {name : String}, .note (.packageCreated name) ∈ entries →
    fieldsOf name entries ≠ [] ∧ ((fieldsOf name entries).map Field.name).Nodup

/-- The table is what the notes of a listing say that is there. -/
structure Noted (T : SymbolTable) (entries : List Entry) : Prop where
  functions : T.FunctionsNoted entries
  packages : T.PackagesNoted entries
  /-- No scope is open but the global one. -/
  depth : T.depth = 0
  /-- The visible variables are those that are declared at depth zero. -/
  visible : T.visible = entries.filterMap global?

theorem noted_empty :
  SymbolTable.empty.Noted []
  where
  functions := ⟨by simp, by simp [functionNamed?, empty], by simp [empty], by simp⟩
  packages := ⟨by simp [empty], by simp, by simp, by simp⟩
  depth := rfl
  visible := rfl

/-! ### Functions -/

namespace FunctionsNoted

/-- Entries that create no function, while the functions of the table stay. -/
theorem append (h : T.FunctionsNoted entries) (hadded : ∀ e ∈ added, e.createdFunction? = none)
    (hT : T'.functions = T.functions) :
  T'.FunctionsNoted (entries ++ added)
  := by
  have hlookup : ∀ name, T'.functionNamed? name = T.functionNamed? name := by
    intro name
    rw [functionNamed?, hT, functionNamed?]
  have hnames : (entries ++ added).filterMap createdFunction? =
      entries.filterMap createdFunction? := by
    rw [List.filterMap_append, List.filterMap_eq_nil_iff.mpr hadded, List.append_nil]
  constructor
  · intro before after name returns arity hsplit
    obtain ⟨back, hentries, -⟩ | ⟨front, -, hback⟩ := append_eq_append_cons hsplit
    · rw [hlookup]
      apply h.found hentries
    · have hnone := hadded (.note (.functionCreated name returns arity)) (by simp [hback])
      cases hnone
  · intro name g hg
    rw [hlookup] at hg
    obtain ⟨before, after, rfl, harguments⟩ := h.noted hg
    exact ⟨before, after ++ added, by simp, harguments⟩
  · rw [hT, hnames, h.order]
  · rw [hnames]
    exact h.once

/-- A note on a function that is new to the table. -/
theorem concat (h : T.FunctionsNoted entries) {g : Function}
    (hfree : T.functionNamed? g.name = none) (harguments : argumentTypes entries = g.arguments) :
  (T.addFunction g).FunctionsNoted (entries ++ [.note (.functionCreated g.name g.returns g.arity)])
  := by
  constructor
  · intro before after name returns arity hsplit
    obtain ⟨back, hentries, -⟩ | ⟨front, rfl, hlast⟩ := append_eq_append_cons hsplit
    · obtain ⟨harity, hname⟩ := h.found hentries
      use harity
      rw [functionNamed?] at hname
      simp [functionNamed?, addFunction, List.find?_append, hname]
    · obtain ⟨rfl, heq⟩ := eq_of_singleton_eq hlast
      cases heq
      rw [List.append_nil, harguments]
      exact ⟨rfl, functionNamed?_addFunction hfree⟩
  · intro name f hf
    by_cases hname : g.name = name
    · subst hname
      rw [functionNamed?_addFunction hfree] at hf
      cases hf
      exact ⟨entries, [], rfl, harguments⟩
    · have hf' : T.functionNamed? name = some f := by
        simpa [functionNamed?, addFunction, List.find?_append, hname] using hf
      obtain ⟨before, after, hsplit, hbefore⟩ := h.noted hf'
      exact ⟨before, after ++ _, by rw [hsplit, List.append_assoc, List.cons_append], hbefore⟩
  · simp [addFunction, h.order, createdFunction?]
  · have hnew : g.name ∉ entries.filterMap createdFunction? := by
      rw [functionNamed?, List.find?_eq_none] at hfree
      rw [← h.order]
      simpa using hfree
    rw [List.filterMap_append]
    apply List.Nodup.append h.once (List.nodup_singleton _)
    simpa [createdFunction?] using hnew

end FunctionsNoted

/-! ### Packages -/

/-- The packages of a listing are those that are noted as created. -/
theorem mem_createdPackage?_iff {name : String} :
  name ∈ entries.filterMap createdPackage? ↔ .note (.packageCreated name) ∈ entries
  := by
  rw [List.mem_filterMap]
  constructor
  · rintro ⟨e, he, hname⟩
    unfold createdPackage? at hname
    split at hname
    · cases hname
      exact he
    · cases hname
  · intro h
    exact ⟨_, h, rfl⟩

namespace PackagesNoted

/-- Entries that have nothing to do with packages, while the packages of the table stay. -/
theorem append (h : T.PackagesNoted entries) (hcreated : ∀ e ∈ added, e.createdPackage? = none)
    (hfields : ∀ e ∈ added, ∀ package, e.addedField? package = none)
    (hT : T'.packages = T.packages) :
  T'.PackagesNoted (entries ++ added)
  := by
  have hnames : (entries ++ added).filterMap createdPackage? =
      entries.filterMap createdPackage? := by
    rw [List.filterMap_append, List.filterMap_eq_nil_iff.mpr hcreated, List.append_nil]
  have hadded : ∀ package, fieldsOf package (entries ++ added) = fieldsOf package entries := by
    intro package
    have hnone : fieldsOf package added = [] :=
      List.filterMap_eq_nil_iff.mpr fun e he => hfields e he package
    rw [fieldsOf_append, hnone, List.append_nil]
  constructor
  · simp only [hT, h.packages, hnames, hadded]
  · rw [hnames]
    exact h.once
  · intro package field type hmem
    obtain hmem | hmem := List.mem_append.mp hmem
    · apply List.mem_append_left _ (h.known hmem)
    · simpa [addedField?] using hfields _ hmem package
  · intro name hname
    rw [← mem_createdPackage?_iff, hnames, mem_createdPackage?_iff] at hname
    rw [hadded]
    apply h.fields hname

/-- A package that is new to the table, with its fields. -/
theorem package (h : T.PackagesNoted entries) {name : String} {items : List TypedName}
    (hfree : T.packageNamed? name = none) (hne : items ≠ [])
    (hdistinct : (items.map TypedName.name).Nodup) :
  (T.addPackage (TypedName.package name items)).PackagesNoted
    (entries ++ packageEntries name items)
  := by
  have hnew : .note (.packageCreated name) ∉ entries := by
    intro hmem
    have hlisted : (⟨name, fieldsOf name entries⟩ : Package) ∈ T.packages := by
      rw [h.packages]
      apply List.mem_map_of_mem (mem_createdPackage?_iff.mpr hmem)
    simpa using List.find?_eq_none.mp hfree _ hlisted
  have hnone : fieldsOf name entries = [] := by
    apply List.filterMap_eq_nil_iff.mpr
    intro e he
    unfold addedField?
    split
    · rename_i package' field type
      by_cases hname : package' = name
      · subst hname
        exact absurd (h.known he) hnew
      · exact if_neg hname
    · rfl
  have hcreated : (entries ++ packageEntries name items).filterMap createdPackage? =
      entries.filterMap createdPackage? ++ [name] := by
    rw [List.filterMap_append, createdPackage?_packageEntries]
  have hown : fieldsOf name (entries ++ packageEntries name items) =
      (TypedName.package name items).fields := by
    rw [fieldsOf_append, hnone, List.nil_append, fieldsOf_packageEntries]
  have hothers : ∀ {other : String}, .note (.packageCreated other) ∈ entries →
      fieldsOf other (entries ++ packageEntries name items) = fieldsOf other entries := by
    intro other hother
    have hne : other ≠ name := by
      rintro rfl
      exact hnew hother
    rw [fieldsOf_append, fieldsOf_packageEntries_of_ne hne, List.append_nil]
  have hmem : ∀ {other : String}, .note (.packageCreated other) ∈ entries ++ packageEntries name items →
      .note (.packageCreated other) ∈ entries ∨ other = name := by
    intro other hother
    rw [← mem_createdPackage?_iff, hcreated, List.mem_append, List.mem_singleton,
      mem_createdPackage?_iff] at hother
    exact hother
  constructor
  · have hpackages : (T.addPackage (TypedName.package name items)).packages =
        T.packages ++ [TypedName.package name items] := rfl
    rw [hpackages, hcreated, List.map_append, List.map_singleton, hown, h.packages]
    congr 1
    apply List.map_congr_left
    intro other hother
    rw [hothers (mem_createdPackage?_iff.mp hother)]
  · rw [hcreated]
    apply h.once.append (List.nodup_singleton _)
    rwa [List.disjoint_singleton, mem_createdPackage?_iff]
  · intro package field type hfield
    obtain hfield | hfield := List.mem_append.mp hfield
    · apply List.mem_append_left _ (h.known hfield)
    · apply List.mem_append_right
      obtain rfl : name = package := by
        simp only [packageEntries, List.mem_cons, List.mem_map] at hfield
        grind
      apply List.mem_cons_self
  · intro other hother
    obtain hother | rfl := hmem hother
    · rw [hothers hother]
      apply h.fields hother
    · rw [hown]
      constructor
      · simpa [TypedName.package] using hne
      · simpa [TypedName.package, Function.comp_def] using hdistinct

end PackagesNoted

/-! ### Declarations -/

namespace Noted

/-- Entries that say nothing about the table, which stays. -/
theorem append (h : T.Noted entries) (hadded : ∀ e ∈ added, e.Passing) :
  T.Noted (entries ++ added)
  where
  functions := h.functions.append (fun e he => (hadded e he).createdFunction?) rfl
  packages := h.packages.append (fun e he => (hadded e he).createdPackage?)
    (fun e he => (hadded e he).addedField?) rfl
  depth := h.depth
  visible := by
    rw [List.filterMap_append, h.visible,
      List.filterMap_eq_nil_iff.mpr fun e he => (hadded e he).global?, List.append_nil]

/-- A note on a function that is new to the table. -/
theorem concat (h : T.Noted entries) {g : Function} (hfree : T.functionNamed? g.name = none)
    (harguments : argumentTypes entries = g.arguments) :
  (T.addFunction g).Noted (entries ++ [.note (.functionCreated g.name g.returns g.arity)])
  where
  functions := h.functions.concat hfree harguments
  packages := h.packages.append (by simp [createdPackage?]) (by simp [addedField?]) rfl
  depth := h.depth
  visible := by
    rw [List.filterMap_append, ← h.visible]
    apply (List.append_nil _).symm

/-- A function is noted between the entries for its arguments and those for its body. -/
theorem function (h : T.Noted entries) {name : String} {items : List TypedName}
    {returns : ReturnType} (hfree : T.functionNamed? name = none) (body : Construct .body) :
  (T.addFunction (TypedName.function name items returns)).Noted
    (entries ++ Section.all ((Declaration.function name items returns body).sections 0))
  := by
  let arguments : List Entry :=
    items.map fun item => .note (.argumentDeclared item.name (.scalar item.type) 1)
  have hfront : T.Noted (entries ++ .note (.scopeChanged 1) :: arguments) := by
    apply h.append
    rw [List.forall_mem_cons, List.forall_mem_map]
    exact ⟨trivial, fun _ _ => trivial⟩
  have htypes : argumentTypes (entries ++ .note (.scopeChanged 1) :: arguments) =
      (TypedName.function name items returns).arguments := by
    rw [argumentTypes_scope (by simp [arguments, newDepth?]), List.filterMap_map]
    apply congrFun List.filterMap_eq_map
  have hback := (hfront.concat hfree htypes).append
    (Section.passing_of_mem_all (body.passing_sections ⟨name, returns⟩ 0))
  have hend := hback.append
    (show ∀ e ∈ [Entry.note (.scopeChanged 0)], e.Passing by simp [Passing])
  simpa [Declaration.sections, blockSections, Section.entries, TypedName.parameterSection,
    TypedName.function, Function.arity, arguments, Section.all, List.flatMap_map,
    ← List.map_eq_flatMap] using hend

theorem package (h : T.Noted entries) {name : String} {items : List TypedName}
    (hfree : T.packageNamed? name = none) (hne : items ≠ [])
    (hdistinct : (items.map TypedName.name).Nodup) :
  (T.addPackage (TypedName.package name items)).Noted (entries ++ packageEntries name items)
  where
  functions := h.functions.append (by simp [packageEntries, createdFunction?]) rfl
  packages := h.packages.package hfree hne hdistinct
  depth := h.depth
  visible := by
    have hnone : (packageEntries name items).filterMap global? = [] := by
      simp [packageEntries, global?]
    rw [List.filterMap_append, hnone, List.append_nil]
    exact h.visible

/-- A variable that is declared at depth zero. -/
theorem declare (h : T.Noted entries) (name : String) (type : DataType) (initialized : Bool) :
  (T.withVariable name type).Noted
    (entries ++ [.note (.variableDeclared name type 0 initialized)])
  where
  functions := h.functions.append (by simp [createdFunction?]) (functions_withVariable ..)
  packages := h.packages.append (by simp [createdPackage?]) (by simp [addedField?])
    (packages_withVariable ..)
  depth := by rw [depth_withVariable, h.depth]
  visible := by
    have hdepth := h.depth
    have hvisible := h.visible
    obtain ⟨globals, _ | ⟨block, blocks⟩, functions, packages⟩ := T
    · rw [List.filterMap_append, ← hvisible]
      simp [SymbolTable.visible, scopes, withVariable, addVariable, global?, hdepth]
    · cases hdepth

/-- A global variable that is declared and listed is noted. -/
theorem global (h : T.Noted entries) (type : ScalarType) (name : String)
    (value : Option Outline) :
  (T.withVariable name (.scalar type)).Noted
    (entries ++ Section.all (variableSections 0 type name value))
  := by
  cases value with
  | none => apply h.declare name (.scalar type) false
  | some e =>
    have hdeclare := (h.append (Section.passing_expression e)).declare name (.scalar type) true
    rwa [List.append_assoc] at hdeclare

end Noted

end SymbolTable

open SymbolTable

/-- A declaration keeps the table and the notes in agreement. -/
theorem Declaration.Checks.noted {A : Acceptance} {T T' : SymbolTable} {d : Declaration}
    {entries : List Entry} (h : d.Checks A T T') (hT : T.Noted entries) :
  T'.Noted (entries ++ Section.all (d.sections T.depth))
  := by
  rw [hT.depth]
  cases h with
  | function free =>
    obtain ⟨-, hfunction, -⟩ := kind?_eq_none_iff.mp free
    apply hT.function hfunction
  | package free nonempty distinct =>
    obtain ⟨-, -, hpackage⟩ := kind?_eq_none_iff.mp free
    rw [all_package_sections]
    apply hT.package hpackage nonempty distinct
  | global => apply hT.global

/-- A checked program notes everything that it declares. -/
theorem Program.Checks.noted {A : Acceptance} {T T' : SymbolTable} {program : Program}
    (h : program.Checks A T T') :
  ∀ {entries : List Entry}, T.Noted entries →
    T'.Noted (entries ++ Section.all (program.sections T.depth))
  := by
  induction h with
  | nil =>
    intro entries hT
    simpa [Program.sections] using hT
  | cons declaration _ ih =>
    intro entries hT
    have hrest := ih (declaration.noted hT)
    rw [declaration.depth_eq, List.append_assoc] at hrest
    simpa [Program.sections] using hrest

/-- The table of names that an accepted program leaves behind is what the notes of its listing say
that is there. -/
theorem Pass.noted_of_run_program {source : String} {registers : Nat} {s t : Pass}
    (hstart : start source registers = .ok s) (hrun : s.run PassM.program = (.ok (), t)) :
  t.symbols.Noted t.listing.toList
  := by
  obtain ⟨p, -, rfl⟩ := start_eq_ok_iff.mp hstart
  rw [PassM.program, run_get_bind, run_declarations_eq_ok_iff (Outline.exact_accepted registers) _
    rfl (bound_position_lt_budget _)] at hrun
  obtain ⟨program, T, q, hchecks, -, -, rfl⟩ := hrun
  simpa [reach, ofPosition] using hchecks.noted noted_empty

/-- A package, a function and a variable. The record in the body of the function and the arguments
are noted too, but are not there in the end. -/
theorem Pass.noted_of_run_program_mixed :
  ∃ s t,
    start "pack P \x7b int a; float b; \x7d func f(int x, byte y): int \x7b P p; \x7d int g = 1;" 4
      = .ok s ∧
    s.run PassM.program = (.ok (), t) ∧ t.symbols.Noted t.listing.toList ∧
    t.symbols = ⟨[⟨"g", .scalar .int, 0⟩], [],
      [⟨"f", [.scalar .int, .scalar .byte], .scalar .int⟩],
      [⟨"P", [⟨"a", .scalar .int⟩, ⟨"b", .scalar .float⟩]⟩]⟩
  := by
  have heval : (start
      "pack P \x7b int a; float b; \x7d func f(int x, byte y): int \x7b P p; \x7d int g = 1;" 4).map
      (fun s => ((s.run PassM.program).1, (s.run PassM.program).2.symbols)) =
      .ok (.ok (), ⟨[⟨"g", .scalar .int, 0⟩], [],
        [⟨"f", [.scalar .int, .scalar .byte], .scalar .int⟩],
        [⟨"P", [⟨"a", .scalar .int⟩, ⟨"b", .scalar .float⟩]⟩]⟩) := by
    decide +kernel
  rcases hstart : start
      "pack P \x7b int a; float b; \x7d func f(int x, byte y): int \x7b P p; \x7d int g = 1;" 4
    with _ | s
  · rw [hstart] at heval
    cases heval
  · rw [hstart] at heval
    simp only [Except.map, Except.ok.injEq, Prod.mk.injEq] at heval
    obtain ⟨hok, hsymbols⟩ := heval
    have hrun : s.run PassM.program = (.ok (), (s.run PassM.program).2) := Prod.ext hok rfl
    exact ⟨s, _, rfl, hrun, noted_of_run_program hstart hrun, hsymbols⟩

end SilFront
