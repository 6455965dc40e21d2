import Mathlib.Data.List.Nodup
import SilFront.Proofs.OwnCode
import SilFront.Proofs.Written

/-!
# Names in a listing

Read from left to right, a listing says which names are known: the notes on variables, functions and
packages add one each, and a change of scope forgets the variables of deeper scopes. Whatever is
compiled, an entry uses only names that are known where it stands, and no two things that are known
at once share a name.

The table of a pass knows the same names as the listing that it has written
(`Note.Acts.after_names`), provided that the variables of every scope carry the depth of the scope.
-/

namespace SilFront

/-- The names that are known at a point of a listing, in the order of their notes. -/
structure Names where
  /-- The visible variables, with the depths of their scopes. -/
  visible : List (String × Nat)
  functions : List (String × ReturnType)
  packages : List String
deriving DecidableEq

namespace Names

/-- All names that are known. -/
def all (N : Names) : List String :=
  N.visible.map Prod.fst ++ (N.functions.map Prod.fst ++ N.packages)

/-- No two things that are known share a name. -/
def Distinct (N : Names) : Prop :=
  N.all.Nodup

instance (N : Names) : Decidable N.Distinct :=
  inferInstanceAs (Decidable N.all.Nodup)

/-- A variable is visible. -/
def Sees (N : Names) (name : String) : Prop :=
  name ∈ N.visible.map Prod.fst

/-- One more variable. -/
def declare (N : Names) (name : String) (depth : Nat) : Names :=
  { N with visible := N.visible ++ [(name, depth)] }

/-- One more function. -/
def create (N : Names) (name : String) (returns : ReturnType) : Names :=
  { N with functions := N.functions ++ [(name, returns)] }

/-- One more package. -/
def package (N : Names) (name : String) : Names :=
  { N with packages := N.packages ++ [name] }

/-- What is known after an entry. -/
def after (N : Names) : Entry → Names
  | .note (.scopeChanged depth) => { N with visible := N.visible.filter fun v => v.2 ≤ depth }
  | .note (.argumentDeclared name _ depth) => N.declare name depth
  | .note (.variableDeclared name _ depth _) => N.declare name depth
  | .note (.functionCreated name returns _) => N.create name returns
  | .note (.packageCreated name) => N.package name
  | _ => N

/-- What is known after the first entries of a listing. -/
def known (entries : List Entry) : Names :=
  entries.foldl after ⟨[], [], []⟩

/-- The names that an entry uses are known. A return is one from the latest function, and has a
value only if that function returns one. -/
def Resolves (N : Names) : Entry → Prop
  | .operation (.load _ (.variable name)) => N.Sees name
  | .operation (.push (.variable name)) => N.Sees name
  | .operation (.call function) => function ∈ N.functions.map Prod.fst
  | .note (.assigned name) => N.Sees name
  | .note (.argumentDeclared _ (.record package) _) => package ∈ N.packages
  | .note (.variableDeclared _ (.record package) _ _) => package ∈ N.packages
  | .note (.returned function withValue) =>
    ∃ returns, N.functions.getLast? = some (function, returns) ∧
      (withValue = true → returns ≠ .void)
  | _ => True

/-- Loading a variable resolves if the variable is seen. -/
theorem resolves_load {N : Names} {dest : Nat} {value : Value}
    (h : ∀ name, value = .variable name → N.Sees name) :
  N.Resolves (.operation (.load dest value))
  := by
  cases value <;> first | exact h _ rfl | trivial

/-- The replay of a listing that looks every name up. -/
def replay : Replay Names where
  after := after
  Allows N entry := N.Distinct ∧ N.Resolves entry

/-- A name that is not known may come to be known. -/
theorem Distinct.extend {N N' : Names} {name : String} (hN : N.Distinct) (hname : name ∉ N.all)
    (h : N'.all.Perm (name :: N.all)) :
  N'.Distinct
  := by
  apply h.nodup_iff.mpr
  apply List.nodup_cons.mpr ⟨hname, hN⟩

/-- Declaring a variable adds one name. -/
theorem perm_all_declare (N : Names) (name : String) (depth : Nat) :
  (N.declare name depth).all.Perm (name :: N.all)
  := by
  simp [all, declare]

theorem perm_all_create (N : Names) (name : String) (returns : ReturnType) :
  (N.create name returns).all.Perm (name :: N.all)
  := by
  have hcreate : (N.create name returns).all =
      (N.visible.map Prod.fst ++ N.functions.map Prod.fst) ++ name :: N.packages := by
    simp [all, create]
  rw [hcreate, all, ← List.append_assoc]
  apply List.perm_middle

theorem perm_all_package (N : Names) (name : String) :
  (N.package name).all.Perm (name :: N.all)
  := by
  simp only [all, package, ← List.append_assoc]
  apply List.perm_append_singleton

end Names

namespace SymbolTable

variable {T : SymbolTable}

/-- The names that a table knows. -/
def names (T : SymbolTable) : Names where
  visible := T.scopes.reverse.flatten.map fun v => (v.name, v.depth)
  functions := T.functions.map fun g => (g.name, g.returns)
  packages := T.packages.map Package.name

/-- The variables of every scope carry its depth. The innermost scope comes first. -/
def Leveled : List Scope → Prop
  | [] => True
  | scope :: outer => (∀ v ∈ scope, v.depth = outer.length) ∧ Leveled outer

/-- A table as it arises from declarations. -/
structure Proper (T : SymbolTable) : Prop where
  leveled : Leveled T.scopes
  distinct : T.names.Distinct

theorem proper_empty :
  SymbolTable.empty.Proper
  where
  leveled := by simp [empty, scopes, Leveled]
  distinct := by decide

/-! ### Scopes -/

/-- Variables are no deeper than the scopes. -/
theorem depth_lt_of_leveled {scopes : List Scope} (h : Leveled scopes) :
  ∀ v ∈ scopes.flatten, v.depth < scopes.length
  := by
  induction scopes with
  | nil => simp
  | cons scope outer ih =>
    obtain ⟨hscope, houter⟩ := h
    rw [List.flatten_cons, List.forall_mem_append, List.length_cons]
    refine ⟨?_, ?_⟩
    · intro v hv
      rw [hscope v hv]
      apply Nat.lt_succ_self
    · intro v hv
      apply Nat.lt_succ_of_lt (ih houter v hv)

theorem length_scopes (T : SymbolTable) :
  T.scopes.length = T.depth + 1
  := by
  simp [scopes, depth]

@[simp]
theorem names_enter (T : SymbolTable) :
  T.enter.names = T.names
  := by
  simp [names, enter, scopes]

/-- A scope is left for the one around it. -/
theorem scopes_eq_leaving_cons (h : 0 < T.depth) :
  T.scopes = T.leaving :: T.exit.scopes
  := by
  obtain ⟨globals, _ | ⟨block, blocks⟩, functions, packages⟩ := T
  · cases h
  · rfl

/-- Changing to a deeper scope forgets no variable. -/
theorem Proper.filter_enter (h : T.Proper) :
  T.names.visible.filter (fun v => v.2 ≤ T.depth + 1) = T.names.visible
  := by
  rw [List.filter_eq_self, names, List.forall_mem_map]
  intro v hv
  have hdepth := depth_lt_of_leveled h.leveled v (by simpa using hv)
  rw [length_scopes] at hdepth
  simpa using Nat.le_of_lt hdepth

/-- Changing to the scope around the innermost one forgets the variables of the innermost one. -/
theorem Proper.filter_exit (h : T.Proper) (hinside : 0 < T.depth) :
  T.names.visible.filter (fun v => v.2 ≤ T.exit.depth) = T.exit.names.visible
  := by
  have hleveled := h.leveled
  have hscopes := scopes_eq_leaving_cons hinside
  rw [hscopes] at hleveled
  obtain ⟨hleaving, houter⟩ := hleveled
  have hlength := length_scopes T.exit
  -- just the variables of the scope that is left are as deep as that scope
  have hforgotten : ∀ v ∈ T.leaving, ¬v.depth ≤ T.exit.depth := by
    intro v hv
    rw [hleaving v hv]
    omega
  have hkept : ∀ v ∈ T.exit.scopes.reverse.flatten, v.depth ≤ T.exit.depth := by
    intro v hv
    have hdepth := depth_lt_of_leveled houter v (by simpa using hv)
    omega
  rw [names, names, hscopes, List.reverse_cons, List.flatten_append, List.map_append,
    List.filter_append, List.filter_eq_self.mpr, List.filter_eq_nil_iff.mpr, List.append_nil]
  · simpa using hforgotten
  · rw [List.forall_mem_map]
    simpa using hkept

theorem Proper.enter (h : T.Proper) :
  T.enter.Proper
  where
  leveled := ⟨by simp, h.leveled⟩
  distinct := by
    rw [names_enter]
    exact h.distinct

/-- Leaving a scope keeps a table proper. -/
theorem Proper.exit (h : T.Proper) (hinside : 0 < T.depth) :
  T.exit.Proper
  := by
  have hleveled := h.leveled
  rw [scopes_eq_leaving_cons hinside] at hleveled
  refine ⟨hleveled.2, ?_⟩
  have hsublist : T.exit.names.all.Sublist T.names.all := by
    apply List.Sublist.append_right
    rw [← h.filter_exit hinside]
    apply List.filter_sublist.map
  apply hsublist.nodup h.distinct

/-! ### Declarations -/

/-- A variable is added to the innermost scope. -/
theorem scopes_withVariable (T : SymbolTable) (name : String) (type : DataType) :
  ∃ scope outer, T.scopes = scope :: outer ∧
    (T.withVariable name type).scopes = (scope ++ [⟨name, type, T.depth⟩]) :: outer
  := by
  obtain ⟨globals, _ | ⟨block, blocks⟩, functions, packages⟩ := T
  · exact ⟨_, _, rfl, rfl⟩
  · exact ⟨_, _, rfl, rfl⟩

@[simp]
theorem names_withVariable (T : SymbolTable) (name : String) (type : DataType) :
  (T.withVariable name type).names = T.names.declare name T.depth
  := by
  obtain ⟨scope, outer, hscopes, hscopes'⟩ := T.scopes_withVariable name type
  simp [names, Names.declare, hscopes, hscopes']

@[simp]
theorem names_addFunction (T : SymbolTable) (g : Function) :
  (T.addFunction g).names = T.names.create g.name g.returns
  := by
  simp [names, addFunction, Names.create, scopes]

@[simp]
theorem names_addPackage (T : SymbolTable) (p : Package) :
  (T.addPackage p).names = T.names.package p.name
  := by
  simp [names, addPackage, Names.package, scopes]

/-- A name is free if it is not known. -/
theorem kind?_eq_none_iff_notMem {name : String} :
  T.kind? name = none ↔ name ∉ T.names.all
  := by
  simp only [kind?_eq_none_iff, variableNamed?_eq_none_iff, functionNamed?, packageNamed?, visible,
    names, Names.all, List.find?_eq_none, List.mem_append, List.mem_map, List.mem_flatten,
    List.mem_reverse]
  grind

/-- A name that stands for a variable is seen. -/
theorem sees_of_kind? {name : String} (h : T.kind? name = some .variable) :
  T.names.Sees name
  := by
  obtain ⟨v, hv⟩ : ∃ v, T.variableNamed? name = some v := by
    cases hvariable : T.variableNamed? name with
    | none =>
      unfold kind? at h
      grind
    | some v => exact ⟨v, rfl⟩
  have hname := List.find?_some hv
  have hvisible := List.mem_of_find?_eq_some hv
  simp only [visible, List.mem_flatten] at hvisible
  simp only [Names.Sees, names, List.mem_map, List.mem_flatten, List.mem_reverse]
  grind

/-- A function that is found has its name in the table. -/
theorem mem_names_of_functionNamed? {name : String} {g : Function}
    (h : T.functionNamed? name = some g) :
  name ∈ T.names.functions.map Prod.fst
  := by
  have hname : g.name = name := by simpa using List.find?_some h
  have hmem := List.mem_of_find?_eq_some h
  simp only [names, List.map_map, List.mem_map]
  exact ⟨g, hmem, hname⟩

/-- Declaring a variable under a new name keeps a table proper. -/
theorem Proper.withVariable (h : T.Proper) {name : String} {type : DataType}
    (hfree : T.kind? name = none) :
  (T.withVariable name type).Proper
  := by
  obtain ⟨scope, outer, hscopes, hscopes'⟩ := T.scopes_withVariable name type
  have hlength := T.length_scopes
  have hleveled := h.leveled
  rw [hscopes] at hleveled hlength
  constructor
  · rw [hscopes']
    refine ⟨?_, hleveled.2⟩
    rw [List.forall_mem_append, List.forall_mem_singleton]
    exact ⟨hleveled.1, by simpa using hlength.symm⟩
  · rw [names_withVariable]
    apply h.distinct.extend (kind?_eq_none_iff_notMem.mp hfree) (Names.perm_all_declare ..)

/-- Declaring a function under a new name keeps a table proper. -/
theorem Proper.addFunction (h : T.Proper) {g : Function} (hfree : T.kind? g.name = none) :
  (T.addFunction g).Proper
  := by
  refine ⟨h.leveled, ?_⟩
  rw [names_addFunction]
  apply h.distinct.extend (kind?_eq_none_iff_notMem.mp hfree) (Names.perm_all_create ..)

/-- Declaring a package under a new name keeps a table proper. -/
theorem Proper.addPackage (h : T.Proper) {p : Package} (hfree : T.kind? p.name = none) :
  (T.addPackage p).Proper
  := by
  refine ⟨h.leveled, ?_⟩
  rw [names_addPackage]
  apply h.distinct.extend (kind?_eq_none_iff_notMem.mp hfree) (Names.perm_all_package ..)

end SymbolTable

namespace Note.Acts

variable {T T' : SymbolTable} {n : Note}

/-- A note keeps a table proper. -/
theorem proper (h : n.Acts T T') (hT : T.Proper) :
  T'.Proper
  := by
  induction h with
  | enter => apply hT.enter
  | exit inside => apply hT.exit inside
  | argument free => apply hT.withVariable free
  | scalar free => apply hT.withVariable free
  | record _ free => apply hT.withVariable free
  | function free => apply hT.addFunction free
  | package free => apply hT.addPackage free
  | field => exact hT
  | assigned => exact hT
  | returned => exact hT
  | branch => exact hT

/-- What a note makes known is what the table knows after it. -/
theorem after_names (h : n.Acts T T') (hT : T.Proper) :
  T.names.after (.note n) = T'.names
  := by
  induction h with
  | enter => rw [Names.after, hT.filter_enter, SymbolTable.names_enter]
  | exit inside =>
    rw [Names.after, hT.filter_exit inside]
    rfl
  | argument => rw [SymbolTable.names_withVariable, Names.after]
  | scalar => rw [SymbolTable.names_withVariable, Names.after]
  | record => rw [SymbolTable.names_withVariable, Names.after]
  | function => rw [SymbolTable.names_addFunction, Names.after]
  | package => rw [SymbolTable.names_addPackage, Names.after]
  | field => rfl
  | assigned => rfl
  | returned => rfl
  | branch => rfl

/-- A note uses only names that are known. -/
theorem resolves (h : n.Acts T T') :
  T.names.Resolves (.note n)
  := by
  induction h with
  | record declared =>
    have hname := List.find?_some declared
    apply List.mem_map.mpr
    exact ⟨_, List.mem_of_find?_eq_some declared, by simpa using hname⟩
  | assigned visible => apply SymbolTable.sees_of_kind? visible
  | @returned g withValue latest value =>
    refine ⟨g.returns, ?_, value⟩
    simp [SymbolTable.names, latest]
  | _ => trivial

end Note.Acts

/-! ### Expressions -/

/-- Operators are let go from a yard, but no operands. -/
theorem Yard.operand_mem_release {t : Located Token} (p : BinaryOp → Bool) (unclosed : Nat)
    (output : List Item) (waiting : List Waiting) :
  .operand t ∈ (release p unclosed output waiting).output ↔ .operand t ∈ output
  := by
  fun_induction release p unclosed output waiting with
  | case1 output op rest hp ih => simpa using ih
  | case2 => rfl
  | case3 => rfl

/-- The operands that have left a yard are tokens with a property. -/
def Yard.MadeOf (P : Token → Prop) (y : Yard) : Prop :=
  ∀ t, .operand t ∈ y.output → P t.value

namespace Yard.MadeOf

variable {P : Token → Prop} {y y' : Yard} {t : Located Token}

theorem empty :
  Yard.empty.MadeOf P
  := by
  simp [Yard.MadeOf, Yard.empty]

theorem operand (h : y.MadeOf P) (ht : P t.value) :
  (y.operand t).MadeOf P
  := by
  intro t' hmem
  obtain heq | hmem := List.mem_cons.mp hmem
  · obtain rfl := Item.operand.inj heq
    exact ht
  · apply h t' hmem

/-- A yard remains made of such tokens when the next one is put into it. -/
theorem next {T : SymbolTable} (h : y.MadeOf P) (ht : t.value.IsOperand T → P t.value)
    (hnext : y.next? T t = some y') :
  y'.MadeOf P
  := by
  obtain ⟨hoperand, rfl⟩ | ⟨-, rfl⟩ | ⟨-, -, rfl⟩ | ⟨op, -, rfl⟩ := next?_eq_some_iff.mp hnext
  · apply h.operand (ht hoperand)
  · exact h
  · intro t' hmem
    apply h t' ((operand_mem_release ..).mp hmem)
  · intro t' hmem
    apply h t' ((operand_mem_release ..).mp hmem)

/-- The operands of the queue of a yard. -/
theorem queue (h : y.MadeOf P) :
  ∀ t, .operand t ∈ y.queue → P t.value
  := by
  intro t ht
  rw [Yard.queue, List.mem_reverse] at ht
  apply h t ((operand_mem_release ..).mp ht)

end Yard.MadeOf

/-- A token that is a visible variable, or no name at all. -/
def Token.Visible (T : SymbolTable) (token : Token) : Prop :=
  ∀ name, token = .ident name → T.kind? name = some .variable

namespace Expression.Straight

variable {registers : Nat} {slot : Slot} {items : List Item} {code : List Operation}

/-- The code of a queue whose operands are visible uses only variables that are visible. -/
theorem resolves (h : Straight registers slot items code) {T : SymbolTable}
    (hitems : ∀ t, .operand t ∈ items → t.value.Visible T) :
  ∀ op ∈ code, T.names.Resolves (.operation op)
  := by
  intro op hop
  obtain hdest | rfl | ⟨n, rfl⟩ := h.writes_or_pushes op hop
  · cases op with
    | load dest value =>
      apply Names.resolves_load
      rintro name rfl
      obtain ⟨n, hn⟩ | ⟨t, ht, hvalue⟩ := h.loads dest (.variable name) hop
      · cases hn
      · apply SymbolTable.sees_of_kind? (hitems t ht name _)
        unfold Value.ofToken? at hvalue
        grind
    | binary => trivial
    | call => cases hdest
    | push => cases hdest
  · trivial
  · trivial

end Expression.Straight

namespace Outline

variable {T : SymbolTable} {registers : Nat}

/-- The operations of an expression use only names that are known. -/
theorem Compiles.resolves {slot : Slot} {y : Yard} {e : Outline}
    (h : e.Compiles T registers slot y) :
  y.MadeOf (Token.Visible T) → ∀ op ∈ e.operations, T.names.Resolves (.operation op)
  := by
  induction h with
  | done _ compiles =>
    intro hy
    apply (Expression.straight_of_compile compiles).resolves hy.queue
  | token next _ ih =>
    intro hy
    apply ih (hy.next _ next)
    rintro hoperand name rfl
    simpa [Token.IsOperand] using hoperand
  | call _ function _ _ _ _ ihArgs ih =>
    intro hy
    rw [operations, List.forall_mem_append, List.forall_mem_cons, operationsOf_eq_flatMap]
    refine ⟨?_, SymbolTable.mem_names_of_functionNamed? function, ih (hy.operand ?_)⟩
    · intro op hop
      obtain ⟨a, ha, hop⟩ := List.mem_flatMap.mp hop
      apply ihArgs a ha .empty op hop
    · rintro name ⟨⟩

/-- The operations of an expression resolve in the table with which it was compiled. -/
theorem Compiled.resolves {slot : Slot} {follower : Token} {e : Outline}
    (h : e.Compiled registers T slot follower) :
  ∀ op ∈ e.operations, T.names.Resolves (.operation op)
  := h.1.resolves .empty

/-- The operations of arguments resolve in the table with which they were compiled. -/
theorem Arguments.resolves {arguments : List Outline}
    (h : Arguments (Compiled registers) T arguments) :
  ∀ op ∈ operationsOf arguments, T.names.Resolves (.operation op)
  := by
  rw [operationsOf_eq_flatMap]
  intro op hop
  obtain ⟨e, he, hop⟩ := List.mem_flatMap.mp hop
  apply (h.compiles e he).resolves .empty op hop

end Outline

/-! ### Listings -/

/-- Operations make no names known. -/
theorem Names.leads_operations {N : Names} (hN : N.Distinct) {operations : List Operation}
    (h : ∀ op ∈ operations, N.Resolves (.operation op)) :
  replay.Leads N (operations.map .operation) N
  := by
  induction operations with
  | nil => apply Replay.Leads.nil
  | cons op operations ih =>
    obtain ⟨hop, hrest⟩ := List.forall_mem_cons.mp h
    have hallowed : replay.Allows N (.operation op) := ⟨hN, hop⟩
    apply Replay.Leads.cons hallowed (ih hrest)

/-- A note leads from the names of a table to those of the table that it is noted for. -/
theorem Note.Acts.leads {T T' : SymbolTable} {n : Note} (h : n.Acts T T') (hT : T.Proper) :
  Names.replay.Leads T.names [.note n] T'.names
  := by
  have hallowed : Names.replay.Allows T.names (.note n) := ⟨hT.distinct, h.resolves⟩
  apply Replay.Leads.cons hallowed
  rw [← h.after_names hT]
  apply Replay.Leads.nil

/-- What the table knows is what the listing has made known, all along a run. -/
theorem Section.Written.leads_names {registers : Nat} {T T' : SymbolTable} {sections : List Section}
    (h : Written (Outline.Compiled registers) T sections T') :
  T.Proper → T'.Proper ∧ Names.replay.Leads T.names (all sections) T'.names
  := by
  induction h with
  | nil =>
    intro hT
    exact ⟨hT, .nil⟩
  | expression accepted _ ih =>
    intro hT
    obtain ⟨hT', hrest⟩ := ih hT
    rw [all_cons]
    exact ⟨hT', (Names.leads_operations hT.distinct accepted.resolves).append hrest⟩
  | result accepted _ acts _ ih =>
    intro hT
    obtain ⟨hT', hrest⟩ := ih (acts.proper hT)
    rw [all_cons, all_cons]
    refine ⟨hT', (Names.leads_operations hT.distinct accepted.resolves).append ?_⟩
    apply (acts.leads hT).append hrest
  | note _ acts _ ih =>
    intro hT
    obtain ⟨hT', hrest⟩ := ih (acts.proper hT)
    exact ⟨hT', (acts.leads hT).append hrest⟩
  | call declared _ accepted _ ih =>
    intro hT
    obtain ⟨hT', hrest⟩ := ih hT
    rw [all_cons]
    refine ⟨hT', (Names.leads_operations hT.distinct ?_).append hrest⟩
    rw [List.forall_mem_append, List.forall_mem_singleton]
    exact ⟨accepted.resolves, SymbolTable.mem_names_of_functionNamed? declared⟩

/-- In what is compiled, no two things that are known at once share a name, and every entry uses
only names that are known where it stands: variables that are visible, functions and packages that
are created before, and in a return the latest function. -/
theorem known_distinct_and_resolves_of_compile {source : String} {registers : Nat}
    {listing : Listing} (h : compile source registers = .ok listing) :
  (∀ before after, listing.toList = before ++ after → (Names.known before).Distinct) ∧
    ∀ before entry after, listing.toList = before ++ entry :: after →
      (Names.known before).Resolves entry
  := by
  obtain ⟨program, hprogram, hlisting⟩ := exists_spelledBy_of_compile h
  obtain ⟨T, hwritten⟩ := hprogram.written
  obtain ⟨hT, hleads⟩ := hwritten.leads_names SymbolTable.proper_empty
  rw [← hlisting] at hleads
  have hknown : Names.known listing.toList = T.names := hleads.state_eq
  constructor
  · intro before after hsplit
    cases after with
    | nil =>
      rw [List.append_nil] at hsplit
      rw [← hsplit, hknown]
      exact hT.distinct
    | cons entry after =>
      rw [hsplit] at hleads
      exact hleads.allows.1
  · intro before entry after hsplit
    rw [hsplit] at hleads
    exact hleads.allows.2

/-- Two blocks that declare the same name: where the second variable is read, the first one is
forgotten. -/
theorem known_distinct_and_resolves_of_compile_blocks :
  ∃ listing,
    compile ("pack P \x7b int a; \x7d func f(int x): int \x7b P p; if (x) \x7b int y = x; \x7d " ++
      "else \x7b int y = 2; x = y; \x7d return f(x); \x7d") 4 = .ok listing ∧
    listing.toList[16]? = some (.operation (.load 0 (.variable "y"))) ∧
    (Names.known (listing.toList.take 16)).visible = [("x", 1), ("p", 1), ("y", 2)] ∧
    (Names.known (listing.toList.take 16)).Distinct ∧
    (Names.known (listing.toList.take 16)).Resolves (.operation (.load 0 (.variable "y")))
  := by
  use ⟨#[.note (.packageCreated "P"), .note (.fieldAdded "P" "a" (.scalar .int)),
    .note (.scopeChanged 1), .note (.argumentDeclared "x" (.scalar .int) 1),
    .note (.functionCreated "f" (.scalar .int) 1),
    .note (.variableDeclared "p" (.record "P") 1 false), .operation (.load 0 (.variable "x")),
    .note (.branch .ifHead), .note (.scopeChanged 2), .operation (.load 0 (.variable "x")),
    .note (.variableDeclared "y" (.scalar .int) 2 true), .note (.scopeChanged 1),
    .note (.branch .elseHead), .note (.scopeChanged 2), .operation (.load 0 (.number (.int 2))),
    .note (.variableDeclared "y" (.scalar .int) 2 true), .operation (.load 0 (.variable "y")),
    .note (.assigned "x"), .note (.scopeChanged 1), .operation (.load 0 (.variable "x")),
    .operation (.push (.register 0)), .operation (.call "f"), .operation (.load 0 .returned),
    .note (.returned "f" true), .note (.scopeChanged 0)]⟩
  apply (and_iff_left_of_imp _).mpr
  · decide +kernel
  · intro hcompile
    obtain ⟨hdistinct, hresolves⟩ := known_distinct_and_resolves_of_compile hcompile
    refine ⟨rfl, by decide, ?_, ?_⟩
    · apply hdistinct _ _ (List.take_append_drop 16 _).symm
    · apply hresolves _ _ _ rfl

end SilFront
