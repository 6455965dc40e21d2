import SilFront.Proofs.StoredTable

/-!
# Agreement of the places of a table

The places in which a table of names is stored agree with each other (`StoredTable.Sound`): the map of
the visible variables with the frames, the fields of a package with their order, and the maps for
variables, functions and packages in that no name is in two of them. This is so after any calls
whatever, in any order and with any names, and no call that is refused has changed anything
(`StoredTable.sound_after`).

What calls keep is stated for tables that are not stored (`SymbolTable.Regular`), and carries over.
-/

namespace SilFront

namespace SymbolTable

variable {T T' : SymbolTable}

/-- A table as it arises from any calls. -/
structure Regular (T : SymbolTable) : Prop extends T.Proper where
  fields : ∀ p ∈ T.packages, (p.fields.map Field.name).Nodup

theorem regular_empty :
  SymbolTable.empty.Regular
  where
  toProper := proper_empty
  fields := by simp [empty]

/-! ### What calls keep -/

/-- A change of a table that is refused or keeps it regular. -/
theorem Regular.keep (h : T.Regular) {result : Except SymbolError SymbolTable}
    (hresult : ∀ T', result = .ok T' → T'.Regular) (answer : Answer) :
  (T.keep result answer).2.Regular
  := by
  cases result with
  | error e => exact h
  | ok T' => apply hresult T' rfl

/-- Changing what is known of a function keeps a table regular. -/
theorem Regular.updateFunction (h : T.Regular) {name : String} {change : Function → Function}
    (hchange : ∀ f, (change f).name = f.name) (hT' : T.updateFunction name change = .ok T') :
  T'.Regular
  := by
  obtain rfl : T' = { T with
      functions := T.functions.map fun f => if f.name = name then change f else f } := by
    unfold SymbolTable.updateFunction at hT'
    split at hT'
    · cases hT'
    · cases hT'
      rfl
  have hnames : ∀ f : Function, (if f.name = name then change f else f).name = f.name := by
    intro f
    split
    · apply hchange
    · rfl
  refine ⟨⟨h.leveled, ?_⟩, h.fields⟩
  have hdistinct := h.distinct
  simpa [Names.Distinct, Names.all, names, scopes, Function.comp_def, hnames] using hdistinct

/-- Adding a field keeps a table regular. -/
theorem Regular.addField (h : T.Regular) {package field : String} {type : DataType}
    (hT' : T.addField package field type = .ok T') :
  T'.Regular
  := by
  obtain ⟨p, hp, hnew, rfl⟩ : ∃ p, T.packageNamed? package = some p ∧ p.field? field = none ∧
      T' = { T with packages := T.packages.map fun p =>
        if p.name = package then { p with fields := p.fields ++ [⟨field, type⟩] } else p } := by
    unfold SymbolTable.addField at hT'
    split at hT'
    · cases hT'
    · rename_i p hp
      split at hT'
      · cases hT'
      · rename_i hnew
        cases hT'
        exact ⟨p, hp, by simpa using hnew, rfl⟩
  have hnames : ∀ q : Package, (if q.name = package then
      { q with fields := q.fields ++ [⟨field, type⟩] } else q).name = q.name := by
    intro q
    split <;> rfl
  refine ⟨⟨h.leveled, ?_⟩, ?_⟩
  · have hdistinct := h.distinct
    simpa [Names.Distinct, Names.all, names, scopes, Function.comp_def, hnames] using hdistinct
  · rw [List.forall_mem_map]
    intro q hq
    split
    · rename_i hname
      -- the package with the name is the one that was found
      obtain rfl : q = p := by
        have hpackages := (List.nodup_append.mp (List.nodup_append.mp h.distinct).2.1).2.1
        have hfound : p.name = package := by simpa using List.find?_some hp
        apply List.inj_on_of_nodup_map hpackages hq (List.mem_of_find?_eq_some hp)
        rw [hname, hfound]
      rw [List.map_append]
      apply (h.fields q hq).append (List.nodup_singleton _)
      simpa [Package.field?] using hnew
    · apply h.fields q hq

/-- The global scope is not left. -/
theorem exit_of_depth_eq_zero (h : T.depth = 0) :
  T.exit = T
  := by
  obtain ⟨globals, _ | ⟨block, blocks⟩, functions, packages⟩ := T
  · rfl
  · cases h

/-- Every call keeps a table regular. -/
theorem Regular.perform (h : T.Regular) (call : Call) :
  (T.perform call).2.Regular
  := by
  cases call with
  | enter => exact ⟨h.enter, h.fields⟩
  | exit =>
    rcases Nat.eq_zero_or_pos T.depth with hdepth | hdepth
    · rw [SymbolTable.perform, exit_of_depth_eq_zero hdepth]
      exact h
    · exact ⟨h.toProper.exit hdepth, h.fields⟩
  | declareVariable name type =>
    apply h.keep
    intro T' hT'
    obtain ⟨hfree, rfl⟩ := declareVariable_eq_ok_iff.mp hT'
    refine ⟨h.withVariable hfree, ?_⟩
    rw [packages_withVariable]
    exact h.fields
  | declareFunction name =>
    apply h.keep
    intro T' hT'
    obtain ⟨hfree, rfl⟩ := declareFunction_eq_ok_iff.mp hT'
    exact ⟨h.addFunction (g := ⟨name, [], .void⟩) hfree, h.fields⟩
  | addArgument function type =>
    apply h.keep
    intro T'
    apply h.updateFunction
    intro f
    rfl
  | setReturnType function type =>
    apply h.keep
    intro T'
    apply h.updateFunction
    intro f
    rfl
  | declarePackage name =>
    apply h.keep
    intro T' hT'
    obtain ⟨hfree, rfl⟩ := declarePackage_eq_ok_iff.mp hT'
    refine ⟨h.addPackage (p := ⟨name, []⟩) hfree, ?_⟩
    simpa [addPackage, or_imp, forall_and] using h.fields
  | addField package field type =>
    apply h.keep
    intro T'
    apply h.addField

/-- Calls in turn keep a table regular. -/
theorem Regular.after (h : T.Regular) (calls : List Call) :
  (T.after calls).Regular
  := by
  induction calls generalizing T with
  | nil => exact h
  | cons call calls ih => apply ih (h.perform call)

/-- Calls on a stored table lead to how the table is stored to which the same calls lead. -/
theorem Regular.after_stored (h : T.Regular) (calls : List Call) :
  T.stored.after calls = (T.after calls).stored
  := by
  induction calls generalizing T with
  | nil => rfl
  | cons call calls ih =>
    have hrest := ih (h.perform call)
    rwa [StoredTable.after, List.foldl_cons, h.perform_stored]

/-- A call that is refused leaves the table as it is. -/
theorem perform_of_error {call : Call} {e : SymbolError} (h : (T.perform call).1 = .error e) :
  (T.perform call).2 = T
  := by
  have hkeep : ∀ {result : Except SymbolError SymbolTable} {answer : Answer},
      (T.keep result answer).1 = .error e → (T.keep result answer).2 = T := by
    intro result answer h
    cases result with
    | error e => rfl
    | ok T' => cases h
  cases call with
  | enter => cases h
  | exit => cases h
  | _ => apply hkeep h

end SymbolTable

/-! ### Agreement of all places -/

/-- All places of a stored table agree. -/
structure StoredTable.Sound (S : StoredTable) : Prop where
  /-- The global scope is always open. -/
  frames : S.frames ≠ []
  /-- A visible variable is listed in one frame, once there, and its depth is that of the frame. -/
  listed : ∀ {name : String} {v : Variable}, S.visible name = some v →
    v.name = name ∧ (∃ frame, S.frameAt v.depth = some frame ∧ frame.count name = 1) ∧
      ∀ {depth : Nat} {frame : List String},
        S.frameAt depth = some frame → name ∈ frame → depth = v.depth
  /-- What is listed is visible. -/
  visible : ∀ frame ∈ S.frames, ∀ name ∈ frame, (S.visible name).isSome
  /-- No name is in two of the maps. -/
  disjoint : ∀ {name : String} {kind kind' : SymbolKind},
    S.Holds name kind → S.Holds name kind' → kind = kind'
  /-- A name denotes a thing of the kind in whose map it is. -/
  owner : ∀ {name : String} {kind : SymbolKind}, S.kind? name = some kind ↔ S.Holds name kind
  /-- The fields of a package are those that its order lists, none of them twice. -/
  fields : ∀ {name : String} {p : StoredPackage}, S.packages name = some p →
    p.order.Nodup ∧ ∀ field, (p.fields field).isSome ↔ field ∈ p.order

namespace StoredTable

variable {S : StoredTable} {name : String} {kind : SymbolKind}

/-- A name that stands for something is held under that kind. -/
theorem holds_of_kind? (h : S.kind? name = some kind) :
  S.Holds name kind
  := by
  unfold kind? at h
  split at h
  · cases h
    assumption
  split at h
  · cases h
    assumption
  split at h
  · cases h
    assumption
  · cases h

/-- A name that stands for nothing is not held. -/
theorem not_holds_of_kind? (h : S.kind? name = none) (kind : SymbolKind) :
  ¬S.Holds name kind
  := by
  unfold kind? at h
  split at h
  · cases h
  split at h
  · cases h
  split at h
  · cases h
  · cases kind <;> assumption

/-- If no name is in two maps, then a name denotes a thing of the kind in whose map it is. -/
theorem kind?_eq_some_iff
    (hdisjoint : ∀ {kind kind' : SymbolKind}, S.Holds name kind → S.Holds name kind' →
      kind = kind') :
  S.kind? name = some kind ↔ S.Holds name kind
  := by
  constructor
  · apply holds_of_kind?
  · intro h
    cases hkind : S.kind? name with
    | none => exact absurd h (not_holds_of_kind? hkind kind)
    | some kind' => rw [hdisjoint h (holds_of_kind? hkind)]

end StoredTable

namespace SymbolTable

variable {T : SymbolTable}

/-- A variable is in the scope at its depth. -/
theorem exists_scope_of_leveled {scopes : List Scope} (h : Leveled scopes) {v : Variable}
    (hv : v ∈ scopes.flatten) :
  ∃ scope, scopes.reverse[v.depth]? = some scope ∧ v ∈ scope
  := by
  induction scopes with
  | nil => cases hv
  | cons first outer ih =>
    obtain ⟨hfirst, houter⟩ := h
    rw [List.reverse_cons]
    rw [List.flatten_cons, List.mem_append] at hv
    rcases hv with hv | hv
    · use first
      rw [hfirst v hv]
      simp [hv]
    · obtain ⟨scope, hscope, hmem⟩ := ih houter hv
      use scope
      rw [List.getElem?_append_left]
      · exact ⟨hscope, hmem⟩
      · simpa using depth_lt_of_leveled houter v hv

/-- The variables of the scope at a depth carry this depth. -/
theorem depth_eq_of_leveled {scopes : List Scope} (h : Leveled scopes) {depth : Nat} {scope : Scope}
    (hscope : scopes.reverse[depth]? = some scope) :
  ∀ v ∈ scope, v.depth = depth
  := by
  induction scopes with
  | nil => simp at hscope
  | cons first outer ih =>
    obtain ⟨hfirst, houter⟩ := h
    rw [List.reverse_cons] at hscope
    rcases Nat.lt_or_ge depth outer.length with hlt | hge
    · rw [List.getElem?_append_left (by simpa using hlt)] at hscope
      apply ih houter hscope
    · rw [List.getElem?_append_right (by simpa using hge), List.length_reverse,
        List.getElem?_singleton] at hscope
      split at hscope
      · rename_i hdepth
        cases hscope
        intro v hv
        rw [hfirst v hv]
        omega
      · cases hscope

/-- The frames of the stored table are the names of the scopes. -/
theorem frameAt_stored (T : SymbolTable) (depth : Nat) :
  T.stored.frameAt depth = (T.scopes.reverse[depth]?).map (List.map Variable.name)
  := by
  simp [StoredTable.frameAt, stored, ← List.map_reverse]

/-- A variable that is found is listed in the scope at its depth, once, and in no other. -/
theorem Proper.listed (h : T.Proper) {name : String} {v : Variable}
    (hfound : T.variableNamed? name = some v) :
  v.name = name ∧ (∃ frame, T.stored.frameAt v.depth = some frame ∧ frame.count name = 1) ∧
    ∀ {depth : Nat} {frame : List String},
      T.stored.frameAt depth = some frame → name ∈ frame → depth = v.depth
  := by
  have hname : v.name = name := by simpa using List.find?_some hfound
  have hvisible : v ∈ T.visible := List.mem_of_find?_eq_some hfound
  obtain ⟨scope, hscope, hmem⟩ := exists_scope_of_leveled h.leveled hvisible
  refine ⟨hname, ⟨scope.map Variable.name, ?_, ?_⟩, ?_⟩
  · rw [frameAt_stored, hscope, Option.map_some]
  · have hsublist : (scope.map Variable.name).Sublist (T.visible.map Variable.name) := by
      apply List.Sublist.map
      apply List.sublist_flatten_of_mem
      apply List.mem_reverse.mp (List.mem_of_getElem? hscope)
    apply List.count_eq_one_of_mem (hsublist.nodup h.nodup_visible)
    rw [← hname]
    apply List.mem_map_of_mem hmem
  · intro depth frame hframe hlisted
    rw [frameAt_stored] at hframe
    obtain ⟨scope', hscope', rfl⟩ := Option.map_eq_some_iff.mp hframe
    obtain ⟨w, hw, hwname⟩ := List.mem_map.mp hlisted
    obtain rfl : w = v := by
      apply List.inj_on_of_nodup_map h.nodup_visible _ hvisible (hwname.trans hname.symm)
      apply List.mem_flatten.mpr
      exact ⟨scope', List.mem_reverse.mp (List.mem_of_getElem? hscope'), hw⟩
    symm
    apply depth_eq_of_leveled h.leveled hscope' w hw

/-- The names of the things of a kind. -/
def namesOf (T : SymbolTable) : SymbolKind → List String
  | .variable => T.visible.map Variable.name
  | .function => T.functions.map Function.name
  | .package => T.packages.map Package.name

/-- The stored table holds the names that the table has. -/
theorem holds_stored_iff {name : String} {kind : SymbolKind} :
  T.stored.Holds name kind ↔ name ∈ T.namesOf kind
  := by
  cases kind <;>
    simp [StoredTable.Holds, stored, variableNamed?, functionNamed?, packageNamed?, namesOf]

/-- No name is that of things of two kinds. -/
theorem Proper.kind_eq (h : T.Proper) {name : String} {kind kind' : SymbolKind}
    (hkind : name ∈ T.namesOf kind) (hkind' : name ∈ T.namesOf kind') :
  kind = kind'
  := by
  obtain ⟨-, hrest, hvariables⟩ := List.nodup_append.mp h.distinct
  obtain ⟨-, -, hfunctions⟩ := List.nodup_append.mp hrest
  have hvisible : name ∈ T.namesOf .variable → name ∈ T.names.visible.map Prod.fst := by
    simp [namesOf, names, visible]
  have hcreated : name ∈ T.namesOf .function → name ∈ T.names.functions.map Prod.fst := by
    simp [namesOf, names]
  have hvariable : name ∈ T.namesOf .variable →
      name ∉ T.namesOf .function ∧ name ∉ T.namesOf .package := by
    intro hname
    constructor
    · intro hfunction
      apply hvariables _ (hvisible hname) _ (List.mem_append_left _ (hcreated hfunction)) rfl
    · intro hpackage
      apply hvariables _ (hvisible hname) _ (List.mem_append_right _ hpackage) rfl
  have hfunction : name ∈ T.namesOf .function → name ∉ T.namesOf .package := by
    intro hname hpackage
    apply hfunctions _ (hcreated hname) _ hpackage rfl
  cases kind <;> cases kind' <;> grind

/-- What is stored of a regular table is sound. -/
theorem Regular.sound (h : T.Regular) :
  T.stored.Sound
  where
  frames := by simp [stored, scopes]
  listed := h.listed
  visible := by
    intro frame hframe name hname
    change T.stored.Holds name .variable
    apply holds_stored_iff.mpr
    obtain ⟨scope, hscope, rfl⟩ := List.mem_map.mp hframe
    obtain ⟨v, hv, rfl⟩ := List.mem_map.mp hname
    apply List.mem_map_of_mem
    apply List.mem_flatten.mpr ⟨scope, hscope, hv⟩
  disjoint := by
    intro name kind kind' hkind hkind'
    apply h.kind_eq (holds_stored_iff.mp hkind) (holds_stored_iff.mp hkind')
  owner := by
    intro name kind
    apply StoredTable.kind?_eq_some_iff
    intro kind kind' hkind hkind'
    apply h.kind_eq (holds_stored_iff.mp hkind) (holds_stored_iff.mp hkind')
  fields := by
    intro name p hp
    obtain ⟨p, hfound, rfl⟩ := Option.map_eq_some_iff.mp hp
    use h.fields p (List.mem_of_find?_eq_some hfound)
    intro field
    simp [Package.stored, Package.field?]

end SymbolTable

/-- After any calls, successful or not, all places of the stored table agree; it is how the table is
stored to which the same calls lead, and every further call answers the same on both; and a call that
is refused leaves both as they are. -/
theorem StoredTable.sound_after (calls : List SymbolTable.Call) :
  (StoredTable.empty.after calls).Sound ∧
    StoredTable.empty.after calls = (SymbolTable.empty.after calls).stored ∧
    ∀ call, ((StoredTable.empty.after calls).perform call).1 =
        ((SymbolTable.empty.after calls).perform call).1 ∧
      ∀ e, ((SymbolTable.empty.after calls).perform call).1 = .error e →
        ((StoredTable.empty.after calls).perform call).2 = StoredTable.empty.after calls ∧
        ((SymbolTable.empty.after calls).perform call).2 = SymbolTable.empty.after calls
  := by
  have hregular := SymbolTable.regular_empty.after calls
  rw [← SymbolTable.stored_empty, SymbolTable.regular_empty.after_stored calls]
  refine ⟨hregular.sound, rfl, ?_⟩
  intro call
  rw [hregular.perform_stored call]
  use rfl
  intro e he
  have hkept := SymbolTable.perform_of_error he
  exact ⟨congrArg SymbolTable.stored hkept, hkept⟩

end SilFront
