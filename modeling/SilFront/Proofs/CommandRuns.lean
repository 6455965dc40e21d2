import Mathlib.Data.Set.Finite.List
import SilFront.Proofs.FragmentRuns
import SilFront.Proofs.OutputFile
import SilFront.Proofs.Sequences

/-!
# Runs of the command

A run of the command takes the functions of the library in turn, and stops at the first one that
fails (`FileTree.firstFailure`). Files that are called for are read from the directory of the input
file, all of them from the tree as it is after the output file is emptied (`FileTree.folder`). Writing
a file changes what stands at its place alone (`FileTree.ChangedAt`), so a run changes no file but
its own two (`FileTree.runs_library`).
-/

namespace SilFront

/-! ### Files that are called for -/

namespace Fragment

/-- The files of a text are those that its fragments include. -/
theorem mem_files_iff {file text : String} :
  file ∈ files text ↔ .inclusion file ∈ ofText text
  := by
  rw [files, List.mem_filterMap]
  constructor
  · rintro ⟨fragment, hfragment, hfile⟩
    cases fragment with
    | inclusion name =>
      obtain rfl := Option.some.inj hfile
      exact hfragment
    | _ => cases hfile
  · intro h
    exact ⟨_, h, rfl⟩

/-- Two libraries agree on the files that fragments call for, directly or through others, if they
agree on those that any of some texts calls for, and these texts are all that is read. -/
theorem expandAll_congr {l l' : Library} {P : String → Prop}
    (h : ∀ text, P text → ∀ file ∈ files text, l.read file = l'.read file ∧
      ∀ contents, l.read file = .ok contents → P contents)
    {opened : List String} {fragments : List Fragment}
    (hfragments : ∀ file, .inclusion file ∈ fragments → l.read file = l'.read file ∧
      ∀ contents, l.read file = .ok contents → P contents) :
  expandAll l opened fragments = expandAll l' opened fragments
  := by
  induction opened, fragments using Library.induction_on (l := l) with
  | nil => rw [expandAll_nil, expandAll_nil]
  | @opening opened file contents rest hopened hread ihFile ihRest =>
    obtain ⟨hsame, hcontents⟩ := hfragments file List.mem_cons_self
    rw [expandAll_cons, expandAll_cons, expand_inclusion_of_read_eq_ok hopened hread,
      expand_inclusion_of_read_eq_ok hopened (hsame ▸ hread)]
    rw [ihFile, ihRest]
    · intro file hfile
      exact hfragments file (List.mem_cons_of_mem _ hfile)
    · intro file hfile
      exact h contents (hcontents contents hread) file (mem_files_iff.mpr hfile)
  | @cons opened fragment rest hfragment ihRest =>
    have hhead : fragment.expand l opened = fragment.expand l' opened := by
      cases fragment with
      | inclusion file =>
        by_cases hopened : file ∈ opened
        · rw [expand_inclusion_of_mem hopened, expand_inclusion_of_mem hopened]
        · obtain ⟨hsame, -⟩ := hfragments file List.mem_cons_self
          cases hread : l.read file with
          | ok contents => cases hfragment file contents rfl hopened hread
          | error reason =>
            rw [expand_inclusion_of_read_eq_error hopened hread,
              expand_inclusion_of_read_eq_error hopened (hsame ▸ hread)]
      | _ => rfl
    rw [expandAll_cons, expandAll_cons, hhead, ihRest]
    intro file hfile
    exact hfragments file (List.mem_cons_of_mem _ hfile)

end Fragment

/-! ### The files of a directory -/

/-- There are finitely many texts of no more than some number of bytes. -/
theorem finite_utf8ByteSize_le (n : Nat) :
  {s : String | s.utf8ByteSize ≤ n}.Finite
  := by
  have : Finite UInt8 := Finite.of_injective UInt8.toFin fun _ _ => UInt8.toFin_inj.mp
  have hinjective : Function.Injective fun s : String => s.toByteArray.data.toList := by
    intro s s' h
    exact String.toByteArray_inj.mp (ByteArray.ext (Array.toList_inj.mp h))
  apply ((List.finite_length_le UInt8 n).preimage (Set.injOn_of_injective hinjective)).subset
  intro s hs
  rw [Set.mem_preimage, Set.mem_ofPred_eq, Array.length_toList, ByteArray.size_data]
  exact hs

namespace Path

theorem utf8ByteSize_le_join (directory name : String) :
  name.utf8ByteSize ≤ (join directory name).utf8ByteSize
  := by
  rw [join]
  split
  · exact le_rfl
  split
  · rw [String.utf8ByteSize_append]
    omega
  · rw [String.utf8ByteSize_append]
    omega

/-- A path that is accepted is not too long. -/
theorem utf8ByteSize_le_of_check {path : String} (h : check path = .ok ()) :
  path.utf8ByteSize ≤ longestPath
  := by
  rw [check] at h
  split at h
  · cases h
  split at h
  · cases h
  split at h
  · cases h
  · rename_i hsize
    exact Nat.le_of_not_lt hsize

end Path

namespace FileTree

variable {t t' : FileTree} {path source text : String}

/-- A file that is read as a text holds the encoding of one. -/
theorem readBytes_of_readText (h : t.readText path = .ok text) :
  ∃ contents, t.readBytes path = .ok contents ∧ String.fromUTF8? contents = some text
  := by
  simp only [readText, bind, Except.bind] at h
  split at h
  · cases h
  rename_i contents hcontents
  split at h
  · rename_i htext
    obtain rfl := Except.ok.inj h
    exact ⟨contents, hcontents, htext⟩
  · cases h

/-- A file that is read stands somewhere in the tree, under an acceptable path. -/
theorem check_of_readBytes {contents : ByteArray} (h : t.readBytes path = .ok contents) :
  Path.check path = .ok () ∧ ∃ place access, t.get? place = some (.file contents access)
  := by
  simp only [readBytes, bind, Except.bind, pure, Except.pure, throw, throwThe,
    MonadExceptOf.throw] at h
  split at h
  · cases h
  rename_i hcheck
  split at h
  · cases h
  rename_i place hplace
  split at h
  · cases h
  · split at h <;> cases h
  rename_i contents' access hfile
  split at h
  · cases h
  split at h
  · obtain rfl := Except.ok.inj h
    exact ⟨hcheck, place, access, hfile⟩
  · cases h

/-- What is read from a tree is one of its texts. -/
theorem mem_texts_of_readText (h : t.readText path = .ok text) :
  text ∈ t.texts
  := by
  obtain ⟨contents, hcontents, htext⟩ := readBytes_of_readText h
  obtain ⟨-, place, access, hfile⟩ := check_of_readBytes hcontents
  rw [get?, Option.or_eq_some_iff] at hfile
  obtain hfile | ⟨-, hroot⟩ := hfile
  · obtain ⟨before, after, hnodes, -⟩ := List.lookup_eq_some_iff.mp hfile
    rw [texts, hnodes, List.mem_filterMap]
    exact ⟨_, List.mem_append_right _ List.mem_cons_self, htext⟩
  · split at hroot <;> cases hroot

/-- The files of a directory, as they stand in a tree. -/
noncomputable def folder (t : FileTree) (directory : String) : Library where
  read name := (t.readText (Path.join directory name)).mapError Fault.message
  names := (finite_utf8ByteSize_le Path.longestPath).toFinset.toList
  mem_names := by
    intro name text h
    obtain ⟨contents, hcontents, -⟩ := readBytes_of_readText (mapError_eq_ok_iff.mp h)
    have hsize := Path.utf8ByteSize_le_of_check (check_of_readBytes hcontents).1
    rw [Finset.mem_toList, Set.Finite.mem_toFinset]
    exact (Path.utf8ByteSize_le_join directory name).trans hsize

/-- The files that are collected before an expansion are those of the directory, as far as they are
called for. -/
theorem read_library (directory : String) (h : text = source ∨ text ∈ t.texts) {name : String}
    (hname : name ∈ Fragment.files text) :
  (t.library directory source).read name = (t.folder directory).read name
  := by
  have hmem : name ∈ (source :: t.texts).flatMap Fragment.files := by
    rw [List.mem_flatMap]
    exact ⟨text, List.mem_cons.mpr h, hname⟩
  change (List.lookup _ _).getD _ = _
  rw [List.lookup_graph (fun name => (t.readText (Path.join directory name)).mapError Fault.message)
    hmem]
  rfl

/-- The expansion of a source whose files are read from the directory of the input file. -/
noncomputable def preprocess (t : FileTree) (o : Options) (source : String) :
    Except ExpansionError String :=
  ((Session.start (t.folder (Path.directory o.input))).expand source).1

/-- The files at hand are enough: to expand a source from them is to expand it from the directory. -/
theorem expansion_eq_preprocess (t : FileTree) (o : Options) (source : String) :
  t.expansion o source = t.preprocess o source
  := by
  have hread : ∀ text, (text = source ∨ text ∈ t.texts) → ∀ file ∈ Fragment.files text,
      (t.library (Path.directory o.input) source).read file =
        (t.folder (Path.directory o.input)).read file ∧
      ∀ contents, (t.library (Path.directory o.input) source).read file = .ok contents →
        contents = source ∨ contents ∈ t.texts := by
    intro text htext file hfile
    have hsame := read_library (Path.directory o.input) htext hfile
    refine ⟨hsame, ?_⟩
    intro contents hcontents
    rw [hsame] at hcontents
    exact .inr (mem_texts_of_readText (mapError_eq_ok_iff.mp hcontents))
  rw [expansion, preprocess, Session.expand_eq, Session.expand_eq]
  dsimp only [Session.start]
  rw [Fragment.expandAll_congr hread]
  intro file hfile
  exact hread source (.inl rfl) file (Fragment.mem_files_iff.mpr hfile)

/-! ### Places that change -/

/-- A tree is changed at the places of some files only, and paths lead to the same places as
before. -/
structure ChangedAt (t : FileTree) (paths : List String) (t' : FileTree) : Prop where
  ways : t.SameWays t'
  get? : ∀ place, (∀ path ∈ paths, t.target path ≠ .ok place) → t'.get? place = t.get? place

namespace ChangedAt

variable {paths : List String} {t₁ t₂ : FileTree} {place : List String} {contents : ByteArray}

/-- A tree that is not changed is changed nowhere else. -/
theorem refl (t : FileTree) (paths : List String) :
  t.ChangedAt paths t
  := ⟨.refl t, fun _ _ => rfl⟩

/-- Changes under the same paths add up to such a change. -/
theorem trans (h : t.ChangedAt paths t₁) (h₁ : t₁.ChangedAt paths t₂) :
  t.ChangedAt paths t₂
  := by
  refine ⟨h.ways.trans h₁.ways, ?_⟩
  intro place hplace
  rw [h₁.get? place, h.get? place hplace]
  intro path hpath htarget
  exact hplace path hpath (h.ways.symm.target htarget)

/-- Storing contents changes the tree where the path leads. -/
theorem store (h : t.target path = .ok place) (hpath : path ∈ paths) :
  t.ChangedAt paths (t.store place contents)
  := by
  refine ⟨sameWays_store h contents, ?_⟩
  intro other hother
  have hne : other ≠ place := by
    rintro rfl
    exact hother path hpath h
  rw [get?_store, if_neg hne]

/-- Writing a file changes the tree under its path. -/
theorem write (h : t.write path contents = .ok t') (hpath : path ∈ paths) :
  t.ChangedAt paths t'
  := by
  obtain ⟨place, hplace, rfl⟩ := write_eq_ok_iff.mp h
  exact store hplace hpath

/-- Overwriting a file changes the tree under its path. -/
theorem overwrite (h : t.overwrite path contents = .ok t') (hpath : path ∈ paths) :
  t.ChangedAt paths t'
  := by
  cases hplace : t.target path with
  | error fault =>
    rw [FileTree.overwrite, hplace] at h
    cases h
  | ok place =>
    rw [overwrite_of_target hplace] at h
    obtain rfl := Except.ok.inj h
    exact store hplace hpath

end ChangedAt

end FileTree

/-! ### The first failure -/

/-- The wording of an error, with the reason for which a file cannot be read once more after it. -/
def ExpansionError.chain : ExpansionError → String
  | .unreadable file reason => (ExpansionError.unreadable file reason).message ++ ": " ++ reason
  | cause => cause.message

namespace FileTree

/-- The context and the error of the first function that fails when a file is built, if one does: the
input file is read, the output file made, the source expanded, the scratch file written and read
again, and its text compiled. -/
noncomputable def firstFailure (t : FileTree) (o : Options) (scratch : String) :
    Option (String × String) :=
  match t.readText o.input with
  | .error fault => some ("Cannot open input file " ++ o.input, fault.message)
  | .ok source =>
    match t.write o.output "".toUTF8 with
    | .error fault => some ("Cannot open output file " ++ o.output, fault.message)
    | .ok t₁ =>
      match t₁.preprocess o source with
      | .error cause => some ("Failed to preprocess " ++ o.input, cause.chain)
      | .ok expanded =>
        match t₁.write scratch expanded.toUTF8 with
        | .error fault => some ("Cannot access scratch file " ++ scratch, fault.message)
        | .ok t₂ =>
          match t₂.readText scratch with
          | .error fault => some ("Cannot access scratch file " ++ scratch, fault.message)
          | .ok text =>
            match compile text o.registers with
            | .error cause => some ("Failed to compile " ++ o.input, cause.describe)
            | .ok _ => none

/-- All functions succeed when a file is built. -/
def Completes (t : FileTree) (o : Options) (scratch : String) : Prop :=
  ∃ source t₁ expanded t₂ text listing, t.readText o.input = .ok source ∧
    t.write o.output "".toUTF8 = .ok t₁ ∧ t₁.preprocess o source = .ok expanded ∧
    t₁.write scratch expanded.toUTF8 = .ok t₂ ∧ t₂.readText scratch = .ok text ∧
    compile text o.registers = .ok listing

variable {t t' : FileTree} {o : Options} {scratch : String}

/-- No stage fails exactly if the run completes. -/
theorem firstFailure_eq_none_iff :
  t.firstFailure o scratch = none ↔ t.Completes o scratch
  := by
  constructor
  · intro h
    unfold firstFailure at h
    split at h
    · cases h
    rename_i source hsource
    split at h
    · cases h
    rename_i t₁ houtput
    split at h
    · cases h
    rename_i expanded hexpanded
    split at h
    · cases h
    rename_i t₂ hscratch
    split at h
    · cases h
    rename_i text htext
    split at h
    · cases h
    rename_i listing hlisting
    exact ⟨source, t₁, expanded, t₂, text, listing, hsource, houtput, hexpanded, hscratch, htext,
      hlisting⟩
  · rintro ⟨source, t₁, expanded, t₂, text, listing, hsource, houtput, hexpanded, hscratch, htext,
      hlisting⟩
    simp only [firstFailure, hsource, houtput, hexpanded, hscratch, htext, hlisting]

end FileTree

/-! ### Reports of builds -/

/-- A failure to preprocess is told with the chain of its causes. -/
theorem Failure.message_expansion (path : String) (cause : ExpansionError) :
  (Failure.expansion path cause).message = "Failed to preprocess " ++ path ++ ": " ++ cause.chain
  := by
  cases cause with
  | unreadable file reason =>
    simp only [ExpansionError.chain, ← String.append_assoc]
    rfl
  | directive cause => rfl
  | cycle file => rfl

section

variable {source : String} {registers : Nat}

/-- Compilation fails where its first token does. -/
theorem compile_of_start_eq_error {cause : Diagnostic}
    (h : Pass.start source registers = .error cause) :
  compile source registers = .error cause
  := by
  rw [compile, h]
  rfl

/-- Compilation is a run of the program from its first token on, with the listing that it leaves. -/
theorem compile_of_start_eq_ok {start : Pass} (h : Pass.start source registers = .ok start) :
  compile source registers =
    (start.run PassM.program).1.map fun _ => (start.run PassM.program).2.listing
  := by
  simp only [compile, h, bind, Except.bind]
  rcases start.run PassM.program with ⟨_ | _, finish⟩ <;> rfl

end

namespace FileTree

variable {t t' : FileTree} {o : Options} {scratch : String}

/-- A run of the command reports how the build ends, and leaves the tree of the build. -/
theorem run_buildReport (temporary : String) :
  (buildReport system temporary o).run t =
    (.ofBuild (t.build o (o.scratchFile temporary)).1, (t.build o (o.scratchFile temporary)).2)
  := rfl

/-- A build that fails tells the first failure. -/
theorem Builds.errorLine {result : Except Failure Unit} (h : t.Builds o scratch result t') :
  (Report.ofBuild result).errorLine =
    (t.firstFailure o scratch).map fun failure => Report.errorMark ++ (failure.1 ++ ": " ++ failure.2)
  := by
  cases h with
  | input hsource =>
    simp only [firstFailure, hsource]
    rfl
  | output hsource houtput =>
    simp only [firstFailure, hsource, houtput]
    rfl
  | expansion hopens hcause =>
    simp only [firstFailure, hopens.input, hopens.output, ← expansion_eq_preprocess, hcause]
    exact congrArg (fun message => some (Report.errorMark ++ message)) (Failure.message_expansion ..)
  | scratch hopens hexpanded hfault =>
    simp only [firstFailure, hopens.input, hopens.output, ← expansion_eq_preprocess, hexpanded,
      hfault]
    rfl
  | unreadable hprepares hfault =>
    simp only [firstFailure, hprepares.input, hprepares.output, ← expansion_eq_preprocess,
      hprepares.expansion, hprepares.write, hfault]
    rfl
  | unread hrereads hstart =>
    simp only [firstFailure, hrereads.input, hrereads.output, ← expansion_eq_preprocess,
      hrereads.expansion, hrereads.write, hrereads.read, compile_of_start_eq_error hstart]
    rfl
  | @compiled source expanded t₁ t₂ t₃ start hrereads hstart hlisting =>
    simp only [firstFailure, hrereads.input, hrereads.output, ← expansion_eq_preprocess,
      hrereads.expansion, hrereads.write, hrereads.read, compile_of_start_eq_ok hstart]
    cases (start.run PassM.program).1 with
    | ok value => rfl
    | error cause => rfl

/-- The exit code tells whether some stage fails. -/
theorem Builds.exitCode {result : Except Failure Unit} (h : t.Builds o scratch result t') :
  (Report.ofBuild result).exitCode = if (t.firstFailure o scratch).isSome then 1 else 0
  := by
  have hline := h.errorLine
  cases result with
  | ok value =>
    rw [Option.map_eq_none_iff.mp hline.symm]
    rfl
  | error cause =>
    obtain ⟨failure, hfailure, -⟩ := Option.map_eq_some_iff.mp hline.symm
    rw [hfailure]
    rfl

/-! ### What a build changes -/

section

variable {result : Except Failure Unit} {source source' expanded : String} {t₁ t₁' t₂ : FileTree}

/-- Opening the output changes the tree at most under its path. -/
theorem Opens.changedAt (h : t.Opens o source t₁) :
  t.ChangedAt [o.output, scratch] t₁
  := .write h.output List.mem_cons_self

/-- The scratch file is the only other one that is changed before compilation. -/
theorem Prepares.changedAt (h : t.Prepares o scratch source t₁ expanded t₂) :
  t.ChangedAt [o.output, scratch] t₂
  := h.toOpens.changedAt.trans (.write h.write (by simp))

/-- A build changes the tree under the paths of the output and the scratch file only. -/
theorem Builds.changedAt (h : t.Builds o scratch result t') :
  t.ChangedAt [o.output, scratch] t'
  := by
  cases h with
  | input | output => exact .refl ..
  | expansion hopens | scratch hopens => exact hopens.changedAt
  | unreadable hprepares => exact hprepares.changedAt
  | unread hrereads => exact hrereads.changedAt
  | compiled hrereads hstart hlisting =>
    exact hrereads.changedAt.trans (.overwrite hlisting List.mem_cons_self)

/-- A build whose input cannot be read changes nothing. -/
theorem Builds.eq_of_unread (h : t.Builds o scratch result t') {fault : Fault}
    (hinput : t.readText o.input = .error fault) :
  t' = t
  := by
  have hunread {source : String} (hsource : t.readText o.input = .ok source) : False := by
    rw [hinput] at hsource
    cases hsource
  cases h with
  | input | output => rfl
  | expansion hopens | scratch hopens => exact (hunread hopens.input).elim
  | unreadable hprepares => exact (hunread hprepares.input).elim
  | unread hrereads | compiled hrereads => exact (hunread hrereads.input).elim

/-- The source that is opened, and the tree thereafter, are determined. -/
theorem Opens.unique (h : t.Opens o source t₁) (h' : t.Opens o source' t₁') :
  source = source' ∧ t₁ = t₁'
  := ⟨Except.ok.inj (h.input.symm.trans h'.input), Except.ok.inj (h.output.symm.trans h'.output)⟩

/-- A build whose source cannot be preprocessed leaves the scratch file as it is. -/
theorem Builds.changedAt_of_unexpanded (h : t.Builds o scratch result t')
    (hopens : t.Opens o source t₁) {cause : ExpansionError}
    (hcause : t₁.preprocess o source = .error cause) :
  t.ChangedAt [o.output] t'
  := by
  have hunexpanded {source' expanded : String} {t₁' : FileTree} (hopens' : t.Opens o source' t₁')
      (hexpanded : t₁'.expansion o source' = .ok expanded) : False := by
    obtain ⟨rfl, rfl⟩ := hopens.unique hopens'
    rw [expansion_eq_preprocess, hcause] at hexpanded
    cases hexpanded
  cases h with
  | input | output => exact .refl ..
  | expansion hopens' => exact .write hopens'.output List.mem_cons_self
  | scratch hopens' hexpanded => exact (hunexpanded hopens' hexpanded).elim
  | unreadable hprepares => exact (hunexpanded hprepares.toOpens hprepares.expansion).elim
  | unread hrereads | compiled hrereads =>
    exact (hunexpanded hrereads.toOpens hrereads.expansion).elim

end

/-! ### Runs -/

/-- A run of the command takes the functions of the library in turn. It succeeds exactly if all of
them do, and otherwise reports the first failure. No file but the output and scratch files is changed,
nothing at all if the input file cannot be read, and not the scratch file if the source cannot be
expanded. -/
theorem runs_library (t : FileTree) (temporary : String) (o : Options) :
  let scratch := o.scratchFile temporary
  let run := (buildReport system temporary o).run t
  (run.1.exitCode = 0 ↔ t.Completes o scratch) ∧
  (¬ t.Completes o scratch → run.1.exitCode = 1) ∧
  run.1.errorLine = (t.firstFailure o scratch).map
    (fun failure => Report.errorMark ++ (failure.1 ++ ": " ++ failure.2)) ∧
  t.ChangedAt [o.output, scratch] run.2 ∧
  (∀ fault, t.readText o.input = .error fault → run.2 = t) ∧
  ∀ source t₁ cause, t.Opens o source t₁ → t₁.preprocess o source = .error cause →
    t.ChangedAt [o.output] run.2
  := by
  intro scratch run
  have hbuilds := t.builds o scratch
  have hrun : run = (.ofBuild (t.build o scratch).1, (t.build o scratch).2) :=
    run_buildReport temporary
  rw [hrun, hbuilds.exitCode, ← firstFailure_eq_none_iff]
  refine ⟨?_, ?_, hbuilds.errorLine, hbuilds.changedAt, ?_, ?_⟩
  · cases t.firstFailure o scratch <;> simp
  · cases t.firstFailure o scratch <;> simp
  · intro fault hinput
    exact hbuilds.eq_of_unread hinput
  · intro source t₁ cause hopens hcause
    exact hbuilds.changedAt_of_unexpanded hopens hcause

/-- A program that calls for a file in its own directory is built, and the file is left as it is. If
the scratch file may be written and not be read, then the same program is not built. -/
theorem runs_library_included :
  let t (access : Access) : FileTree := ⟨[(["tmp"], .directory),
    (["tmp", "tmp.sil"], .file "".toUTF8 access), (["a"], .directory),
    (["a", "in.sil"], .file "$inc \"x.sil\"".toUTF8), (["a", "x.sil"], .file "int x;".toUTF8)],
    ["a"]⟩
  let o : Options := ⟨"in.sil", "/a/out", none, 16, false⟩
  let run (access : Access) := (buildReport system "/tmp" o).run (t access)
  let hidden : Access := ⟨false, true, false⟩
  ((t .full).Completes o (o.scratchFile "/tmp") ∧ (run .full).1.exitCode = 0 ∧
    (run .full).2.get? ["a", "x.sil"] = (t .full).get? ["a", "x.sil"]) ∧
  ¬ (t hidden).Completes o (o.scratchFile "/tmp") ∧ (run hidden).1.exitCode = 1 ∧
    (run hidden).1.errorLine = some (Report.errorMark ++
      "Cannot access scratch file /tmp/tmp.sil: Permission denied (os error 13)") ∧
    (run hidden).2.get? ["a", "x.sil"] = (t hidden).get? ["a", "x.sil"]
  := by
  intro t o run hidden
  constructor
  · obtain ⟨hcode, -, -, hchanged, -, -⟩ := runs_library (t .full) "/tmp" o
    have hzero : (run .full).1.exitCode = 0 := by decide +kernel
    exact ⟨hcode.mp hzero, hzero, hchanged.get? _ (by decide +kernel)⟩
  · obtain ⟨hcode, -, -, hchanged, -, -⟩ := runs_library (t hidden) "/tmp" o
    have hone : (run hidden).1.exitCode = 1 := by decide +kernel
    refine ⟨?_, hone, by decide +kernel, hchanged.get? _ (by decide +kernel)⟩
    intro hcompletes
    rw [hcode.mpr hcompletes] at hone
    cases hone

end FileTree

end SilFront
