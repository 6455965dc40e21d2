import Mathlib.Tactic.Common
import SilFront.CommandLine.FileTree

/-!
# Files in trees

A path leads to a place by the directories on its way alone, and whether a file can be written there
depends on that place and its directory (`FileTree.target_eq_ok_iff`). Writing a file changes none of
this, so afterwards every path leads to the same place as before, whether it begins at the root or in
the working directory (`FileTree.target_of_write`). What stands at the place of a file is read
from it if it may be read (`FileTree.readBytes_of_target`).
-/

namespace SilFront

namespace FileTree

variable {t t' t'' : FileTree} {path : String} {place parent : List String} {contents : ByteArray}
  {access : Access}

/-! ### Ways -/

section

variable {place' : List String} {component : String} {way : List String}

/-- A directory stands at a place, and files can be looked up in it. -/
def Leads (t : FileTree) (place : List String) : Prop :=
  ∃ access, t.get? place = some (.directory access) ∧ access.searchable

/-- A way without components leads to what stands there. -/
theorem walk_nil_eq_ok_iff :
  t.walk place [] = .ok place' ↔ place = place' ∧ (t.get? place).isSome
  := by
  rw [walk]
  split <;> simp_all

/-- A way leads on from a directory in which files can be looked up. -/
theorem walk_cons_eq_ok_iff :
  t.walk place (component :: way) = .ok place' ↔
    t.Leads place ∧ ¬ Path.isTooLong component ∧ t.walk (step place component) way = .ok place'
  := by
  rw [walk, Leads]
  split
  · simp_all
  · simp_all
  · split
    · simp_all
    · split <;> simp_all

/-- A way goes on from where its beginning leads. -/
theorem walk_append_eq_ok_iff (h : t.walk place way = .ok place') {more last : List String} :
  t.walk place (way ++ more) = .ok last ↔ t.walk place' more = .ok last
  := by
  induction way generalizing place with
  | nil =>
    obtain ⟨rfl, -⟩ := walk_nil_eq_ok_iff.mp h
    rfl
  | cons component way ih =>
    obtain ⟨hleads, hlong, hway⟩ := walk_cons_eq_ok_iff.mp h
    rw [List.cons_append, walk_cons_eq_ok_iff, ih hway]
    exact ⟨fun h => h.2.2, fun h => ⟨hleads, hlong, h⟩⟩

end

/-! ### Places -/

/-- The conditions under which a file can be written in a directory. -/
theorem writablePlace_eq_ok_iff {name : String} :
  t.writablePlace parent access name = .ok place ↔
    place = parent ++ [name] ∧ (∀ a, t.get? place ≠ some (.directory a)) ∧
      (∀ contents a, t.get? place = some (.file contents a) → a.writable) ∧
      (t.get? place = none → access.writable)
  := by
  rw [writablePlace]
  constructor
  · intro h
    split at h
    · cases h
    all_goals
      split at h
      · cases h
        simp_all
      · cases h
  · rintro ⟨rfl, hdirectory, hfile, hnone⟩
    split
    · rename_i a h
      cases hdirectory a h
    · rename_i contents a h
      rw [if_pos (hfile contents a h)]
    · rename_i h
      rw [if_pos (hnone h)]

/-- The conditions under which a file can be written: the path leads through directories to a name
that a file can have. -/
theorem target_eq_ok_iff :
  t.target path = .ok place ↔
    Path.check path = .ok () ∧ ¬ path.endsWith "/" ∧
      ∃ way name parent access, Path.components path = way ++ [name] ∧ name ≠ "." ∧ name ≠ ".." ∧
        ¬ Path.isTooLong name ∧ t.walk (t.origin path) way = .ok parent ∧
        t.get? parent = some (.directory access) ∧ access.searchable ∧
        t.writablePlace parent access name = .ok place
  := by
  constructor
  · intro h
    simp only [target, bind, Except.bind, throw, throwThe, MonadExceptOf.throw] at h
    split at h
    · cases h
    rename_i hcheck
    split at h
    · cases h
    rename_i name hname
    obtain ⟨way, hcomponents⟩ := List.getLast?_eq_some_iff.mp hname
    rw [hcomponents, List.dropLast_concat] at h
    split at h
    · split at h <;> cases h
    rename_i hdots
    split at h
    · cases h
    rename_i parent hway
    split at h
    · cases h
    · cases h
    rename_i access hparent
    split at h
    · cases h
    rename_i hsearchable
    split at h
    · cases h
    rename_i hslash
    split at h
    · cases h
    rename_i hlong
    rw [not_or] at hdots
    exact ⟨hcheck, hslash, way, name, parent, access, hcomponents, hdots.1, hdots.2, hlong, hway,
      hparent, by simpa using hsearchable, h⟩
  · rintro ⟨hcheck, hslash, way, name, parent, access, hcomponents, hdot, hdots, hlong, hway,
      hparent, hsearchable, hplace⟩
    simp [target, hcheck, hcomponents, hdot, hdots, hway, hslash, hlong, hparent, hsearchable,
      hplace, bind, Except.bind]

/-- Where a file can be written, it can be written in place of what is there, in a directory that is
there. -/
theorem exists_writablePlace_of_target (h : t.target path = .ok place) :
  ∃ parent access name, t.get? parent = some (.directory access) ∧
    t.writablePlace parent access name = .ok place
  := by
  obtain ⟨-, -, -, name, parent, access, -, -, -, -, -, hparent, -, hplace⟩ :=
    target_eq_ok_iff.mp h
  exact ⟨parent, access, name, hparent, hplace⟩

/-! ### Trees with the same ways -/

/-- Paths lead to the same places in two trees: they have the same directories, and files can be
written in the same places. -/
structure SameWays (t t' : FileTree) : Prop where
  workingDirectory : t.workingDirectory = t'.workingDirectory
  directories : ∀ {place access},
    t.get? place = some (.directory access) ↔ t'.get? place = some (.directory access)
  places : ∀ {parent access} (name : String), t.get? parent = some (.directory access) →
    t.writablePlace parent access name = t'.writablePlace parent access name

namespace SameWays

variable {place' : List String} {way : List String}

theorem refl (t : FileTree) :
  t.SameWays t
  := ⟨rfl, Iff.rfl, fun _ _ => rfl⟩

theorem symm (h : t.SameWays t') :
  t'.SameWays t
  := by
  refine ⟨h.workingDirectory.symm, h.directories.symm, ?_⟩
  intro parent access name hparent
  exact (h.places name (h.directories.mpr hparent)).symm

theorem trans (h : t.SameWays t') (h' : t'.SameWays t'') :
  t.SameWays t''
  := by
  refine ⟨h.workingDirectory.trans h'.workingDirectory, h.directories.trans h'.directories, ?_⟩
  intro parent access name hparent
  exact (h.places name hparent).trans (h'.places name (h.directories.mp hparent))

/-- A way to a directory leads there in every tree with the same directories. -/
theorem walk (h : t.SameWays t') (hway : t.walk place way = .ok place')
    (hplace' : t.get? place' = some (.directory access)) :
  t'.walk place way = .ok place'
  := by
  induction way generalizing place with
  | nil =>
    obtain ⟨rfl, -⟩ := walk_nil_eq_ok_iff.mp hway
    apply walk_nil_eq_ok_iff.mpr
    rw [h.directories.mp hplace']
    exact ⟨rfl, rfl⟩
  | cons component way ih =>
    obtain ⟨⟨a, hplace, hsearchable⟩, hlong, hway⟩ := walk_cons_eq_ok_iff.mp hway
    apply walk_cons_eq_ok_iff.mpr
    exact ⟨⟨a, h.directories.mp hplace, hsearchable⟩, hlong, ih hway⟩

/-- Paths begin at the same places in both trees. -/
theorem origin (h : t.SameWays t') (path : String) :
  t.origin path = t'.origin path
  := by
  rw [FileTree.origin, FileTree.origin, h.workingDirectory]

/-- A path leads to the same place in both trees. -/
theorem target (h : t.SameWays t') (hplace : t.target path = .ok place) :
  t'.target path = .ok place
  := by
  obtain ⟨hcheck, hslash, way, name, parent, access, hcomponents, hdot, hdots, hlong, hway,
    hparent, hsearchable, hplace⟩ := target_eq_ok_iff.mp hplace
  rw [h.origin] at hway
  rw [h.places name hparent] at hplace
  apply target_eq_ok_iff.mpr
  exact ⟨hcheck, hslash, way, name, parent, access, hcomponents, hdot, hdots, hlong,
    h.walk hway hparent, h.directories.mp hparent, hsearchable, hplace⟩

end SameWays

/-! ### Writing -/

/-- Storing changes what stands at one place, and a file that is there keeps what may be done with
it. -/
theorem get?_store (t : FileTree) (place other : List String) (contents : ByteArray) :
  (t.store place contents).get? other = if other = place then
    some (.file contents (((t.get? place).map Node.access).getD .full)) else t.get? other
  := get?_insert ..

/-- What is written at a place stands there. -/
theorem exists_get?_store (t : FileTree) (place : List String) (contents : ByteArray) :
  ∃ access, (t.store place contents).get? place = some (.file contents access)
  := ⟨_, (get?_store ..).trans (if_pos rfl)⟩

/-- A file that can be written can be written again. -/
theorem writable_of_target (h : t.target path = .ok place) :
  (((t.get? place).map Node.access).getD .full).writable
  := by
  obtain ⟨parent, access, name, -, hplace⟩ := exists_writablePlace_of_target h
  obtain ⟨-, hdirectory, hfile, -⟩ := writablePlace_eq_ok_iff.mp hplace
  rcases hnode : t.get? place with _ | (a | ⟨contents, a⟩)
  · rfl
  · cases hdirectory a hnode
  · exact hfile contents a hnode

/-- Writing a file changes no directory and no place. -/
theorem sameWays_store (h : t.target path = .ok place) (contents : ByteArray) :
  t.SameWays (t.store place contents)
  := by
  obtain ⟨parent, access, name, hparent, hplace⟩ := exists_writablePlace_of_target h
  obtain ⟨hname, hdirectory, -, -⟩ := writablePlace_eq_ok_iff.mp hplace
  have hwritable := writable_of_target h
  refine ⟨rfl, ?_, ?_⟩
  · intro other a
    rw [get?_store]
    split
    · rename_i hother
      subst hother
      simp [hdirectory]
    · rfl
  · intro other a name' hother
    by_cases hsame : other ++ [name'] = place
    · -- the directory of the file is the only one in which it has a place
      obtain ⟨rfl, hname'⟩ := List.append_inj' (hsame.trans hname) rfl
      obtain rfl : name' = name := List.cons.inj hname' |>.1
      obtain rfl : a = access := by
        rw [hparent] at hother
        cases hother
        rfl
      rw [hplace]
      symm
      apply writablePlace_eq_ok_iff.mpr
      simp only [get?_store, if_pos]
      refine ⟨hsame.symm, by simp, ?_, by simp⟩
      rintro _ _ ⟨⟩
      exact hwritable
    · rw [writablePlace, writablePlace, get?_store, if_neg hsame]

/-- A file is written exactly if its path leads to a place, and it is stored there. -/
theorem write_eq_ok_iff :
  t.write path contents = .ok t' ↔
    ∃ place, t.target path = .ok place ∧ t' = t.store place contents
  := by
  rw [write]
  rcases t.target path with fault | place
  · simp [bind, Except.bind]
  · simp [bind, Except.bind, pure, Except.pure, eq_comm]

/-- After a file is written, paths lead to the same places as before. -/
theorem target_of_write (h : t.write path contents = .ok t') {other : String} :
  t'.target other = .ok place ↔ t.target other = .ok place
  := by
  obtain ⟨place', htarget, rfl⟩ := write_eq_ok_iff.mp h
  have hsame := sameWays_store htarget contents
  exact ⟨hsame.symm.target, hsame.target⟩

/-! ### Reading -/

/-- A component that is not made of dots is a name in the directory. -/
theorem step_of_ne {name : String} (hdot : name ≠ ".") (hdots : name ≠ "..") :
  step parent name = parent ++ [name]
  := by
  simp [step]

/-- What stands at the place of a file is read from it, if it may be read. -/
theorem readBytes_of_target (h : t.target path = .ok place)
    (hfile : t.get? place = some (.file contents access)) :
  t.readBytes path = if access.readable then .ok contents else .error .denied
  := by
  obtain ⟨hcheck, hslash, way, name, parent, a, hcomponents, hdot, hdots, hlong, hway, hparent,
    hsearchable, hplace⟩ := target_eq_ok_iff.mp h
  obtain ⟨rfl, -, -, -⟩ := writablePlace_eq_ok_iff.mp hplace
  have hwalk : t.walk (t.origin path) (Path.components path) = .ok (parent ++ [name]) := by
    rw [hcomponents, walk_append_eq_ok_iff hway, walk_cons_eq_ok_iff, step_of_ne hdot hdots,
      walk_nil_eq_ok_iff, hfile]
    exact ⟨⟨a, hparent, hsearchable⟩, hlong, rfl, rfl⟩
  simp only [readBytes, hcheck, hwalk, hfile, bind, Except.bind, if_neg hslash, pure, Except.pure]
  rfl

end FileTree

end SilFront
