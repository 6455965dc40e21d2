import SilFront.CommandLine.Build
import SilFront.Proofs.FileTrees

/-!
# The output file

A build on a file tree goes through its stages in turn (`FileTree.Builds`). Once the scratch file is
written, it gives back what was written if it may be read, and the listing can be written, because
neither changes where a path leads.

The listing is written over the beginning of the output file, which was emptied before the scratch
file was written. So the output file holds the listing and nothing else, unless it is the scratch
file, too, and the expanded source is longer than the listing (`FileTree.output_eq_listing_iff`).
Two paths may mean the same file in different words, from the root and from the working directory.
-/

namespace SilFront

/-- The text of the listing that is left by compiling a source, whether it is refused or not. -/
def listingText (source : String) (registers : Nat) : String :=
  match Pass.start source registers with
  | .error _ => ""
  | .ok start => (start.run PassM.program).2.listing.text

/-- Whether a failure comes before the program is compiled. -/
def Failure.isEarly : Failure → Bool
  | .input .. | .output .. | .expansion .. | .scratch .. => true
  | .program .. | .listing .. => false

namespace FileTree

variable {t t' : FileTree} {path text : String} {place : List String} {contents : ByteArray}

/-! ### Texts of files -/

/-- The encoding of a text is decoded as that text. -/
theorem fromUTF8?_toUTF8 (text : String) :
  String.fromUTF8? text.toUTF8 = some text
  := dif_pos text.isValidUTF8

/-- A text that is written to a file is read from it, or the file may not be read. -/
theorem readText_of_write (h : t.write path text.toUTF8 = .ok t') :
  t'.readText path = .ok text ∨ t'.readText path = .error .denied
  := by
  obtain ⟨place, htarget, rfl⟩ := write_eq_ok_iff.mp h
  obtain ⟨access, hfile⟩ := t.exists_get?_store place text.toUTF8
  rw [readText, readBytes_of_target ((target_of_write h).mpr htarget) hfile]
  split
  · left
    simp only [bind, Except.bind, fromUTF8?_toUTF8, pure, Except.pure]
  · right
    rfl

/-- What is written over the beginning of a file is all of it exactly if it is not shorter. -/
theorem overlay_eq_right_iff {old new : ByteArray} :
  overlay old new = new ↔ old.size ≤ new.size
  := by
  constructor
  · intro h
    have hsize := congrArg ByteArray.size h
    rw [overlay, ByteArray.size_append, ByteArray.size_extract] at hsize
    omega
  · intro h
    have hrest : old.extract new.size old.size = .empty := by
      apply ByteArray.extract_eq_empty_iff.mpr
      omega
    rw [overlay, hrest, ByteArray.append_empty]

/-- Writing nothing over old contents leaves them. -/
theorem overlay_empty (old : ByteArray) :
  overlay old .empty = old
  := by
  simp [overlay]

theorem held_of_get? {access : Access} (h : t.get? place = some (.file contents access)) :
  t.held place = contents
  := by
  rw [held, h]

/-- A file that can be written is overwritten from its beginning on, and keeps what lies beyond the
new contents. -/
theorem overwrite_of_target (h : t.target path = .ok place) :
  t.overwrite path contents = .ok (t.store place (overlay (t.held place) contents))
  := by
  simp only [overwrite, h, bind, Except.bind, pure, Except.pure]

/-! ### Stages -/

/-- A build on a tree. -/
def build (t : FileTree) (o : Options) (scratch : String) : Except Failure Unit × FileTree :=
  (SilFront.build system o scratch).run.run t

/-- What the source is expanded to after the output file is emptied. -/
def expansion (t : FileTree) (o : Options) (source : String) : Except ExpansionError String :=
  ((Session.start (t.library (Path.directory o.input) source)).expand source).1

/-- A build reads its input and empties its output. -/
structure Opens (t : FileTree) (o : Options) (source : String) (t₁ : FileTree) : Prop where
  input : t.readText o.input = .ok source
  output : t.write o.output "".toUTF8 = .ok t₁

/-- A build comes as far as to the scratch file, which it writes. -/
structure Prepares (t : FileTree) (o : Options) (scratch source : String) (t₁ : FileTree)
    (expanded : String) (t₂ : FileTree) : Prop extends t.Opens o source t₁ where
  expansion : t₁.expansion o source = .ok expanded
  write : t₁.write scratch expanded.toUTF8 = .ok t₂

/-- A build reads the scratch file again. -/
structure Rereads (t : FileTree) (o : Options) (scratch source : String) (t₁ : FileTree)
    (expanded : String) (t₂ : FileTree) : Prop
    extends t.Prepares o scratch source t₁ expanded t₂ where
  read : t₂.readText scratch = .ok expanded

/-- What a build answers and leaves, by the stage that it comes to. -/
inductive Builds (t : FileTree) (o : Options) (scratch : String) :
    Except Failure Unit → FileTree → Prop
  | input {fault : Fault} :
    t.readText o.input = .error fault → Builds t o scratch (.error (.input o.input fault)) t
  | output {source : String} {fault : Fault} :
    t.readText o.input = .ok source → t.write o.output "".toUTF8 = .error fault →
      Builds t o scratch (.error (.output o.output fault)) t
  | expansion {source : String} {t₁ : FileTree} {cause : ExpansionError} :
    t.Opens o source t₁ → t₁.expansion o source = .error cause →
      Builds t o scratch (.error (.expansion o.input cause)) t₁
  | scratch {source expanded : String} {t₁ : FileTree} {fault : Fault} :
    t.Opens o source t₁ → t₁.expansion o source = .ok expanded →
      t₁.write scratch expanded.toUTF8 = .error fault →
      Builds t o scratch (.error (.scratch scratch fault)) t₁
  | unreadable {source expanded : String} {t₁ t₂ : FileTree} {fault : Fault} :
    t.Prepares o scratch source t₁ expanded t₂ → t₂.readText scratch = .error fault →
      Builds t o scratch (.error (.scratch scratch fault)) t₂
  | unread {source expanded : String} {t₁ t₂ : FileTree} {cause : Diagnostic} :
    t.Rereads o scratch source t₁ expanded t₂ →
      Pass.start expanded o.registers = .error cause →
      Builds t o scratch (.error (.program o.input cause)) t₂
  | compiled {source expanded : String} {t₁ t₂ t₃ : FileTree} {start : Pass} :
    t.Rereads o scratch source t₁ expanded t₂ →
      Pass.start expanded o.registers = .ok start →
      t₂.overwrite o.output (start.run PassM.program).2.listing.text.toUTF8 = .ok t₃ →
      Builds t o scratch ((start.run PassM.program).1.mapError (.program o.input)) t₃

section

variable {α β : Type} {failure : Fault → Failure} {answer : StateM FileTree (Except Fault α)}
  {next : α → ExceptT Failure (StateM FileTree) β}

/-- What follows an attempt that succeeds runs from the tree that it leaves. -/
theorem run_attempt_of_ok {value : α} (h : answer.run t = (.ok value, t')) :
  (attempt failure answer >>= next).run.run t = (next value).run.run t'
  := by
  simp only [attempt, bind_assoc, ExceptT.run_bind, ExceptT.run_liftM, bind_map_left,
    StateT.run_bind, h]
  rfl

/-- An attempt that fails ends the build with its failure. -/
theorem run_attempt_of_error {fault : Fault} (h : answer.run t = (.error fault, t')) :
  (attempt failure answer >>= next).run.run t = (.error (failure fault), t')
  := by
  simp only [attempt, bind_assoc, ExceptT.run_bind, ExceptT.run_liftM, bind_map_left,
    StateT.run_bind, h]
  rfl

end

/-- The files at hand are looked at without a change of the tree. -/
theorem run_library {β : Type} {directory source : String}
    {next : Library → ExceptT Failure (StateM FileTree) β} :
  (liftM (system.library directory source) >>= next).run.run t =
    (next (t.library directory source)).run.run t
  := rfl

/-- Reading does not change a tree. -/
theorem run_readText {answer : Except Fault String} (h : t.readText path = answer) :
  (system.readText path).run t = (answer, t)
  := h ▸ rfl

theorem run_writeText_of_ok (h : t.write path text.toUTF8 = .ok t') :
  (system.writeText path text).run t = (.ok (), t')
  := by
  simp only [system, StateT.run_bind, StateT.run_get, pure_bind, h]
  rfl

/-- A file that cannot be written leaves the tree as it is. -/
theorem run_writeText_of_error {fault : Fault} (h : t.write path text.toUTF8 = .error fault) :
  (system.writeText path text).run t = (.error fault, t)
  := by
  simp only [system, StateT.run_bind, StateT.run_get, pure_bind, h]
  rfl

theorem run_overwriteText_of_ok (h : t.overwrite path text.toUTF8 = .ok t') :
  (system.overwriteText path text).run t = (.ok (), t')
  := by
  simp only [system, StateT.run_bind, StateT.run_get, pure_bind, h]
  rfl

/-- The path of the output file leads to the same place once the scratch file is written. -/
theorem Prepares.target_output {o : Options} {scratch source expanded : String} {t₁ t₂ : FileTree}
    (h : t.Prepares o scratch source t₁ expanded t₂) (hplace : t.target o.output = .ok place) :
  t₂.target o.output = .ok place
  := (target_of_write h.write).mpr ((target_of_write h.output).mpr hplace)

/-- A build goes through its stages. What is read from the scratch file is what was written to it, and
the listing can be written. -/
theorem builds (t : FileTree) (o : Options) (scratch : String) :
  t.Builds o scratch (t.build o scratch).1 (t.build o scratch).2
  := by
  rw [build, SilFront.build]
  rcases hsource : t.readText o.input with fault | source
  · rw [run_attempt_of_error (run_readText hsource)]
    exact .input hsource
  rw [run_attempt_of_ok (run_readText hsource)]
  rcases houtput : t.write o.output "".toUTF8 with fault | t₁
  · rw [run_attempt_of_error (run_writeText_of_error houtput)]
    exact .output hsource houtput
  rw [run_attempt_of_ok (run_writeText_of_ok houtput), run_library]
  have hopens : t.Opens o source t₁ := ⟨hsource, houtput⟩
  rcases hexpansion : t₁.expansion o source with cause | expanded
  · rw [expansion] at hexpansion
    rw [hexpansion]
    exact .expansion hopens hexpansion
  have hexpanded := hexpansion
  rw [expansion] at hexpanded
  rw [hexpanded]
  rcases hscratch : t₁.write scratch expanded.toUTF8 with fault | t₂
  · rw [run_attempt_of_error (run_writeText_of_error hscratch)]
    exact .scratch hopens hexpansion hscratch
  have hprepares : t.Prepares o scratch source t₁ expanded t₂ := ⟨hopens, hexpansion, hscratch⟩
  rw [run_attempt_of_ok (run_writeText_of_ok hscratch)]
  obtain hread | hread := readText_of_write hscratch
  swap
  · rw [run_attempt_of_error (run_readText hread)]
    exact .unreadable hprepares hread
  rw [run_attempt_of_ok (run_readText hread)]
  have hrereads : t.Rereads o scratch source t₁ expanded t₂ := ⟨hprepares, hread⟩
  rcases hstart : Pass.start expanded o.registers with cause | start
  · exact .unread hrereads hstart
  obtain ⟨place, hplace, -⟩ := write_eq_ok_iff.mp houtput
  have hlisting : t₂.overwrite o.output (start.run PassM.program).2.listing.text.toUTF8 = .ok _ :=
    overwrite_of_target (hprepares.target_output hplace)
  have hcompiled := Builds.compiled hrereads hstart hlisting
  dsimp only
  rw [run_attempt_of_ok (run_overwriteText_of_ok hlisting)]
  generalize (start.run PassM.program).1 = result at hcompiled ⊢
  cases result with
  | ok value => exact hcompiled
  | error cause => exact hcompiled

/-! ### The listing -/

variable {o : Options} {scratch source expanded : String} {t₁ t₂ : FileTree}

/-- Once the scratch file is written, the output file holds what the scratch file holds, if that is
the same file, and nothing otherwise. -/
theorem Prepares.get?_output (h : t.Prepares o scratch source t₁ expanded t₂)
    (hplace : t.target o.output = .ok place) :
  ∃ access, t₂.get? place = some (.file
    (if t.target scratch = t.target o.output then expanded.toUTF8 else "".toUTF8) access)
  := by
  obtain ⟨output, houtput, rfl⟩ := write_eq_ok_iff.mp h.output
  obtain ⟨other, hother, rfl⟩ := write_eq_ok_iff.mp h.write
  obtain rfl : place = output := Except.ok.inj (hplace.symm.trans houtput)
  rw [(target_of_write h.output).mp hother, hplace]
  by_cases hsame : other = place
  · rw [hsame, if_pos rfl]
    apply exists_get?_store
  · rw [get?_store, if_neg (Ne.symm hsame), if_neg fun h => hsame (Except.ok.inj h)]
    apply exists_get?_store

/-- The listing is written over what the output file holds. -/
theorem Builds.get?_output {result : Except Failure Unit} (h : t.Builds o scratch result t')
    (hlate : ∀ cause, result = .error cause → cause.isEarly = false) :
  ∃ source t₁ expanded place access, t.Opens o source t₁ ∧ t₁.expansion o source = .ok expanded ∧
    t.target o.output = .ok place ∧ t'.target o.output = .ok place ∧
    t'.get? place = some (.file (overlay
      (if t.target scratch = t.target o.output then expanded.toUTF8 else "".toUTF8)
      (listingText expanded o.registers).toUTF8) access)
  := by
  cases h with
  | input => cases hlate _ rfl
  | output => cases hlate _ rfl
  | expansion => cases hlate _ rfl
  | scratch => cases hlate _ rfl
  | unreadable => cases hlate _ rfl
  | unread hrereads hstart =>
    obtain ⟨place, hplace, -⟩ := write_eq_ok_iff.mp hrereads.output
    obtain ⟨access, hfile⟩ := hrereads.get?_output hplace
    refine ⟨_, _, _, place, access, hrereads.toOpens, hrereads.expansion, hplace,
      hrereads.target_output hplace, ?_⟩
    rw [listingText, hstart, hfile]
    exact congrArg (fun contents => some (Node.file contents access)) (overlay_empty _).symm
  | compiled hrereads hstart hlisting =>
    obtain ⟨place, hplace, -⟩ := write_eq_ok_iff.mp hrereads.output
    obtain ⟨access, hfile⟩ := hrereads.get?_output hplace
    have hplace₂ := hrereads.target_output hplace
    rw [overwrite_of_target hplace₂, held_of_get? hfile] at hlisting
    cases hlisting
    obtain ⟨access', hfile'⟩ := exists_get?_store _ place _
    refine ⟨_, _, _, place, access', hrereads.toOpens, hrereads.expansion, hplace,
      (sameWays_store hplace₂ _).target hplace₂, ?_⟩
    rw [listingText, hstart]
    exact hfile'

/-- A build that comes to compile the program leaves in the output file the listing, and after it
what the file held beyond its length: the rest of the expanded source, if the output file is the
scratch file, too. So the output file holds the listing and nothing else exactly if it is another
file than the scratch file or the listing is not shorter than the expanded source. -/
theorem output_eq_listing_iff (t : FileTree) (o : Options) (scratch : String)
    (h : ∀ cause, (t.build o scratch).1 = .error cause → cause.isEarly = false) :
  ∃ source t₁ expanded place contents access,
    t.Opens o source t₁ ∧ t₁.expansion o source = .ok expanded ∧
    t.target o.output = .ok place ∧
    (t.build o scratch).2.get? place = some (.file contents access) ∧
    (t.build o scratch).2.readBytes o.output =
      (if access.readable then .ok contents else .error .denied) ∧
    contents = overlay
      (if t.target scratch = t.target o.output then expanded.toUTF8 else "".toUTF8)
      (listingText expanded o.registers).toUTF8 ∧
    (contents = (listingText expanded o.registers).toUTF8 ↔
      (t.target scratch = t.target o.output →
        expanded.utf8ByteSize ≤ (listingText expanded o.registers).utf8ByteSize))
  := by
  obtain ⟨source, t₁, expanded, place, access, hopens, hexpansion, hplace, hplace', hfile⟩ :=
    (t.builds o scratch).get?_output h
  refine ⟨source, t₁, expanded, place, _, access, hopens, hexpansion, hplace, hfile,
    readBytes_of_target hplace' hfile, rfl, ?_⟩
  rw [overlay_eq_right_iff]
  by_cases hsame : t.target scratch = t.target o.output
  · rw [if_pos hsame]
    exact ⟨fun h _ => h, fun h => h hsame⟩
  · rw [if_neg hsame]
    exact ⟨fun _ h => absurd h hsame, fun _ => Nat.zero_le _⟩

/-- A file is compiled in place: it is given as the input file from the working directory and as the
output file from the root. The scratch file is the one for temporary files. -/
theorem output_eq_listing_iff_input :
  let t : FileTree := ⟨[(["tmp"], .directory), (["home"], .directory),
    (["home", "in.sil"], .file "int x; # a note that is longer than its listing".toUTF8)], ["home"]⟩
  let o : Options := ⟨"in.sil", "/home/in.sil", none, 16, false⟩
  let scratch := o.scratchFile "/tmp"
  (t.build o scratch).1 = .ok () ∧ t.target "in.sil" = t.target o.output ∧
  t.target scratch = .ok ["tmp", "tmp.sil"] ∧
  ∃ source t₁ expanded place contents access,
    t.Opens o source t₁ ∧ t₁.expansion o source = .ok expanded ∧
    t.target o.output = .ok place ∧
    (t.build o scratch).2.get? place = some (.file contents access) ∧
    contents = (listingText expanded o.registers).toUTF8
  := by
  intro t o scratch
  have hok : (t.build o scratch).1 = .ok () := by decide +kernel
  have hlate : ∀ cause, (t.build o scratch).1 = .error cause → cause.isEarly = false := by
    rw [hok]
    intro cause h
    cases h
  have hother : t.target scratch ≠ t.target o.output := by decide +kernel
  obtain ⟨source, t₁, expanded, place, contents, access, hopens, hexpansion, hplace, hfile, -, -,
    hiff⟩ := output_eq_listing_iff t o scratch hlate
  refine ⟨hok, by decide +kernel, by decide +kernel, source, t₁, expanded, place, contents, access,
    hopens, hexpansion, hplace, hfile, ?_⟩
  apply hiff.mpr
  intro hsame
  exact absurd hsame hother

/-- Where the output file is the scratch file, too, the end of a longer source stays in it. -/
theorem end_of_source_stays :
  let t : FileTree := ⟨[(["home"], .directory), (["home", "in.sil"],
    .file "int x; # a note that is longer than what the program is compiled to\n".toUTF8)],
    ["home"]⟩
  let o : Options := ⟨"in.sil", "out", some "out", 16, false⟩
  (t.build o "out").1 = .ok () ∧
    listingText "int x; # a note that is longer than what the program is compiled to\n" 16 =
      "Define new variable \"x\" of type \"int\" in scope 0\n" ∧
    (t.build o "out").2.readText "out" =
      .ok "Define new variable \"x\" of type \"int\" in scope 0\nram is compiled to\n"
  := by
  decide +kernel

end FileTree

end SilFront
