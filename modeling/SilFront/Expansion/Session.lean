import SilFront.Expansion.Fragment

/-!
# Expansion of a source text

A session expands texts: words with a meaning are replaced by it, and a call for a file is replaced
by the expansion of its text. A meaning is not expanded again. Meanings are shared by all texts of a
session and by the files they call for, and stay when an expansion fails.

Files come from a library. A file must not call for itself, directly or through others; since the
library is finite, expansion ends: every call for a file opens one that is not open yet
(`Library.unopened_lt`).
-/

namespace SilFront

/-! ### Libraries -/

/-- A collection of files, of which only finitely many can be read. Nothing is lost by that: an
expansion looks at the files that are called for and at no others, and one that comes to an end has
called for finitely many. It is the same if these are all that can be read. -/
structure Library where
  /-- The text of a file, or the reason for which it cannot be read. -/
  read : String → Except String String
  /-- The files that may be readable. -/
  names : List String
  mem_names : ∀ {file text : String}, read file = .ok text → file ∈ names

namespace Library

/-- The reason for which a file that is not there cannot be read. -/
def missing : String :=
  "no such file"

/-- The text of a file in a list of files. -/
def readFrom (files : List (String × Except String String)) (file : String) :
    Except String String :=
  (files.lookup file).getD (.error missing)

/-- A file that can be read from a list is in the list. -/
theorem mem_of_readFrom {files : List (String × Except String String)} {file text : String}
    (h : readFrom files file = .ok text) :
  file ∈ files.map Prod.fst
  := by
  induction files with
  | nil => cases h
  | cons entry rest ih =>
    obtain ⟨name, contents⟩ := entry
    by_cases hname : file = name
    · rw [hname]
      apply List.mem_cons_self
    · have hne : (file == name) = false := by simpa using hname
      apply List.mem_cons_of_mem
      apply ih
      rwa [readFrom, List.lookup_cons, hne] at h

/-- The library of a list of files. -/
def ofFiles (files : List (String × Except String String)) : Library where
  read := readFrom files
  names := files.map Prod.fst
  mem_names := mem_of_readFrom

/-- The number of files that are not open. -/
def unopened (l : Library) (opened : List String) : Nat :=
  l.names.countP fun name => name ∉ opened

/-- Opening a file leaves fewer files to be opened. -/
theorem unopened_lt {l : Library} {file text : String} {opened : List String}
    (hread : l.read file = .ok text) (hopened : file ∉ opened) :
  l.unopened (file :: opened) < l.unopened opened
  := by
  have hmem := l.mem_names hread
  simp only [unopened]
  generalize l.names = names at hmem
  induction names with
  | nil => cases hmem
  | cons name rest ih =>
    have hle : rest.countP (fun name => name ∉ file :: opened)
        ≤ rest.countP (fun name => name ∉ opened) := by
      apply List.countP_mono_left
      intro name _ h
      simp only [List.mem_cons, not_or, decide_eq_true_eq] at h ⊢
      exact h.2
    by_cases hname : name = file
    · rw [List.countP_cons_of_neg (by simp [hname]), List.countP_cons_of_pos (by simp [hname, hopened])]
      omega
    · have hlt := ih ((List.mem_cons.mp hmem).resolve_left (Ne.symm hname))
      by_cases ho : name ∈ opened
      · rw [List.countP_cons_of_neg (by simp [ho]), List.countP_cons_of_neg (by simp [ho])]
        exact hlt
      · rw [List.countP_cons_of_pos (by simp [ho, hname]), List.countP_cons_of_pos (by simp [ho])]
        omega

end Library

/-! ### Meanings -/

/-- The meanings given to words, the latest first. -/
structure Definitions where
  entries : List (String × String)
deriving DecidableEq, Repr

namespace Definitions

/-- No meanings. -/
def empty : Definitions :=
  ⟨[]⟩

/-- Gives a word a meaning in place of the one it may have had. -/
def define (d : Definitions) (word meaning : String) : Definitions :=
  ⟨(word, meaning) :: d.entries⟩

/-- The meaning of a word. -/
def find? (d : Definitions) (word : String) : Option String :=
  d.entries.lookup word

/-- What a word is replaced by. -/
def replace (d : Definitions) (word : String) : String :=
  (d.find? word).getD word

/-- The latest meaning of a word counts, and other words keep theirs. -/
theorem find?_define (d : Definitions) (word meaning other : String) :
  (d.define word meaning).find? other = if other = word then some meaning else d.find? other
  := by
  rw [find?, define, List.lookup_cons]
  by_cases h : other = word
  · simp [h]
  · have hne : (other == word) = false := by simpa using h
    rw [hne, if_neg h, find?]

end Definitions

/-! ### Expansion -/

/-- The reasons for which an expansion fails. -/
inductive ExpansionError where
  | directive (cause : DirectiveError)
  | unreadable (file reason : String)
  | cycle (file : String)
deriving DecidableEq, Repr

/-- The wording of a reason. -/
def ExpansionError.message : ExpansionError → String
  | .directive cause => cause.message
  | .unreadable file reason => s!"Cannot find included file [{file}]: {reason}"
  | .cycle file => s!"File [{file}] includes itself"

/-- A step of an expansion, which may fail and keeps the meanings given before when it does. -/
abbrev ExpandM :=
  ExceptT ExpansionError (StateM Definitions)

/-- The expansion of a text while some files are open. -/
def expand (l : Library) (opened : List String) (text : String) : ExpandM String := do
  let parts ← (Fragment.ofText text).mapM fun
    | .plain text => return String.ofList text
    | .word name => return (← get).replace name
    | .definition name meaning => do
      modify fun d => d.define name meaning
      return ""
    | .inclusion file => do
      if _hopened : file ∈ opened then throw (.cycle file)
      else match _hread : l.read file with
        | .error reason => throw (.unreadable file reason)
        | .ok contents => expand l (file :: opened) contents
    | .fault cause => throw (.directive cause)
  return String.join parts
termination_by l.unopened opened
decreasing_by exact Library.unopened_lt _hread _hopened

/-- A library with the meanings given so far. -/
structure Session where
  library : Library
  definitions : Definitions

namespace Session

/-- A session in which no word has a meaning yet. -/
def start (library : Library) : Session :=
  ⟨library, .empty⟩

/-- Gives a word a meaning. -/
def define (s : Session) (word meaning : String) : Session :=
  { s with definitions := s.definitions.define word meaning }

/-- Expands a text. -/
def expand (s : Session) (text : String) : Except ExpansionError String × Session :=
  let (result, definitions) := StateT.run (ExceptT.run (SilFront.expand s.library [] text)) s.definitions
  (result, { s with definitions })

end Session

end SilFront
