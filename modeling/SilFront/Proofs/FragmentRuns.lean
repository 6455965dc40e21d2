import Mathlib.Tactic.Common
import SilFront.Expansion.Session

/-!
# Expansion fragment by fragment

A text is expanded by expanding its fragments in turn (`Fragment.expandAll`), and the fragments of two
texts in turn are expanded as the one and then the other (`Fragment.expandAll_append`). A fragment
that calls for a file is expanded while one file more is open, so what is true of all fragments is
shown by induction on the files that are not open, and on the fragments of each text
(`Library.induction_on`).
-/

namespace SilFront

/-! ### Runs -/

namespace Definitions

/-- Runs a step of an expansion with the meanings given before. -/
def run {α : Type} (d : Definitions) (x : ExpandM α) : Except ExpansionError α × Definitions :=
  StateT.run (ExceptT.run x) d

section

variable {α β : Type} (d : Definitions)

@[simp]
theorem run_pure (value : α) :
  d.run (pure value) = (.ok value, d)
  := rfl

@[simp]
theorem run_throw (e : ExpansionError) :
  d.run (throw e : ExpandM α) = (.error e, d)
  := rfl

/-- The second of two steps runs with the meanings that the first leaves, if that one succeeds. -/
theorem run_bind (first : ExpandM α) (second : α → ExpandM β) :
  d.run (first >>= second) =
    match d.run first with
    | (.ok value, d') => d'.run (second value)
    | (.error e, d') => (.error e, d')
  := by
  have h : d.run (first >>= second) =
      (fun r : Except ExpansionError α × Definitions => ExceptT.bindCont second r.1 r.2)
        (d.run first) := rfl
  rw [h]
  rcases d.run first with ⟨_ | _, d'⟩ <;> rfl

end

/-- Expansions in turn succeed exactly if the second does with the definitions that the first
leaves. -/
theorem run_bind_eq_ok_iff {α β : Type} {d d' : Definitions} {first : ExpandM α}
    {second : α → ExpandM β} {b : β} :
  d.run (first >>= second) = (.ok b, d') ↔
    ∃ a d₁, d.run first = (.ok a, d₁) ∧ d₁.run (second a) = (.ok b, d')
  := by
  rw [run_bind]
  rcases d.run first with ⟨_ | a, d₁⟩
  · simp
  · constructor
    · intro h
      exact ⟨a, d₁, rfl, h⟩
    · rintro ⟨a', d₁', h, h'⟩
      cases h
      exact h'

end Definitions

/-! ### Fragments in turn -/

namespace Fragment

section

variable (l : Library) (opened : List String)

/-- The expansion of a fragment while some files are open. -/
def expand : Fragment → ExpandM String
  | .plain text => return String.ofList text
  | .word name => return (← get).replace name
  | .definition name meaning => do
    modify fun d => d.define name meaning
    return ""
  | .inclusion file =>
    if file ∈ opened then throw (.cycle file)
    else match l.read file with
      | .error reason => throw (.unreadable file reason)
      | .ok contents => SilFront.expand l (file :: opened) contents
  | .fault cause => throw (.directive cause)

/-- The expansion of fragments in turn. -/
def expandAll (fragments : List Fragment) : ExpandM String := do
  return String.join (← fragments.mapM (expand l opened))

/-- A text is expanded by expanding its fragments. -/
theorem expand_eq_expandAll (text : String) :
  SilFront.expand l opened text = expandAll l opened (ofText text)
  := by
  rw [SilFront.expand, expandAll]
  congr 2
  funext fragment
  cases fragment with
  | inclusion file =>
    simp only [expand]
    by_cases h : file ∈ opened
    · rw [dif_pos h, if_pos h]
    · rw [dif_neg h, if_neg h]
      split <;> rename_i hread <;> rw [hread]
  | _ => rfl

@[simp]
theorem expandAll_nil :
  expandAll l opened [] = return ""
  := by
  simp [expandAll]

/-- Fragments are expanded one after the other. -/
theorem expandAll_cons (fragment : Fragment) (rest : List Fragment) :
  expandAll l opened (fragment :: rest) = do
    let out ← fragment.expand l opened
    let more ← expandAll l opened rest
    return out ++ more
  := by
  simp [expandAll, String.join_cons]

/-- Two lists of fragments are expanded in turn. -/
theorem expandAll_append (first second : List Fragment) :
  expandAll l opened (first ++ second) = do
    let out ← expandAll l opened first
    let more ← expandAll l opened second
    return out ++ more
  := by
  induction first with
  | nil => simp only [List.nil_append, expandAll_nil, pure_bind, String.empty_append, bind_pure]
  | cons fragment rest ih =>
    rw [List.cons_append, expandAll_cons, expandAll_cons, ih]
    simp only [bind_assoc, pure_bind, String.append_assoc]

end

variable {l : Library} {opened : List String} {file : String}

/-- A file that is open is not included again. -/
theorem expand_inclusion_of_mem (h : file ∈ opened) :
  (inclusion file).expand l opened = throw (.cycle file)
  := if_pos h

/-- A file that cannot be read is refused with the reason. -/
theorem expand_inclusion_of_read_eq_error (h : file ∉ opened) {reason : String}
    (hread : l.read file = .error reason) :
  (inclusion file).expand l opened = throw (.unreadable file reason)
  := by
  rw [expand, if_neg h, hread]

/-- A file is expanded while it counts as open. -/
theorem expand_inclusion_of_read_eq_ok (h : file ∉ opened) {contents : String}
    (hread : l.read file = .ok contents) :
  (inclusion file).expand l opened = expandAll l (file :: opened) (ofText contents)
  := by
  rw [expand, if_neg h, hread]
  apply expand_eq_expandAll

end Fragment

/-- To show something of all fragments, whichever files are open, it may be supposed for the
fragments of every file that is opened by them. -/
theorem Library.induction_on {l : Library} {motive : List String → List Fragment → Prop}
    (nil : ∀ opened, motive opened [])
    (opening : ∀ {opened file contents rest}, file ∉ opened → l.read file = .ok contents →
      motive (file :: opened) (Fragment.ofText contents) → motive opened rest →
        motive opened (.inclusion file :: rest))
    (cons : ∀ {opened fragment rest},
      (∀ file contents, fragment = .inclusion file → file ∉ opened →
        l.read file ≠ .ok contents) →
      motive opened rest → motive opened (fragment :: rest))
    (opened : List String) (fragments : List Fragment) :
  motive opened fragments
  := by
  induction hn : l.unopened opened using Nat.strongRecOn generalizing opened fragments with
  | ind n ih =>
    induction fragments with
    | nil => apply nil
    | cons fragment rest ihRest =>
      by_cases h : ∃ file contents, fragment = .inclusion file ∧ file ∉ opened ∧
          l.read file = .ok contents
      · obtain ⟨file, contents, rfl, hopened, hread⟩ := h
        have hlt := Library.unopened_lt hread hopened
        apply opening hopened hread (ih _ (hn ▸ hlt) _ _ rfl) ihRest
      · apply cons _ ihRest
        intro file contents hfragment hopened hread
        exact h ⟨file, contents, hfragment, hopened, hread⟩

namespace Fragment

/-- What can be expanded while some files are open is expanded in the same way while fewer are. -/
theorem run_expandAll_of_subset {l : Library} {opened opened' : List String}
    {fragments : List Fragment} {d d' : Definitions} {out : String}
    (h : d.run (expandAll l opened fragments) = (.ok out, d')) (hsubset : opened' ⊆ opened) :
  d.run (expandAll l opened' fragments) = (.ok out, d')
  := by
  induction opened, fragments using Library.induction_on (l := l) generalizing opened' d d' out with
  | nil => simpa using h
  | @opening opened file contents rest hopened hread ihFile ihRest =>
    rw [expandAll_cons, expand_inclusion_of_read_eq_ok hopened hread,
      Definitions.run_bind_eq_ok_iff] at h
    obtain ⟨first, d₁, hfirst, hrest⟩ := h
    obtain ⟨more, d₂, hmore, hout⟩ := Definitions.run_bind_eq_ok_iff.mp hrest
    have hopened' : file ∉ opened' := fun hmem => hopened (hsubset hmem)
    rw [expandAll_cons, expand_inclusion_of_read_eq_ok hopened' hread,
      Definitions.run_bind_eq_ok_iff]
    refine ⟨first, d₁, ihFile hfirst (List.cons_subset_cons file hsubset), ?_⟩
    exact Definitions.run_bind_eq_ok_iff.mpr ⟨more, d₂, ihRest hmore hsubset, hout⟩
  | @cons opened fragment rest hfragment ihRest =>
    rw [expandAll_cons, Definitions.run_bind_eq_ok_iff] at h
    obtain ⟨first, d₁, hfirst, hrest⟩ := h
    obtain ⟨more, d₂, hmore, hout⟩ := Definitions.run_bind_eq_ok_iff.mp hrest
    -- a call for a file that succeeds opens the file, and is dealt with above
    have hsame : fragment.expand l opened' = fragment.expand l opened := by
      cases fragment with
      | inclusion file =>
        rw [expand] at hfirst
        split at hfirst
        · cases hfirst
        · rename_i hopened
          split at hfirst
          · cases hfirst
          · rename_i contents hread
            cases hfragment file contents rfl hopened hread
      | _ => rfl
    rw [expandAll_cons, hsame, Definitions.run_bind_eq_ok_iff]
    refine ⟨first, d₁, hfirst, ?_⟩
    exact Definitions.run_bind_eq_ok_iff.mpr ⟨more, d₂, ihRest hmore hsubset, hout⟩

end Fragment

/-- A session expands the fragments of a text, while no file is open. -/
theorem Session.expand_eq (s : Session) (text : String) :
  s.expand text =
    ((s.definitions.run (Fragment.expandAll s.library [] (Fragment.ofText text))).1,
      ⟨s.library, (s.definitions.run (Fragment.expandAll s.library [] (Fragment.ofText text))).2⟩)
  := by
  rw [← Fragment.expand_eq_expandAll]
  rfl

end SilFront
