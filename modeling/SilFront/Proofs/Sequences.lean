import Mathlib.Data.List.TakeWhile
import Mathlib.Logic.Function.Basic
import Mathlib.Tactic.Common

/-!
# Lists and results

What the development needs to know of lists and of results that may be errors, whatever they consist
of: where a list is cut when it is read for as long as a condition holds or up to a mark, what stands
where in lists after each other, what is found by a key, and where a fold fails.
-/

namespace SilFront

/-! ### Reading for as long as a condition holds -/

section

variable {α : Type} {p : α → Bool} {a : α} {l m : List α}

/-- As much of a list as satisfies a condition is a beginning of it. -/
theorem take_length_takeWhile (p : α → Bool) (l : List α) :
  l.take (l.takeWhile p).length = l.takeWhile p
  := (List.prefix_iff_eq_take.mp (List.takeWhile_prefix p)).symm

/-- What follows as much of a list as satisfies a condition. -/
theorem drop_length_takeWhile (p : α → Bool) (l : List α) :
  l.drop (l.takeWhile p).length = l.dropWhile p
  := by
  conv_lhs => arg 2; rw [← l.takeWhile_append_dropWhile (p := p)]
  apply List.drop_left

/-- The first member after those that satisfy a condition does not satisfy it. -/
theorem eq_false_of_mem_head?_dropWhile (h : a ∈ (l.dropWhile p).head?) :
  p a = false
  := by
  have hhead := List.head?_dropWhile_not p l
  rwa [Option.mem_def.mp h] at hhead

/-- Where reading stops, the first member that is left does not satisfy the condition. -/
theorem head?_drop_takeWhile (p : α → Bool) (l : List α) :
  ∀ a ∈ (l.drop (l.takeWhile p).length).head?, p a = false
  := by
  rw [drop_length_takeWhile]
  intro a ha
  exact eq_false_of_mem_head?_dropWhile ha

/-- Nothing is read if the first member does not satisfy the condition. -/
theorem takeWhile_of_head? (h : ∀ a ∈ l.head?, p a = false) :
  l.takeWhile p = [] ∧ l.dropWhile p = l
  := by
  cases l with
  | nil => simp
  | cons a l => simp [h a rfl]

/-- Reading ends with a list if it cannot go on in the next one. -/
theorem takeWhile_append_of_head? (h : ∀ a ∈ m.head?, p a = false) :
  (l ++ m).takeWhile p = l.takeWhile p
  := by
  induction l with
  | nil => rw [List.nil_append, (takeWhile_of_head? h).1, List.takeWhile_nil]
  | cons a l ih => rw [List.cons_append, List.takeWhile_cons, List.takeWhile_cons, ih]

/-- Reading ends before a member that does not satisfy the condition. -/
theorem takeWhile_append_cons (h : p a = false) (l m : List α) :
  (l ++ a :: m).takeWhile p = l.takeWhile p
  := by
  apply takeWhile_append_of_head?
  simpa using h

/-- What follows as much of a list as satisfies a condition, with more after it. -/
theorem drop_takeWhile_append (p : α → Bool) (l m : List α) :
  (l ++ m).drop (l.takeWhile p).length = l.drop (l.takeWhile p).length ++ m
  := List.drop_append_of_le_length ((List.takeWhile_sublist p).length_le)

end

/-! ### Marks -/

section

variable {α : Type} [DecidableEq α] {mark : α} {xs xs' ys ys' : List α}

/-- Where a mark does not occur, reading up to that mark goes on. -/
theorem all_ne_of_notMem (h : mark ∉ xs) :
  ∀ c ∈ xs, decide (c ≠ mark) = true
  := fun _ hc => decide_eq_true fun heq => h (heq ▸ hc)

/-- What stands before the first of a mark. -/
theorem takeWhile_mark (h : mark ∉ xs) (ys : List α) :
  (xs ++ mark :: ys).takeWhile (· ≠ mark) = xs
  := by
  rw [takeWhile_append_cons (by simp), List.takeWhile_eq_self_iff.mpr (all_ne_of_notMem h)]

/-- What stands from the first of a mark on. -/
theorem dropWhile_mark (h : mark ∉ xs) (ys : List α) :
  (xs ++ mark :: ys).dropWhile (· ≠ mark) = mark :: ys
  := by
  rw [List.dropWhile_append_of_pos (all_ne_of_notMem h)]
  simp

/-- A mark that does not occur before splits a list in one way. -/
theorem append_mark_inj (hxs : mark ∉ xs) (hxs' : mark ∉ xs')
    (h : xs ++ mark :: ys = xs' ++ mark :: ys') :
  xs = xs' ∧ ys = ys'
  := by
  have htake := congrArg (List.takeWhile (· ≠ mark)) h
  rw [takeWhile_mark hxs, takeWhile_mark hxs'] at htake
  rw [htake] at h
  exact ⟨htake, (List.cons.inj (List.append_cancel_left h)).2⟩

omit [DecidableEq α] in
/-- The members of pieces with a mark between them are that mark and those of the pieces. -/
theorem mem_intercalate {c : α} {pieces : List (List α)} (h : c ∈ [mark].intercalate pieces) :
  c = mark ∨ ∃ piece ∈ pieces, c ∈ piece
  := by
  induction pieces with
  | nil => simp at h
  | cons piece pieces ih =>
    cases pieces with
    | nil => exact .inr ⟨piece, by simp, by simpa using h⟩
    | cons piece' rest =>
      rw [List.intercalate_cons_cons, List.append_assoc, List.mem_append, List.mem_append] at h
      obtain h | h | h := h
      · exact .inr ⟨piece, by simp, h⟩
      · exact .inl (List.mem_singleton.mp h)
      · obtain h | ⟨piece, hpiece, h⟩ := ih h
        · exact .inl h
        · exact .inr ⟨piece, List.mem_cons_of_mem _ hpiece, h⟩

end

/-! ### Members of an append -/

/-- What stands in an append stands in its first or in its second part. -/
theorem append_eq_append_cons {α : Type} {first second before after : List α} {x : α}
    (h : first ++ second = before ++ x :: after) :
  (∃ back, first = before ++ x :: back ∧ after = back ++ second) ∨
    ∃ front, before = first ++ front ∧ second = front ++ x :: after
  := by
  obtain ⟨front, hbefore, hsecond⟩ | ⟨_ | ⟨y, back⟩, hfirst, hafter⟩ :=
    List.append_eq_append_iff.mp h
  · exact .inr ⟨front, hbefore, hsecond⟩
  · exact .inr ⟨[], by simpa using hfirst.symm, hafter.symm⟩
  · obtain ⟨rfl, rfl⟩ := List.cons.inj hafter
    exact .inl ⟨back, hfirst, rfl⟩

/-- What stands in a list of one member is that member. -/
theorem eq_of_singleton_eq {α : Type} {x y : α} {before after : List α}
    (h : [x] = before ++ y :: after) :
  before = [] ∧ x = y
  := by
  cases before with
  | nil => exact ⟨rfl, (List.cons.inj h).1⟩
  | cons _ before => simp at h

/-! ### Members that are found and changed -/

/-- Changing the members of a list that have a property does nothing if none has it. -/
theorem map_ite_of_find?_eq_none {α : Type} {l : List α} {P : α → Prop} [DecidablePred P]
    (h : l.find? (fun x => P x) = none) (change : α → α) :
  l.map (fun x => if P x then change x else x) = l
  := by
  rw [List.find?_eq_none] at h
  calc l.map (fun x => if P x then change x else x)
    _ = l.map id := by
      apply List.map_congr_left
      intro x hx
      rw [if_neg (by simpa using h x hx), id]
    _ = l := List.map_id l

/-- A look-up by a key in a list with one more entry, whose key is new. -/
theorem find?_append_singleton_of_new {α : Type} (key : α → String) {l : List α} {x : α}
    (h : l.find? (fun a => key a = key x) = none) :
  (fun name => (l ++ [x]).find? fun a => key a = name) =
    Function.update (fun name => l.find? fun a => key a = name) (key x) (some x)
  := by
  funext name
  by_cases hname : key x = name
  · subst hname
    simp [List.find?_append, h]
  · simp [List.find?_append, hname, Function.update_of_ne (Ne.symm hname)]

/-- A look-up by a key in a list in which the entries with one key are changed. -/
theorem find?_map_of_key {α : Type} (key : α → String) {change : α → α}
    (h : ∀ a, key (change a) = key a) (l : List α) (changed : String) :
  (fun name => (l.map fun a => if key a = changed then change a else a).find?
      fun a => key a = name) =
    Function.update (fun name => l.find? fun a => key a = name) changed
      ((l.find? fun a => key a = changed).map change)
  := by
  funext name
  have hkey : ∀ a, key (if key a = changed then change a else a) = key a := by
    intro a
    split
    · apply h
    · rfl
  simp only [List.find?_map, Function.comp_def, hkey]
  cases hfind : l.find? fun a => key a = name with
  | none =>
    by_cases hname : name = changed
    · subst hname
      simp [hfind]
    · simp [Function.update_of_ne hname, hfind]
  | some a =>
    have ha : key a = name := by simpa using List.find?_some hfind
    by_cases hname : name = changed
    · subst hname
      simp [hfind, ha]
    · simp [hfind, ha, hname]

/-! ### Results that may be errors -/

/-- Other errors do not change what is a success. -/
theorem mapError_eq_ok_iff {α ε ε' : Type} {f : ε → ε'} {x : Except ε α} {a : α} :
  x.mapError f = .ok a ↔ x = .ok a
  := by cases x <;> simp [Except.mapError]

section

variable {α σ ε : Type} {f : σ → α → Except ε σ} {s s' : σ} {e : ε} {l first second : List α}

/-- A fold over two lists succeeds if it succeeds over the one and then over the other. -/
theorem foldlM_append_eq_ok_iff :
  (first ++ second).foldlM f s = .ok s' ↔
    ∃ s₁, first.foldlM f s = .ok s₁ ∧ second.foldlM f s₁ = .ok s'
  := by
  rw [List.foldlM_append]
  cases first.foldlM f s with
  | error e => simp [bind, Except.bind]
  | ok s₁ => simp [bind, Except.bind]

/-- A fold fails where its function fails for the first time. -/
theorem foldlM_eq_error_iff :
  l.foldlM f s = .error e ↔
    ∃ before x after s₁, l = before ++ x :: after ∧ before.foldlM f s = .ok s₁ ∧ f s₁ x = .error e
  := by
  constructor
  · intro h
    induction l generalizing s with
    | nil => cases h
    | cons x l ih =>
      rw [List.foldlM_cons] at h
      cases hx : f s x with
      | error e' =>
        rw [hx] at h
        cases h
        exact ⟨[], x, l, s, rfl, rfl, hx⟩
      | ok s₁ =>
        rw [hx] at h
        obtain ⟨before, y, after, s₂, rfl, hbefore, hy⟩ := ih h
        refine ⟨x :: before, y, after, s₂, rfl, ?_, hy⟩
        rw [List.foldlM_cons, hx]
        exact hbefore
  · rintro ⟨before, x, after, s₁, rfl, hbefore, hx⟩
    rw [List.foldlM_append, hbefore]
    simp [bind, Except.bind, hx]

end

end SilFront
