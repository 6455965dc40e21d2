import SilFront.Proofs.Inversion

/-!
# What calls contribute to an expression

The operations of a call are written as soon as it is read, while the value that it returns is loaded
after the whole expression has been read. By then a later call may have returned another value in
its place, so that all calls of an expression contribute the value of the last of them. The calls in
an argument are not among those of the expression, since the argument is compiled on its own.

`Interpretation.value` is the value of a tree in which each call contributes its own value, and
`Interpretation.outcome` is what the operations deliver. They agree for all meanings of literals,
variables, operators and functions exactly if the tree is `Steady`: the calls of the expression are
equal, and so are those of each argument.
-/

namespace SilFront

/-- The number of values that a function takes; zero if there is none. -/
def SymbolTable.arity (T : SymbolTable) (name : String) : Nat :=
  match T.functionNamed? name with
  | some f => f.arity
  | none => 0

namespace Interpretation

section

variable {α : Type*} (I : Interpretation α)

/-- The value of a leaf. -/
def leaf : Leaf → α
  | .number n => I.number n
  | .string s => I.string s
  | .name id => I.content id

mutual

/-- The value of a tree, in which each call contributes its own value. -/
def value : Tree → α
  | .leaf operand => I.leaf operand.value
  | .call name arguments => I.function name.value (values arguments)
  | .parenthesis inner => value inner
  | .binary lhs op rhs => I.operator op.value (value lhs) (value rhs)

/-- The values of trees. -/
def values : List Tree → List α
  | [] => []
  | tree :: trees => value tree :: values trees

end

/-- The value of a tree, to which each call contributes the value `v`. -/
def valueWith (v : α) : Tree → α
  | .leaf operand => I.leaf operand.value
  | .call _ _ => v
  | .parenthesis inner => valueWith v inner
  | .binary lhs op rhs => I.operator op.value (valueWith v lhs) (valueWith v rhs)

mutual

/-- What the last call has returned when the calls in a tree have been made, if it was `v` before. -/
def returned (v : α) : Tree → α
  | .leaf _ => v
  | .call name arguments => I.function name.value (outcomes v arguments)
  | .parenthesis inner => returned v inner
  | .binary lhs _ rhs => returned (returned v lhs) rhs

/-- What is pushed for arguments. -/
def outcomes (v : α) : List Tree → List α
  | [] => []
  | tree :: trees => I.valueWith (returned v tree) tree :: outcomes (returned v tree) trees

end

/-- What is delivered for a tree: each call contributes what the last of them returns. -/
def outcome (v : α) (tree : Tree) : α :=
  I.valueWith (I.returned v tree) tree

theorem length_outcomes (v : α) (trees : List Tree) :
  (I.outcomes v trees).length = trees.length
  := by
  induction trees generalizing v with
  | nil => rfl
  | cons tree trees ih => rw [outcomes, List.length_cons, ih, List.length_cons]

/-! ### The operations of a tree -/

/-- The postorder of a tree leaves the value of the tree on the stack. -/
theorem stack?_postorder (v : α) (tree : Tree) (stack : List α) :
  I.stack? v stack tree.postorder = some (I.valueWith v tree :: stack)
  := by
  fun_induction Tree.postorder tree generalizing stack with
  | case1 operand =>
    obtain ⟨leaf, location⟩ := operand
    cases leaf <;> rfl
  | case2 name arguments => rfl
  | case3 inner ih => apply ih
  | case4 lhs op rhs ihLeft ihRight =>
    rw [stack?_append, stack?_append, ihLeft, Option.bind_some, ihRight, Option.bind_some]
    rfl

theorem value?_postorder (v : α) (tree : Tree) :
  I.value? v tree.postorder = some (I.valueWith v tree)
  := by
  rw [value?, stack?_postorder]

variable {I}

/-- The code of a tree delivers its value, to which each call contributes what was returned last. -/
theorem delivers_of_compile_postorder (hI : I.Folds) {tree : Tree} {slot : Slot} {registers : Nat}
    {location : Location} {code : List Operation}
    (h : Expression.compile tree.postorder slot registers location = .ok code)
    (arity : String → Nat) (m : Machine α) :
  Machine.Delivers slot m (I.run arity m code) (I.valueWith m.returned tree) ∧
    (I.run arity m code).returned = m.returned
  := by
  have hvalue := I.value?_postorder m.returned tree
  cases hconstant : Expression.isConstant tree.postorder with
  | true =>
    obtain ⟨v, hv, hdelivers⟩ := delivers_of_isConstant hI hconstant h arity m
    obtain rfl := Option.some.inj (hvalue.symm.trans hv)
    exact hdelivers
  | false =>
    obtain ⟨v, hv, hdelivers⟩ := delivers_of_not_isConstant hconstant h arity m
    obtain rfl := Option.some.inj (hvalue.symm.trans hv)
    exact hdelivers

/-- The operations of arguments push what is delivered for each of them. -/
theorem pushed_of_pushed (hI : I.Folds) {registers : Nat} {arity : String → Nat} :
  ∀ {pushed : List Tree.Pushed} {m : Machine α},
    (∀ a ∈ pushed, ∀ m : Machine α, (I.run arity m a.calls).pushed = m.pushed ∧
      (I.run arity m a.calls).returned = I.returned m.returned a.tree) →
    (∀ a ∈ pushed, a.Compiles registers) →
    (I.run arity m (pushed.flatMap Tree.Pushed.operations)).pushed =
      (I.outcomes m.returned (pushed.map Tree.Pushed.tree)).reverse ++ m.pushed
  | [], m, _, _ => rfl
  | a :: pushed, m, hcalls, hcompiles => by
      obtain ⟨hpushed, hreturned⟩ := hcalls a List.mem_cons_self m
      obtain ⟨location, hcode⟩ := hcompiles a List.mem_cons_self
      obtain ⟨hdelivers, hkept⟩ :=
        delivers_of_compile_postorder hI hcode arity (I.run arity m a.calls)
      rw [hreturned] at hdelivers hkept
      have hrest := pushed_of_pushed hI (m := I.run arity (I.run arity m a.calls) a.code)
        (fun b hb => hcalls b (List.mem_cons_of_mem a hb))
        (fun b hb => hcompiles b (List.mem_cons_of_mem a hb))
      rw [hkept, hdelivers, hpushed] at hrest
      simpa [Tree.Pushed.operations, outcomes] using hrest

/-- Making the calls in a tree pushes nothing in the end, and returns the value of the last of
them. -/
theorem run_of_emits (hI : I.Folds) {T : SymbolTable} {registers : Nat} {tree : Tree}
    {calls : List Operation} (h : tree.Emits T registers calls) :
  ∀ m : Machine α, (I.run T.arity m calls).pushed = m.pushed ∧
    (I.run T.arity m calls).returned = I.returned m.returned tree
  := by
  induction h with
  | leaf operand =>
    intro m
    exact ⟨rfl, rfl⟩
  | @call name f arguments pushed kind function trees emits compiles arity returns ih =>
    intro m
    have hpushed := pushed_of_pushed hI (m := m) ih compiles
    have harity : T.arity name.value = (I.outcomes m.returned arguments).reverse.length := by
      rw [List.length_reverse, length_outcomes, arity, SymbolTable.arity, function]
    rw [trees] at hpushed
    rw [run_append, run_cons, run_nil, step, Machine.call, hpushed, harity]
    simp [returned]
  | parenthesis emits ih => apply ih
  | binary emitsLeft emitsRight ihLeft ihRight =>
    intro m
    obtain ⟨hpushedLeft, hreturnedLeft⟩ := ihLeft m
    obtain ⟨hpushedRight, hreturnedRight⟩ := ihRight (I.run T.arity m _)
    rw [run_append, hpushedRight, hreturnedRight, hreturnedLeft]
    exact ⟨hpushedLeft, rfl⟩

end

end Interpretation

/-! ### Terms -/

/-- A value that is known by how it comes about, apart from what working out constants tells. -/
inductive Term where
  | number (n : Number)
  | string (s : String)
  | content (name : String)
  | operator (op : BinaryOp) (lhs rhs : Term)
  | function (name : String) (arguments : List Term)

namespace Term

/-- What an operator makes of two terms. Of two numbers it makes a number, if it can. -/
def combine (op : BinaryOp) : Term → Term → Term
  | .number a, .number b =>
    match Number.apply op a b with
    | some n => .number n
    | none => .operator op (.number a) (.number b)
  | lhs, rhs => .operator op lhs rhs

/-- The calls of a term with their arguments, those in arguments left out. -/
def calls : Term → List (String × List Term)
  | .operator _ lhs rhs => lhs.calls ++ rhs.calls
  | .function name arguments => [(name, arguments)]
  | _ => []

/-- The calls of a term are equal, and so are those of each argument. -/
inductive Steady : Term → Prop
  | intro {term : Term} (equal : ∀ c ∈ term.calls, ∀ d ∈ term.calls, c = d)
      (steady : ∀ c ∈ term.calls, ∀ a ∈ c.2, Steady a) : Steady term

theorem Steady.of_calls_eq_nil {term : Term} (h : term.calls = []) :
  term.Steady
  := by
  apply Steady.intro <;> simp [h]

/-- A term with one call is steady if the arguments of that call are. -/
theorem Steady.of_calls_eq_singleton {term : Term} {name : String} {arguments : List Term}
    (h : term.calls = [(name, arguments)]) (harguments : ∀ a ∈ arguments, a.Steady) :
  term.Steady
  := by
  apply Steady.intro
  · simp [h]
  · rw [h, List.forall_mem_singleton]
    exact harguments

@[simp]
theorem calls_combine (op : BinaryOp) (lhs rhs : Term) :
  (combine op lhs rhs).calls = lhs.calls ++ rhs.calls
  := by
  unfold combine
  split
  · split <;> rfl
  · rfl

/-- Where a call takes part, an operator makes different terms of different operands. -/
theorem combine_inj {op : BinaryOp} {a b c d : Term} (hab : a.calls ++ b.calls ≠ [])
    (hcd : c.calls ++ d.calls ≠ []) (h : combine op a b = combine op c d) :
  a = c ∧ b = d
  := by
  have hleft : combine op a b = .operator op a b := by
    unfold combine
    split
    · exact absurd rfl hab
    · rfl
  have hright : combine op c d = .operator op c d := by
    unfold combine
    split
    · exact absurd rfl hcd
    · rfl
  rw [hleft, hright] at h
  cases h
  exact ⟨rfl, rfl⟩

end Term

namespace Interpretation

/-- Terms as values. -/
def terms : Interpretation Term where
  number := .number
  string := .string
  content := .content
  operator := .combine
  function := .function

theorem folds_terms : terms.Folds := by
  intro op a b c h
  simp only [terms, Term.combine, h]

section

variable {α : Type*} (I : Interpretation α)

mutual

/-- The value of a term. -/
def eval : Term → α
  | .number n => I.number n
  | .string s => I.string s
  | .content name => I.content name
  | .operator op lhs rhs => I.operator op (eval lhs) (eval rhs)
  | .function name arguments => I.function name (evals arguments)

/-- The values of terms. -/
def evals : List Term → List α
  | [] => []
  | term :: terms => eval term :: evals terms

end

variable {I}

theorem eval_combine (hI : I.Folds) (op : BinaryOp) (lhs rhs : Term) :
  I.eval (.combine op lhs rhs) = I.operator op (I.eval lhs) (I.eval rhs)
  := by
  unfold Term.combine
  split
  · split
    · rename_i n hn
      simp only [eval]
      rw [hI _ _ _ _ hn]
    · simp only [eval]
  · simp only [eval]

mutual

/-- The value of a tree is that of the term which it is. -/
theorem eval_value (hI : I.Folds) : ∀ tree : Tree, I.eval (terms.value tree) = I.value tree
  | .leaf ⟨operand, _⟩ => by
      cases operand <;> simp only [value, leaf, terms, eval]
  | .call name arguments => by
      simp only [value, terms, eval]
      rw [← evals_values hI arguments]
      rfl
  | .parenthesis inner => by
      simp only [value]
      apply eval_value hI inner
  | .binary lhs op rhs => by
      simp only [value]
      rw [← eval_value hI lhs, ← eval_value hI rhs, ← eval_combine hI]
      rfl

theorem evals_values (hI : I.Folds) :
  ∀ trees : List Tree, I.evals (terms.values trees) = I.values trees
  | [] => by
      simp only [values, evals]
  | tree :: trees => by
      simp only [values, evals]
      rw [eval_value hI tree, evals_values hI trees]

end

end

end Interpretation

/-! ### The calls of a tree -/

/-- The calls of a tree with their arguments, those in arguments left out. -/
def Tree.calls : Tree → List (String × List Tree)
  | .leaf _ => []
  | .call name arguments => [(name.value, arguments)]
  | .parenthesis inner => inner.calls
  | .binary lhs _ rhs => lhs.calls ++ rhs.calls

theorem Tree.sizeOf_lt_of_mem_calls {tree a : Tree} {c : String × List Tree} (hc : c ∈ tree.calls)
    (ha : a ∈ c.2) :
  sizeOf a < sizeOf tree
  := by
  fun_induction Tree.calls tree with
  | case1 operand => cases hc
  | case2 name arguments =>
    obtain rfl := List.mem_singleton.mp hc
    have hlt : sizeOf a < sizeOf arguments := List.sizeOf_lt_of_mem ha
    simp only [Tree.call.sizeOf_spec]
    omega
  | case3 inner ih =>
    have hlt := ih hc
    simp only [Tree.parenthesis.sizeOf_spec]
    omega
  | case4 lhs op rhs ihLeft ihRight =>
    simp only [Tree.binary.sizeOf_spec]
    obtain hleft | hright := List.mem_append.mp hc
    · have hlt := ihLeft hleft
      omega
    · have hlt := ihRight hright
      omega

namespace Interpretation

section

variable {α : Type*} {I : Interpretation α}

theorem values_eq_map (trees : List Tree) :
  I.values trees = trees.map I.value
  := by
  induction trees with
  | nil => rfl
  | cons tree trees ih => rw [values, ih, List.map_cons]

/-- If each call contributes its own value to each argument, then the values of the arguments are
pushed. -/
theorem outcomes_eq_values {trees : List Tree}
    (h : ∀ tree ∈ trees, ∀ v, I.outcome v tree = I.value tree) (v : α) :
  I.outcomes v trees = I.values trees
  := by
  induction trees generalizing v with
  | nil => rfl
  | cons tree trees ih =>
    obtain ⟨hfirst, hrest⟩ := List.forall_mem_cons.mp h
    rw [outcomes, values, ih hrest, ← hfirst v, outcome]

theorem outcome_eq_of_outcomes_eq {trees : List Tree} {v : α}
    (h : I.outcomes v trees = I.values trees) :
  ∀ tree ∈ trees, ∃ v, I.outcome v tree = I.value tree
  := by
  induction trees generalizing v with
  | nil => simp
  | cons tree trees ih =>
    rw [outcomes, values] at h
    obtain ⟨hfirst, hrest⟩ := List.cons.inj h
    rw [List.forall_mem_cons]
    exact ⟨⟨v, hfirst⟩, ih hrest⟩

/-- What is returned last in a tree with calls is returned by one of them. -/
theorem exists_last (tree : Tree) (v : α) :
  tree.calls = [] ∧ I.returned v tree = v ∨
    ∃ c ∈ tree.calls, ∃ v', I.returned v tree = I.function c.1 (I.outcomes v' c.2)
  := by
  fun_induction Tree.calls tree generalizing v with
  | case1 operand => exact .inl ⟨rfl, rfl⟩
  | case2 name arguments => exact .inr ⟨_, List.mem_cons_self, v, rfl⟩
  | case3 inner ih => apply ih
  | case4 lhs op rhs ihLeft ihRight =>
    rw [returned]
    obtain ⟨hnil, hright⟩ | ⟨c, hc, v', hv'⟩ := ihRight (I.returned v lhs)
    · rw [hright, hnil, List.append_nil]
      apply ihLeft
    · exact .inr ⟨c, List.mem_append_right _ hc, v', hv'⟩

/-- A value that each call of a tree has stands for the values of all of them. -/
theorem valueWith_eq_value {tree : Tree} {v : α}
    (h : ∀ c ∈ tree.calls, v = I.function c.1 (I.values c.2)) :
  I.valueWith v tree = I.value tree
  := by
  fun_induction Tree.calls tree with
  | case1 operand => rfl
  | case2 name arguments => apply h _ List.mem_cons_self
  | case3 inner ih => apply ih h
  | case4 lhs op rhs ihLeft ihRight =>
    rw [List.forall_mem_append] at h
    rw [valueWith, value, ihLeft h.1, ihRight h.2]

/-- The calls of a term are those of its tree. -/
theorem calls_value (tree : Tree) :
  (terms.value tree).calls = tree.calls.map fun c => (c.1, terms.values c.2)
  := by
  fun_induction Tree.calls tree with
  | case1 operand =>
    obtain ⟨leaf, location⟩ := operand
    cases leaf <;> rfl
  | case2 name arguments => rfl
  | case3 inner ih => apply ih
  | case4 lhs op rhs ihLeft ihRight =>
    rw [value, List.map_append, ← ihLeft, ← ihRight]
    apply Term.calls_combine

/-- In a steady tree, each call contributes its own value. -/
theorem outcome_eq_value_of_steady (hI : I.Folds) (tree : Tree) (h : (terms.value tree).Steady)
    (v : α) :
  I.outcome v tree = I.value tree
  := by
  obtain ⟨equal, steady⟩ := h
  rw [calls_value] at equal steady
  rw [outcome]
  apply valueWith_eq_value
  intro d hd
  obtain ⟨hnil, -⟩ | ⟨c, hc, v', hv'⟩ := exists_last tree v
  · rw [hnil] at hd
    cases hd
  · have hmem := List.mem_map_of_mem (f := fun c => (c.1, terms.values c.2)) hc
    have hsteady : ∀ a ∈ c.2, (terms.value a).Steady := by
      intro a ha
      apply steady _ hmem
      rw [values_eq_map]
      apply List.mem_map_of_mem ha
    have hvalues : I.outcomes v' c.2 = I.values c.2 := by
      apply outcomes_eq_values
      intro a ha
      have hlt := Tree.sizeOf_lt_of_mem_calls hc ha
      apply outcome_eq_value_of_steady hI a (hsteady a ha)
    obtain ⟨hname, hargs⟩ := Prod.ext_iff.mp (equal _ hmem _ (List.mem_map_of_mem hd))
    rw [hv', hvalues, ← evals_values hI c.2, ← evals_values hI d.2]
    simp only at hname hargs
    rw [hname, hargs]
termination_by sizeOf tree

end

/-- If each call contributes the term `w`, then the calls of `w` stand for each of them. -/
theorem calls_valueWith (w : Term) (tree : Tree) :
  (terms.valueWith w tree).calls = tree.calls.flatMap fun _ => w.calls
  := by
  fun_induction Tree.calls tree with
  | case1 operand =>
    obtain ⟨leaf, location⟩ := operand
    cases leaf <;> rfl
  | case2 name arguments => rw [valueWith, List.flatMap_singleton]
  | case3 inner ih => apply ih
  | case4 lhs op rhs ihLeft ihRight =>
    rw [valueWith, List.flatMap_append, ← ihLeft, ← ihRight]
    apply Term.calls_combine

/-- A term with calls that stands for each call of a tree, and leaves the term of the tree as it is,
is equal to each of them. -/
theorem eq_function_of_valueWith_eq {w : Term} (hw : w.calls ≠ []) {tree : Tree}
    (h : terms.valueWith w tree = terms.value tree) :
  ∀ c ∈ tree.calls, w = .function c.1 (terms.values c.2)
  := by
  fun_induction Tree.calls tree with
  | case1 operand => simp
  | case2 name arguments => exact List.forall_mem_singleton.mpr h
  | case3 inner ih => apply ih h
  | case4 lhs op rhs ihLeft ihRight =>
    intro c hc
    have hwith : (terms.valueWith w lhs).calls ++ (terms.valueWith w rhs).calls ≠ [] := by
      rw [calls_valueWith, calls_valueWith, ← List.flatMap_append]
      intro hnil
      apply hw (List.flatMap_eq_nil_iff.mp hnil c hc)
    have hvalue : (terms.value lhs).calls ++ (terms.value rhs).calls ≠ [] := by
      rw [calls_value, calls_value, ← List.map_append]
      apply List.ne_nil_of_mem (List.mem_map_of_mem hc)
    obtain ⟨hleft, hright⟩ := Term.combine_inj hwith hvalue h
    obtain hmem | hmem := List.mem_append.mp hc
    · apply ihLeft hleft c hmem
    · apply ihRight hright c hmem

/-- A tree to which each call contributes its own term is steady. -/
theorem steady_of_outcome_eq (tree : Tree) {v : Term}
    (h : terms.outcome v tree = terms.value tree) :
  (terms.value tree).Steady
  := by
  obtain ⟨hnil, -⟩ | ⟨c, hc, v', hv'⟩ := exists_last (I := terms) tree v
  · apply Term.Steady.of_calls_eq_nil
    rw [calls_value, hnil, List.map_nil]
  · rw [outcome, hv'] at h
    have hall := eq_function_of_valueWith_eq (by simp [terms, Term.calls]) h
    have hlast : terms.outcomes v' c.2 = terms.values c.2 := (Term.function.inj (hall c hc)).2
    have hsteady : ∀ a ∈ c.2, (terms.value a).Steady := by
      intro a ha
      obtain ⟨v'', hv''⟩ := outcome_eq_of_outcomes_eq hlast a ha
      have hlt := Tree.sizeOf_lt_of_mem_calls hc ha
      apply steady_of_outcome_eq a hv''
    have heq : ∀ d ∈ (terms.value tree).calls, d = (c.1, terms.values c.2) := by
      rw [calls_value, List.forall_mem_map]
      intro d hd
      obtain ⟨hname, hargs⟩ := Term.function.inj (hall d hd)
      rw [← hname, ← hargs, hlast]
    apply Term.Steady.intro
    · intro d hd e he
      rw [heq d hd, heq e he]
    · intro d hd a ha
      rw [heq d hd, values_eq_map] at ha
      obtain ⟨b, hb, rfl⟩ := List.mem_map.mp ha
      apply hsteady b hb
termination_by sizeOf tree

end Interpretation

namespace Pass

/-- An expression that compiles and is written with the tokens of a grouped tree writes what the
calls in the tree write, and then the code of its postorder. -/
theorem exists_emits_of_run_expression {s t : Pass} {slot : Slot} {tree : Tree}
    {ts : List (Located Token)} (hspells : tree.Spells ts) (hgrouped : tree.Grouped)
    (hresolved : tree.Resolved s.symbols) (hpasses : s.position.Passes ts t.position)
    (h : s.run (PassM.expression slot) = (.ok (), t)) :
  ∃ calls code, tree.Emits s.symbols s.registers calls ∧
    Expression.compile tree.postorder slot s.registers s.lookahead.location = .ok code ∧
    t = s.goto t.position (calls ++ code)
  := by
  obtain ⟨_, y, q, code, hread, hclosed, -, hcode, rfl⟩ := run_expression_eq_ok_iff.mp h
  rw [position_goto] at hpasses
  obtain ⟨calls, rest, hemits, rfl, hrest⟩ := Tree.emits_of_reading hspells hgrouped hresolved
    hpasses hread.stops.ne_lparen hread
  have hunclosed : (Yard.empty.after tree).unclosed = y.unclosed := by
    rw [Yard.unclosed_after, hclosed]
    rfl
  obtain ⟨rfl, rfl, -⟩ := hrest.eq_of_stops (hread.stops.of_unclosed_eq hunclosed)
  rw [Yard.queue_after_of_grouped hgrouped] at hcode
  use calls, code, hemits, hcode
  rw [position_goto, List.append_nil]

/-- An expression compiles if the calls in its grouped tree can be made, its postorder compiles, and
a token follows at which reading stops. -/
theorem run_expression_of_emits {s : Pass} {slot : Slot} {tree : Tree} {ts : List (Located Token)}
    {q : Position} {calls code : List Operation} (hspells : tree.Spells ts)
    (hgrouped : tree.Grouped) (hemits : tree.Emits s.symbols s.registers calls)
    (hcode : Expression.compile tree.postorder slot s.registers s.lookahead.location = .ok code)
    (hpasses : s.position.Passes ts q) (hfollows : Yard.empty.Stops q.lookahead.value) :
  s.run (PassM.expression slot) = (.ok (), s.goto q (calls ++ code))
  := by
  have hqueue := Yard.queue_after_of_grouped hgrouped
  apply run_expression_eq_ok_iff.mpr
  refine ⟨calls, Yard.empty.after tree, q, code,
    Tree.reading_of_emits_of_stops hspells hgrouped hemits hpasses hfollows,
    Yard.unclosed_after .empty tree, ?_, ?_, rfl⟩
  · rw [hqueue]
    apply Expression.ne_nil_of_compile hcode
  · rw [hqueue]
    exact hcode

/-- The operations that an expression writes deliver its outcome: each call contributes what the last
of them returns. They deliver its value, whatever literals, variables, operators and functions mean,
exactly if its tree is steady. -/
theorem delivers_value_iff_steady {s t : Pass} {slot : Slot} {tree : Tree}
    {ts : List (Located Token)} (hspells : tree.Spells ts) (hgrouped : tree.Grouped)
    (hresolved : tree.Resolved s.symbols) (hpasses : s.position.Passes ts t.position)
    (h : s.run (PassM.expression slot) = (.ok (), t)) :
  ∃ code, t = s.goto t.position code ∧
    (∀ (α : Type) (I : Interpretation α), I.Folds → ∀ m : Machine α,
      Machine.Delivers slot m (I.run s.symbols.arity m code) (I.outcome m.returned tree)) ∧
    ((∀ (α : Type) (I : Interpretation α), I.Folds → ∀ m : Machine α,
      Machine.Delivers slot m (I.run s.symbols.arity m code) (I.value tree)) ↔
        (Interpretation.terms.value tree).Steady)
  := by
  obtain ⟨calls, code, hemits, hcode, ht⟩ :=
    exists_emits_of_run_expression hspells hgrouped hresolved hpasses h
  have hdelivers : ∀ (α : Type) (I : Interpretation α), I.Folds → ∀ m : Machine α,
      Machine.Delivers slot m (I.run s.symbols.arity m (calls ++ code))
        (I.outcome m.returned tree) := by
    intro α I hI m
    obtain ⟨hpushed, hreturned⟩ := Interpretation.run_of_emits hI hemits m
    obtain ⟨hcompiled, -⟩ := Interpretation.delivers_of_compile_postorder hI hcode s.symbols.arity
      (I.run s.symbols.arity m calls)
    rw [hreturned] at hcompiled
    rw [Interpretation.run_append]
    apply hcompiled.of_pushed_eq hpushed
  use calls ++ code, ht, hdelivers
  constructor
  · intro hvalue
    let m : Machine Term := ⟨fun _ => .string "", [], .string ""⟩
    have houtcome := (hdelivers Term .terms Interpretation.folds_terms m).unique
      (hvalue Term .terms Interpretation.folds_terms m)
    apply Interpretation.steady_of_outcome_eq tree houtcome
  · intro hsteady α I hI m
    rw [← Interpretation.outcome_eq_value_of_steady hI tree hsteady m.returned]
    apply hdelivers α I hI m

/-- Whatever `f` means, the operations of `2 + f(f(1))` leave its value in register zero. -/
theorem delivers_value_iff_steady_nested :
  let int : DataType := .scalar .int
  let symbols : SymbolTable := ⟨[], [], [⟨"f", [int], .scalar .int⟩], []⟩
  let here (token : Token) : Located Token := ⟨token, .start⟩
  let call (ts : List (Located Token)) : List (Located Token) :=
    here (.ident "f") :: here (.mark .lparen) :: (ts ++ [here (.mark .rparen)])
  let ts := [here (.number (.int 2))] ++ here (.mark .plus) :: call (call [here (.number (.int 1))])
  let p := Position.ofTokens ts .start
  let q := Position.ofTokens [] .start
  let s : Pass := ⟨p.lookahead, p.stream, symbols, .empty, 2⟩
  let tree : Tree := .binary (.leaf ⟨.number (.int 2), .start⟩) ⟨.add, .start⟩
    (.call ⟨"f", .start⟩ [.call ⟨"f", .start⟩ [.leaf ⟨.number (.int 1), .start⟩]])
  let code : List Operation := [.push (.number (.int 1)), .call "f", .load 0 .returned,
    .push (.register 0), .call "f", .load 0 (.number (.int 2)), .load 1 .returned,
    .binary 0 0 .add 1]
  tree.Spells ts ∧ tree.Grouped ∧ tree.Resolved symbols ∧ s.position.Passes ts q ∧
    s.run (PassM.expression .register) = (.ok (), s.goto q code) ∧
    ∃ code', s.goto q code = s.goto q code' ∧
      ∀ (α : Type) (I : Interpretation α), I.Folds → ∀ m : Machine α,
        Machine.Delivers .register m (I.run symbols.arity m code') (I.value tree)
  := by
  intro int symbols here call ts p q s tree code
  let one : Tree := .leaf ⟨.number (.int 1), .start⟩
  let inner : Tree := .call ⟨"f", .start⟩ [one]
  let outer : Tree := .call ⟨"f", .start⟩ [inner]
  have hinnerSpells : inner.Spells (call [here (.number (.int 1))]) :=
    .call rfl (show [(one, [here (.number (.int 1))])].map Prod.fst = [one] from rfl)
      (List.forall_mem_singleton.mpr (.leaf _)) rfl rfl
  have houterSpells : outer.Spells (call (call [here (.number (.int 1))])) :=
    .call rfl (show [(inner, call [here (.number (.int 1))])].map Prod.fst = [inner] from rfl)
      (List.forall_mem_singleton.mpr hinnerSpells) rfl rfl
  have hspells : tree.Spells ts :=
    .binary (t := here (.mark .plus)) (.leaf ⟨.number (.int 2), .start⟩) rfl houterSpells
  have hinnerGrouped : inner.Grouped := .call (List.forall_mem_singleton.mpr (.leaf _))
  have hgrouped : tree.Grouped :=
    .binary (.leaf _) (.call (List.forall_mem_singleton.mpr hinnerGrouped)) trivial trivial
  have hinnerResolved : inner.Resolved symbols :=
    .call rfl (List.forall_mem_singleton.mpr (.leaf _))
  have hresolved : tree.Resolved symbols :=
    .binary (.leaf _) (.call rfl (List.forall_mem_singleton.mpr hinnerResolved))
  have hmore : ∀ t ∈ ts, t.value ≠ .eof := by decide
  have hpasses : s.position.Passes ts q := Position.passes_ofTokens hmore [] _
  let pushOne : Tree.Pushed := ⟨one, [], [.push (.number (.int 1))]⟩
  have hone : one.Emits symbols 2 [] := .leaf trivial
  have hinner : inner.Emits symbols 2 [.push (.number (.int 1)), .call "f"] :=
    .call rfl rfl (show [pushOne].map Tree.Pushed.tree = [one] from rfl)
      (List.forall_mem_singleton.mpr hone) (List.forall_mem_singleton.mpr ⟨.start, rfl⟩) rfl
      (by decide)
  let pushInner : Tree.Pushed :=
    ⟨inner, [.push (.number (.int 1)), .call "f"], [.load 0 .returned, .push (.register 0)]⟩
  have houter : outer.Emits symbols 2 (pushInner.operations ++ [.call "f"]) :=
    .call rfl rfl (show [pushInner].map Tree.Pushed.tree = [inner] from rfl)
      (List.forall_mem_singleton.mpr hinner) (List.forall_mem_singleton.mpr ⟨.start, rfl⟩) rfl
      (by decide)
  have htwo : (Tree.leaf ⟨.number (.int 2), .start⟩).Emits symbols 2 [] := .leaf trivial
  have hrun : s.run (PassM.expression .register) = (.ok (), s.goto q code) :=
    run_expression_of_emits hspells hgrouped (.binary htwo houter)
      (show Expression.compile tree.postorder .register 2 .start = .ok [.load 0 (.number (.int 2)),
        .load 1 .returned, .binary 0 0 .add 1] from rfl) hpasses rfl
  obtain ⟨code', hcode', -, hiff⟩ :=
    delivers_value_iff_steady hspells hgrouped hresolved hpasses hrun
  refine ⟨hspells, hgrouped, hresolved, hpasses, hrun, code', hcode', hiff.mpr ?_⟩
  have hnumber : (Term.number (.int 1)).Steady := .of_calls_eq_nil rfl
  have hcall : (Term.function "f" [.number (.int 1)]).Steady :=
    .of_calls_eq_singleton rfl (List.forall_mem_singleton.mpr hnumber)
  exact .of_calls_eq_singleton rfl (List.forall_mem_singleton.mpr hcall)

/-- In `f(1) + f(2)` the second call counts twice: if `f` returns its argument, then the operations
leave four in register zero. -/
theorem second_call_counts_twice :
  let int : DataType := .scalar .int
  let symbols : SymbolTable := ⟨[], [], [⟨"f", [int], .scalar .int⟩], []⟩
  let here (token : Token) : Located Token := ⟨token, .start⟩
  let call (n : Int64) : List (Located Token) := here (.ident "f") :: here (.mark .lparen) ::
    ([here (.number (.int n))] ++ [here (.mark .rparen)])
  let ts := call 1 ++ here (.mark .plus) :: call 2
  let p := Position.ofTokens ts .start
  let s : Pass := ⟨p.lookahead, p.stream, symbols, .empty, 2⟩
  let one : Tree := .leaf ⟨.number (.int 1), .start⟩
  let two : Tree := .leaf ⟨.number (.int 2), .start⟩
  let tree : Tree :=
    .binary (.call ⟨"f", .start⟩ [one]) ⟨.add, .start⟩ (.call ⟨"f", .start⟩ [two])
  let code : List Operation := [.push (.number (.int 1)), .call "f", .push (.number (.int 2)),
    .call "f", .load 0 .returned, .load 1 .returned, .binary 0 0 .add 1]
  let I := Interpretation.ofNumbers (fun _ => .int 0) (fun _ arguments => arguments.headD (.int 0))
  let m : Machine Number := ⟨fun _ => .int 0, [], .int 0⟩
  tree.Spells ts ∧ tree.Grouped ∧ (s.run (PassM.expression .register)).1.isOk = true ∧
    (s.run (PassM.expression .register)).2.listing.toList = code.map .operation ∧
    I.value tree = .int 3 ∧ (I.run symbols.arity m code).registers 0 = .int 4
  := by
  intro int symbols here call ts p s one two tree code I m
  have hone : (Tree.call ⟨"f", .start⟩ [one]).Spells (call 1) :=
    .call rfl (show [(one, [here (.number (.int 1))])].map Prod.fst = [one] from rfl)
      (List.forall_mem_singleton.mpr (.leaf _)) rfl rfl
  have htwo : (Tree.call ⟨"f", .start⟩ [two]).Spells (call 2) :=
    .call rfl (show [(two, [here (.number (.int 2))])].map Prod.fst = [two] from rfl)
      (List.forall_mem_singleton.mpr (.leaf _)) rfl rfl
  have hspells : tree.Spells ts := .binary (t := here (.mark .plus)) hone rfl htwo
  have hgrouped : tree.Grouped := .binary (.call (List.forall_mem_singleton.mpr (.leaf _)))
    (.call (List.forall_mem_singleton.mpr (.leaf _))) trivial trivial
  use hspells, hgrouped
  decide +kernel

end Pass

end SilFront
