import SilFront.Expression.Queue
import Mathlib.Tactic.Common

/-!
# The grammar of expressions

`Derives` is the grammar: an expression is one operand or several with an operator between each and
the next, and an operand is a literal, a name, a call or an expression in parentheses. The grammar
has its own account of the operators: `BinaryOp.mark` says how each is written, and
`BinaryOp.classes` lists them by how tightly they bind. The tables that expressions are read with
agree with it (`Token.operator?_eq_some_iff`, `BinaryOp.drainsBefore_iff`).

A `Tree` also says to which operands an operator belongs, and `Tree.Spells` with which tokens a tree
is written. In a `Grouped` tree the operators that bind more tightly stand below those that bind
less tightly, and operators of one class belong to the left. Every expression has a grouped tree,
`exists_grouped_of_derives`, and `Tree.postorder` lists its operands and operators, each operator
after its two operands.
-/

namespace SilFront

/-! ### Operators -/

namespace BinaryOp

/-- The mark that an operator is written with. -/
def mark : BinaryOp → Mark
  | .add => .plus
  | .sub => .minus
  | .mul => .star
  | .div => .slash
  | .lt => .lt
  | .le => .le
  | .gt => .gt
  | .ge => .ge
  | .eq => .eqEq
  | .ne => .notEq

/-- The classes of operators. Sums and differences bind least tightly; then come products and
quotients, then comparisons, and equations bind most tightly. -/
def classes : List (List BinaryOp) :=
  [[.add, .sub], [.mul, .div], [.lt, .le, .gt, .ge], [.eq, .ne]]

/-- How tightly an operator binds: the number of classes that bind less tightly than its own. -/
def tightness (op : BinaryOp) : Nat :=
  classes.findIdx fun operators => operators.contains op

theorem rank_precedence (op : BinaryOp) :
  op.precedence.rank = op.tightness
  := by
  cases op <;> rfl

/-- A waiting operator takes its operands first exactly if it binds at least as tightly as the one
that comes. -/
theorem drainsBefore_iff {waiting incoming : BinaryOp} :
  waiting.drainsBefore incoming ↔ incoming.tightness ≤ waiting.tightness
  := by
  rw [drainsBefore, rank_precedence, rank_precedence, decide_eq_true_iff]

end BinaryOp

/-- A token denotes an operator exactly if it is the mark of that operator. -/
theorem Token.operator?_eq_some_iff {token : Token} {op : BinaryOp} :
  token.operator? = some op ↔ token = .mark op.mark
  := by
  cases token with
  | mark m => cases m <;> cases op <;> simp [operator?, Mark.operator?, BinaryOp.mark]
  | _ => simp [operator?]

/-! ### Phrases -/

/-- An operand of one token that may stand in a program. -/
inductive Leaf where
  | number (value : Number)
  | string (value : String)
  | name (id : String)
deriving DecidableEq

/-- The token that a leaf is written with. -/
def Leaf.token : Leaf → Token
  | .number n => .number n
  | .string s => .string s
  | .name id => .ident id

/-- Runs of tokens, with a comma between each and the next. -/
def Joined : List (List (Located Token)) → List (Located Token) → Prop
  | [], ts => ts = []
  | [run], ts => ts = run
  | run :: next :: rest, ts =>
    ∃ comma us, comma.value = .mark .comma ∧ ts = run ++ comma :: us ∧ Joined (next :: rest) us

/-- The phrases of the grammar. -/
inductive Phrase where
  | expression
  | operand
deriving DecidableEq

/-- The tokens that a phrase is written with. -/
inductive Derives : Phrase → List (Located Token) → Prop
  | leaf {t : Located Token} {leaf : Leaf} (value : t.value = leaf.token) : Derives .operand [t]
  | call {name opening closing : Located Token} {f : String} {arguments : List (List (Located Token))}
      {inner : List (Located Token)} (ident : name.value = .ident f)
      (opens : opening.value = .mark .lparen)
      (derives : ∀ a ∈ arguments, Derives .expression a) (joined : Joined arguments inner)
      (closes : closing.value = .mark .rparen) :
      Derives .operand (name :: opening :: (inner ++ [closing]))
  | parenthesis {opening closing : Located Token} {inner : List (Located Token)}
      (opens : opening.value = .mark .lparen) (derives : Derives .expression inner)
      (closes : closing.value = .mark .rparen) : Derives .operand (opening :: (inner ++ [closing]))
  | single {ts : List (Located Token)} (operand : Derives .operand ts) : Derives .expression ts
  | more {ts us : List (Located Token)} {t : Located Token} {op : BinaryOp}
      (expression : Derives .expression ts) (operator : t.value = .mark op.mark)
      (operand : Derives .operand us) : Derives .expression (ts ++ t :: us)

/-! ### Trees -/

/-- An expression with its operators grouped. -/
inductive Tree where
  | leaf (leaf : Located Leaf)
  | call (name : Located String) (arguments : List Tree)
  | parenthesis (inner : Tree)
  | binary (lhs : Tree) (op : Located BinaryOp) (rhs : Tree)

namespace Tree

/-- The tokens that a tree is written with. -/
inductive Spells : Tree → List (Located Token) → Prop
  | leaf (leaf : Located Leaf) : Spells (.leaf leaf) [leaf.map Leaf.token]
  | call {name : Located String} {opening closing : Located Token} {arguments : List Tree}
      {written : List (Tree × List (Located Token))} {inner : List (Located Token)}
      (opens : opening.value = .mark .lparen) (trees : written.map Prod.fst = arguments)
      (spells : ∀ a ∈ written, Spells a.1 a.2) (joined : Joined (written.map Prod.snd) inner)
      (closes : closing.value = .mark .rparen) :
      Spells (.call name arguments) (name.map .ident :: opening :: (inner ++ [closing]))
  | parenthesis {opening closing : Located Token} {inner : Tree} {ts : List (Located Token)}
      (opens : opening.value = .mark .lparen) (spells : Spells inner ts)
      (closes : closing.value = .mark .rparen) :
      Spells (.parenthesis inner) (opening :: (ts ++ [closing]))
  | binary {lhs rhs : Tree} {t : Located Token} {op : BinaryOp} {ts us : List (Located Token)}
      (left : Spells lhs ts) (operator : t.value = .mark op.mark) (right : Spells rhs us) :
      Spells (.binary lhs ⟨op, t.location⟩ rhs) (ts ++ t :: us)

/-- The operator on top of a tree, if there is one, binds at least as tightly as given. -/
def Above (tightness : Nat) : Tree → Prop
  | .binary _ op _ => tightness ≤ op.value.tightness
  | _ => True

theorem above_zero (tree : Tree) :
  tree.Above 0
  := by
  cases tree with
  | binary lhs op rhs => apply Nat.zero_le
  | _ => trivial

/-- No operator has an operand whose own operator binds less tightly, and none has one of its own
class on its right. -/
inductive Grouped : Tree → Prop
  | leaf (leaf : Located Leaf) : Grouped (.leaf leaf)
  | call {name : Located String} {arguments : List Tree} (grouped : ∀ a ∈ arguments, Grouped a) :
      Grouped (.call name arguments)
  | parenthesis {inner : Tree} (grouped : Grouped inner) : Grouped (.parenthesis inner)
  | binary {lhs rhs : Tree} {op : Located BinaryOp} (left : Grouped lhs) (right : Grouped rhs)
      (aboveLeft : lhs.Above op.value.tightness)
      (aboveRight : rhs.Above (op.value.tightness + 1)) : Grouped (.binary lhs op rhs)

/-- The operands and operators of a tree, each operator after its operands. A call is one operand,
the value that it returns. -/
def postorder : Tree → List Item
  | .leaf operand => [.operand (operand.map Leaf.token)]
  | .call name _ => [.operand ⟨.returnValue, name.location⟩]
  | .parenthesis inner => inner.postorder
  | .binary lhs op rhs => lhs.postorder ++ rhs.postorder ++ [.operator op]

/-! ### Grouping -/

/-- The tree with an operator and its right operand written after it. The operator goes down on the
right past those that bind less tightly. -/
def extend : Tree → Located BinaryOp → Tree → Tree
  | .binary lhs top rhs, op, operand =>
    if top.value.tightness < op.value.tightness then
      .binary lhs top (rhs.extend op operand)
    else .binary (.binary lhs top rhs) op operand
  | tree, op, operand => .binary tree op operand

/-- An extended tree is written with the operator and the operand after its own tokens. -/
theorem Spells.extend {op : BinaryOp} {t : Located Token} {operand tree : Tree}
    {ts us : List (Located Token)} (h : tree.Spells ts) (hop : t.value = .mark op.mark)
    (hoperand : operand.Spells us) :
  (tree.extend ⟨op, t.location⟩ operand).Spells (ts ++ t :: us)
  := by
  induction h with
  | leaf leaf => apply Spells.binary (.leaf leaf) hop hoperand
  | call opens trees spells joined closes =>
    apply Spells.binary (.call opens trees spells joined closes) hop hoperand
  | parenthesis opens spells closes =>
    apply Spells.binary (.parenthesis opens spells closes) hop hoperand
  | @binary lhs rhs t' op' ts us' left operator right _ ihRight =>
    unfold Tree.extend
    split
    · rw [List.append_assoc, List.cons_append]
      apply Spells.binary left operator ihRight
    · apply Spells.binary (.binary left operator right) hop hoperand

/-- The operator on top of an extended tree is the old one or the new one. -/
theorem Above.extend {tightness : Nat} {op : Located BinaryOp} {operand tree : Tree}
    (h : tree.Above tightness) (hop : tightness ≤ op.value.tightness) :
  (tree.extend op operand).Above tightness
  := by
  unfold Tree.extend
  split
  · split
    · exact h
    · exact hop
  · exact hop

/-- Extending a grouped tree by an operand without operators groups the operator. -/
theorem Grouped.extend {op : Located BinaryOp} {operand tree : Tree} (h : tree.Grouped)
    (hoperand : operand.Grouped) (htop : ∀ tightness, operand.Above tightness) :
  (tree.extend op operand).Grouped
  := by
  induction h with
  | leaf leaf => apply Grouped.binary (.leaf leaf) hoperand trivial (htop _)
  | call grouped => apply Grouped.binary (.call grouped) hoperand trivial (htop _)
  | parenthesis grouped => apply Grouped.binary (.parenthesis grouped) hoperand trivial (htop _)
  | binary left right aboveLeft aboveRight _ ihRight =>
    unfold Tree.extend
    split
    · rename_i hlt
      apply Grouped.binary left ihRight aboveLeft (aboveRight.extend hlt)
    · rename_i hle
      have hgrouped := Grouped.binary left right aboveLeft aboveRight
      apply Grouped.binary hgrouped hoperand (Nat.le_of_not_lt hle) (htop _)

/-- Where each of some runs of tokens has a tree, trees can be chosen for all of them. -/
theorem exists_written_of_forall {P : Tree → List (Located Token) → Prop} :
  ∀ {runs : List (List (Located Token))}, (∀ run ∈ runs, ∃ tree, P tree run) →
    ∃ written : List (Tree × List (Located Token)), written.map Prod.snd = runs ∧
      ∀ a ∈ written, P a.1 a.2
  | [], _ => ⟨[], rfl, by simp⟩
  | run :: runs, h => by
      obtain ⟨tree, htree⟩ := h run List.mem_cons_self
      obtain ⟨written, rfl, hwritten⟩ :=
        exists_written_of_forall fun run hrun => h run (List.mem_cons_of_mem _ hrun)
      exact ⟨(tree, run) :: written, rfl, List.forall_mem_cons.mpr ⟨htree, hwritten⟩⟩

/-- Every phrase has a grouped tree, and an operand one without an operator on top. -/
theorem exists_grouped_of_derives {phrase : Phrase} {ts : List (Located Token)}
    (h : Derives phrase ts) :
  ∃ tree : Tree, tree.Spells ts ∧ tree.Grouped ∧
    (phrase = .operand → ∀ tightness, tree.Above tightness)
  := by
  induction h with
  | @leaf t leaf value =>
    have ht : t = (Located.mk leaf t.location).map Leaf.token := by
      rw [Located.map, ← value]
    refine ⟨.leaf ⟨leaf, t.location⟩, ?_, .leaf _, fun _ _ => trivial⟩
    rw [ht]
    apply Spells.leaf
  | @call name opening closing f arguments inner ident opens derives joined closes ih =>
    have hname : name = (Located.mk f name.location).map Token.ident := by
      rw [Located.map, ← ident]
    obtain ⟨written, rfl, hwritten⟩ := exists_written_of_forall ih
    refine ⟨.call ⟨f, name.location⟩ (written.map Prod.fst), ?_, ?_, fun _ _ => trivial⟩
    · rw [hname]
      apply Spells.call opens rfl (fun a ha => (hwritten a ha).1) joined closes
    · apply Grouped.call
      intro tree htree
      obtain ⟨a, ha, rfl⟩ := List.mem_map.mp htree
      apply (hwritten a ha).2.1
  | parenthesis opens derives closes ih =>
    obtain ⟨tree, hspells, hgrouped, -⟩ := ih
    exact ⟨.parenthesis tree, .parenthesis opens hspells closes, .parenthesis hgrouped,
      fun _ _ => trivial⟩
  | single operand ih =>
    obtain ⟨tree, hspells, hgrouped, -⟩ := ih
    exact ⟨tree, hspells, hgrouped, by simp⟩
  | more expression operator operand ihExpression ihOperand =>
    obtain ⟨tree, hspells, hgrouped, -⟩ := ihExpression
    obtain ⟨operand, hspells', hgrouped', htop⟩ := ihOperand
    exact ⟨_, hspells.extend operator hspells', hgrouped.extend hgrouped' (htop rfl), by simp⟩

end Tree

end SilFront
