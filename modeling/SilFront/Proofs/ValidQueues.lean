import Mathlib.Algebra.BigOperators.Group.List.Basic
import Mathlib.Data.List.Induction
import SilFront.Proofs.Arithmetic
import SilFront.Proofs.DecimalText
import SilFront.Proofs.Grammar
import SilFront.Proofs.OwnCode

/-!
# Valid queues

Which queues have code, and what is wrong with the others, said without a stack of values: after some
items of a queue there are as many values as there are more operands than operators among them
(`Expression.height`), and a run of items that is an expression of numbers has a value
(`Expression.FoldsTo`).

A queue is `Valid` if every operator finds two values, one value is left in the end, there are never
more of them than registers, its operands can be loaded and it divides by no zero that is known.
`Expression.compile` accepts the valid queues, and refuses every other one for what is wrong with the
first item that `Offends`, or for the values that are left in the end
(`Expression.compiles_iff_valid`).
-/

namespace SilFront

/-- The tokens that can be loaded: literals, names and the value that the last call returned. -/
def Token.IsLoadable : Token → Prop
  | .number _ | .string _ | .ident _ | .returnValue => True
  | _ => False

/-- The tokens that can be loaded are those that have a value. -/
theorem Token.isLoadable_iff {token : Token} :
  token.IsLoadable ↔ Value.ofToken? token ≠ none
  := by
  cases token <;> simp [IsLoadable, Value.ofToken?]

theorem Token.number?_eq_some_iff {token : Token} {n : Number} :
  token.number? = some n ↔ token = .number n
  := by
  cases token <;> simp [number?]

/-! ### Zeros -/

section

open Float.Model

/-- The bits of a zero are zero, that of the sign aside. -/
theorem toNat_mod_of_unpack_eq_zero {x : Float} {sign : UnpackedFloat.Sign}
    (h : x.toModel.unpack = .zero sign) :
  x.toBits.toNat % 2 ^ 63 = 0
  := by
  unfold Float.Model.unpack UnpackedFloat.unpack at h
  obtain ⟨-, h⟩ | ⟨-, h⟩ := ite_eq_iff.mp h
  · obtain ⟨-, h⟩ | ⟨-, h⟩ := ite_eq_iff.mp h <;> cases h
  obtain ⟨hexponent, h⟩ | ⟨-, h⟩ := ite_eq_iff.mp h
  · obtain ⟨hmantissa, -⟩ | ⟨hnonzero, h⟩ := dite_eq_iff.mp h
    · replace hexponent := congrArg BitVec.toNat hexponent
      rw [UnpackedFloat.unpackExponent, BitVec.toNat_cast, BitVec.extractLsb_toNat,
        Nat.shiftRight_eq_div_pow] at hexponent
      replace hmantissa := congrArg BitVec.toNat hmantissa
      rw [UnpackedFloat.unpackMantissa, BitVec.toNat_cast, BitVec.extractLsb_toNat] at hmantissa
      have hexponent' : x.toBits.toNat / 2 ^ 52 % 2 ^ 11 = 0 := hexponent
      have hmantissa' : x.toBits.toNat % 2 ^ 52 = 0 := hmantissa
      omega
    · cases h
  · cases h

/-- A floating point number that equals zero is one of the two zeros. -/
theorem eq_zero_of_beq {x : Float} (h : Float.beq x 0.0) :
  x = 0.0 ∨ x = -0.0
  := by
  obtain ⟨sign, hsign⟩ := Binary64.unpack_eq_zero_of_beq h
  have hbits := toNat_mod_of_unpack_eq_zero hsign
  have hlt : x.toBits.toNat < 2 ^ 64 := x.toBits.toNat_lt
  have hpositive : (0.0 : Float).toBits.toNat = 0 := by decide +kernel
  have hnegative : (-0.0 : Float).toBits.toNat = 2 ^ 63 := by decide +kernel
  obtain h | h : x.toBits.toNat = 0 ∨ x.toBits.toNat = 2 ^ 63 := by omega
  · left
    apply Decimal.Parts.eq_of_toBits (UInt64.toNat_inj.mp (h.trans hpositive.symm))
  · right
    apply Decimal.Parts.eq_of_toBits (UInt64.toNat_inj.mp (h.trans hnegative.symm))

end

/-- The zeros: an integer, and a floating point number of either sign. -/
def Number.zeros : List Number :=
  [.int 0, .float 0.0, .float (-0.0)]

/-- There are three zeros. -/
theorem Number.isZero_iff {n : Number} :
  n.isZero ↔ n ∈ zeros
  := by
  constructor
  · intro h
    cases n with
    | int n => simp_all [isZero, zeros]
    | float x =>
      obtain rfl | rfl := eq_zero_of_beq h
      · simp [zeros]
      · simp [zeros]
  · intro h
    have hall : zeros.all isZero := by decide +kernel
    exact List.all_eq_true.mp hall n h

namespace Item

/-- Where an item was read. -/
def location : Item → Location
  | .operand token => token.location
  | .operator op => op.location

/-- By how much an item changes the number of values. -/
def weight : Item → Int
  | .operand _ => 1
  | .operator _ => -1

end Item

namespace Expression

/-! ### What is wrong with a queue -/

/-- The number of values after items. -/
def height (items : List Item) : Int :=
  (items.map Item.weight).sum

/-- Every operand of a queue is a number. -/
def AllNumbers (items : List Item) : Prop :=
  ∀ token, .operand token ∈ items → ∃ n, token.value = .number n

/-- Items that are an expression of numbers, and the value of the expression. -/
inductive FoldsTo : List Item → Number → Prop where
  | operand {token : Located Token} {n : Number} : token.value = .number n →
    FoldsTo [.operand token] n
  | operator {left right : List Item} {a b n : Number} {op : Located BinaryOp} :
    FoldsTo left a → FoldsTo right b → Number.apply op.value a b = some n →
    FoldsTo (left ++ right ++ [.operator op]) n

/-- An operator after the first items of a queue has a right operand that is known to be zero. If
every operand of the queue is a number, this is the expression that ends there, and otherwise it has
to be a literal. -/
def ZeroDivisor (items before : List Item) : Prop :=
  AllNumbers items ∧ (∃ first right n, before = first ++ right ∧ FoldsTo right n ∧ n ∈ Number.zeros) ∨
    ¬AllNumbers items ∧ ∃ first token n, before = first ++ [.operand token] ∧
      token.value = .number n ∧ n ∈ Number.zeros

/-- What is wrong with an item of a queue, after the items before it. -/
inductive Offends (items : List Item) (registers : Nat) (before : List Item) :
    Item → SyntaxError → Prop where
  | tooComplex {token : Located Token} : registers ≤ height before →
    Offends items registers before (.operand token) (.tooManyValues registers)
  | unexpected {token : Located Token} : height before < registers → ¬AllNumbers items →
    ¬token.value.IsLoadable →
    Offends items registers before (.operand token) (.unexpectedOperand token.value)
  | missing {op : Located BinaryOp} : height before < 2 →
    Offends items registers before (.operator op) (.missingOperands op.value)
  | zeroDivisor {op : Located BinaryOp} : 2 ≤ height before → op.value = .div →
    ZeroDivisor items before → Offends items registers before (.operator op) .divideByZero

/-- Nothing is wrong with the first items of a queue. -/
def Passes (items : List Item) (registers : Nat) (before : List Item) : Prop :=
  ∀ first item rest, before = first ++ item :: rest →
    ¬∃ cause, Offends items registers first item cause

/-- The queues that have code. -/
structure Valid (items : List Item) (registers : Nat) : Prop where
  /-- Every operator finds two values. -/
  operators : ∀ before op after, items = before ++ .operator op :: after → 2 ≤ height before
  /-- One value is left in the end. -/
  single : height items = 1
  /-- There are never more values than registers. -/
  bounded : ∀ before, before <+: items → height before ≤ registers
  /-- Unless all operands are numbers, all of them can be loaded. -/
  operands : ¬AllNumbers items → ∀ token, .operand token ∈ items → token.value.IsLoadable
  /-- There is no division by a zero. -/
  divisors : ∀ before op after, items = before ++ .operator op :: after → op.value = .div →
    ¬ZeroDivisor items before

/-- The error for which a queue is refused. -/
inductive Refused (items : List Item) (registers : Nat) (location : Location) :
    Located SyntaxError → Prop where
  /-- Something is wrong with an item, and with none before it. -/
  | item {before after : List Item} {item : Item} {cause : SyntaxError} :
    items = before ++ item :: after → Passes items registers before →
    Offends items registers before item cause →
    Refused items registers location ⟨cause, item.location⟩
  /-- More than one value is left. -/
  | missingOperator {before : List Item} {last : Item} :
    Passes items registers items → 1 < height items → items = before ++ [last] →
    Refused items registers location ⟨.missingOperator, last.location⟩
  /-- No value is left. -/
  | empty : Passes items registers items → height items = 0 →
    Refused items registers location ⟨.emptyExpression, location⟩

@[simp]
theorem height_nil :
  height [] = 0
  := rfl

@[simp]
theorem height_append (first second : List Item) :
  height (first ++ second) = height first + height second
  := by
  simp [height]

@[simp]
theorem height_operand (token : Located Token) :
  height [.operand token] = 1
  := rfl

@[simp]
theorem height_operator (op : Located BinaryOp) :
  height [.operator op] = -1
  := rfl

/-- A queue is constant exactly if all its operands are numbers. -/
theorem isConstant_iff {items : List Item} :
  isConstant items ↔ AllNumbers items
  := by
  rw [isConstant, List.all_eq_true]
  constructor
  · intro h token htoken
    exact Token.number?_isSome.mp (h _ htoken)
  · rintro h (token | op) hitem
    · exact Token.number?_isSome.mpr (h token hitem)
    · rfl

/-! ### What reading items leaves -/

/-- Live values are those of expressions of numbers that stand in the queue one after the other, the
last one first. -/
inductive Segmented : List Item → List Live → Prop where
  | nil : Segmented [] []
  | cons {first right : List Item} {live : List Live} {n : Number} {location : Location} :
    Segmented first live → FoldsTo right n → Segmented (first ++ right) (⟨some n, location⟩ :: live)

/-- The number that an item is. -/
def number? : Item → Option Number
  | .operand token => token.value.number?
  | .operator _ => none

/-- What items leave in the state: their height and the place of the last one, and which numbers are
known. -/
structure Leaves (constant : Bool) (before : List Item) (g : Generation) : Prop where
  height : (g.live.length : Int) = height before
  last : g.live.head?.map Located.location = before.getLast?.map Item.location
  known : constant = true → Segmented before g.live
  literal : constant = false → g.live.head?.bind Located.value = before.getLast?.bind number?

variable {items before : List Item} {registers : Nat} {constant : Bool} {g g' : Generation}
  {i : Item} {e : Located SyntaxError}

theorem leaves_nil :
  Leaves constant [] ⟨[], []⟩
  where
  height := rfl
  last := rfl
  known _ := .nil
  literal _ := rfl

/-- An operand leaves one more live value. -/
theorem Leaves.operand (h : Leaves constant before g) {token : Located Token}
    (hnumber : constant = true → ∃ n, token.value = .number n)
    (hok : operand registers constant g token = .ok g') :
  Leaves constant (before ++ [.operand token]) g'
  := by
  obtain ⟨-, hlive, -⟩ := operand_eq_ok hok
  constructor
  · rw [hlive, List.length_cons, height_append, height_operand, ← h.height]
    rfl
  · rw [hlive, List.getLast?_concat]
    rfl
  · intro hconstant
    obtain ⟨n, hn⟩ := hnumber hconstant
    rw [hlive, hn]
    exact .cons (h.known hconstant) (.operand hn)
  · intro _
    rw [hlive, List.getLast?_concat]
    rfl

/-- An operator leaves the number that it makes of two known ones, and otherwise a value that is not
known. -/
theorem Leaves.live_operator (h : Leaves constant before g) {op : Located BinaryOp}
    (hok : Expression.operator constant g op = .ok g') :
  ∃ rhs lhs live v, g.live = rhs :: lhs :: live ∧ g'.live = ⟨v, op.location⟩ :: live ∧
    (constant = true → ∃ a b n, lhs.value = some a ∧ rhs.value = some b ∧
      Number.apply op.value a b = some n ∧ v = some n) ∧
    (constant = false → v = none)
  := by
  obtain ⟨rhs, lhs, live, hlive, hcase⟩ := operator_eq_ok hok
  obtain ⟨hconstant, a, b, n, ha, hb, hn, rfl⟩ | ⟨hunknown, rfl⟩ := hcase
  · refine ⟨rhs, lhs, live, some n, hlive, rfl, fun _ => ⟨a, b, n, ha, hb, hn, rfl⟩, ?_⟩
    rw [hconstant]
    nofun
  · refine ⟨rhs, lhs, live, none, hlive, rfl, ?_, fun _ => rfl⟩
    intro hconstant
    have hknown := h.known hconstant
    rw [hlive] at hknown
    obtain _ | ⟨hfirst, hright⟩ := hknown
    obtain _ | ⟨hfirst, hleft⟩ := hfirst
    obtain hnone | hnone := hunknown hconstant <;> cases hnone

/-- An operator leaves one live value less, and what it folds to is known in a constant queue. -/
theorem Leaves.operator (h : Leaves constant before g) {op : Located BinaryOp}
    (hok : Expression.operator constant g op = .ok g') :
  Leaves constant (before ++ [.operator op]) g'
  := by
  obtain ⟨rhs, lhs, live, v, hlive, hlive', hfold, hunknown⟩ := h.live_operator hok
  constructor
  · have hheight := h.height
    rw [hlive] at hheight
    rw [hlive', height_append, height_operator, ← hheight]
    simp only [List.length_cons]
    omega
  · rw [hlive', List.getLast?_concat]
    rfl
  · intro hconstant
    obtain ⟨a, b, n, ha, hb, hn, rfl⟩ := hfold hconstant
    have hknown := h.known hconstant
    rw [hlive] at hknown
    obtain _ | ⟨hfirst, hright⟩ := hknown
    obtain _ | ⟨hfirst, hleft⟩ := hfirst
    cases ha
    cases hb
    rw [hlive', List.append_assoc, List.append_assoc, ← List.append_assoc _ _ [_]]
    exact .cons hfirst (.operator hleft hright hn)
  · intro hconstant
    rw [hlive', hunknown hconstant, List.getLast?_concat]
    rfl

theorem allNumbers_append {first second : List Item} :
  AllNumbers (first ++ second) ↔ AllNumbers first ∧ AllNumbers second
  := by
  simp only [AllNumbers, List.mem_append, or_imp, forall_and]

/-- What is left by items that are read, if their numbers are known. -/
theorem leaves_of_generate (hnumbers : constant = true → AllNumbers before)
    (h : before.foldlM (item registers constant) ⟨[], []⟩ = .ok g) :
  Leaves constant before g
  := by
  induction before using List.reverseRecOn generalizing g with
  | nil =>
    obtain rfl := Except.ok.inj h
    exact leaves_nil
  | append_singleton before i ih =>
    obtain ⟨g₁, hg₁, hitem⟩ := foldlM_append_eq_ok_iff.mp h
    simp only [List.foldlM_cons, List.foldlM_nil, bind_pure] at hitem
    have hleaves := ih (fun hconstant => (allNumbers_append.mp (hnumbers hconstant)).1) hg₁
    cases i with
    | operand token =>
      apply hleaves.operand _ hitem
      intro hconstant
      apply hnumbers hconstant
      simp
    | operator op => exact hleaves.operator hitem

/-- Reading an expression of numbers leaves its value. -/
theorem live_of_foldsTo {right : List Item} {n : Number} (hright : FoldsTo right n)
    (h : right.foldlM (item registers true) g = .ok g') :
  ∃ location, g'.live = ⟨some n, location⟩ :: g.live
  := by
  induction hright generalizing g g' with
  | @operand token n hn =>
    simp only [List.foldlM_cons, List.foldlM_nil, bind_pure] at h
    obtain ⟨-, hlive, -⟩ := operand_eq_ok h
    rw [hn] at hlive
    exact ⟨_, hlive⟩
  | @operator left right a b n op hleft hright hn ihLeft ihRight =>
    obtain ⟨g₂, hfirst, hop⟩ := foldlM_append_eq_ok_iff.mp h
    obtain ⟨g₁, hg₁, hg₂⟩ := foldlM_append_eq_ok_iff.mp hfirst
    obtain ⟨_, hlhs⟩ := ihLeft hg₁
    obtain ⟨_, hrhs⟩ := ihRight hg₂
    simp only [List.foldlM_cons, List.foldlM_nil, bind_pure] at hop
    obtain ⟨rhs, lhs, live, hlive, hcase⟩ := operator_eq_ok hop
    rw [hrhs, hlhs] at hlive
    obtain ⟨rfl, rfl, rfl⟩ := by simpa using hlive
    obtain ⟨-, a', b', n', ha, hb, hn', rfl⟩ | ⟨hunknown, -⟩ := hcase
    · cases ha
      cases hb
      cases hn.symm.trans hn'
      exact ⟨_, rfl⟩
    · obtain hnone | hnone := hunknown rfl <;> cases hnone

/-- The last live value is that of the last segment. -/
theorem Segmented.eq_of_cons {v : Live} {live : List Live} (h : Segmented before (v :: live)) :
  ∃ first right n, before = first ++ right ∧ FoldsTo right n ∧ v.value = some n
  := by
  obtain _ | ⟨-, hright⟩ := h
  exact ⟨_, _, _, rfl, hright, rfl⟩

/-- A beginning of a constant queue is constant. -/
theorem allNumbers_of_front (hfront : before <+: items) (h : isConstant items = true) :
  AllNumbers before
  := by
  obtain ⟨rest, rfl⟩ := hfront
  exact (allNumbers_append.mp (isConstant_iff.mp h)).1

/-- The queue tells of a zero to divide by exactly if the value that came to live last is known to be
one. -/
theorem zeroDivisor_iff (hfront : before <+: items)
    (h : before.foldlM (item registers (isConstant items)) ⟨[], []⟩ = .ok g) :
  ZeroDivisor items before ↔ ∃ v ∈ g.live.head?, v.value.any Number.isZero
  := by
  have hleaves := leaves_of_generate (allNumbers_of_front hfront) h
  cases hconstant : isConstant items with
  | true =>
    have hall := isConstant_iff.mp hconstant
    simp only [ZeroDivisor, hall, true_and, not_true, false_and, or_false]
    constructor
    · rintro ⟨first, right, n, rfl, hright, hzero⟩
      obtain ⟨g₁, -, hg⟩ := foldlM_append_eq_ok_iff.mp h
      rw [hconstant] at hg
      obtain ⟨location, hlive⟩ := live_of_foldsTo hright hg
      exact ⟨⟨some n, location⟩, by rw [hlive]; rfl, Number.isZero_iff.mpr hzero⟩
    · rintro ⟨v, hv, hzero⟩
      have hknown := hleaves.known hconstant
      obtain ⟨live, hlive⟩ := List.head?_eq_some_iff.mp hv
      rw [hlive] at hknown
      obtain ⟨first, right, n, rfl, hright, hn⟩ := hknown.eq_of_cons
      rw [hn] at hzero
      exact ⟨first, right, n, rfl, hright, Number.isZero_iff.mp hzero⟩
  | false =>
    have hall : ¬AllNumbers items := by
      rw [← isConstant_iff, hconstant]
      exact Bool.false_ne_true
    have hliteral := hleaves.literal hconstant
    simp only [ZeroDivisor, hall, false_and, not_false_eq_true, true_and, false_or]
    constructor
    · rintro ⟨first, token, n, rfl, hn, hzero⟩
      have hvalue : g.live.head?.bind Located.value = some n := by
        rw [hliteral, List.getLast?_concat]
        simp [number?, hn, Token.number?]
      obtain ⟨v, hv, hv'⟩ := Option.bind_eq_some_iff.mp hvalue
      refine ⟨v, hv, ?_⟩
      rw [hv']
      exact Number.isZero_iff.mpr hzero
    · rintro ⟨v, hv, hzero⟩
      obtain ⟨n, hn, hzero⟩ := (Option.any_eq_true _ _).mp hzero
      have hvalue : before.getLast?.bind number? = some n := by
        rw [← hliteral]
        exact Option.bind_eq_some_iff.mpr ⟨v, hv, hn⟩
      obtain ⟨i, hi, hnumber⟩ := Option.bind_eq_some_iff.mp hvalue
      obtain ⟨first, rfl⟩ := List.getLast?_eq_some_iff.mp hi
      cases i with
      | operator op => cases hnumber
      | operand token =>
        exact ⟨first, token, n, rfl, Token.number?_eq_some_iff.mp hnumber,
          Number.isZero_iff.mp hzero⟩

/-! ### The first item that offends -/

/-- An operand is refused for lack of registers, or because it has no value. -/
theorem operand_eq_error_iff {token : Located Token} :
  operand registers constant g token = .error e ↔
    registers ≤ g.live.length ∧ e = ⟨.tooManyValues registers, token.location⟩ ∨
    g.live.length < registers ∧ constant = false ∧ ¬token.value.IsLoadable ∧
      e = ⟨.unexpectedOperand token.value, token.location⟩
  := by
  rw [Token.isLoadable_iff, not_not]
  simp only [operand, refuse]
  by_cases hlive : registers ≤ g.live.length
  · simp [hlive, eq_comm]
  · cases constant with
    | true => simp [hlive]
    | false =>
      cases hvalue : Value.ofToken? token.value <;> simp [hlive, eq_comm]
      omega

/-- An operator fails if it lacks values or divides by a known zero. -/
theorem operator_eq_error_iff {op : Located BinaryOp} :
  operator constant g op = .error e ↔
    g.live.length < 2 ∧ e = ⟨.missingOperands op.value, op.location⟩ ∨
    2 ≤ g.live.length ∧ op.value = .div ∧ (∃ v ∈ g.live.head?, v.value.any Number.isZero) ∧
      e = ⟨.divideByZero, op.location⟩
  := by
  obtain ⟨_ | ⟨rhs, _ | ⟨lhs, live⟩⟩, code⟩ := g
  · simp [operator, refuse, @eq_comm _ e]
  · simp [operator, refuse, @eq_comm _ e]
  · by_cases hzero : op.value = .div ∧ rhs.value.any Number.isZero
    · simp [operator, refuse, hzero, @eq_comm _ e]
    · -- two numbers have a value then, and everything else is left to the machine
      have hok : ∃ g', operator constant ⟨rhs :: lhs :: live, code⟩ op = .ok g' := by
        simp only [operator]
        rw [if_neg hzero]
        split
        · rename_i a b ha hb
          have happly : Number.apply op.value a b ≠ none := by
            rw [hb, Option.any_some] at hzero
            exact mt Number.apply_eq_none_iff.mp hzero
          split
          · exact ⟨_, rfl⟩
          · contradiction
        · exact ⟨_, rfl⟩
      obtain ⟨g', hg'⟩ := hok
      rw [hg']
      simp only [reduceCtorEq, List.length_cons, List.head?_cons, Option.mem_some_iff,
        exists_eq_left', false_iff]
      rintro (⟨hshort, -⟩ | ⟨-, hdiv, hvalue, -⟩)
      · omega
      · exact hzero ⟨hdiv, hvalue⟩

/-- An item fails in the state after others exactly if it offends after them. -/
theorem item_eq_error_iff (hfront : before <+: items)
    (h : before.foldlM (item registers (isConstant items)) ⟨[], []⟩ = .ok g) :
  item registers (isConstant items) g i = .error e ↔
    Offends items registers before i e.value ∧ e.location = i.location
  := by
  have hheight := (leaves_of_generate (allNumbers_of_front hfront) h).height
  obtain ⟨cause, location⟩ := e
  cases i with
  | operand token =>
    rw [item, operand_eq_error_iff]
    constructor
    · rintro (⟨hlive, ⟨⟩⟩ | ⟨hlive, hconstant, hload, ⟨⟩⟩)
      · exact ⟨.tooComplex (by omega), rfl⟩
      · exact ⟨.unexpected (by omega) (by simp [← isConstant_iff, hconstant]) hload, rfl⟩
    · rintro ⟨hoffends, rfl⟩
      cases hoffends with
      | tooComplex hlive => exact .inl ⟨by omega, rfl⟩
      | unexpected hlive hnumbers hload =>
        exact .inr ⟨by omega, by simpa [← isConstant_iff] using hnumbers, hload, rfl⟩
  | operator op =>
    rw [item, operator_eq_error_iff, ← zeroDivisor_iff hfront h]
    constructor
    · rintro (⟨hlive, ⟨⟩⟩ | ⟨hlive, hdiv, hzero, ⟨⟩⟩)
      · exact ⟨.missing (by omega), rfl⟩
      · exact ⟨.zeroDivisor (by omega) hdiv hzero, rfl⟩
    · rintro ⟨hoffends, rfl⟩
      cases hoffends with
      | missing hlive => exact .inl ⟨by omega, rfl⟩
      | zeroDivisor hlive hdiv hzero => exact .inr ⟨by omega, hdiv, hzero, rfl⟩

/-- The first items of a queue can be read exactly if nothing is wrong with them. -/
theorem exists_foldlM_eq_ok_iff (hfront : before <+: items) :
  (∃ g, before.foldlM (item registers (isConstant items)) ⟨[], []⟩ = .ok g) ↔
    Passes items registers before
  := by
  constructor
  · rintro ⟨g, hg⟩ first i rest rfl ⟨cause, hoffends⟩
    obtain ⟨g₁, hfirst, hrest⟩ := foldlM_append_eq_ok_iff.mp hg
    have herror := (item_eq_error_iff ((List.prefix_append ..).trans hfront) hfirst
      (e := ⟨cause, i.location⟩)).mpr ⟨hoffends, rfl⟩
    rw [List.foldlM_cons, herror] at hrest
    cases hrest
  · intro hpasses
    cases h : before.foldlM (item registers (isConstant items)) ⟨[], []⟩ with
    | ok g => exact ⟨g, rfl⟩
    | error e =>
      obtain ⟨first, i, rest, g, rfl, hfirst, hi⟩ := foldlM_eq_error_iff.mp h
      have hoffends := (item_eq_error_iff ((List.prefix_append ..).trans hfront) hfirst).mp hi
      exact absurd ⟨_, hoffends.1⟩ (hpasses first i rest rfl)

/-- Items fail exactly if one of them offends and none before it does. -/
theorem foldlM_eq_error_iff_offends :
  items.foldlM (item registers (isConstant items)) ⟨[], []⟩ = .error e ↔
    ∃ before i after, items = before ++ i :: after ∧ Passes items registers before ∧
      Offends items registers before i e.value ∧ e.location = i.location
  := by
  rw [foldlM_eq_error_iff]
  constructor
  · rintro ⟨before, i, after, g, hitems, hbefore, hi⟩
    have hfront : before <+: items := ⟨_, hitems.symm⟩
    exact ⟨before, i, after, hitems, (exists_foldlM_eq_ok_iff hfront).mp ⟨g, hbefore⟩,
      (item_eq_error_iff hfront hbefore).mp hi⟩
  · rintro ⟨before, i, after, hitems, hpasses, hoffends⟩
    have hfront : before <+: items := ⟨_, hitems.symm⟩
    obtain ⟨g, hg⟩ := (exists_foldlM_eq_ok_iff hfront).mpr hpasses
    exact ⟨before, i, after, g, hitems, hg, (item_eq_error_iff hfront hg).mpr hoffends⟩

/-! ### Valid queues -/

variable {slot : Slot} {location : Location}

/-- Where nothing is wrong with the first items, there are never more values than registers. -/
theorem Passes.height_le (h : Passes items registers before) :
  height before ≤ registers
  := by
  induction before using List.reverseRecOn with
  | nil => simp
  | append_singleton before i ih =>
    have hbefore : height before ≤ registers := by
      apply ih
      rintro first item rest rfl
      apply h first item (rest ++ [i])
      simp
    have hi := h before i [] rfl
    cases i with
    | operand token =>
      have hlt : ¬(registers : Int) ≤ height before := fun hle => hi ⟨_, .tooComplex hle⟩
      rw [height_append, height_operand]
      omega
    | operator op =>
      rw [height_append, height_operator]
      omega

/-- A beginning of a queue passes if the queue does. -/
theorem Passes.front (h : Passes items registers items) (hfront : before <+: items) :
  Passes items registers before
  := by
  obtain ⟨after, hitems⟩ := hfront
  rintro first item rest rfl
  apply h first item (rest ++ after)
  rw [← hitems]
  simp

/-- A valid queue is one that passes and leaves one value. -/
theorem valid_iff_passes :
  Valid items registers ↔ Passes items registers items ∧ height items = 1
  := by
  constructor
  · intro h
    refine ⟨?_, h.single⟩
    rintro before i after hitems ⟨cause, hoffends⟩
    cases hoffends with
    | @tooComplex token hle =>
      have hbound := h.bounded (before ++ [.operand token]) ⟨after, by rw [hitems]; simp⟩
      rw [height_append, height_operand] at hbound
      omega
    | unexpected hlt hnumbers hload =>
      apply hload
      apply h.operands hnumbers
      rw [hitems]
      simp
    | missing hlt =>
      have hle := h.operators before _ after hitems
      omega
    | zeroDivisor hle hdiv hzero => exact h.divisors before _ after hitems hdiv hzero
  · rintro ⟨hpasses, hsingle⟩
    have hoperators : ∀ before op after, items = before ++ .operator op :: after →
        2 ≤ height before := by
      intro before op after hitems
      by_contra hlt
      exact hpasses before _ after hitems ⟨_, .missing (by omega)⟩
    refine ⟨hoperators, hsingle, ?_, ?_, ?_⟩
    · intro before hfront
      exact (hpasses.front hfront).height_le
    · intro hnumbers token htoken
      obtain ⟨before, after, hitems⟩ := List.append_of_mem htoken
      by_contra hload
      rcases le_or_gt (registers : Int) (height before) with hle | hlt
      · exact hpasses before _ after hitems ⟨_, .tooComplex hle⟩
      · exact hpasses before _ after hitems ⟨_, .unexpected hlt hnumbers hload⟩
    · intro before op after hitems hdiv hzero
      exact hpasses before _ after hitems
        ⟨_, .zeroDivisor (hoperators before op after hitems) hdiv hzero⟩

/-- The queues that compile are the valid ones. -/
theorem compile_eq_ok_iff_valid :
  (∃ code, compile items slot registers location = .ok code) ↔ Valid items registers
  := by
  rw [valid_iff_passes]
  constructor
  · rintro ⟨code, hcode⟩
    obtain ⟨g, result, hg, hlive, -⟩ := compile_eq_ok_iff.mp hcode
    have hheight := (leaves_of_generate (allNumbers_of_front List.prefix_rfl) hg).height
    rw [hlive] at hheight
    exact ⟨(exists_foldlM_eq_ok_iff List.prefix_rfl).mp ⟨g, hg⟩, hheight.symm⟩
  · rintro ⟨hpasses, hsingle⟩
    obtain ⟨g, hg⟩ := (exists_foldlM_eq_ok_iff List.prefix_rfl).mpr hpasses
    have hheight := (leaves_of_generate (allNumbers_of_front List.prefix_rfl) hg).height
    obtain ⟨result, hlive⟩ : ∃ result, g.live = [result] := by
      apply List.length_eq_one_iff.mp
      omega
    exact ⟨_, compile_eq_ok_iff.mpr ⟨g, result, hg, hlive, rfl⟩⟩

/-- A queue is refused for its first defect, at its place. -/
theorem compile_eq_error_iff_refused :
  compile items slot registers location = .error e ↔ Refused items registers location e
  := by
  constructor
  · intro h
    cases hg : items.foldlM (item registers (isConstant items)) ⟨[], []⟩ with
    | error e' =>
      rw [compile, hg] at h
      cases h
      obtain ⟨before, i, after, hitems, hpasses, hoffends, hlocation⟩ :=
        foldlM_eq_error_iff_offends.mp hg
      obtain ⟨cause, location⟩ := e
      cases hlocation
      exact .item hitems hpasses hoffends
    | ok g =>
      have hpasses := (exists_foldlM_eq_ok_iff List.prefix_rfl).mp ⟨g, hg⟩
      obtain ⟨hheight, hlast, -, -⟩ := leaves_of_generate (allNumbers_of_front List.prefix_rfl) hg
      simp only [compile, hg, bind, Except.bind] at h
      rcases hlive : g.live with _ | ⟨extra, _ | ⟨other, live⟩⟩ <;> rw [hlive] at h hheight hlast
      · cases h
        exact .empty hpasses hheight.symm
      · cases h
      · cases h
        obtain ⟨last, hitem, hlocation⟩ := Option.map_eq_some_iff.mp hlast.symm
        obtain ⟨before, hbefore⟩ := List.getLast?_eq_some_iff.mp hitem
        rw [← hlocation]
        refine .missingOperator hpasses ?_ hbefore
        simp only [List.length_cons] at hheight
        omega
  · intro h
    cases h with
    | @item before after i cause hitems hpasses hoffends =>
      have hg := (foldlM_eq_error_iff_offends (e := ⟨cause, i.location⟩)).mpr
        ⟨before, i, after, hitems, hpasses, hoffends, rfl⟩
      rw [compile, hg]
      rfl
    | @missingOperator before last hpasses hheight' hitems =>
      obtain ⟨g, hg⟩ := (exists_foldlM_eq_ok_iff List.prefix_rfl).mpr hpasses
      obtain ⟨hheight, hlast, -, -⟩ := leaves_of_generate (allNumbers_of_front List.prefix_rfl) hg
      simp only [compile, hg, bind, Except.bind]
      rcases hlive : g.live with _ | ⟨extra, _ | ⟨other, live⟩⟩ <;> rw [hlive] at hheight hlast
      · simp only [List.length_nil] at hheight
        omega
      · simp only [List.length_cons, List.length_nil] at hheight
        omega
      · have hlocation : extra.location = last.location := by
          rw [hitems, List.getLast?_concat] at hlast
          exact Option.some.inj hlast
        simp only [refuse, hlocation]
    | empty hpasses hheight' =>
      obtain ⟨g, hg⟩ := (exists_foldlM_eq_ok_iff List.prefix_rfl).mpr hpasses
      have hheight := (leaves_of_generate (allNumbers_of_front List.prefix_rfl) hg).height
      have hlive : g.live = [] := by
        apply List.length_eq_zero_iff.mp
        omega
      simp only [compile, hg, bind, Except.bind, hlive]
      rfl

end Expression

/-! ### Trees -/

namespace Tree

open Expression

/-- The number of registers that a tree needs: its left operand is kept while its right one is worked
out. -/
def need : Tree → Nat
  | .leaf _ | .call _ _ => 1
  | .parenthesis inner => inner.need
  | .binary lhs _ rhs => max lhs.need (rhs.need + 1)

/-- The items of a tree leave one value. -/
@[simp]
theorem height_postorder (tree : Tree) :
  height tree.postorder = 1
  := by
  fun_induction postorder tree with
  | case1 | case2 => rfl
  | case3 _ ih => exact ih
  | case4 lhs op rhs ihLeft ihRight => simp [ihLeft, ihRight]

/-- The operands of a tree can be loaded. -/
theorem isLoadable_of_mem_postorder {tree : Tree} {token : Located Token}
    (h : .operand token ∈ tree.postorder) :
  token.value.IsLoadable
  := by
  fun_induction postorder tree with
  | case1 operand =>
    obtain ⟨leaf, location⟩ := operand
    obtain rfl := by simpa using h
    cases leaf <;> trivial
  | case2 name =>
    obtain rfl := by simpa using h
    trivial
  | case3 _ ih => exact ih h
  | case4 lhs op rhs ihLeft ihRight =>
    simp only [List.mem_append, List.mem_singleton, reduceCtorEq, or_false] at h
    exact h.elim ihLeft ihRight

/-- An operator of a tree finds its two operands. -/
theorem two_le_height_of_postorder {tree : Tree} {before after : List Item} {op : Located BinaryOp}
    (h : tree.postorder = before ++ .operator op :: after) :
  2 ≤ height before
  := by
  fun_induction postorder tree generalizing before after with
  | case1 | case2 => cases (eq_of_singleton_eq h).2
  | case3 _ ih => exact ih h
  | case4 lhs top rhs ihLeft ihRight =>
    rw [List.append_assoc] at h
    obtain ⟨back, hleft, -⟩ | ⟨front, rfl, hrest⟩ := append_eq_append_cons h
    · exact ihLeft hleft
    rw [height_append, height_postorder]
    obtain ⟨back, hright, -⟩ | ⟨front', rfl, hlast⟩ := append_eq_append_cons hrest
    · have hheight := ihRight hright
      omega
    · obtain ⟨rfl, -⟩ := eq_of_singleton_eq hlast
      simp

theorem height_le_one_of_front {before : List Item} {token : Located Token}
    (h : before <+: [.operand token]) :
  height before ≤ 1
  := by
  cases before with
  | nil => simp
  | cons i before =>
    obtain ⟨rfl, hrest⟩ := List.cons_prefix_cons.mp h
    obtain rfl := List.prefix_nil.mp hrest
    simp

/-- No beginning of the items of a tree leaves more values than the tree needs. -/
theorem height_le_need {tree : Tree} {before : List Item} (h : before <+: tree.postorder) :
  height before ≤ tree.need
  := by
  fun_induction postorder tree generalizing before with
  | case1 | case2 => exact height_le_one_of_front h
  | case3 _ ih => exact ih h
  | case4 lhs op rhs ihLeft ihRight =>
    rw [need]
    rw [List.append_assoc] at h
    rcases List.prefix_or_prefix_of_prefix h (List.prefix_append ..) with hleft | ⟨front, rfl⟩
    · have hheight := ihLeft hleft
      omega
    rw [List.prefix_append_right_inj, List.prefix_concat_iff] at h
    rw [height_append, height_postorder]
    obtain rfl | hright := h
    · simp
    · have hheight := ihRight hright
      omega

/-- Some beginning of the items of a tree leaves as many values as the tree needs. -/
theorem exists_height_eq_need (tree : Tree) :
  ∃ before, before <+: tree.postorder ∧ height before = tree.need
  := by
  fun_induction postorder tree with
  | case1 operand => exact ⟨_, List.prefix_rfl, rfl⟩
  | case2 name => exact ⟨_, List.prefix_rfl, rfl⟩
  | case3 _ ih => exact ih
  | case4 lhs op rhs ihLeft ihRight =>
    obtain ⟨left, hleft, hheight⟩ := ihLeft
    obtain ⟨right, hright, hheight'⟩ := ihRight
    rw [List.append_assoc]
    rcases Nat.le_total (rhs.need + 1) lhs.need with hle | hle
    · refine ⟨left, hleft.trans (List.prefix_append ..), ?_⟩
      rw [hheight, need, max_eq_left hle]
    · refine ⟨lhs.postorder ++ right, ?_, ?_⟩
      · rw [List.prefix_append_right_inj]
        exact hright.trans (List.prefix_append ..)
      · rw [height_append, height_postorder, hheight', need, max_eq_right hle]
        omega

/-- Of all that can be wrong with a queue, only two things can be wrong with that of a tree. -/
theorem valid_postorder_iff {tree : Tree} {registers : Nat} :
  Valid tree.postorder registers ↔
    tree.need ≤ registers ∧
      ∀ before op after, tree.postorder = before ++ .operator op :: after → op.value = .div →
        ¬ZeroDivisor tree.postorder before
  := by
  constructor
  · intro h
    obtain ⟨before, hfront, hheight⟩ := tree.exists_height_eq_need
    have hbound := h.bounded before hfront
    exact ⟨by omega, h.divisors⟩
  · rintro ⟨hneed, hdivisors⟩
    refine ⟨?_, tree.height_postorder, ?_, ?_, hdivisors⟩
    · intro before op after
      exact two_le_height_of_postorder
    · intro before hfront
      have hheight := height_le_need hfront
      omega
    · intro _ token
      exact isLoadable_of_mem_postorder

/-- The items of a tree are never malformed. -/
theorem kind_ne_of_refused {tree : Tree} {registers : Nat} {location : Location}
    {e : Located SyntaxError} (h : Refused tree.postorder registers location e) :
  e.value.kind ≠ .malformedExpression
  := by
  have hheight := tree.height_postorder
  cases h with
  | missingOperator _ hmore => omega
  | empty _ hnone => omega
  | @item before after i cause hitems _ hoffends =>
    cases hoffends with
    | tooComplex => exact nofun
    | zeroDivisor => exact nofun
    | unexpected _ _ hload =>
      apply absurd _ hload
      apply @isLoadable_of_mem_postorder tree
      simp [hitems]
    | missing hlt =>
      have hle := two_le_height_of_postorder hitems
      omega

end Tree

/-- The queues that have code are the valid ones, and the error for which another one is refused is
that of the first item that offends, or that of what is left in the end. In particular, the queue of a
tree has code exactly if the tree needs no more registers than there are and divides by no known zero,
and it is never malformed. -/
theorem Expression.compiles_iff_valid (items : List Item) (slot : Slot) (registers : Nat)
    (location : Location) :
  ((∃ code, compile items slot registers location = .ok code) ↔ Valid items registers) ∧
    (∀ e, compile items slot registers location = .error e ↔ Refused items registers location e) ∧
    ∀ tree : Tree,
      ((∃ code, compile tree.postorder slot registers location = .ok code) ↔
        tree.need ≤ registers ∧
          ∀ before op after, tree.postorder = before ++ .operator op :: after → op.value = .div →
            ¬ZeroDivisor tree.postorder before) ∧
      ¬∃ e, compile tree.postorder slot registers location = .error e ∧
        e.value.kind = .malformedExpression
  := by
  refine ⟨compile_eq_ok_iff_valid, fun _ => compile_eq_error_iff_refused, ?_⟩
  intro tree
  refine ⟨compile_eq_ok_iff_valid.trans Tree.valid_postorder_iff, ?_⟩
  rintro ⟨e, he, hkind⟩
  exact Tree.kind_ne_of_refused (compile_eq_error_iff_refused.mp he) hkind

end SilFront
