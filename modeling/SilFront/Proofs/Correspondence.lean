import SilFront.Pass.Program
import SilFront.Proofs.Counterparts

/-!
# Corresponding actions

Two actions of a pass may be compared in many ways: how they run from two states that have something
in common, or what one of them does to its state. A `Correspondence` is such a comparison of actions
that can be put together along a sequence of actions, and that holds between the steps by which a
pass looks at its tokens and at its table of names.

Every construct of the language is put together from few steps. So a correspondence that holds
between the steps that write the code of expressions holds between expressions
(`Correspondence.OnExpressions.relates_expression`), and one that also holds between the steps that
write notes and change the table of names holds between programs
(`Correspondence.OnPrograms.relates_program`). What is true of all steps is thereby true of a whole
pass, wherever it stops. A correspondence that makes no difference between notes, and between changes
of the table, need only hold on single steps (`Correspondence.OnSteps`).
-/

namespace SilFront

/-- A comparison of actions that composes, and that holds between the steps by which a pass
reads. -/
structure Correspondence where
  /-- The locations that correspond. -/
  Places : Location → Location → Prop
  /-- The actions that correspond, if `Q` is to relate their results. -/
  Relates : {α : Type} → (α → α → Prop) → PassM α → PassM α → Prop
  relates_pure : ∀ {α : Type} {Q : α → α → Prop} {x y : α}, Q x y → Relates Q (pure x) (pure y)
  relates_bind : ∀ {α β : Type} {Q : α → α → Prop} {R : β → β → Prop} {a b : PassM α}
    {k l : α → PassM β}, Relates Q a b → (∀ x y, Q x y → Relates R (k x) (l y)) →
      Relates R (a >>= k) (b >>= l)
  relates_peek : Relates (Located.Matches Places) PassM.peek PassM.peek
  relates_advance : Relates Eq PassM.advance PassM.advance
  relates_refuseAt : ∀ {α : Type} {Q : α → α → Prop} (cause : SyntaxError) {l l' : Location},
    Places l l' → Relates Q (PassM.refuseAt cause l) (PassM.refuseAt cause l')
  relates_symbols : Relates Eq PassM.symbols PassM.symbols
  /-- The bound on the number of steps is the same on both sides. -/
  relates_budget : ∀ {α : Type} {Q : α → α → Prop} {a b : Nat → PassM α},
    (∀ n, Relates Q (a n) (b n)) →
      Relates Q (do a (← get).budget) (do b (← get).budget)

namespace Correspondence

open PassM

variable {C : Correspondence}

/-! ### Tokens -/

section

variable {α β : Type} {R : α → α → Prop}

/-- The second of two actions may use the result of the first, if that is the same on both sides. -/
theorem relates_bind_eq {a b : PassM β} {k l : β → PassM α} (h : C.Relates Eq a b)
    (h' : ∀ x, C.Relates R (k x) (l x)) :
  C.Relates R (a >>= k) (b >>= l)
  := by
  apply C.relates_bind h
  rintro x _ rfl
  apply h'

/-- One action after another, if the result of the first is not used. -/
theorem relates_seq {a b : PassM β} {k l : PassM α} (h : C.Relates Eq a b) (h' : C.Relates R k l) :
  C.Relates R (do _ ← a; k) (do _ ← b; l)
  := relates_bind_eq h fun _ => h'

theorem relates_advance_return {x y : α} (h : R x y) :
  C.Relates R (do advance; return x) (do advance; return y)
  := relates_seq C.relates_advance (C.relates_pure h)

/-- A condition that is the same on both sides chooses between actions that correspond. -/
theorem relates_ite {p : Prop} [Decidable p] {a a' b b' : PassM α} (h : C.Relates R a b)
    (h' : C.Relates R a' b') :
  C.Relates R (if p then a else a') (if p then b else b')
  := by
  split
  · apply h
  · apply h'

/-- Refusals at the next token correspond. -/
theorem relates_refuse (cause : SyntaxError) :
  C.Relates R (refuse cause) (refuse cause)
  := by
  have hrefuse : (refuse cause : PassM α) = peek >>= fun next => refuseAt cause next.location := rfl
  rw [hrefuse]
  apply C.relates_bind C.relates_peek
  rintro next next' ⟨hplace⟩
  apply C.relates_refuseAt cause hplace

/-- Nothing is asked of what would follow a refusal. -/
theorem relates_refuse_bind (cause : SyntaxError) {k l : β → PassM α} :
  C.Relates R (refuse cause >>= k) (refuse cause >>= l)
  := by
  apply C.relates_bind (Q := fun _ _ => False) (relates_refuse cause)
  intro x y h
  apply h.elim

/-- Nothing is asked of what would follow a refusal at a given location. -/
theorem relates_refuseAt_bind (cause : SyntaxError) {l l' : Location} (h : C.Places l l')
    {k k' : β → PassM α} :
  C.Relates R (refuseAt cause l >>= k) (refuseAt cause l' >>= k')
  := by
  apply C.relates_bind (Q := fun _ _ => False) (C.relates_refuseAt cause h)
  intro x y h
  apply h.elim

end

/-- The next token is compared with the same outcome on both sides. -/
theorem relates_sees (token : Token) :
  C.Relates Eq (sees token) (sees token)
  := by
  apply C.relates_bind C.relates_peek
  rintro next next' ⟨-⟩
  apply C.relates_pure rfl

/-- A token is accepted on both sides or on neither. -/
theorem relates_accept (token : Token) :
  C.Relates Eq (accept token) (accept token)
  := by
  apply relates_bind_eq (relates_sees token)
  intro seen
  apply relates_ite
  · apply relates_advance_return rfl
  · apply C.relates_pure rfl

/-- A mark is found on both sides, or missed on both. -/
theorem relates_expect (mark : Mark) (place : Place) :
  C.Relates Eq (expect mark place) (expect mark place)
  := by
  apply C.relates_bind C.relates_peek
  rintro next next' ⟨-⟩
  apply relates_ite
  · apply C.relates_advance
  · apply relates_refuse

/-- Names that are read in the same place are the same. -/
theorem relates_identifier :
  C.Relates (Located.Matches C.Places) identifier identifier
  := by
  apply C.relates_bind C.relates_peek
  rintro _ _ @⟨token, l, l', hplace⟩
  cases token with
  | ident name => apply relates_advance_return ⟨hplace⟩
  | _ => apply relates_refuse

/-! ### Expressions -/

/-- A correspondence holds on expressions if it holds between the steps that write their code, and
survives that what was written is taken back. -/
structure OnExpressions (C : Correspondence) : Prop where
  relates_emit_call : ∀ name, C.Relates Eq (emit [.call name]) (emit [.call name])
  relates_compile : ∀ {items items' : List Item} {l l' : Location} (slot : Slot),
    List.Forall₂ (Item.Matches C.Places) items items' → C.Places l l' →
      C.Relates Eq (do emit (← check (Expression.compile items slot (← get).registers l)))
        (do emit (← check (Expression.compile items' slot (← get).registers l')))
  relates_transaction : ∀ {a b : PassM Unit}, C.Relates Eq a b →
    C.Relates Eq (transaction a) (transaction b)

namespace OnExpressions

variable (hC : C.OnExpressions)

include hC

/-- Calls correspond if the actions that read their arguments do. -/
theorem relates_callWith {arguments arguments' : PassM Nat}
    (h : C.Relates Eq arguments arguments') (name : String) {l l' : Location}
    (hplace : C.Places l l') :
  C.Relates Eq (callWith arguments name l) (callWith arguments' name l')
  := by
  apply relates_bind_eq C.relates_symbols
  intro T
  cases T.functionNamed? name with
  | none => apply C.relates_refuseAt _ hplace
  | some f =>
    apply relates_seq (relates_expect ..)
    apply relates_bind_eq (relates_sees _)
    intro empty
    have hend : ∀ count, C.Relates Eq
        (do
          expect .rparen (.afterArguments name)
          if count ≠ f.arity then refuseAt (.wrongArity name f.arity count) l
          emit [.call name]
          return f.returns)
        (do
          expect .rparen (.afterArguments name)
          if count ≠ f.arity then refuseAt (.wrongArity name f.arity count) l'
          emit [.call name]
          return f.returns) := by
      intro count
      apply relates_seq (relates_expect ..)
      apply relates_ite
      · apply relates_refuseAt_bind _ hplace
      · apply relates_seq (hC.relates_emit_call name)
        apply C.relates_pure rfl
    apply relates_ite
    · apply relates_bind_eq (C.relates_pure rfl) hend
    · apply relates_bind_eq h hend

/-- Expressions correspond if the actions that read their queues do. -/
theorem relates_expressionWith {read read' : PassM (List Item)}
    (h : C.Relates (List.Forall₂ (Item.Matches C.Places)) read read') (slot : Slot) :
  C.Relates Eq (expressionWith read slot) (expressionWith read' slot)
  := by
  apply hC.relates_transaction
  apply C.relates_bind C.relates_peek
  rintro _ _ ⟨hplace⟩
  apply C.relates_bind h
  intro items items' hitems
  have hempty : items.isEmpty = items'.isEmpty := by cases hitems <;> rfl
  rw [hempty]
  apply relates_ite
  · apply C.relates_bind C.relates_peek
    rintro _ _ ⟨-⟩
    apply relates_refuse_bind
  · apply hC.relates_compile slot hitems hplace

omit hC in
/-- Queues correspond if the actions that read their yards do. -/
theorem relates_queueWith {read read' : PassM Yard}
    (h : C.Relates (Yard.Matches C.Places) read read') :
  C.Relates (List.Forall₂ (Item.Matches C.Places)) (queueWith read) (queueWith read')
  := by
  apply C.relates_bind h
  intro y y' hy
  rw [hy.unclosed_eq]
  apply relates_ite
  · apply relates_refuse_bind
  · apply C.relates_pure hy.queue

/-- The items of expressions correspond and so do the arguments of calls, which are read by each
other. -/
theorem relates_items_and_arguments (fuel : Nat) :
  (∀ {y y' : Yard}, y.Matches C.Places y' →
      C.Relates (Yard.Matches C.Places) (items fuel y) (items fuel y')) ∧
    C.Relates Eq (arguments fuel) (arguments fuel)
  := by
  induction fuel with
  | zero =>
    constructor
    · intro y y' _
      rw [items, items]
      apply relates_refuse
    · rw [arguments]
      apply relates_refuse
  | succ fuel ih =>
    obtain ⟨ihItems, ihArguments⟩ := ih
    constructor
    · intro y y' hy
      -- the cases that pass over one token all go on in the same way
      have hnext : ∀ {z z' : Yard}, z.Matches C.Places z' →
          C.Relates (Yard.Matches C.Places) (do advance; items fuel z)
            (do advance; items fuel z') := by
        intro z z' hz
        apply relates_seq C.relates_advance
        apply ihItems hz
      rw [items, items]
      apply C.relates_bind C.relates_peek
      rintro _ _ @⟨token, l, l', hplace⟩
      cases token with
      | number n => apply hnext (hy.operand ⟨hplace⟩)
      | string text => apply hnext (hy.operand ⟨hplace⟩)
      | ident name =>
        apply relates_bind_eq C.relates_symbols
        intro T
        rcases T.kind? name with _ | _ | _ | _
        · apply C.relates_refuseAt _ hplace
        · apply hnext (hy.operand ⟨hplace⟩)
        · apply relates_seq C.relates_advance
          apply relates_bind_eq (hC.relates_callWith ihArguments name hplace)
          intro returns
          apply relates_ite
          · apply relates_refuseAt_bind _ hplace
          · apply ihItems (hy.operand ⟨hplace⟩)
        · apply C.relates_refuseAt _ hplace
      | mark m =>
        have hother : C.Relates (Yard.Matches C.Places)
            (m.operator?.elim (return y) fun op => do
              advance
              items fuel (y.operator ⟨op, l⟩))
            (m.operator?.elim (return y') fun op => do
              advance
              items fuel (y'.operator ⟨op, l'⟩)) := by
          cases m.operator? with
          | none => apply C.relates_pure hy
          | some op => apply hnext (hy.operator ⟨hplace⟩)
        cases m with
        | lparen => apply hnext hy.openParenthesis
        | rparen =>
          rw [hy.unclosed_eq]
          apply relates_ite
          · apply C.relates_pure hy
          · apply hnext hy.closeParenthesis
        | _ => apply hother
      | _ => apply C.relates_pure hy
    · rw [arguments]
      apply relates_seq
        (hC.relates_expressionWith (relates_queueWith (ihItems Yard.matches_empty)) .stack)
      apply relates_bind_eq (relates_accept _)
      intro more
      apply relates_ite
      · apply relates_bind_eq ihArguments
        intro count
        apply C.relates_pure rfl
      · apply C.relates_pure rfl

/-- A correspondence that holds between the steps of expressions holds between expressions. -/
theorem relates_expression (slot : Slot) :
  C.Relates Eq (expression slot) (expression slot)
  := by
  apply hC.relates_expressionWith
  apply C.relates_budget (a := fun fuel => queueWith (items fuel .empty))
    (b := fun fuel => queueWith (items fuel .empty))
  intro fuel
  apply relates_queueWith
  apply (hC.relates_items_and_arguments fuel).1 Yard.matches_empty

/-- Calls in corresponding places correspond. -/
theorem relates_call (name : String) {l l' : Location} (h : C.Places l l') :
  C.Relates Eq (call name l) (call name l')
  := by
  apply C.relates_budget (a := fun fuel => callWith (arguments fuel) name l)
    (b := fun fuel => callWith (arguments fuel) name l')
  intro fuel
  apply hC.relates_callWith (hC.relates_items_and_arguments fuel).2 name h

end OnExpressions

end Correspondence

/-! ### Notes on depths, and changes that keep the variables -/

/-- The depth of a scope that a note speaks of. -/
def Note.depth? : Note → Option Nat
  | .scopeChanged depth | .argumentDeclared _ _ depth | .variableDeclared _ _ depth _ => some depth
  | _ => none

namespace SymbolTable

variable {T T' : SymbolTable}

/-- A table that is kept after a name was found to be free is the table at hand. -/
theorem eq_of_ensureFree_bind {T'' : SymbolTable} {kind : SymbolKind} {name : String}
    (h : (do T.ensureFree kind name; return T') = .ok T'') :
  T'' = T'
  := by
  cases hfree : T.ensureFree kind name with
  | error cause => simp [hfree, bind, Except.bind] at h
  | ok _ =>
    rw [hfree] at h
    cases h
    rfl

/-- Declaring a function keeps the variables. -/
theorem scopes_of_declareFunction {name : String} (h : T.declareFunction name = .ok T') :
  T'.scopes = T.scopes
  := by
  rw [eq_of_ensureFree_bind h]
  rfl

/-- Changing what is known of a function keeps the variables. -/
theorem scopes_of_updateFunction {name : String} {change : Function → Function}
    (h : T.updateFunction name change = .ok T') :
  T'.scopes = T.scopes
  := by
  unfold updateFunction at h
  split at h <;> cases h
  rfl

/-- Declaring a package keeps the variables. -/
theorem scopes_of_declarePackage {name : String} (h : T.declarePackage name = .ok T') :
  T'.scopes = T.scopes
  := by
  rw [eq_of_ensureFree_bind h]
  rfl

/-- Adding a field to a package keeps the variables. -/
theorem scopes_of_addField {package field : String} {type : DataType}
    (h : T.addField package field type = .ok T') :
  T'.scopes = T.scopes
  := by
  unfold addField at h
  split at h
  · cases h
  split at h <;> cases h
  rfl

end SymbolTable

namespace Correspondence

open PassM

variable {C : Correspondence}

/-! ### Programs -/

/-- A correspondence holds on programs if it holds between expressions, between the steps that write
notes and change the table of names, and between scopes if it holds between what is done in them. -/
structure OnPrograms (C : Correspondence) : Prop where
  relates_expression : ∀ slot, C.Relates Eq (expression slot) (expression slot)
  relates_call : ∀ name {l l' : Location}, C.Places l l' →
    C.Relates Eq (call name l) (call name l')
  relates_note : ∀ {content : Note}, content.depth? = none →
    C.Relates Eq (note content) (note content)
  relates_declare : ∀ {change : SymbolTable → Except SymbolError SymbolTable} {l l' : Location},
    (∀ {T T' : SymbolTable}, change T = .ok T' → T'.scopes = T.scopes) → C.Places l l' →
      C.Relates Eq (declare l change) (declare l' change)
  relates_variable : ∀ (name : String) (type : DataType) (initialized : Bool) {l l' : Location},
    C.Places l l' → C.Relates Eq
      (do
        declare l fun T => T.declareVariable name type
        note (.variableDeclared name type (← depth) initialized))
      (do
        declare l' fun T => T.declareVariable name type
        note (.variableDeclared name type (← depth) initialized))
  relates_parameter : ∀ (function name : String) (type : DataType) {l l' : Location},
    C.Places l l' → C.Relates Eq
      (do
        declare l fun T => T.declareVariable name type
        declare l fun T => T.addArgument function type
        note (.argumentDeclared name type (← depth)))
      (do
        declare l' fun T => T.declareVariable name type
        declare l' fun T => T.addArgument function type
        note (.argumentDeclared name type (← depth)))
  relates_scope : ∀ {a b : PassM Unit}, C.Relates Eq a b →
    C.Relates Eq (do enterScope; a; exitScope) (do enterScope; b; exitScope)

namespace OnPrograms

variable (hC : C.OnPrograms)

include hC

/-! ### Variables -/

/-- Variables with the same name, in corresponding places, are declared alike. -/
theorem relates_declareVariable {name name' : Located String} (h : name.Matches C.Places name')
    (type : DataType) (initialized : Bool) :
  C.Relates Eq (declareVariable name type initialized) (declareVariable name' type initialized)
  := by
  obtain @⟨name, l, l', hplace⟩ := h
  have hdeclare : ∀ l, declareVariable ⟨name, l⟩ type initialized = (do
      declare l fun T => T.declareVariable name type
      note (.variableDeclared name type (← depth) initialized)) >>= fun _ =>
        expect .semicolon (.afterDeclaration name) := by
    intro l
    simp only [declareVariable, bind_assoc]
  rw [hdeclare l, hdeclare l']
  apply relates_seq (hC.relates_variable name type initialized hplace)
  apply relates_expect

theorem relates_scalarVariable (type : ScalarType) :
  C.Relates Eq (scalarVariable type) (scalarVariable type)
  := by
  apply relates_seq C.relates_advance
  apply C.relates_bind relates_identifier
  intro name name' hname
  apply relates_bind_eq (relates_accept _)
  intro initialized
  apply relates_ite
  · apply relates_seq (hC.relates_expression _)
    apply hC.relates_declareVariable hname
  · apply hC.relates_declareVariable hname

/-! ### Statements that begin with a name -/

/-- Assignments to the same name, in corresponding places, correspond. -/
theorem relates_assignment {target target' : Located String} (h : target.Matches C.Places target') :
  C.Relates Eq (assignment target) (assignment target')
  := by
  obtain ⟨hplace⟩ := h
  apply relates_bind_eq C.relates_symbols
  intro T
  apply relates_ite
  · apply relates_refuseAt_bind _ hplace
  · apply relates_seq C.relates_advance
    apply relates_seq (hC.relates_expression _)
    apply relates_seq (relates_expect ..)
    apply hC.relates_note rfl

/-- Calls of the same function, in corresponding places, correspond as statements. -/
theorem relates_callStatement {function function' : Located String}
    (h : function.Matches C.Places function') :
  C.Relates Eq (callStatement function) (callStatement function')
  := by
  obtain ⟨hplace⟩ := h
  apply relates_seq (hC.relates_call _ hplace)
  apply relates_expect

/-- Records with the same package and name, in corresponding places, are declared alike. -/
theorem relates_recordVariable {package package' name name' : Located String}
    (hpackage : package.Matches C.Places package') (hname : name.Matches C.Places name') :
  C.Relates Eq (recordVariable package name) (recordVariable package' name')
  := by
  obtain ⟨hplace⟩ := hpackage
  apply relates_bind_eq C.relates_symbols
  intro T
  apply relates_ite
  · apply relates_refuseAt_bind _ hplace
  · apply relates_seq C.relates_advance
    apply hC.relates_declareVariable hname

/-- Statements that begin with the same name, in corresponding places, correspond. -/
theorem relates_namedStatement {name name' : Located String} (h : name.Matches C.Places name') :
  C.Relates Eq (namedStatement name) (namedStatement name')
  := by
  apply relates_seq C.relates_advance
  apply C.relates_bind C.relates_peek
  rintro _ _ @⟨token, l, l', hplace⟩
  rw [h.value_eq]
  cases token with
  | ident record => apply hC.relates_recordVariable h ⟨hplace⟩
  | mark m =>
    cases m with
    | eq => apply hC.relates_assignment h
    | lparen => apply hC.relates_callStatement h
    | _ => apply relates_refuse
  | _ => apply relates_refuse

/-! ### Returns, branches and loops -/

theorem relates_returnStatement (f : Enclosing) :
  C.Relates Eq (returnStatement f) (returnStatement f)
  := by
  apply relates_seq C.relates_advance
  apply relates_bind_eq (relates_accept _)
  intro plain
  apply relates_ite
  · apply hC.relates_note rfl
  · apply relates_ite
    · apply relates_refuse_bind
    · apply relates_seq (hC.relates_expression _)
      apply relates_seq (relates_expect ..)
      apply hC.relates_note rfl

theorem relates_condition (head : Branch) :
  C.Relates Eq (condition head) (condition head)
  := by
  apply relates_seq (relates_expect ..)
  apply relates_seq (hC.relates_expression _)
  apply relates_expect

section

variable {body body' : PassM Unit} (hbody : C.Relates Eq body body')

include hbody

/-- Blocks correspond if their bodies do. -/
theorem relates_block (head : Branch) :
  C.Relates Eq (block head body) (block head body')
  := by
  apply relates_seq (relates_expect ..)
  apply hC.relates_scope hbody

/-- The head of a branch or loop with the block after it. -/
theorem relates_headed (head : Branch) :
  C.Relates Eq (do note (.branch head); block head body) (do note (.branch head); block head body')
  := by
  apply relates_seq (hC.relates_note rfl)
  apply hC.relates_block hbody

/-- The alternatives of a branch correspond, within any number of rounds, if their bodies do. -/
theorem relates_alternatives (fuel : Nat) :
  C.Relates Eq (alternatives body fuel) (alternatives body' fuel)
  := by
  induction fuel with
  | zero => apply relates_refuse
  | succ fuel ih =>
    rw [alternatives, alternatives]
    apply relates_bind_eq (relates_accept _)
    intro more
    apply relates_ite
    · apply relates_bind_eq (relates_accept _)
      intro again
      apply relates_ite
      · apply relates_seq (hC.relates_condition _)
        apply relates_seq (hC.relates_note rfl)
        apply relates_seq (hC.relates_block hbody _)
        apply ih
      · apply hC.relates_headed hbody
    · apply C.relates_pure rfl

/-- Branches correspond if their bodies do. -/
theorem relates_ifStatement :
  C.Relates Eq (ifStatement body) (ifStatement body')
  := by
  apply relates_seq C.relates_advance
  apply relates_seq (hC.relates_condition _)
  apply relates_seq (hC.relates_note rfl)
  apply relates_seq (hC.relates_block hbody _)
  apply C.relates_budget (a := alternatives body) (b := alternatives body')
  apply hC.relates_alternatives hbody

theorem relates_whileStatement :
  C.Relates Eq (whileStatement body) (whileStatement body')
  := by
  apply relates_seq C.relates_advance
  apply relates_seq (hC.relates_condition _)
  apply hC.relates_headed hbody

theorem relates_forStatement :
  C.Relates Eq (forStatement body) (forStatement body')
  := by
  apply relates_seq C.relates_advance
  apply relates_seq (relates_expect ..)
  apply relates_seq (hC.relates_expression _)
  apply relates_seq (relates_expect ..)
  apply relates_seq (hC.relates_expression _)
  apply relates_seq (relates_expect ..)
  apply relates_seq (hC.relates_expression _)
  apply relates_seq (relates_expect ..)
  apply hC.relates_headed hbody

/-- Statements correspond if the bodies in them do. -/
theorem relates_statement (f : Enclosing) :
  C.Relates Eq (statement f body) (statement f body')
  := by
  apply C.relates_bind C.relates_peek
  rintro _ _ @⟨token, l, l', hplace⟩
  cases token with
  | keyword word =>
    cases word with
    | byte => apply hC.relates_scalarVariable
    | int => apply hC.relates_scalarVariable
    | float => apply hC.relates_scalarVariable
    | returnWord => apply hC.relates_returnStatement
    | ifWord => apply hC.relates_ifStatement hbody
    | whileWord => apply hC.relates_whileStatement hbody
    | forWord => apply hC.relates_forStatement hbody
    | _ => apply relates_refuse
  | ident name => apply hC.relates_namedStatement ⟨hplace⟩
  | _ => apply relates_refuse

end

/-- The statements of a block correspond within any number of rounds. -/
theorem relates_statements (f : Enclosing) (fuel : Nat) :
  C.Relates Eq (statements f fuel) (statements f fuel)
  := by
  induction fuel with
  | zero => apply relates_refuse
  | succ fuel ih =>
    have hmore : C.Relates Eq (do statement f (statements f fuel); statements f fuel)
        (do statement f (statements f fuel); statements f fuel) := by
      apply relates_seq (hC.relates_statement ih f)
      apply ih
    rw [statements]
    apply C.relates_bind C.relates_peek
    rintro _ _ @⟨token, l, l', hplace⟩
    cases token with
    | mark m =>
      cases m with
      | rbrace => apply C.relates_advance
      | _ => apply hmore
    | eof => apply relates_refuse
    | _ => apply hmore

/-- The bodies of functions correspond. -/
theorem relates_functionBody (f : Enclosing) :
  C.Relates Eq (functionBody f) (functionBody f)
  := by
  apply C.relates_budget (a := statements f) (b := statements f)
  apply hC.relates_statements f

/-! ### Declarations -/

omit hC in
theorem relates_itemType (kind : ItemKind) :
  C.Relates Eq (itemType kind) (itemType kind)
  := by
  apply C.relates_bind C.relates_peek
  rintro _ _ @⟨token, l, l', hplace⟩
  cases token with
  | ident package => apply relates_refuse
  | keyword word =>
    cases word with
    | byte => apply relates_advance_return rfl
    | int => apply relates_advance_return rfl
    | float => apply relates_advance_return rfl
    | _ => apply relates_refuse
  | _ => apply relates_refuse

omit hC in
theorem relates_returnType :
  C.Relates Eq returnType returnType
  := by
  apply C.relates_bind C.relates_peek
  rintro _ _ @⟨token, l, l', hplace⟩
  cases token with
  | ident package => apply relates_refuse
  | keyword word =>
    cases word with
    | byte => apply relates_advance_return rfl
    | int => apply relates_advance_return rfl
    | float => apply relates_advance_return rfl
    | void => apply relates_advance_return rfl
    | _ => apply relates_refuse
  | _ => apply relates_refuse

/-- Declared arguments correspond within any number of rounds. -/
theorem relates_parameters (function : String) (fuel : Nat) :
  C.Relates Eq (parameters function fuel) (parameters function fuel)
  := by
  induction fuel with
  | zero => apply relates_refuse
  | succ fuel ih =>
    rw [parameters]
    apply relates_bind_eq (relates_itemType _)
    intro type
    apply C.relates_bind relates_identifier
    rintro _ _ @⟨name, l, l', hplace⟩
    have hmore : C.Relates Eq
        (do
          if ← accept (.mark .comma) then return (← parameters function fuel) + 1
          else return 1)
        (do
          if ← accept (.mark .comma) then return (← parameters function fuel) + 1
          else return 1) := by
      apply relates_bind_eq (relates_accept _)
      intro more
      apply relates_ite
      · apply relates_bind_eq ih
        intro count
        apply C.relates_pure rfl
      · apply C.relates_pure rfl
    have hparameter := relates_bind_eq (hC.relates_parameter function name (.scalar type) hplace)
      fun _ => hmore
    simpa only [bind_assoc] using hparameter

theorem relates_parameterList (function : String) :
  C.Relates Eq (parameterList function) (parameterList function)
  := by
  apply relates_bind_eq (relates_accept _)
  intro empty
  apply relates_ite
  · apply C.relates_pure rfl
  · apply C.relates_budget
      (a := fun fuel => do
        let count ← parameters function fuel
        expect .rparen (.afterParameters function)
        return count)
      (b := fun fuel => do
        let count ← parameters function fuel
        expect .rparen (.afterParameters function)
        return count)
    intro fuel
    apply relates_bind_eq (hC.relates_parameters function fuel)
    intro count
    apply relates_seq (relates_expect ..)
    apply C.relates_pure rfl

/-- Declarations of functions correspond. -/
theorem relates_functionDeclaration :
  C.Relates Eq functionDeclaration functionDeclaration
  := by
  apply relates_seq C.relates_advance
  apply C.relates_bind relates_identifier
  rintro _ _ @⟨name, l, l', hplace⟩
  apply relates_seq (hC.relates_declare SymbolTable.scopes_of_declareFunction hplace)
  apply relates_seq (relates_expect ..)
  -- what stands between entering and leaving the scope of the function
  have hinside : C.Relates Eq
      (do
        let arity ← parameterList name
        expect .colon (.beforeReturnType name)
        let returns ← returnType
        declare l fun T => T.setReturnType name returns
        note (.functionCreated name returns arity)
        expect .lbrace (.openFunction name)
        functionBody ⟨name, returns⟩)
      (do
        let arity ← parameterList name
        expect .colon (.beforeReturnType name)
        let returns ← returnType
        declare l' fun T => T.setReturnType name returns
        note (.functionCreated name returns arity)
        expect .lbrace (.openFunction name)
        functionBody ⟨name, returns⟩) := by
    apply relates_bind_eq (hC.relates_parameterList name)
    intro arity
    apply relates_seq (relates_expect ..)
    apply relates_bind_eq relates_returnType
    intro returns
    apply relates_seq (hC.relates_declare SymbolTable.scopes_of_updateFunction hplace)
    apply relates_seq (hC.relates_note rfl)
    apply relates_seq (relates_expect ..)
    apply hC.relates_functionBody
  simpa only [bind_assoc] using hC.relates_scope hinside

/-- The fields of a package correspond within any number of rounds. -/
theorem relates_fields (package : String) (fuel : Nat) :
  C.Relates Eq (fields package fuel) (fields package fuel)
  := by
  induction fuel with
  | zero => apply relates_refuse
  | succ fuel ih =>
    rw [fields]
    apply relates_bind_eq (relates_accept _)
    intro done
    apply relates_ite
    · apply C.relates_pure rfl
    · apply relates_bind_eq (relates_itemType _)
      intro type
      apply C.relates_bind relates_identifier
      rintro _ _ @⟨name, l, l', hplace⟩
      apply relates_seq (hC.relates_declare SymbolTable.scopes_of_addField hplace)
      apply relates_seq (hC.relates_note rfl)
      apply relates_seq (relates_expect ..)
      apply ih

/-- Declarations of packages correspond. -/
theorem relates_packageDeclaration :
  C.Relates Eq packageDeclaration packageDeclaration
  := by
  apply relates_seq C.relates_advance
  apply C.relates_bind relates_identifier
  rintro _ _ @⟨name, l, l', hplace⟩
  apply relates_seq (hC.relates_declare SymbolTable.scopes_of_declarePackage hplace)
  apply relates_seq (hC.relates_note rfl)
  apply relates_seq (relates_expect ..)
  apply relates_bind_eq (relates_sees _)
  intro empty
  apply relates_ite
  · apply relates_refuse_bind
  · apply C.relates_budget (a := fields name) (b := fields name)
    apply hC.relates_fields name

theorem relates_declaration :
  C.Relates Eq declaration declaration
  := by
  apply C.relates_bind C.relates_peek
  rintro _ _ @⟨token, l, l', hplace⟩
  cases token with
  | keyword word =>
    cases word with
    | func => apply hC.relates_functionDeclaration
    | pack => apply hC.relates_packageDeclaration
    | byte => apply hC.relates_scalarVariable
    | int => apply hC.relates_scalarVariable
    | float => apply hC.relates_scalarVariable
    | _ => apply relates_refuse
  | _ => apply relates_refuse

/-- The declarations of a program correspond within any number of rounds. -/
theorem relates_declarations (fuel : Nat) :
  C.Relates Eq (declarations fuel) (declarations fuel)
  := by
  induction fuel with
  | zero => apply relates_refuse
  | succ fuel ih =>
    rw [declarations]
    apply relates_bind_eq (relates_sees _)
    intro done
    apply relates_ite
    · apply C.relates_pure rfl
    · apply relates_seq hC.relates_declaration
      apply ih

/-- A correspondence that holds between the steps of programs holds between programs. -/
theorem relates_program :
  C.Relates Eq program program
  := by
  apply C.relates_budget (a := declarations) (b := declarations)
  apply hC.relates_declarations

end OnPrograms

/-! ### Single steps -/

/-- A correspondence holds on steps if it holds between all that is written, between all changes of
the table of names and between code generation for counterparts, and survives that what was written
is taken back. -/
structure OnSteps (C : Correspondence) : Prop where
  relates_emit : ∀ code, C.Relates Eq (emit code) (emit code)
  relates_note : ∀ content, C.Relates Eq (note content) (note content)
  relates_modify_symbols : ∀ change : SymbolTable → SymbolTable,
    C.Relates Eq (modify fun s => { s with symbols := change s.symbols })
      (modify fun s => { s with symbols := change s.symbols })
  relates_compile : ∀ {items items' : List Item} {l l' : Location} (slot : Slot),
    List.Forall₂ (Item.Matches C.Places) items items' → C.Places l l' →
      C.Relates Eq (do emit (← check (Expression.compile items slot (← get).registers l)))
        (do emit (← check (Expression.compile items' slot (← get).registers l')))
  relates_transaction : ∀ {a b : PassM Unit}, C.Relates Eq a b →
    C.Relates Eq (transaction a) (transaction b)

namespace OnSteps

variable (hC : C.OnSteps)

include hC

/-- Every change of the table of names corresponds to itself, in corresponding places. -/
theorem relates_declare (change : SymbolTable → Except SymbolError SymbolTable) {l l' : Location}
    (h : C.Places l l') :
  C.Relates Eq (declare l change) (declare l' change)
  := by
  apply relates_bind_eq C.relates_symbols
  intro T
  cases change T with
  | ok T' => apply hC.relates_modify_symbols fun _ => T'
  | error cause => apply C.relates_refuseAt _ h

/-- A note with the depth of the innermost scope. -/
theorem relates_note_depth (content : Nat → Note) :
  C.Relates Eq (do note (content (← depth))) (do note (content (← depth)))
  := by
  have hdepth : C.Relates Eq depth depth :=
    relates_bind_eq C.relates_symbols fun _ => C.relates_pure rfl
  apply relates_bind_eq hdepth
  intro n
  apply hC.relates_note (content n)

/-- Entering or leaving a scope corresponds to itself, with the note of the depth after it. -/
theorem relates_changeScope (change : SymbolTable → SymbolTable) :
  C.Relates Eq (do modify fun s => { s with symbols := change s.symbols }; noteDepth)
    (do modify fun s => { s with symbols := change s.symbols }; noteDepth)
  := by
  apply relates_seq (hC.relates_modify_symbols change)
  apply hC.relates_note_depth .scopeChanged

/-- What holds on all steps holds on those of expressions. -/
theorem onExpressions :
  C.OnExpressions
  where
  relates_emit_call name := hC.relates_emit [.call name]
  relates_compile := hC.relates_compile
  relates_transaction := hC.relates_transaction

/-- What holds on all steps holds on those of programs. -/
theorem onPrograms :
  C.OnPrograms
  where
  relates_expression := hC.onExpressions.relates_expression
  relates_call := hC.onExpressions.relates_call
  relates_note {content} _ := hC.relates_note content
  relates_declare _ hplace := hC.relates_declare _ hplace
  relates_variable name type initialized l l' hplace := by
    apply relates_seq (hC.relates_declare _ hplace)
    apply hC.relates_note_depth fun n => .variableDeclared name type n initialized
  relates_parameter function name type l l' hplace := by
    apply relates_seq (hC.relates_declare _ hplace)
    apply relates_seq (hC.relates_declare _ hplace)
    apply hC.relates_note_depth fun n => .argumentDeclared name type n
  relates_scope h := by
    apply relates_seq (hC.relates_changeScope SymbolTable.enter)
    apply relates_seq h
    apply hC.relates_changeScope SymbolTable.exit

end OnSteps

end Correspondence

end SilFront
