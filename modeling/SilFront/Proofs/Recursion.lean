import SilFront.Proofs.Consumption

/-!
# Recursive rules

The rules by which a pass reads loops and nested constructs, each as one round that calls rules for
what follows (`Rule.body`).

A round depends on the rules that it calls only where it may call them: after so many tokens that no
rule is called again at the same token (`Rule.Calls`, `Rule.unfold_all`). So all numbers of rounds
that exceed the number of tokens ahead lead to the same outcome (`Rule.agrees_within`).
-/

namespace SilFront

open PassM

/-- The rules that call themselves, or each other. -/
inductive Rule : Type → Type
  /-- The items of an expression, after what is in the yard. -/
  | items (yard : Yard) : Rule Yard
  /-- The arguments of a call. -/
  | arguments : Rule Nat
  /-- The alternatives of a branch in a function. -/
  | alternatives (f : Enclosing) : Rule Unit
  /-- The statements of a block in a function. -/
  | statements (f : Enclosing) : Rule Unit
  /-- The arguments that a function declares. -/
  | parameters (function : String) : Rule Nat
  /-- The fields of a package. -/
  | fields (package : String) : Rule Unit
  /-- The declarations of a program. -/
  | declarations : Rule Unit

namespace Rule

/-- The alternatives of a branch, of which `more` reads all but the first. -/
def alternativesWith (body more : PassM Unit) : PassM Unit := do
  if ← accept (.keyword .elseWord) then
    if ← accept (.keyword .ifWord) then
      condition .elseIf
      note (.branch .elseIf)
      block .elseIf body
      more
    else
      note (.branch .elseHead)
      block .elseHead body

/-- One round of a rule, in which `recur` reads what other rounds and rules are called for. -/
def body (recur : {β : Type} → Rule β → PassM β) : {α : Type} → Rule α → PassM α
  | _, .items yard => do
    let next ← peek
    match next.value with
    | .number _ | .string _ =>
      advance
      recur (.items (yard.operand next))
    | .ident name =>
      match (← symbols).kind? name with
      | some .variable =>
        advance
        recur (.items (yard.operand next))
      | some .function =>
        advance
        let returns ← callWith (recur .arguments) name next.location
        if returns = .void then refuseAt (.voidOperand name) next.location
        recur (.items (yard.operand ⟨.returnValue, next.location⟩))
      | _ => refuseAt (.undefinedName name) next.location
    | .mark .lparen =>
      advance
      recur (.items yard.openParenthesis)
    | .mark .rparen =>
      if yard.unclosed = 0 then return yard
      advance
      recur (.items yard.closeParenthesis)
    | token =>
      match token.operator? with
      | some op =>
        advance
        recur (.items (yard.operator ⟨op, next.location⟩))
      | none => return yard
  | _, .arguments => do
    expressionWith (queueWith (recur (.items .empty))) .stack
    if ← accept (.mark .comma) then return (← recur .arguments) + 1
    else return 1
  | _, .alternatives f => alternativesWith (functionBody f) (recur (.alternatives f))
  | _, .statements f => do
    match (← peek).value with
    | .mark .rbrace => advance
    | .eof => refuse (.endInBody f.name)
    | _ =>
      statement f (recur (.statements f))
      recur (.statements f)
  | _, .parameters function => do
    let type := DataType.scalar (← itemType .argument)
    let name ← identifier
    declare name.location fun table => table.declareVariable name.value type
    declare name.location fun table => table.addArgument function type
    note (.argumentDeclared name.value type (← depth))
    if ← accept (.mark .comma) then return (← recur (.parameters function)) + 1
    else return 1
  | _, .fields package => do
    if ← accept (.mark .rbrace) then return
    let type := DataType.scalar (← itemType .field)
    let ⟨field, location⟩ ← identifier
    declare location fun table => table.addField package field type
    note (.fieldAdded package field type)
    expect .semicolon .afterField
    recur (.fields package)
  | _, .declarations => do
    if ← sees .eof then return
    declaration
    recur .declarations

/-- A rule in no more than the given number of rounds. -/
def within (fuel : Nat) : {α : Type} → Rule α → PassM α
  | _, .items yard => PassM.items fuel yard
  | _, .arguments => PassM.arguments fuel
  | _, .alternatives f => PassM.alternatives (functionBody f) fuel
  | _, .statements f => PassM.statements f fuel
  | _, .parameters function => PassM.parameters function fuel
  | _, .fields package => PassM.fields package fuel
  | _, .declarations => PassM.declarations fuel

/-- One more round is a round in which the called rules have the others. -/
theorem within_succ (fuel : Nat) {α : Type} (r : Rule α) :
  r.within (fuel + 1) = r.body (within fuel)
  := by
  cases r with
  | items yard => rfl
  | arguments => rfl
  | alternatives f => rfl
  | statements f => rfl
  | parameters function => rfl
  | fields package => rfl
  | declarations => rfl

/-- A rule in as many rounds as can be needed. -/
def full {α : Type} (r : Rule α) : PassM α := do
  r.within (← get).budget

/-- In full, a rule has as many rounds as the tokens ahead allow for. -/
theorem run_full {α : Type} (r : Rule α) (s : Pass) :
  s.run r.full = s.run (r.within s.budget)
  := by
  rw [full, Pass.run_bind, Pass.run_get]

/-- The rank of a rule among those that may be called at the same token: a rule calls rules of a lower
rank there. -/
def rank : {α : Type} → Rule α → Nat
  | _, .arguments => 1
  | _, _ => 0

theorem rank_le_one {α : Type} (r : Rule α) :
  r.rank ≤ 1
  := by
  cases r with
  | arguments => apply Nat.le_refl
  | _ => apply Nat.zero_le

/-- The number of tokens that a rule takes at least, if it succeeds. -/
def least : {α : Type} → Rule α → α → Nat
  | _, .items yard, result => if result = yard then 0 else 1
  | _, .alternatives _, _ | _, .declarations, _ => 0
  | _, .arguments, _ | _, .statements _, _ | _, .parameters _, _ | _, .fields _, _ => 1

/-- The level of a rule: a round calls rules of its own level, and reads those of lower levels in
full. -/
def level : {α : Type} → Rule α → Nat
  | _, .items _ | _, .arguments => 0
  | _, .statements _ | _, .parameters _ | _, .fields _ => 1
  | _, .alternatives _ | _, .declarations => 2

variable {p : Position} {k : Nat} {recur recur' : {β : Type} → Rule β → PassM β}

/-- The rules that a round of `r` at a position may call are read in the same way by two actions,
where it may call them. -/
def Calls (p : Position) {α : Type} (r : Rule α)
    (recur recur' : {β : Type} → Rule β → PassM β) : Prop :=
  ∀ {β : Type} (r' : Rule β), r'.level = r.level → ∀ {k : Nat}, r'.rank + 1 ≤ k + r.rank →
    Takes p k (recur r') (recur' r') r'.least

/-- The rounds of the rules of a level do the same if the rules that they call do. -/
def Unfold (level : Nat) : Prop :=
  ∀ {p : Position} {α : Type} (r : Rule α), r.level = level →
    ∀ {recur recur' : {β : Type} → Rule β → PassM β}, Calls p r recur recur' →
      Leads p 0 (r.body recur) (r.body recur') r.least

/-- Rules do the same within any two numbers of rounds that are large enough. -/
theorem agrees_within {n : Nat} (h : Unfold n) {m m' : Nat} {α : Type} (r : Rule α)
    (hr : r.level = n) {s : Pass} (hm : s.position.bound + r.rank < m)
    (hm' : s.position.bound + r.rank < m') :
  s.Agrees s.position (r.within m) (r.within m') r.least
  := by
  induction m generalizing α m' s with
  | zero => nomatch hm
  | succ m ih =>
    cases m' with
    | zero => nomatch hm'
    | succ m' =>
      rw [within_succ, within_succ]
      apply h r hr _ s.position.beyond_self
      intro β r' hr' j hj t ht
      have hbound := ht.add_bound_le
      apply ih r' (hr'.trans hr) <;> omega

/-- With rounds enough, a rule takes its tokens from wherever it is called on. -/
theorem takes_within {n : Nat} (h : Unfold n) {α : Type} (r : Rule α) (hr : r.level = n) {fuel : Nat}
    (hfuel : p.bound + 1 < fuel) :
  Takes p 0 (r.within fuel) (r.within fuel) r.least
  := by
  intro s hs
  have hbound := hs.add_bound_le
  have hrank := r.rank_le_one
  apply agrees_within h r hr <;> omega

/-! ### Expressions -/

/-- A round on the items of an expression takes a token before it calls for more. -/
theorem leads_items {yard : Yard} (h : Calls p (.items yard) recur recur') :
  Leads p 0 (body recur (.items yard)) (body recur' (.items yard)) (least (.items yard))
  := by
  -- the cases that go on after a token all do so in the same way
  have hnext : ∀ z, Leads p 1 (recur (.items z)) (recur' (.items z)) (least (.items yard)) := by
    intro z
    apply ((h (.items z) rfl (Nat.le_refl 1)).leads (Nat.le_refl 1)).mono (Nat.le_refl 1)
    intro result
    simp only [least]
    split <;> split <;> omega
  have hstay : Leads p 0 (pure yard) (pure yard) (least (.items yard)) := by
    apply leads_pure
    simp [least]
  intro s hs
  apply Pass.Agrees.peek
  rcases hlookahead : s.lookahead with ⟨token, l⟩
  have hadvance : token ≠ .eof → ∀ z, s.Agrees p (do advance; recur (.items z))
      (do advance; recur' (.items z)) (least (.items yard)) := by
    intro more z
    apply Pass.agrees_advance_bind hs _ (hnext z)
    rwa [hlookahead]
  cases token with
  | number n => apply hadvance nofun
  | string text => apply hadvance nofun
  | ident name =>
    apply Pass.Agrees.symbols
    rcases s.symbols.kind? name with _ | _ | _ | _
    · exact leads_refuseAt (by nofun) l hs
    · apply hadvance nofun
    · apply Pass.agrees_advance_bind hs
      · rw [hlookahead]
        nofun
      · apply (leads_callWith ((h .arguments rfl (Nat.le_refl 2)).keeps (Nat.le_refl 2)) name l).bind
        intro returns
        apply leads_ite
        · exact leads_refuseAt_bind (by nofun) l
        · exact (hnext _).mono (by omega) fun _ => Nat.le_refl _
    · exact leads_refuseAt (by nofun) l hs
  | mark m =>
    have hother : s.Agrees p
        (m.operator?.elim (return yard) fun op => do
          advance
          recur (.items (yard.operator ⟨op, l⟩)))
        (m.operator?.elim (return yard) fun op => do
          advance
          recur' (.items (yard.operator ⟨op, l⟩)))
        (least (.items yard)) := by
      cases m.operator? with
      | none => apply hstay hs
      | some op => apply hadvance nofun
    cases m with
    | lparen => apply hadvance nofun
    | rparen =>
      dsimp only
      split
      · apply hstay hs
      · apply hadvance nofun
    | _ => apply hother
  | _ => apply hstay hs

/-- A round on arguments may call for the items of an expression at once, and for more arguments
after a comma. -/
theorem leads_arguments (h : Calls p .arguments recur recur') :
  Leads p 0 (body recur .arguments) (body recur' .arguments) fun _ => 1
  := by
  have hitems := (h (.items .empty) rfl (k := 0) (Nat.le_refl 1)).leads_zero
  apply (leads_expressionWith (leads_queueWith hitems) .stack).seq
  apply leads_accept_ite (.mark .comma) nofun
  · apply ((h .arguments rfl (Nat.le_refl 2)).keeps (Nat.le_succ 1)).bind
    intro count
    exact leads_pure (Nat.le_succ 1)
  · exact leads_pure (Nat.le_refl 1)

/-- The rules of expressions call each other with progress. -/
theorem unfold_expressions :
  Unfold 0
  := by
  intro p α r hr recur recur' h
  cases r with
  | items yard => apply leads_items h
  | arguments => apply leads_arguments h
  | _ => nomatch hr

end Rule

/-! ### Constructs -/

namespace PassM

variable {p : Position} {s : Pass} {k : Nat}

/-- An expression takes at least one token. -/
theorem leads_expression (slot : Slot) :
  Leads p k (expression slot) (expression slot) fun _ => k + 1
  := by
  have hqueue : Takes p k queue queue fun items => if items = [] then 0 else 1 := by
    apply takes_budget (a := fun fuel => queueWith (items fuel .empty))
      (b := fun fuel => queueWith (items fuel .empty))
    intro q fuel _ hfuel
    apply leads_queueWith
    apply (Rule.takes_within Rule.unfold_expressions (.items .empty) rfl hfuel).leads_zero
  apply leads_expressionWith
  apply (hqueue.leads (Nat.le_refl k)).mono (Nat.le_refl k)
  intro items
  split <;> omega

/-- A call takes at least its parentheses. -/
theorem leads_call (name : String) (l : Location) :
  Leads p k (call name l) (call name l) fun _ => k + 2
  := by
  have hcall : Takes p k (call name l) (call name l) fun _ => 2 := by
    apply takes_budget (a := fun fuel => callWith (arguments fuel) name l)
      (b := fun fuel => callWith (arguments fuel) name l)
    intro q fuel _ hfuel
    have harguments := Rule.takes_within Rule.unfold_expressions .arguments rfl hfuel
    apply leads_callWith (harguments.keeps (Nat.zero_le 1))
  apply hcall.leads (Nat.le_refl k)

/-! ### Variables and statements that begin with a name -/

/-- A declaration takes at least the semicolon that ends it. -/
theorem leads_declareVariable (name : Located String) (type : DataType) (initialized : Bool) :
  Leads p k (declareVariable name type initialized) (declareVariable name type initialized)
    fun _ => k + 1
  := by
  apply (leads_declare ..).seq
  apply leads_depth.bind
  intro depth
  apply (leads_note _).seq
  apply leads_expect

/-- A call as a statement, from its opening parenthesis on. -/
theorem leads_callStatement (function : Located String) :
  Leads p k (callStatement function) (callStatement function) fun _ => k
  := by
  apply (leads_call ..).seq
  exact (leads_expect ..).lower (by omega)

section

-- each of these constructs begins with a token that was looked at before

variable (hs : p.Beyond k s.position) (more : s.lookahead.value ≠ .eof)

include hs more

/-- A declaration of a scalar variable takes at least its type. -/
theorem agrees_scalarVariable (type : ScalarType) :
  s.Agrees p (scalarVariable type) (scalarVariable type) fun _ => k + 1
  := by
  apply Pass.agrees_advance_bind hs more
  apply leads_identifier.bind
  intro name
  have hrest : ∀ initialized, Leads p (k + 2)
      (declareVariable name (.scalar type) initialized)
      (declareVariable name (.scalar type) initialized) fun _ => k + 1 := by
    intro initialized
    exact (leads_declareVariable ..).lower (by omega)
  apply Leads.accept (.mark .eq) nofun
  · apply (leads_expression _).seq
    apply (hrest _).mono (by omega) fun _ => Nat.le_refl _
  · apply hrest

/-- An assignment reads its value beyond the equals sign. -/
theorem agrees_assignment (target : Located String) :
  s.Agrees p (assignment target) (assignment target) fun _ => k
  := by
  apply Pass.Agrees.symbols
  dsimp only
  split
  · exact leads_refuseAt_bind (by nofun) _ hs
  · apply Pass.agrees_advance_bind hs more
    apply (leads_expression _).seq
    apply (leads_expect ..).seq
    exact (leads_note _).lower (by omega)

/-- A declaration of a record goes on beyond its name. -/
theorem agrees_recordVariable (package name : Located String) :
  s.Agrees p (recordVariable package name) (recordVariable package name) fun _ => k
  := by
  apply Pass.Agrees.symbols
  dsimp only
  split
  · exact leads_refuseAt_bind (by nofun) _ hs
  · apply Pass.agrees_advance_bind hs more
    exact (leads_declareVariable ..).lower (by omega)

/-- A statement that begins with a name takes at least that name. -/
theorem agrees_namedStatement (name : Located String) :
  s.Agrees p (namedStatement name) (namedStatement name) fun _ => k + 1
  := by
  apply Pass.agrees_advance_bind hs more
  intro t ht
  apply Pass.Agrees.peek
  rcases hlookahead : t.lookahead with ⟨token, l⟩
  cases token with
  | ident record =>
    apply agrees_recordVariable ht
    rw [hlookahead]
    nofun
  | mark m =>
    cases m with
    | eq =>
      apply agrees_assignment ht
      rw [hlookahead]
      nofun
    | lparen => apply leads_callStatement _ ht
    | _ => exact leads_refuse (by nofun) ht
  | _ => exact leads_refuse (by nofun) ht

/-! ### Returns, branches and loops -/

/-- A return takes at least its word, and reads its value beyond it. -/
theorem agrees_returnStatement (f : Enclosing) :
  s.Agrees p (returnStatement f) (returnStatement f) fun _ => k + 1
  := by
  apply Pass.agrees_advance_bind hs more
  apply leads_accept_ite (.mark .semicolon) nofun
  · exact (leads_note _).lower (by omega)
  · apply leads_ite
    · exact leads_refuse_bind (by nofun)
    · apply (leads_expression _).seq
      apply (leads_expect ..).seq
      exact (leads_note _).lower (by omega)

end

/-- A condition takes at least its opening parenthesis. -/
theorem leads_condition (head : Branch) :
  Leads p k (condition head) (condition head) fun _ => k + 1
  := by
  apply (leads_expect ..).seq
  apply (leads_expression _).seq
  exact (leads_expect ..).lower (by omega)

section

variable {body body' : PassM Unit} {least : Unit → Nat}

/-- A block takes at least its opening brace, and reads its body beyond it. -/
theorem leads_block (hbody : Takes p (k + 1) body body' least) (head : Branch) :
  Leads p k (block head body) (block head body') fun _ => k + 1
  := by
  apply (leads_expect ..).seq
  apply leads_enterScope.seq
  apply (hbody.keeps (Nat.le_refl _)).seq
  apply leads_exitScope

/-- The head of a branch or loop with the block after it. -/
theorem leads_headed (hbody : Takes p (k + 1) body body' least) (head : Branch) :
  Leads p k (do note (.branch head); block head body) (do note (.branch head); block head body')
    fun _ => k + 1
  := by
  apply (leads_note _).seq
  apply leads_block hbody

/-- Alternatives may be missing; what reads them is called beyond the word that announces them. -/
theorem leads_alternativesWith {more more' : PassM Unit}
    (hbody : Takes p (k + 1) body body' least) (hmore : Takes p (k + 1) more more' fun _ => 0) :
  Leads p k (Rule.alternativesWith body more) (Rule.alternativesWith body' more') fun _ => k
  := by
  apply leads_accept_ite (.keyword .elseWord) nofun
  · apply leads_accept_ite (.keyword .ifWord) nofun
    · apply (leads_condition _).seq
      apply (leads_note _).seq
      apply (leads_block (hbody.mono (by omega)) _).seq
      exact (hmore.keeps (by omega)).lower (by omega)
    · exact (leads_headed (hbody.mono (by omega)) _).lower (by omega)
  · exact leads_pure (Nat.le_refl k)

/-- The alternatives of a branch at a position. -/
theorem leads_alternatives (hbody : Takes p 1 body body' least) {fuel : Nat}
    (hfuel : p.bound < fuel) :
  Leads p 0 (alternatives body fuel) (alternatives body' fuel) fun _ => 0
  := by
  induction fuel generalizing p with
  | zero => nomatch hfuel
  | succ fuel ih =>
    have hmore : Takes p 1 (alternatives body fuel) (alternatives body' fuel) fun _ => 0 := by
      intro s hs
      have hbound := hs.add_bound_le
      apply ih (hbody.rest hs (by omega)) (by omega) s.position.beyond_self
    apply leads_alternativesWith hbody hmore

variable (hs : p.Beyond k s.position) (more : s.lookahead.value ≠ .eof)
  (hbody : Takes p (k + 1) body body' least)

include hs more hbody

/-- A branch takes at least its word, and reads its block and its alternatives beyond it. -/
theorem agrees_ifStatement :
  s.Agrees p (ifStatement body) (ifStatement body') fun _ => k + 1
  := by
  have halternatives : Takes p (k + 1) (do alternatives body (← get).budget)
      (do alternatives body' (← get).budget) fun _ => 0 := by
    apply takes_budget (a := alternatives body) (b := alternatives body')
    intro q fuel hq hfuel
    apply leads_alternatives (hbody.rest hq (by omega)) (by omega)
  apply Pass.agrees_advance_bind hs more
  apply (leads_condition _).seq
  apply (leads_note _).seq
  apply (leads_block (hbody.mono (by omega)) _).seq
  exact (halternatives.keeps (by omega)).lower (by omega)

/-- A loop takes at least its word, and reads its block beyond it. -/
theorem agrees_whileStatement :
  s.Agrees p (whileStatement body) (whileStatement body') fun _ => k + 1
  := by
  apply Pass.agrees_advance_bind hs more
  apply (leads_condition _).seq
  exact (leads_headed (hbody.mono (by omega)) _).lower (by omega)

theorem agrees_forStatement :
  s.Agrees p (forStatement body) (forStatement body') fun _ => k + 1
  := by
  apply Pass.agrees_advance_bind hs more
  apply (leads_expect ..).seq
  apply (leads_expression _).seq
  apply (leads_expect ..).seq
  apply (leads_expression _).seq
  apply (leads_expect ..).seq
  apply (leads_expression _).seq
  apply (leads_expect ..).seq
  exact (leads_headed (hbody.mono (by omega)) _).lower (by omega)

omit hs more in
/-- A statement takes at least one token, and reads nested bodies beyond its first one. -/
theorem leads_statement (f : Enclosing) :
  Leads p k (statement f body) (statement f body') fun _ => k + 1
  := by
  intro s hs
  apply Pass.Agrees.peek
  rcases hlookahead : s.lookahead with ⟨token, l⟩
  have more : token ≠ .eof → s.lookahead.value ≠ .eof := by
    rw [hlookahead]
    exact id
  cases token with
  | keyword word =>
    cases word with
    | byte => apply agrees_scalarVariable hs (more nofun)
    | int => apply agrees_scalarVariable hs (more nofun)
    | float => apply agrees_scalarVariable hs (more nofun)
    | returnWord => apply agrees_returnStatement hs (more nofun)
    | ifWord => apply agrees_ifStatement hs (more nofun) hbody
    | whileWord => apply agrees_whileStatement hs (more nofun) hbody
    | forWord => apply agrees_forStatement hs (more nofun) hbody
    | _ => exact leads_refuse (by nofun) hs
  | ident name => apply agrees_namedStatement hs (more nofun)
  | _ => exact leads_refuse (by nofun) hs

end

end PassM

namespace Rule

variable {p : Position} {k : Nat} {recur recur' : {β : Type} → Rule β → PassM β}

/-- A round on the statements of a block takes a token before it calls for more. -/
theorem leads_statements {f : Enclosing} (h : Calls p (.statements f) recur recur') :
  Leads p 0 (body recur (.statements f)) (body recur' (.statements f)) fun _ => 1
  := by
  have hmore := h (.statements f) rfl (k := 1) (Nat.le_refl 1)
  have hstatement : Leads p 0
      (do
        statement f (recur (.statements f))
        recur (.statements f))
      (do
        statement f (recur' (.statements f))
        recur' (.statements f)) fun _ => 1 := by
    apply (leads_statement hmore f).seq
    apply hmore.keeps (Nat.le_refl 1)
  intro s hs
  apply Pass.Agrees.peek
  rcases hlookahead : s.lookahead with ⟨token, l⟩
  cases token with
  | mark m =>
    cases m with
    | rbrace =>
      apply Pass.agrees_advance hs
      rw [hlookahead]
      nofun
    | _ => apply hstatement hs
  | eof => exact leads_refuse (by nofun) hs
  | _ => apply hstatement hs

end Rule

/-! ### Declarations -/

namespace PassM

variable {p : Position} {s : Pass} {k : Nat}

/-- The type of an item is one token. -/
theorem leads_itemType (items : ItemKind) :
  Leads p k (itemType items) (itemType items) fun _ => k + 1
  := by
  intro s hs
  apply Pass.Agrees.peek
  rcases hlookahead : s.lookahead with ⟨token, l⟩
  dsimp only
  split
  · exact leads_refuse (by nofun) hs
  · rename_i htype
    apply Pass.agrees_advance_return hs
    rw [hlookahead]
    rintro rfl
    cases htype
  · exact leads_refuse (by nofun) hs

/-- The type of a return value is one token. -/
theorem leads_returnType :
  Leads p k returnType returnType fun _ => k + 1
  := by
  intro s hs
  apply Pass.Agrees.peek
  rcases hlookahead : s.lookahead with ⟨token, l⟩
  dsimp only
  split
  · exact leads_refuse (by nofun) hs
  · rename_i htype
    apply Pass.agrees_advance_return hs
    rw [hlookahead]
    rintro rfl
    cases htype
  · exact leads_refuse (by nofun) hs

end PassM

namespace Rule

variable {p : Position} {k : Nat} {recur recur' : {β : Type} → Rule β → PassM β}

/-- A round on declared arguments takes a token before it calls for more. -/
theorem leads_parameters {function : String} (h : Calls p (.parameters function) recur recur') :
  Leads p 0 (body recur (.parameters function)) (body recur' (.parameters function)) fun _ => 1
  := by
  have hmore := h (.parameters function) rfl (k := 1) (Nat.le_refl 1)
  apply (leads_itemType _).bind
  intro type
  apply leads_identifier.bind
  intro name
  apply (leads_declare ..).seq
  apply (leads_declare ..).seq
  apply leads_depth.bind
  intro depth
  apply (leads_note _).seq
  apply leads_accept_ite (.mark .comma) nofun
  · apply (hmore.keeps (by omega)).bind
    intro count
    exact leads_pure (by omega)
  · exact leads_pure (by omega)

/-- A round on fields takes a token before it calls for more. -/
theorem leads_fields {package : String} (h : Calls p (.fields package) recur recur') :
  Leads p 0 (body recur (.fields package)) (body recur' (.fields package)) fun _ => 1
  := by
  have hmore := h (.fields package) rfl (k := 1) (Nat.le_refl 1)
  apply leads_accept_ite (.mark .rbrace) nofun
  · exact leads_pure (Nat.le_refl 1)
  · apply (leads_itemType _).bind
    intro type
    apply leads_identifier.bind
    intro field
    apply (leads_declare ..).seq
    apply (leads_note _).seq
    apply (leads_expect ..).seq
    exact (hmore.keeps (by omega)).lower (by omega)

/-- The rules of blocks, declared arguments and fields call themselves with progress. -/
theorem unfold_parts :
  Unfold 1
  := by
  intro p α r hr recur recur' h
  cases r with
  | statements f => apply leads_statements h
  | parameters function => apply leads_parameters h
  | fields package => apply leads_fields h
  | _ => nomatch hr

/-- A rule of which enough rounds are read. -/
theorem takes_full {n : Nat} (h : Unfold n) {α : Type} (r : Rule α) (hr : r.level = n) :
  Takes p k r.full r.full r.least
  := by
  apply takes_budget (a := fun fuel => r.within fuel) (b := fun fuel => r.within fuel)
  intro q fuel _ hfuel
  apply (takes_within h r hr hfuel).leads_zero

end Rule

namespace PassM

variable {p : Position} {s : Pass} {k : Nat}

/-- The body of a function takes at least its closing brace. -/
theorem takes_functionBody (f : Enclosing) :
  Takes p k (functionBody f) (functionBody f) fun _ => 1
  := Rule.takes_full Rule.unfold_parts (.statements f) rfl

/-- A list of declared arguments, of whose tokens none need be counted. -/
theorem leads_parameterList (function : String) :
  Leads p k (parameterList function) (parameterList function) fun _ => k
  := by
  have hparameters : Takes p k
      (do
        let count ← parameters function (← get).budget
        expect .rparen (.afterParameters function)
        return count)
      (do
        let count ← parameters function (← get).budget
        expect .rparen (.afterParameters function)
        return count) fun _ => 1 := by
    apply takes_budget
      (a := fun fuel => do
        let count ← parameters function fuel
        expect .rparen (.afterParameters function)
        return count)
      (b := fun fuel => do
        let count ← parameters function fuel
        expect .rparen (.afterParameters function)
        return count)
    intro q fuel _ hfuel
    apply ((Rule.takes_within Rule.unfold_parts (.parameters function) rfl hfuel).keeps
      (Nat.le_refl 0)).bind
    intro count
    apply (leads_expect ..).seq
    exact leads_pure (Nat.le_refl 1)
  apply leads_accept_ite (.mark .rparen) nofun
  · exact leads_pure (Nat.le_succ k)
  · apply hparameters.keeps (Nat.le_refl k)

section

variable (hs : p.Beyond k s.position) (more : s.lookahead.value ≠ .eof)

include hs more

/-- A function takes at least its word, and reads all of its parts beyond it. -/
theorem agrees_functionDeclaration :
  s.Agrees p functionDeclaration functionDeclaration fun _ => k + 1
  := by
  apply Pass.agrees_advance_bind hs more
  apply leads_identifier.bind
  intro name
  apply (leads_declare ..).seq
  apply (leads_expect ..).seq
  apply leads_enterScope.seq
  apply (leads_parameterList _).bind
  intro arity
  apply (leads_expect ..).seq
  apply leads_returnType.bind
  intro returns
  apply (leads_declare ..).seq
  apply (leads_note _).seq
  apply (leads_expect ..).seq
  apply ((takes_functionBody _).keeps (Nat.le_refl _)).seq
  exact leads_exitScope.lower (by omega)

/-- A package takes at least its word, and reads its fields beyond it. -/
theorem agrees_packageDeclaration :
  s.Agrees p packageDeclaration packageDeclaration fun _ => k + 1
  := by
  apply Pass.agrees_advance_bind hs more
  apply leads_identifier.bind
  intro name
  apply (leads_declare ..).seq
  apply (leads_note _).seq
  apply (leads_expect ..).seq
  apply (leads_sees _).bind
  intro empty
  apply leads_ite
  · exact leads_refuse_bind (by nofun)
  · have hfields := Rule.takes_full (p := p) (k := k) Rule.unfold_parts (.fields name.value) rfl
    exact (hfields.keeps (by omega)).lower (by omega)

end

/-- A declaration takes at least one token. -/
theorem leads_declaration :
  Leads p k declaration declaration fun _ => k + 1
  := by
  intro s hs
  apply Pass.Agrees.peek
  rcases hlookahead : s.lookahead with ⟨token, l⟩
  have more : token ≠ .eof → s.lookahead.value ≠ .eof := by
    rw [hlookahead]
    exact id
  cases token with
  | keyword word =>
    cases word with
    | func => apply agrees_functionDeclaration hs (more nofun)
    | pack => apply agrees_packageDeclaration hs (more nofun)
    | byte => apply agrees_scalarVariable hs (more nofun)
    | int => apply agrees_scalarVariable hs (more nofun)
    | float => apply agrees_scalarVariable hs (more nofun)
    | _ => exact leads_refuse (by nofun) hs
  | _ => exact leads_refuse (by nofun) hs

end PassM

namespace Rule

/-- The rules of alternatives and of whole programs call themselves with progress. -/
theorem unfold_wholes :
  Unfold 2
  := by
  intro p α r hr recur recur' h
  cases r with
  | alternatives f =>
    have hmore := h (.alternatives f) rfl (k := 1) (Nat.le_refl 1)
    apply leads_alternativesWith (takes_functionBody f) hmore
  | declarations =>
    have hmore := h .declarations rfl (k := 1) (Nat.le_refl 1)
    apply (leads_sees _).bind
    intro done
    apply leads_ite
    · exact leads_pure (Nat.le_refl 0)
    · apply leads_declaration.seq
      apply (hmore.keeps (Nat.le_refl 1)).lower (Nat.zero_le 1)
  | _ => nomatch hr

/-- The rounds of all rules do the same if the rules that they call do. -/
theorem unfold_all (n : Nat) :
  Unfold n
  := by
  rcases n with _ | _ | _ | n
  · apply unfold_expressions
  · apply unfold_parts
  · apply unfold_wholes
  · intro p α r hr
    cases r <;> nomatch hr

end Rule

end SilFront
