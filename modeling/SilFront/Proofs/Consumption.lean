import SilFront.Pass.Program
import SilFront.Proofs.Progress

/-!
# Tokens that actions take

How many tokens the actions of a pass take at least, if they succeed, and how they fail: by an error
of reading that lies ahead, or by a syntax error that is not a want of steps (`Position.Admits`).

Both are shown of two actions at once that differ in the actions that they are given as parts
(`PassM.Leads`). If the parts do the same after so many tokens, then so do the actions; and the parts
of a construct are only reached after some of its tokens.
-/

namespace SilFront

/-! ### Distances -/

namespace Position

variable {p q r : Position} {j k : Nat}

/-- At least `k` tokens lie between two positions. -/
def Beyond (p : Position) (k : Nat) (q : Position) : Prop :=
  ∃ ts, k ≤ ts.length ∧ p.Passes ts q

theorem beyond_self (p : Position) :
  p.Beyond 0 p
  := ⟨[], Nat.zero_le _, .nil p⟩

theorem Beyond.mono (h : p.Beyond k q) (hj : j ≤ k) :
  p.Beyond j q
  := by
  obtain ⟨ts, hk, hts⟩ := h
  exact ⟨ts, Nat.le_trans hj hk, hts⟩

/-- The tokens between positions add up. -/
theorem Beyond.trans (h : p.Beyond j q) (h' : q.Beyond k r) :
  p.Beyond (j + k) r
  := by
  obtain ⟨ts, hj, hts⟩ := h
  obtain ⟨us, hk, hus⟩ := h'
  refine ⟨ts ++ us, ?_, hts.append hus⟩
  rw [List.length_append]
  omega

/-- Reading on leaves one more token behind, unless the text is at its end. -/
theorem Beyond.next (h : p.Beyond k q) (more : q.lookahead.value ≠ .eof) (next : q.next? = some r) :
  p.Beyond (k + 1) r
  := h.trans ⟨[q.lookahead], Nat.le_refl 1, .cons more next (.nil r)⟩

/-- Tokens that are left behind are no longer ahead. -/
theorem Beyond.add_bound_le (h : p.Beyond k q) :
  k + q.bound ≤ p.bound
  := by
  obtain ⟨ts, hk, hts⟩ := h
  have hbound := hts.length_add_bound_le
  omega

/-- What lies ahead of the next position lies ahead of a position. -/
theorem stream_of_next? (h : p.next? = some q) :
  q.stream.steps <:+ p.stream.steps ∧ q.stream.ahead ≤ p.stream.ahead
  := by
  obtain ⟨lookahead, ⟨steps, finish⟩⟩ := p
  rcases steps with _ | ⟨_ | token, steps⟩
  · cases h
    exact ⟨List.suffix_rfl, Nat.le_refl _⟩
  · cases h
  · cases h
    exact ⟨List.suffix_cons .., Nat.le_succ _⟩

/-- What can be read from a position on can be read from earlier ones on. -/
theorem Passes.suffix {ts : List (Located Token)} (h : p.Passes ts q) :
  q.stream.steps <:+ p.stream.steps
  := by
  induction h with
  | nil p => apply List.suffix_rfl
  | cons _ next _ ih => apply ih.trans (stream_of_next? next).1

/-- Passing over tokens leaves no more of them ahead. -/
theorem Passes.ahead_le {ts : List (Located Token)} (h : p.Passes ts q) :
  q.stream.ahead ≤ p.stream.ahead
  := by
  induction h with
  | nil p => apply Nat.le_refl
  | cons _ next _ ih => apply Nat.le_trans ih (stream_of_next? next).2

/-- The refusals to be expected from a position on: an error of reading that lies ahead, or a syntax
error other than a want of steps. -/
def Admits (p : Position) (e : Diagnostic) : Prop :=
  match e.value with
  | .lexical cause => .error ⟨cause, e.location⟩ ∈ p.stream.steps
  | .grammatical cause => cause ≠ .stepLimit

/-- What may stop a pass later on may stop it from an earlier position on. -/
theorem Beyond.admits {e : Diagnostic} (h : p.Beyond k q) (he : q.Admits e) :
  p.Admits e
  := by
  obtain ⟨ts, -, hts⟩ := h
  obtain ⟨_ | cause, location⟩ := e
  · exact hts.suffix.subset he
  · exact he

/-- What may come of an action that takes at least `least` tokens if it succeeds. -/
inductive Allows (p : Position) {α : Type} (least : α → Nat) : Except Diagnostic α × Pass → Prop
  | ok {value : α} {t : Pass} (beyond : p.Beyond (least value) t.position) :
    Allows p least (.ok value, t)
  | error {e : Diagnostic} {t : Pass} (admits : p.Admits e) : Allows p least (.error e, t)

end Position

/-! ### Code for expressions -/

namespace Expression

variable {registers : Nat} {constant : Bool} {g : Generation} {e : Located SyntaxError}

/-- No operand is refused for the number of steps. -/
theorem ne_stepLimit_of_operand {token : Located Token}
    (h : operand registers constant g token = .error e) :
  e.value ≠ .stepLimit
  := by
  rw [operand] at h
  split at h
  · cases h
    nofun
  · split at h
    · cases h
    · split at h
      · cases h
      · cases h
        nofun

/-- No operator is refused for the number of steps. -/
theorem ne_stepLimit_of_operator {op : Located BinaryOp} (h : operator constant g op = .error e) :
  e.value ≠ .stepLimit
  := by
  rw [operator] at h
  split at h
  · split at h
    · cases h
      nofun
    · split at h
      · split at h
        · cases h
        · cases h
          nofun
      · cases h
  · cases h
    nofun

/-- No queue is refused for the number of steps. -/
theorem ne_stepLimit_of_foldlM {items : List Item}
    (h : items.foldlM (item registers constant) g = .error e) :
  e.value ≠ .stepLimit
  := by
  induction items generalizing g with
  | nil => cases h
  | cons i items ih =>
    rw [List.foldlM_cons] at h
    rcases hitem : item registers constant g i with e' | g'
    · rw [hitem] at h
      cases h
      cases i with
      | operand token => exact ne_stepLimit_of_operand hitem
      | operator op => exact ne_stepLimit_of_operator hitem
    · rw [hitem] at h
      exact ih h

/-- Code is generated in as many steps as there are items. -/
theorem ne_stepLimit_of_compile {items : List Item} {slot : Slot} {l : Location}
    (h : compile items slot registers l = .error e) :
  e.value ≠ .stepLimit
  := by
  rw [compile] at h
  rcases hitems : items.foldlM (item registers (isConstant items)) ⟨[], []⟩ with e' | g
  · rw [hitems] at h
    cases h
    exact ne_stepLimit_of_foldlM hitems
  · simp only [hitems, bind, Except.bind] at h
    split at h
    · cases h
    · cases h
      nofun
    · cases h
      nofun

end Expression

/-! ### Actions that agree -/

/-- Two actions do the same from a state, with an outcome that is allowed from a position on. -/
def Pass.Agrees {α : Type} (s : Pass) (p : Position) (a b : PassM α) (least : α → Nat) : Prop :=
  s.run a = s.run b ∧ p.Allows least (s.run a)

namespace PassM

/-- Two actions do the same after at least `k` tokens from a position on, and more tokens lie behind
them if they succeed. -/
def Leads {α : Type} (p : Position) (k : Nat) (a b : PassM α) (least : α → Nat) : Prop :=
  ∀ ⦃s : Pass⦄, p.Beyond k s.position → s.Agrees p a b least

/-- Two actions do the same after at least `k` tokens from a position on, and take more tokens from
there on if they succeed. -/
def Takes {α : Type} (p : Position) (k : Nat) (a b : PassM α) (least : α → Nat) : Prop :=
  ∀ ⦃s : Pass⦄, p.Beyond k s.position → s.Agrees s.position a b least

end PassM

open PassM

section

variable {α β : Type} {p : Position} {s : Pass} {j k : Nat} {a b : PassM α} {c d : α → PassM β}
  {least : α → Nat} {least' : β → Nat}

/-- Actions agree one after the other if the later ones agree on what the first ones leave
behind. -/
theorem Pass.Agrees.bind (h : s.Agrees p a b least)
    (h' : ∀ value, Leads p (least value) (c value) (d value) least') :
  s.Agrees p (a >>= c) (b >>= d) least'
  := by
  obtain ⟨hsame, hallows⟩ := h
  rw [Agrees, run_bind, run_bind, ← hsame]
  generalize s.run a = outcome at hallows
  cases hallows with
  | ok beyond => apply h' _ beyond
  | error admits => exact ⟨rfl, .error admits⟩

theorem Pass.Agrees.symbols {f g : SymbolTable → PassM β}
    (h : s.Agrees p (f s.symbols) (g s.symbols) least') :
  s.Agrees p (PassM.symbols >>= f) (PassM.symbols >>= g) least'
  := h

theorem Pass.Agrees.peek {f g : Located Token → PassM β}
    (h : s.Agrees p (f s.lookahead) (g s.lookahead) least') :
  s.Agrees p (PassM.peek >>= f) (PassM.peek >>= g) least'
  := h

namespace PassM

/-- A result leaves nothing more behind. -/
theorem leads_pure {value : α} (h : least value ≤ k) :
  Leads p k (pure value) (pure value) least
  := by
  intro s hs
  exact ⟨rfl, .ok (hs.mono h)⟩

/-- One action after another, where the second begins behind what the first has left. -/
theorem Leads.bind (h : Leads p k a b least)
    (h' : ∀ value, Leads p (least value) (c value) (d value) least') :
  Leads p k (a >>= c) (b >>= d) least'
  := by
  intro s hs
  apply (h hs).bind h'

/-- One action after another, if the result of the first is not used. -/
theorem Leads.seq {a b : PassM α} {c d : PassM β} (h : Leads p k a b fun _ => j)
    (h' : Leads p j c d least') :
  Leads p k (do _ ← a; c) (do _ ← b; d) least'
  := h.bind fun _ => h'

/-- Actions that agree from somewhere on agree from further on, and leave less behind as well. -/
theorem Leads.mono {j : Nat} {least' : α → Nat} (h : Leads p k a b least) (hj : k ≤ j)
    (hleast : ∀ value, least' value ≤ least value) :
  Leads p j a b least'
  := by
  intro s hs
  obtain ⟨hsame, hallows⟩ := h (hs.mono hj)
  refine ⟨hsame, ?_⟩
  generalize s.run a = outcome at hallows
  cases hallows with
  | ok beyond => exact .ok (beyond.mono (hleast _))
  | error admits => exact .error admits

theorem Leads.lower {i : Nat} (h : Leads p k a b fun _ => j) (hi : i ≤ j) :
  Leads p k a b fun _ => i
  := h.mono (Nat.le_refl k) fun _ => hi

/-- What an action takes lies behind it, on top of what did before. -/
theorem Takes.leads (h : Takes p k a b least) (hj : k ≤ j) :
  Leads p j a b fun value => j + least value
  := by
  intro s hs
  obtain ⟨hsame, hallows⟩ := h (hs.mono hj)
  refine ⟨hsame, ?_⟩
  generalize s.run a = outcome at hallows
  cases hallows with
  | ok beyond => exact .ok (hs.trans beyond)
  | error admits => exact .error (hs.admits admits)

theorem Takes.leads_zero (h : Takes p 0 a b least) :
  Leads p 0 a b least
  := by
  simpa only [Nat.zero_add] using h.leads (Nat.le_refl 0)

/-- Actions go back over no tokens, whatever they take. -/
theorem Takes.keeps (h : Takes p k a b least) (hj : k ≤ j) :
  Leads p j a b fun _ => j
  := (h.leads hj).mono (Nat.le_refl j) fun value => Nat.le_add_right j (least value)

/-- Actions that agree from somewhere on agree from further on. -/
theorem Takes.mono (h : Takes p k a b least) (hj : k ≤ j) :
  Takes p j a b least
  := by
  intro s hs
  apply h (hs.mono hj)

/-- What is taken after some tokens is taken after those of them that are left. -/
theorem Takes.rest {q : Position} {i : Nat} (h : Takes p k a b least) (hq : p.Beyond j q)
    (hi : k ≤ j + i) :
  Takes q i a b least
  := by
  intro s hs
  apply h ((hq.trans hs).mono hi)

end PassM

end

/-! ### Steps -/

section

variable {α β : Type} {p : Position} {s : Pass} {k : Nat} {least : α → Nat}

/-- A lexical error that is met is one of those in the text. -/
theorem TokenStream.mem_steps_of_next {stream stream' : TokenStream} {e : Located LexicalError}
    (h : stream.next = (.error e, stream')) :
  .error e ∈ stream.steps
  := by
  obtain ⟨steps, finish⟩ := stream
  rcases steps with _ | ⟨step, steps⟩
  · cases h
  · cases h
    apply List.mem_cons_self

/-- Going on to another token takes the one before it. -/
theorem Pass.agrees_advance (hs : p.Beyond k s.position) (more : s.lookahead.value ≠ .eof) :
  s.Agrees p advance advance fun _ => k + 1
  := by
  refine ⟨rfl, ?_⟩
  rw [run_advance]
  rcases hnext : s.stream.next with ⟨e | lookahead, stream⟩
  · exact .error (hs.admits (TokenStream.mem_steps_of_next hnext))
  · apply Position.Allows.ok
    apply hs.next more
    rw [Position.next?, position, hnext]
    rfl

/-- Passing over a token leaves it behind for what follows. -/
theorem Pass.agrees_advance_bind {a b : PassM α} (hs : p.Beyond k s.position)
    (more : s.lookahead.value ≠ .eof) (h : Leads p (k + 1) a b least) :
  s.Agrees p (do advance; a) (do advance; b) least
  := (agrees_advance hs more).bind fun _ => h

theorem Pass.agrees_advance_return (hs : p.Beyond k s.position) (more : s.lookahead.value ≠ .eof)
    (value : α) :
  s.Agrees p (do advance; return value) (do advance; return value) fun _ => k + 1
  := agrees_advance_bind hs more (leads_pure (Nat.le_refl _))

namespace PassM

/-- Refusals agree, unless the number of steps is their cause. -/
theorem leads_refuseAt {cause : SyntaxError} (h : cause ≠ .stepLimit) (l : Location) :
  Leads p k (refuseAt cause l) (refuseAt cause l) least
  := fun _ _ => ⟨rfl, .error h⟩

/-- Refusals at the next token agree, unless the number of steps is their cause. -/
theorem leads_refuse {cause : SyntaxError} (h : cause ≠ .stepLimit) :
  Leads p k (refuse cause) (refuse cause) least
  := fun _ _ => ⟨rfl, .error h⟩

/-- Nothing is asked of what would follow a refusal. -/
theorem leads_refuseAt_bind {cause : SyntaxError} (h : cause ≠ .stepLimit) (l : Location)
    {c d : β → PassM α} :
  Leads p k (refuseAt cause l >>= c) (refuseAt cause l >>= d) least
  := fun _ _ => ⟨rfl, .error h⟩

/-- Nothing is asked of what would follow a refusal. -/
theorem leads_refuse_bind {cause : SyntaxError} (h : cause ≠ .stepLimit) {c d : β → PassM α} :
  Leads p k (refuse cause >>= c) (refuse cause >>= d) least
  := fun _ _ => ⟨rfl, .error h⟩

/-- A condition that is the same on both sides chooses between actions that agree. -/
theorem leads_ite {q : Prop} [Decidable q] {a a' b b' : PassM α} (h : Leads p k a b least)
    (h' : Leads p k a' b' least) :
  Leads p k (if q then a else a') (if q then b else b') least
  := by
  split
  · apply h
  · apply h'

/-- A step that looks at the state, or changes something else than the position. -/
theorem leads_of_run {a : PassM α} (h : ∀ s : Pass, ∃ value t, s.run a = (.ok value, t) ∧
    t.position = s.position) :
  Leads p k a a fun _ => k
  := by
  intro s hs
  obtain ⟨value, t, hrun, hposition⟩ := h s
  refine ⟨rfl, ?_⟩
  rw [hrun]
  exact .ok (hposition ▸ hs)

theorem leads_symbols :
  Leads p k symbols symbols fun _ => k
  := leads_of_run fun s => ⟨s.symbols, s, rfl, rfl⟩

theorem leads_sees (token : Token) :
  Leads p k (sees token) (sees token) fun _ => k
  := leads_of_run fun s => ⟨_, s, rfl, rfl⟩

theorem leads_note (content : Note) :
  Leads p k (note content) (note content) fun _ => k
  := leads_of_run fun _ => ⟨(), _, rfl, rfl⟩

theorem leads_emit (code : List Operation) :
  Leads p k (emit code) (emit code) fun _ => k
  := leads_of_run fun _ => ⟨(), _, rfl, rfl⟩

theorem leads_depth :
  Leads p k depth depth fun _ => k
  := leads_of_run fun s => ⟨_, s, rfl, rfl⟩

theorem leads_enterScope :
  Leads p k enterScope enterScope fun _ => k
  := leads_of_run fun _ => ⟨(), _, rfl, rfl⟩

theorem leads_exitScope :
  Leads p k exitScope exitScope fun _ => k
  := leads_of_run fun _ => ⟨(), _, rfl, rfl⟩

/-- A change of the table of names takes no token, and fails for no lack of steps. -/
theorem leads_declare (l : Location) (change : SymbolTable → Except SymbolError SymbolTable) :
  Leads p k (declare l change) (declare l change) fun _ => k
  := by
  intro s hs
  refine ⟨rfl, ?_⟩
  rw [Pass.run_declare]
  rcases change s.symbols with cause | T
  · exact .error (nofun : SyntaxError.symbol cause ≠ .stepLimit)
  · exact .ok hs

/-- A check takes no token, and may fail for no lack of steps. -/
theorem leads_check {result : Except (Located SyntaxError) α}
    (h : ∀ e, result = .error e → e.value ≠ .stepLimit) :
  Leads p k (check result) (check result) fun _ => k
  := by
  cases result with
  | ok value => exact leads_pure (Nat.le_refl k)
  | error e => exact fun _ _ => ⟨rfl, .error (h e rfl)⟩

/-- Taking entries back changes neither the outcome nor the position. -/
theorem Leads.transaction {a b : PassM α} (h : Leads p k a b least) :
  Leads p k (PassM.transaction a) (PassM.transaction b) least
  := by
  intro s hs
  obtain ⟨hsame, hallows⟩ := h hs
  rw [Pass.Agrees, Pass.run_transaction, Pass.run_transaction, ← hsame]
  generalize s.run a = outcome at hallows
  cases hallows with
  | ok beyond => exact ⟨rfl, .ok beyond⟩
  | error admits => exact ⟨rfl, .error admits⟩

/-- An action within a number of steps that depends on what lies ahead. -/
theorem takes_budget {a b : Nat → PassM α}
    (h : ∀ {q : Position} {fuel : Nat}, p.Beyond k q → q.bound + 1 < fuel →
      Leads q 0 (a fuel) (b fuel) least) :
  Takes p k (do a (← get).budget) (do b (← get).budget) least
  := by
  intro s hs
  apply h hs _ s.position.beyond_self
  have hbound : s.position.bound ≤ s.stream.ahead + 1 := s.position.bound_le
  rw [Pass.budget]
  omega

/-! ### Tokens -/

/-- What follows an accepted token begins behind it; otherwise nothing is left behind. -/
theorem Leads.accept (token : Token) (more : token ≠ .eof) {c d : Bool → PassM α}
    (h : Leads p (k + 1) (c true) (d true) least) (h' : Leads p k (c false) (d false) least) :
  Leads p k (PassM.accept token >>= c) (PassM.accept token >>= d) least
  := by
  intro s hs
  by_cases htoken : s.lookahead.value = token
  · have haccept : ∀ c : Bool → PassM α,
        s.run (PassM.accept token >>= c) = s.run (do advance; c true) := by
      intro c
      simp [PassM.accept, Pass.run_bind, htoken]
    rw [Pass.Agrees, haccept, haccept]
    apply Pass.agrees_advance_bind hs (htoken ▸ more) h
  · have haccept : ∀ c : Bool → PassM α, s.run (PassM.accept token >>= c) = s.run (c false) := by
      intro c
      simp [PassM.accept, Pass.run_bind, htoken]
    rw [Pass.Agrees, haccept, haccept]
    apply h' hs

theorem leads_accept_ite (token : Token) (more : token ≠ .eof) {a b a' b' : PassM α}
    (h : Leads p (k + 1) a b least) (h' : Leads p k a' b' least) :
  Leads p k (do if ← accept token then a else a') (do if ← accept token then b else b') least
  := Leads.accept token more h h'

/-- An expected mark is left behind. -/
theorem leads_expect (mark : Mark) (place : Place) :
  Leads p k (expect mark place) (expect mark place) fun _ => k + 1
  := by
  intro s hs
  apply Pass.Agrees.peek
  by_cases hmark : s.lookahead.value = .mark mark
  · rw [if_pos hmark]
    apply Pass.agrees_advance hs
    rw [hmark]
    nofun
  · rw [if_neg hmark]
    exact leads_refuse (by nofun) hs

/-- A name is left behind. -/
theorem leads_identifier :
  Leads p k identifier identifier fun _ => k + 1
  := by
  intro s hs
  apply Pass.Agrees.peek
  rcases hnext : s.lookahead with ⟨token, l⟩
  cases token with
  | ident name =>
    apply Pass.agrees_advance_return hs
    rw [hnext]
    nofun
  | _ => exact leads_refuse (by nofun) hs

/-! ### Expressions -/

/-- A call leaves its two parentheses behind, and its arguments begin behind the first. -/
theorem leads_callWith {a b : PassM Nat} (h : Leads p (k + 1) a b fun _ => k + 1) (name : String)
    (l : Location) :
  Leads p k (callWith a name l) (callWith b name l) fun _ => k + 2
  := by
  apply leads_symbols.bind
  intro T
  cases T.functionNamed? name with
  | none => exact leads_refuseAt (by nofun) l
  | some f =>
    apply (leads_expect ..).seq
    apply (leads_sees _).bind
    intro empty
    have hend : ∀ count, Leads p (k + 1)
        (do
          expect .rparen (.afterArguments name)
          if count ≠ f.arity then refuseAt (.wrongArity name f.arity count) l
          emit [.call name]
          return f.returns)
        (do
          expect .rparen (.afterArguments name)
          if count ≠ f.arity then refuseAt (.wrongArity name f.arity count) l
          emit [.call name]
          return f.returns) fun _ => k + 2 := by
      intro count
      apply (leads_expect ..).seq
      apply leads_ite
      · exact leads_refuseAt_bind (by nofun) l
      · apply (leads_emit _).seq
        exact leads_pure (Nat.le_refl _)
    apply leads_ite
    · exact (leads_pure (Nat.le_refl _)).bind hend
    · exact h.bind hend

/-- A queue that is not empty leaves a token behind. -/
theorem leads_queueWith {a b : PassM Yard}
    (h : Leads p k a b fun y => if y = .empty then k else k + 1) :
  Leads p k (queueWith a) (queueWith b) fun items => if items = [] then k else k + 1
  := by
  apply h.bind
  intro y
  apply leads_ite
  · exact leads_refuse_bind (by nofun)
  · apply leads_pure
    by_cases hy : y = .empty
    · rw [if_pos hy, hy]
      exact Nat.le_refl k
    · rw [if_neg hy]
      split <;> omega

/-- An expression leaves a token behind, since an empty queue is refused. -/
theorem leads_expressionWith {a b : PassM (List Item)}
    (h : Leads p k a b fun items => if items = [] then k else k + 1) (slot : Slot) :
  Leads p k (expressionWith a slot) (expressionWith b slot) fun _ => k + 1
  := by
  apply Leads.transaction
  intro s hs
  apply Pass.Agrees.peek
  apply (h hs).bind
  intro items
  cases items with
  | nil =>
    intro t _
    exact ⟨rfl, .error (by nofun)⟩
  | cons item items =>
    intro t ht
    rw [if_neg (List.cons_ne_nil item items)] at ht
    apply (leads_check fun e => Expression.ne_stepLimit_of_compile).bind _ ht
    intro code
    apply leads_emit

end PassM

end

end SilFront
