import SilFront.Proofs.Pieces
import SilFront.Proofs.Termination

/-!
# Nothing is lost in a yard

An expression is read in rounds, each of which reads one piece into the yard, until no piece follows
(`Pass.Round`). The rounds come to an end (`exists_reflTransGen`), and reading the expression in full
is the same as going on from round to round (`run_full_eq_of_reflTransGen`).

What a round passes are the tokens of its piece, and the yard holds that piece with those before it.
So whatever the tokens are, the operands and operators of a queue are those that were read, and a
parenthesis that is left open is noticed (`queue_keeps_pieces`).
-/

namespace SilFront

open PassM

/-! ### Rounds -/

/-- Reads what a piece consists of besides its first token: for a call, the arguments. -/
def Piece.finish (arguments : PassM Nat) : Piece → PassM Unit
  | .call name => do
    let returns ← callWith arguments name.value name.location
    if returns = .void then refuseAt (.voidOperand name.value) name.location
  | _ => pure ()

/-- Reads a rule in full, but leaves it to the next round to read on in the same expression. -/
def Rule.once : {α : Type} → Rule α → PassM α
  | _, .items yard => pure yard
  | _, r => r.full

/-- Reads one piece of an expression into a yard, if one follows. -/
def PassM.piece (y : Yard) : PassM Yard :=
  Rule.body Rule.once (.items y)

/-- A rule is read in full if those that it calls are. -/
theorem Rule.run_full_eq_body {α : Type} (r : Rule α) (s : Pass) :
  s.run r.full = s.run (r.body Rule.full)
  := by
  have hcalls : Rule.Calls s.position r (RuleCall.answer ⟨r, s⟩) Rule.full := by
    intro β r' hlevel k hk t ht
    have hmakes : RuleCall.Makes ⟨r, s⟩ ⟨r', t⟩ := ⟨hlevel, ht.mono (by dsimp only; omega)⟩
    have hanswers := (RuleCall.ends ⟨r', t⟩).answers
    rw [Rule.run_full] at hanswers
    rw [Pass.Agrees, Rule.run_full, RuleCall.run_answer hmakes]
    exact ⟨rfl, hanswers⟩
  rw [(RuleCall.ends ⟨r, s⟩).unfolds]
  apply (Rule.unfold_all _ r rfl hcalls s.position.beyond_self).1

namespace Pass

/-- A round in which an expression is read: from which yard and state it begins, and to which it
leads. A round that finds no piece leaves both as they are. -/
def Round (a b : Yard × Pass) : Prop :=
  a.2.run (piece a.1) = (.ok b.1, b.2)

section

variable {s : Pass} {y y' : Yard} {recur : {β : Type} → Rule β → PassM β}

theorem run_body_of_stops (h : y.Stops s.lookahead.value) :
  s.run (Rule.body recur (.items y)) = (.ok y, s)
  := by
  rw [Rule.body, run_bind, run_peek]
  unfold Yard.Stops at h
  split at h
  all_goals simp_all

theorem run_body_of_undefined {name : String} (h : s.lookahead.value = .ident name)
    (hvariable : s.symbols.kind? name ≠ some .variable)
    (hfunction : s.symbols.kind? name ≠ some .function) :
  s.run (Rule.body recur (.items y)) =
    (.error (.ofSyntax ⟨.undefinedName name, s.lookahead.location⟩), s)
  := by
  rw [Rule.body, run_bind, run_peek]
  simp only [h]
  rw [run_bind, run_symbols]
  rcases hkind : s.symbols.kind? name with _ | _ | _ | _ <;> simp_all

/-- A round reads the next piece, and another round reads on. -/
theorem run_body_of_piece {piece : Piece} (hpiece : Piece.of? s.symbols s.lookahead = some piece)
    (hread : y.read? piece = some y') :
  s.run (Rule.body recur (.items y)) =
    s.run (do advance; piece.finish (recur .arguments); recur (.items y'))
  := by
  rw [Rule.body, run_bind, run_peek]
  obtain ⟨hoperand, rfl⟩ | ⟨name, hname, hkind, rfl⟩ | ⟨hopening, rfl⟩ | ⟨hclosing, rfl⟩ |
    ⟨op, hop, rfl⟩ := Piece.of?_eq_some_iff.mp hpiece
  · cases hread
    unfold Token.IsOperand at hoperand
    split at hoperand
    · simp_all [Piece.finish]
    · simp_all [Piece.finish]
    · rename_i name hname
      simp only [hname]
      rw [run_bind, run_symbols]
      simp only [hoperand]
      rfl
    · cases hoperand
  · -- what the call returns is checked as a part of the call
    cases hread
    have hchecked : ∀ (returns : ReturnType) (k : PassM Yard),
        (if returns = .void then
          refuseAt (.voidOperand name) s.lookahead.location >>= fun _ : Unit => k else k) =
        (if returns = .void then refuseAt (.voidOperand name) s.lookahead.location else pure ()) >>=
          fun _ => k := by
      intro returns k
      split <;> rfl
    simp only [hname]
    rw [run_bind, run_symbols]
    simp only [hkind, Piece.finish, bind_assoc, hchecked]
  · cases hread
    simp only [hopening]
    rfl
  · rw [Yard.read?, ite_eq_iff] at hread
    obtain ⟨-, hnone⟩ | ⟨hopen, hsome⟩ := hread
    · cases hnone
    · cases hsome
      simp only [hclosing, if_neg hopen]
      rfl
  · cases hread
    cases hvalue : s.lookahead.value with
    | mark m => cases m <;> simp_all [Token.operator?, Mark.operator?, Piece.finish]
    | _ => simp [hvalue, Token.operator?] at hop

end

/-- What the next token can be for a yard: none of its pieces, the first token of one, or a name that
is not defined. -/
theorem lookahead_piece_cases (T : SymbolTable) (y : Yard) (t : Located Token) :
  y.Stops t.value ∨ (∃ piece y', Piece.of? T t = some piece ∧ y.read? piece = some y') ∨
    ∃ name, t.value = .ident name ∧ T.kind? name ≠ some .variable ∧
      T.kind? name ≠ some .function
  := by
  obtain hstops | hoperand | ⟨name, hname, hkind⟩ | hundefined | hopening | ⟨hclosing, hopen⟩ |
    ⟨op, hop⟩ := lookahead_cases T y t.value
  · exact .inl hstops
  · exact .inr (.inl ⟨_, _, Piece.of?_eq_some_iff.mpr (.inl ⟨hoperand, rfl⟩), rfl⟩)
  · exact .inr (.inl ⟨_, _,
      Piece.of?_eq_some_iff.mpr (.inr (.inl ⟨name, hname, hkind, rfl⟩)), rfl⟩)
  · exact .inr (.inr hundefined)
  · exact .inr (.inl ⟨_, _,
      Piece.of?_eq_some_iff.mpr (.inr (.inr (.inl ⟨hopening, rfl⟩))), rfl⟩)
  · exact .inr (.inl ⟨_, _,
      Piece.of?_eq_some_iff.mpr (.inr (.inr (.inr (.inl ⟨hclosing, rfl⟩)))), if_neg hopen⟩)
  · exact .inr (.inl ⟨_, _,
      Piece.of?_eq_some_iff.mpr (.inr (.inr (.inr (.inr ⟨op, hop, rfl⟩)))), rfl⟩)

/-- A round finds no piece, or reads one. -/
theorem Round.cases {y y' : Yard} {s t : Pass} (h : Round (y, s) (y', t)) :
  (y.Stops s.lookahead.value ∧ y' = y ∧ t = s) ∨
    ∃ piece, Piece.of? s.symbols s.lookahead = some piece ∧ y.read? piece = some y' ∧
      s.run (do advance; piece.finish (Rule.full .arguments)) = (.ok (), t)
  := by
  simp only [Round, piece] at h
  obtain hstops | ⟨piece, z, hpiece, hread⟩ | ⟨name, hname, hvariable, hfunction⟩ :=
    lookahead_piece_cases s.symbols y s.lookahead
  · rw [run_body_of_stops hstops] at h
    cases h
    exact .inl ⟨hstops, rfl, rfl⟩
  · rw [run_body_of_piece hpiece hread, ← bind_assoc] at h
    obtain ⟨_, u, hfinish, hpure⟩ := run_bind_eq_ok_iff.mp h
    cases hpure
    exact .inr ⟨piece, hpiece, hread, hfinish⟩
  · rw [run_body_of_undefined hname hvariable hfunction] at h
    cases h

theorem round_of_finish {y y' : Yard} {s t : Pass} {piece : Piece}
    (hpiece : Piece.of? s.symbols s.lookahead = some piece) (hread : y.read? piece = some y')
    (h : s.run (do advance; piece.finish (Rule.full .arguments)) = (.ok (), t)) :
  Round (y, s) (y', t)
  := by
  rw [Round, PassM.piece, run_body_of_piece hpiece hread, ← bind_assoc]
  apply run_bind_eq_ok_iff.mpr ⟨(), t, h, rfl⟩

/-! ### Rounds after each other -/

/-- What is read from the beginning of a round on is read from its end on. -/
theorem Round.run_full_eq {a b : Yard × Pass} (h : Round a b) :
  a.2.run (Rule.items a.1).full = b.2.run (Rule.items b.1).full
  := by
  obtain ⟨y, s⟩ := a
  obtain ⟨y', t⟩ := b
  obtain ⟨-, rfl, rfl⟩ | ⟨piece, hpiece, hread, hfinish⟩ := h.cases
  · rfl
  · rw [Rule.run_full_eq_body, run_body_of_piece hpiece hread, ← bind_assoc, run_bind, hfinish]

theorem run_full_eq_of_reflTransGen {a b : Yard × Pass} (h : Relation.ReflTransGen Round a b) :
  a.2.run (Rule.items a.1).full = b.2.run (Rule.items b.1).full
  := by
  induction h with
  | refl => rfl
  | tail _ hround ih => rw [ih, hround.run_full_eq]

theorem run_full_of_stops {y : Yard} {s : Pass} (h : y.Stops s.lookahead.value) :
  s.run (Rule.items y).full = (.ok y, s)
  := by
  rw [Rule.run_full_eq_body, run_body_of_stops h]

/-- What fails in a round fails in full. -/
theorem run_full_of_error {y : Yard} {s t : Pass} {e : Diagnostic}
    (h : s.run (piece y) = (.error e, t)) :
  s.run (Rule.items y).full = (.error e, t)
  := by
  rw [piece] at h
  rw [Rule.run_full_eq_body]
  obtain hstops | ⟨piece, y', hpiece, hread⟩ | ⟨name, hname, hvariable, hfunction⟩ :=
    lookahead_piece_cases s.symbols y s.lookahead
  · rw [run_body_of_stops hstops] at h
    cases h
  · rw [run_body_of_piece hpiece hread, ← bind_assoc] at h ⊢
    rcases hfinish : s.run (do advance; piece.finish (Rule.full .arguments)) with ⟨e' | u, t'⟩
    · cases (run_bind_eq_error_iff.mpr (.inl hfinish)).symm.trans h
      exact run_bind_eq_error_iff.mpr (.inl hfinish)
    · cases (run_bind_eq_ok_iff.mpr ⟨_, _, hfinish, rfl⟩).symm.trans h
  · rwa [run_body_of_undefined hname hvariable hfunction] at h ⊢

/-- The tokens of a piece are passed when it is read, and no others. -/
theorem exists_passes_of_finish {s t : Pass} {piece : Piece}
    (hpiece : Piece.of? s.symbols s.lookahead = some piece)
    (h : s.run (do advance; piece.finish (Rule.full .arguments)) = (.ok (), t)) :
  ∃ ts, s.position.Passes ts t.position ∧ ts ≠ [] ∧ t.symbols = s.symbols ∧
    ∀ us, Piece.split? s.symbols none (ts ++ us) =
      (Piece.split? s.symbols none us).map (piece :: ·)
  := by
  have hmore := Piece.ne_eof_of_of? hpiece
  obtain ⟨p, hp, hfinish⟩ := run_advance_bind_eq_ok_iff.mp h
  cases piece with
  | call name =>
    obtain ⟨returns, u, hcall, hvoid⟩ := run_bind_eq_ok_iff.mp hfinish
    obtain rfl : u = t := by
      split at hvoid
      · cases hvoid
      · cases hvoid
        rfl
    obtain ⟨f, p₂, v, q, -, hopening, hp₂, hargs, hclosing, hq, -, rfl⟩ :=
      run_callWith_eq_ok_iff.mp hcall
    obtain ⟨inner, hinner, hskip, hsymbols⟩ : ∃ inner, p₂.Passes inner v.position ∧
        Piece.skip? 1 inner = some 1 ∧ v.symbols = s.symbols := by
      split at hargs
      · obtain ⟨-, rfl⟩ := hargs
        exact ⟨[], .nil _, rfl, rfl⟩
      · rw [Rule.run_full] at hargs
        obtain ⟨args, p₃, -, -, hchain, hreads, hcompiles, rfl⟩ :=
          (readsItems_and_readsArguments _).2 hargs
        obtain ⟨inner, hinner, hskip⟩ := hchain.exists_skip? hcompiles
          fun a ha => (hreads a ha).exists_skip?
        exact ⟨inner, hinner, hskip 0, rfl⟩
    rw [lookahead_goto] at hopening
    refine ⟨s.lookahead :: p.lookahead :: (inner ++ [v.lookahead]), ?_, by simp, hsymbols, ?_⟩
    · apply Position.Passes.cons hmore hp
      apply Position.Passes.cons (by simp [hopening]) hp₂
      apply hinner.append (.cons (by simp [position, hclosing]) hq (.nil q))
    · intro us
      have hcall := Piece.split?_call hpiece hopening hskip hclosing us
      simpa using hcall
  | _ =>
    cases hfinish
    refine ⟨[s.lookahead], .cons hmore hp (.nil p), by simp, rfl, ?_⟩
    exact Piece.split?_cons_of_begun hpiece rfl

/-- The tokens that have been passed since a state are those of the pieces that are held. -/
def HoldsSince (s : Pass) (b : Yard × Pass) : Prop :=
  b.2.symbols = s.symbols ∧ ∃ ts pieces, s.position.Passes ts b.2.position ∧
    (∀ us, Piece.split? s.symbols none (ts ++ us) =
      (Piece.split? s.symbols none us).map (pieces ++ ·)) ∧
    b.1.Holds pieces

theorem holdsSince_empty (s : Pass) :
  s.HoldsSince (.empty, s)
  := ⟨rfl, [], [], .nil _, by simp, .empty⟩

theorem HoldsSince.round {s : Pass} {a b : Yard × Pass} (h : s.HoldsSince a) (hround : Round a b) :
  s.HoldsSince b
  := by
  obtain ⟨y, u⟩ := a
  obtain ⟨y', t⟩ := b
  obtain ⟨hsymbols, ts, pieces, hpasses, hsplit, hholds⟩ := h
  obtain ⟨-, rfl, rfl⟩ | ⟨piece, hpiece, hread, hfinish⟩ := hround.cases
  · exact ⟨hsymbols, ts, pieces, hpasses, hsplit, hholds⟩
  · obtain ⟨more, hmore, -, hsymbols', hfirst⟩ := exists_passes_of_finish hpiece hfinish
    dsimp only at hsymbols hpasses hholds
    rw [hsymbols] at hsymbols' hfirst
    refine ⟨hsymbols', ts ++ more, pieces ++ [piece], hpasses.append hmore, ?_, hholds.read hread⟩
    intro us
    rw [List.append_assoc, hsplit, hfirst, Option.map_map]
    congr 1
    funext rest
    simp

theorem HoldsSince.rounds {s : Pass} {a b : Yard × Pass} (h : s.HoldsSince a)
    (hrounds : Relation.ReflTransGen Round a b) :
  s.HoldsSince b
  := by
  induction hrounds with
  | refl => exact h
  | tail _ hround ih => apply ih.round hround

/-- Rounds come to one that finds no piece or fails. -/
theorem exists_reflTransGen (a : Yard × Pass) :
  ∃ b, Relation.ReflTransGen Round a b ∧
    (b.1.Stops b.2.lookahead.value ∨ ∃ e t, b.2.run (piece b.1) = (.error e, t))
  := by
  induction hbound : a.2.position.bound using Nat.strong_induction_on generalizing a with
  | h bound ih =>
    obtain ⟨y, s⟩ := a
    obtain hstops | ⟨piece, y', hpiece, hread⟩ | ⟨name, hname, hvariable, hfunction⟩ :=
      lookahead_piece_cases s.symbols y s.lookahead
    · exact ⟨_, .refl, .inl hstops⟩
    · rcases hfinish : s.run (do advance; piece.finish (Rule.full .arguments)) with ⟨e | u, t⟩
      · refine ⟨_, .refl, .inr ⟨e, t, ?_⟩⟩
        rw [PassM.piece, run_body_of_piece hpiece hread, ← bind_assoc]
        exact run_bind_eq_error_iff.mpr (.inl hfinish)
      · obtain ⟨ts, hts, hne, -⟩ := exists_passes_of_finish hpiece hfinish
        -- a piece has a token, so that less is ahead of the next round
        have hlower : t.position.bound < bound := by
          have hlength := List.length_pos_iff.mpr hne
          have hle : ts.length + t.position.bound ≤ bound := hbound ▸ hts.length_add_bound_le
          omega
        obtain ⟨b, hrounds, hend⟩ := ih _ hlower (y', t) rfl
        exact ⟨b, .head (round_of_finish hpiece hread hfinish) hrounds, hend⟩
    · exact ⟨_, .refl, .inr ⟨_, _, run_body_of_undefined hname hvariable hfunction⟩⟩

/-! ### Queues -/

/-- The yards and states that are reached in rounds from a state on, in which an expression
begins. -/
def Reaches (s : Pass) (y : Yard) (t : Pass) : Prop :=
  Relation.ReflTransGen Round (.empty, s) (y, t)

/-- Reading an expression from its beginning on is reading on from where rounds have led. -/
theorem Reaches.run_full_eq {s t : Pass} {y : Yard} (h : s.Reaches y t) :
  s.run (Rule.items .empty).full = t.run (Rule.items y).full
  := run_full_eq_of_reflTransGen h

/-- What is read of an expression is reached in rounds. -/
theorem reaches_of_run_full {s t : Pass} {y : Yard}
    (h : s.run (Rule.items .empty).full = (.ok y, t)) :
  s.Reaches y t
  := by
  obtain ⟨⟨z, u⟩, hrounds, hend⟩ := exists_reflTransGen (.empty, s)
  have hreaches : s.Reaches z u := hrounds
  rw [hreaches.run_full_eq] at h
  obtain hstops | ⟨e, v, herror⟩ := hend
  · rw [run_full_of_stops hstops] at h
    cases h
    exact hreaches
  · rw [run_full_of_error herror] at h
    cases h

/-- The pieces between two states are held by the yard that is reached. -/
theorem Reaches.exists_holds {s t : Pass} {y : Yard} (h : s.Reaches y t) :
  ∃ ts pieces, s.position.Passes ts t.position ∧ Piece.split? s.symbols none ts = some pieces ∧
    y.Holds pieces
  := by
  obtain ⟨-, ts, pieces, hpasses, hsplit, hholds⟩ := s.holdsSince_empty.rounds h
  have hts := hsplit []
  rw [List.append_nil, Piece.split?, Option.map_some, List.append_nil] at hts
  exact ⟨ts, pieces, hpasses, hts, hholds⟩

theorem run_queue_eq (s : Pass) :
  s.run PassM.queue = s.run (queueWith (Rule.items .empty).full)
  := by
  rw [PassM.queue, run_bind, run_get]
  simp only [queueWith, run_bind, Rule.run_full]
  rfl

/-- A queue is refused at the token after its items if parentheses are left open. -/
theorem run_queueWith_of_unclosed {s t : Pass} {read : PassM Yard} {y : Yard}
    (h : s.run read = (.ok y, t)) (hopen : y.unclosed ≠ 0) :
  s.run (queueWith read) =
    (.error (.ofSyntax ⟨.unclosedParentheses y.unclosed, t.lookahead.location⟩), t)
  := by
  rw [queueWith, run_bind, h]
  simp only [if_pos hopen]
  rfl

/-- What is read as the queue of an expression from a state on, whatever tokens follow. -/
structure KeepsPieces (s : Pass) : Prop where
  /-- The rounds come to one that finds no piece, or the queue is refused for what is wrong in one. -/
  rounds : (∃ y t, s.Reaches y t ∧ y.Stops t.lookahead.value) ∨
    ∃ y u e t, s.Reaches y u ∧ u.run (piece y) = (.error e, t) ∧
      s.run PassM.queue = (.error e, t)
  /-- In every round, as many parentheses wait as are counted. -/
  balance : ∀ {y : Yard} {t : Pass}, s.Reaches y t → y.unclosed = y.waiting.count .parenthesis
  /-- A closing parenthesis finds the one that it closes, and lets the operators above it go. -/
  closing : ∀ {y : Yard} {t : Pass}, s.Reaches y t → y.unclosed ≠ 0 →
    ∃ (ops : List (Located BinaryOp)) (rest : List Waiting),
      y.waiting = ops.map .operator ++ .parenthesis :: rest ∧
      y.closeParenthesis = ⟨(ops.map .operator).reverse ++ y.output, rest, y.unclosed - 1⟩
  /-- A queue consists of the operands in the order in which they are read, and of all operators that
  are read, each at its own place. Their parentheses are nested, and none is met in the end. -/
  queue : ∀ {items : List Item} {t : Pass}, s.run queue = (.ok items, t) →
    ∃ y ts pieces, s.Reaches y t ∧ items = y.queue ∧ y.drain.waiting = [] ∧
      s.position.Passes ts t.position ∧ Piece.split? s.symbols none ts = some pieces ∧
      items.filterMap Item.operand? = pieces.filterMap Piece.operand? ∧
      (items.filterMap Item.operator?).Perm (pieces.filterMap Piece.operator?) ∧
      Piece.Nested pieces
  /-- Where no piece follows, the queue has been read if the parentheses are nested, and is refused
  for those that are left open otherwise. -/
  ended : ∀ {y : Yard} {t : Pass}, s.Reaches y t → y.Stops t.lookahead.value →
    ∃ ts pieces, s.position.Passes ts t.position ∧ Piece.split? s.symbols none ts = some pieces ∧
      (Piece.Nested pieces → s.run PassM.queue = (.ok y.queue, t)) ∧
      (¬ Piece.Nested pieces → ∃ n ≠ 0, pieces.count .opening = pieces.count .closing + n ∧
        (SyntaxError.unclosedParentheses n).kind = .bracketBalance ∧
        s.run PassM.queue =
          (.error (.ofSyntax ⟨.unclosedParentheses n, t.lookahead.location⟩), t))

/-- Reading an expression loses nothing and makes nothing up, whether it is one of the grammar or
not. -/
theorem queue_keeps_pieces (s : Pass) :
  s.KeepsPieces
  where
  rounds := by
    obtain ⟨⟨y, u⟩, hrounds, hend⟩ := exists_reflTransGen (.empty, s)
    have hreaches : s.Reaches y u := hrounds
    obtain hstops | ⟨e, t, herror⟩ := hend
    · exact .inl ⟨y, u, hreaches, hstops⟩
    · refine .inr ⟨y, u, e, t, hreaches, herror, ?_⟩
      rw [run_queue_eq, queueWith]
      exact run_bind_eq_error_iff.mpr (.inl (hreaches.run_full_eq.trans (run_full_of_error herror)))
  balance := by
    intro y t h
    obtain ⟨ts, pieces, -, -, hholds⟩ := h.exists_holds
    exact hholds.balance
  closing := by
    intro y t h hopen
    obtain ⟨ts, pieces, -, -, hholds⟩ := h.exists_holds
    obtain ⟨ops, rest, hwaiting, hdrain⟩ := Yard.exists_drain_eq hholds.balance hopen
    refine ⟨ops, rest, hwaiting, ?_⟩
    rw [Yard.closeParenthesis, hdrain, List.tail_cons]
  queue := by
    intro items t h
    rw [run_queue_eq] at h
    obtain ⟨y, hfull, hclosed, rfl⟩ := run_queueWith_eq_ok_iff.mp h
    have hreaches := reaches_of_run_full hfull
    obtain ⟨ts, pieces, hpasses, hsplit, hholds⟩ := hreaches.exists_holds
    obtain ⟨hoperands, hoperators, hnested⟩ := hholds.queue hclosed
    exact ⟨y, ts, pieces, hreaches, rfl, Yard.waiting_drain_eq_nil hholds.balance hclosed, hpasses,
      hsplit, hoperands, hoperators, hnested⟩
  ended := by
    intro y t h hstops
    obtain ⟨ts, pieces, hpasses, hsplit, hholds⟩ := h.exists_holds
    have hfull := h.run_full_eq.trans (run_full_of_stops hstops)
    rw [run_queue_eq]
    refine ⟨ts, pieces, hpasses, hsplit, ?_, ?_⟩
    · intro hnested
      apply run_queueWith_eq_ok_iff.mpr ⟨y, hfull, hholds.leaves.nested_iff.mp hnested, rfl⟩
    · intro hnested
      have hopen := mt hholds.leaves.nested_iff.mpr hnested
      exact ⟨y.unclosed, hopen, hholds.leaves.count_eq, rfl, run_queueWith_of_unclosed hfull hopen⟩

/-- The tokens `1 (+ f(2)) -` are no expression, but all of them are in the queue that is read. The
tokens `((1` are refused. -/
theorem queue_keeps_pieces_misplaced :
  let here (column : Nat) (token : Token) : Located Token := ⟨token, ⟨1, column⟩⟩
  let one := here 1 (.number (.int 1))
  let ts := [one, here 3 (.mark .lparen), here 4 (.mark .plus), here 6 (.ident "f"),
    here 7 (.mark .lparen), here 8 (.number (.int 2)), here 9 (.mark .rparen),
    here 10 (.mark .rparen), here 12 (.mark .minus)]
  let us := [here 1 (.mark .lparen), here 2 (.mark .lparen), here 3 (.number (.int 1))]
  let symbols : SymbolTable := ⟨[], [], [⟨"f", [.scalar .int], .scalar .int⟩], []⟩
  let start (ts : List (Located Token)) : Pass :=
    let p := Position.ofTokens ts ⟨1, 13⟩
    ⟨p.lookahead, p.stream, symbols, .empty, 3⟩
  (∃ items t pieces, (start ts).run PassM.queue = (.ok items, t) ∧ t.lookahead.value = .eof ∧
    items = [.operand one, .operand (here 6 .returnValue), .operator ⟨.add, ⟨1, 4⟩⟩,
      .operator ⟨.sub, ⟨1, 12⟩⟩] ∧
    items.filterMap Item.operand? = pieces.filterMap Piece.operand? ∧
    (items.filterMap Item.operator?).Perm (pieces.filterMap Piece.operator?) ∧
    Piece.Nested pieces) ∧
  (start us).run PassM.queue =
    (.error (.ofSyntax ⟨.unclosedParentheses 2, ⟨1, 13⟩⟩), start [])
  := by
  intro here one ts us symbols start
  constructor
  · have hrun : ((start ts).run PassM.queue).1 = .ok [.operand one, .operand (here 6 .returnValue),
        .operator ⟨.add, ⟨1, 4⟩⟩, .operator ⟨.sub, ⟨1, 12⟩⟩] := by decide +kernel
    have hnext : ((start ts).run PassM.queue).2.lookahead.value = .eof := by decide +kernel
    rcases hqueue : (start ts).run PassM.queue with ⟨outcome, t⟩
    rw [hqueue] at hrun hnext
    obtain rfl : outcome = _ := hrun
    obtain ⟨y, passed, pieces, -, -, -, -, -, hoperands, hoperators, hnested⟩ :=
      (queue_keeps_pieces (start ts)).queue hqueue
    exact ⟨_, t, pieces, rfl, hnext, rfl, hoperands, hoperators, hnested⟩
  · have hone : Round (.empty, start us) (⟨[], [.parenthesis], 1⟩, start us.tail) := rfl
    have htwo : Round (⟨[], [.parenthesis], 1⟩, start us.tail)
        (⟨[], [.parenthesis, .parenthesis], 2⟩, start us.tail.tail) := rfl
    have hthree : Round (⟨[], [.parenthesis, .parenthesis], 2⟩, start us.tail.tail)
        (⟨[.operand (here 3 (.number (.int 1)))], [.parenthesis, .parenthesis], 2⟩, start []) := rfl
    have hreaches : (start us).Reaches
        ⟨[.operand (here 3 (.number (.int 1)))], [.parenthesis, .parenthesis], 2⟩ (start []) :=
      .head hone (.head htwo (.single hthree))
    obtain ⟨passed, pieces, hpasses, hsplit, -, hrefused⟩ :=
      (queue_keeps_pieces (start us)).ended hreaches rfl
    have hmore : ∀ t ∈ us, t.value ≠ .eof := by decide
    have hus : (start us).position.Passes us (start []).position :=
      Position.passes_ofTokens hmore [] _
    obtain rfl := hpasses.unique hus
    obtain rfl : [.opening, .opening, .operand (here 3 (.number (.int 1)))] = pieces :=
      Option.some.inj hsplit
    obtain ⟨n, -, hcount, -, hrun⟩ := hrefused fun hnested => absurd hnested.count_eq (by decide)
    obtain rfl : 2 = n := by simpa using hcount
    exact hrun

end Pass

end SilFront
