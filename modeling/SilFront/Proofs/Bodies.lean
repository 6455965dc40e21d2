import SilFront.Proofs.Statements

/-!
# Reading bodies

A pass reads the body of a function exactly if its tokens are those of a tree that keeps the static
rules, and it has then written what is to be written for that tree
(`Pass.run_functionBody_eq_ok_iff`). The number of steps never gets in the way, since every
statement takes a token: the equivalence is proved by induction on that number, from positions that
fewer tokens can follow than there are steps.
-/

namespace SilFront

/-- An action reads the statements and the closing brace of blocks, from every position that fewer
than the given number of tokens can follow. -/
def PassM.ReadsBodies (registers : Nat) (A : Acceptance) (f : Enclosing) (n : Nat)
    (body : PassM Unit) : Prop :=
  ∀ {s t : Pass} {u : Unit}, s.registers = registers → s.position.bound < n →
    (s.run body = (.ok u, t) ↔ ∃ b : Construct .body, b.Takes A f s t)

namespace Pass

open PassM

section

variable {registers : Nat} {A : Acceptance} (hA : Outline.Exact registers A) {s t : Pass}
  (hs : s.registers = registers) {f : Enclosing} {n : Nat} {body : PassM Unit}
  (hbody : ReadsBodies registers A f n body)

include hA hs hbody

/-! ### Blocks -/

omit hA in
/-- A block is a body between braces, in a scope of its own. -/
theorem run_block_eq_ok_iff (hn : s.position.bound ≤ n) {head : Branch} {u : Unit} :
  s.run (block head body) = (.ok u, t) ↔
    ∃ (b : Construct .body) (T : SymbolTable) (q : Position), b.Checks A f s.symbols.enter T ∧
      s.position.Reads (.mark .lbrace :: b.tokens) q ∧
      t = s.reach q s.symbols
        (Section.all (blockSections s.symbols.depth (b.sections f (s.symbols.depth + 1))))
  := by
  have hstart : ∀ {p : Position}, s.position.Reads [.mark .lbrace] p → p.bound < n := by
    intro p hopen
    apply hopen.bound_lt hn
  simp only [block, run_expect_bind_eq_ok_iff, run_enterScope_bind, position_reach, symbols_reach,
    reach_reach, List.nil_append]
  simp only [run_bind_eq_ok_iff, run_exitScope_eq_ok_iff]
  constructor
  · rintro ⟨p, hopen, _, _, hrun, rfl⟩
    rw [hbody (registers_reach_of_eq hs) (hstart hopen)] at hrun
    obtain ⟨b, T, q, hb, hreads, -, rfl⟩ := hrun
    refine ⟨b, T, q, hb, hopen.append hreads, ?_⟩
    have hexit : T.exit = s.symbols := hb.exit_of_enter
    simp [blockSections, Section.entries, hexit]
  · rintro ⟨b, T, q, hb, hreads, rfl⟩
    obtain ⟨p, hopen, hreads⟩ := Position.reads_cons_iff_exists.mp hreads
    have hexit : T.exit = s.symbols := hb.exit_of_enter
    refine ⟨p, hopen, (), _, (hbody (registers_reach_of_eq hs) (hstart hopen)).mpr
      ⟨b, T, q, hb, hreads, by cases b <;> trivial, rfl⟩, ?_⟩
    simp [blockSections, Section.entries, hexit]

omit hA in
theorem run_block_bind_eq_ok_iff (hn : s.position.bound ≤ n) {β : Type} {head : Branch}
    {second : Unit → PassM β} {v : β} :
  s.run (block head body >>= second) = (.ok v, t) ↔
    ∃ (b : Construct .body) (T : SymbolTable) (q : Position), b.Checks A f s.symbols.enter T ∧
      s.position.Reads (.mark .lbrace :: b.tokens) q ∧
      (s.reach q s.symbols (Section.all
        (blockSections s.symbols.depth (b.sections f (s.symbols.depth + 1))))).run (second ()) =
        (.ok v, t)
  := by
  simp only [run_bind_eq_ok_iff, run_block_eq_ok_iff hs hbody hn]
  constructor
  · rintro ⟨_, _, ⟨b, T, q, hb, hreads, rfl⟩, h⟩
    exact ⟨b, T, q, hb, hreads, h⟩
  · rintro ⟨b, T, q, hb, hreads, h⟩
    exact ⟨(), _, ⟨b, T, q, hb, hreads, rfl⟩, h⟩

/-- A block that is entered on a condition. -/
theorem run_guarded_bind_eq_ok_iff (hn : s.position.bound ≤ n) {β : Type} {head : Branch}
    {second : Unit → PassM β} {v : β} :
  s.run (condition head >>= fun _ => note (.branch head) >>= fun _ => block head body >>= second) =
      (.ok v, t) ↔
    ∃ (e : Outline) (b : Construct .body) (T : SymbolTable) (q : Position),
      A s.symbols .register (.mark .rparen) e ∧ b.Checks A f s.symbols.enter T ∧
      s.position.Reads (conditionTokens e ++ .mark .lbrace :: b.tokens) q ∧
      (s.reach q s.symbols (Section.all (.expression e :: .note (.branch head) ::
        blockSections s.symbols.depth (b.sections f (s.symbols.depth + 1))))).run (second ()) =
        (.ok v, t)
  := by
  have hstart : ∀ {e : Outline} {p : Position}, s.position.Reads (conditionTokens e) p →
      p.bound ≤ n := by
    intro e p hcondition
    apply hcondition.bound_le hn
  simp only [run_condition_bind_eq_ok_iff hA hs, run_note_bind, position_reach, symbols_reach,
    reach_reach]
  constructor
  · rintro ⟨e, p, he, hcondition, hrun⟩
    rw [run_block_bind_eq_ok_iff (registers_reach_of_eq hs) hbody (hstart hcondition)] at hrun
    obtain ⟨b, T, q, hb, hreads, hrun⟩ := hrun
    refine ⟨e, b, T, q, he, hb, hcondition.append hreads, ?_⟩
    simpa [Section.entries] using hrun
  · rintro ⟨e, b, T, q, he, hb, hreads, hrun⟩
    obtain ⟨p, hcondition, hreads⟩ := Position.reads_append_iff.mp hreads
    refine ⟨e, p, he, hcondition, ?_⟩
    rw [run_block_bind_eq_ok_iff (registers_reach_of_eq hs) hbody (hstart hcondition)]
    refine ⟨b, T, q, hb, hreads, ?_⟩
    simpa [Section.entries] using hrun

/-- A loop with a condition. -/
theorem run_whileStatement_eq_ok_iff (h : s.lookahead.value = .keyword .whileWord)
    (hn : s.position.bound ≤ n) {u : Unit} :
  s.run (whileStatement body) = (.ok u, t) ↔
    ∃ e b, (Construct.whileLoop e b).Takes A f s t
  := by
  rw [whileStatement, ← bind_pure (block .whileLoop body),
    run_advance_bind_eq_ok_iff_reads h (by simp)]
  constructor
  · rintro ⟨p, hword, hrun⟩
    rw [run_guarded_bind_eq_ok_iff hA (registers_reach_of_eq hs) hbody
      (hword.bound_le hn)] at hrun
    obtain ⟨e, b, T, q, he, hb, hreads, hrun⟩ := hrun
    refine ⟨e, b, _, q, .whileLoop he hb, hword.append hreads, trivial, ?_⟩
    simpa [Construct.sections, eq_comm] using hrun
  · rintro ⟨e, b, T, q, hchecks, hreads, -, rfl⟩
    obtain ⟨p, hword, hreads⟩ := Position.reads_cons_iff_exists.mp hreads
    refine ⟨p, hword, ?_⟩
    cases hchecks with
    | whileLoop he hb =>
      rw [run_guarded_bind_eq_ok_iff hA (registers_reach_of_eq hs) hbody (hword.bound_le hn)]
      exact ⟨e, b, _, q, he, hb, hreads, by simp [Construct.sections]⟩

/-- A loop with three expressions. -/
theorem run_forStatement_eq_ok_iff (h : s.lookahead.value = .keyword .forWord)
    (hn : s.position.bound ≤ n) {u : Unit} :
  s.run (forStatement body) = (.ok u, t) ↔
    ∃ start condition step b, (Construct.forLoop start condition step b).Takes A f s t
  := by
  simp only [forStatement,
    run_advance_bind_eq_ok_iff_reads h (show Token.keyword .forWord ≠ .eof by simp),
    run_expect_bind_eq_ok_iff, run_expression_expect_bind_eq_ok_iff hA (registers_reach_of_eq hs),
    run_note_bind, position_reach, symbols_reach, reach_reach, List.nil_append]
  constructor
  · rintro ⟨p₁, hword, p₂, hopen, start, p₃, hstart, hstart', condition, p₄, hcondition,
      hcondition', step, p₅, hstep, hstep', hrun⟩
    have hhead := hword.append (hopen.append (hstart'.append (hcondition'.append hstep')))
    rw [run_block_eq_ok_iff (registers_reach_of_eq hs) hbody (hhead.bound_le hn)] at hrun
    obtain ⟨b, T, q, hb, hreads, rfl⟩ := hrun
    refine ⟨start, condition, step, b, _, q, .forLoop hstart hcondition hstep hb, ?_, trivial, ?_⟩
    · simpa [Construct.tokens] using hhead.append hreads
    · simp [Construct.sections, Section.entries]
  · rintro ⟨start, condition, step, b, T, q, hchecks, hreads, -, rfl⟩
    obtain ⟨p₁, hword, hreads⟩ := Position.reads_cons_iff_exists.mp hreads
    obtain ⟨p₂, hopen, hreads⟩ := Position.reads_cons_iff_exists.mp hreads
    rw [List.append_cons] at hreads
    obtain ⟨p₃, hstart', hreads⟩ := Position.reads_append_iff.mp hreads
    rw [List.append_cons] at hreads
    obtain ⟨p₄, hcondition', hreads⟩ := Position.reads_append_iff.mp hreads
    rw [List.append_cons] at hreads
    obtain ⟨p₅, hstep', hreads⟩ := Position.reads_append_iff.mp hreads
    have hhead := hword.append (hopen.append (hstart'.append (hcondition'.append hstep')))
    cases hchecks with
    | forLoop hstart hcondition hstep hb =>
      refine ⟨p₁, hword, p₂, hopen, start, p₃, hstart, hstart', condition, p₄, hcondition,
        hcondition', step, p₅, hstep, hstep', ?_⟩
      rw [run_block_eq_ok_iff (registers_reach_of_eq hs) hbody (hhead.bound_le hn)]
      exact ⟨b, _, q, hb, hreads, by simp [Construct.sections, Section.entries]⟩

omit hs in
/-- The alternatives of a branch, with enough steps. -/
theorem run_alternatives_eq_ok_iff (fuel : Nat) {u : Unit} :
  ∀ {s t : Pass}, s.registers = registers → s.position.bound ≤ n → s.position.bound < fuel →
    (s.run (alternatives body fuel) = (.ok u, t) ↔
      ∃ c : Construct .alternatives, c.Takes A f s t)
  := by
  induction fuel with
  | zero =>
    intro s t _ _ hfuel
    cases hfuel
  | succ fuel ih =>
    intro s t hs hn hfuel
    simp only [alternatives,
      run_accept_bind_eq_ok_iff (show Token.keyword .elseWord ≠ .eof by simp),
      run_accept_bind_eq_ok_iff (show Token.keyword .ifWord ≠ .eof by simp), if_true, if_false,
      Bool.false_eq_true, run_note_bind, position_reach, symbols_reach, reach_reach,
      List.nil_append, lookahead_reach]
    constructor
    · rintro (⟨p₁, helse, ⟨p₂, hif, hrun⟩ | ⟨-, hrun⟩⟩ | ⟨hend, hrun⟩)
      · have hhead := helse.append hif
        rw [run_guarded_bind_eq_ok_iff hA (registers_reach_of_eq hs) hbody
          (hhead.bound_le hn)] at hrun
        obtain ⟨e, b, T, p₃, he, hb, hreads, hrun⟩ := hrun
        have hblock := hhead.append hreads
        rw [reach_reach, ih (registers_reach_of_eq hs) (hblock.bound_le hn)
          (hblock.bound_lt (Nat.lt_succ_iff.mp hfuel))] at hrun
        obtain ⟨c, T', q, hc, hrest, hmay, rfl⟩ := hrun
        obtain rfl : T' = s.symbols := hc.eq_of_alternatives
        refine ⟨.elseIf e b c, _, q, .elseIf he hb hc, ?_, hmay, ?_⟩
        · simpa [Construct.tokens] using hblock.append hrest
        · simp [Construct.sections]
      · rw [run_block_eq_ok_iff (registers_reach_of_eq hs) hbody (helse.bound_le hn)] at hrun
        obtain ⟨b, T, q, hb, hreads, rfl⟩ := hrun
        refine ⟨.otherwise b, _, q, .otherwise hb, helse.append hreads, trivial, ?_⟩
        simp [Construct.sections, Section.entries]
      · obtain ⟨-, rfl⟩ := by simpa using hrun
        refine ⟨.done, _, s.position, .done, by simp [Construct.tokens], hend, ?_⟩
        rw [Construct.sections_done, Section.all_nil, reach_position]
    · rintro ⟨c, T, q, hchecks, hreads, hmay, rfl⟩
      cases hchecks with
      | done =>
        obtain rfl := Position.reads_nil_iff.mp hreads
        refine .inr ⟨hmay, ?_⟩
        rw [Construct.sections_done, Section.all_nil, reach_position, run_pure]
      | @elseIf _ _ e b c he hb hc =>
        obtain ⟨p₁, helse, hreads⟩ := Position.reads_cons_iff_exists.mp hreads
        obtain ⟨p₂, hif, hreads⟩ := Position.reads_cons_iff_exists.mp hreads
        rw [← List.cons_append, ← List.append_assoc] at hreads
        obtain ⟨p₃, hreads, hrest⟩ := Position.reads_append_iff.mp hreads
        have hhead := helse.append hif
        have hblock := hhead.append hreads
        refine .inl ⟨p₁, helse, .inl ⟨p₂, hif, ?_⟩⟩
        rw [run_guarded_bind_eq_ok_iff hA (registers_reach_of_eq hs) hbody
          (hhead.bound_le hn)]
        refine ⟨e, b, _, p₃, he, hb, hreads, ?_⟩
        rw [reach_reach, ih (registers_reach_of_eq hs) (hblock.bound_le hn)
          (hblock.bound_lt (Nat.lt_succ_iff.mp hfuel))]
        exact ⟨c, _, q, hc, hrest, hmay, by simp [Construct.sections]⟩
      | @otherwise _ _ b hb =>
        obtain ⟨p₁, helse, hreads⟩ := Position.reads_cons_iff_exists.mp hreads
        refine .inl ⟨p₁, helse, .inr ⟨by simp [hreads.lookahead], ?_⟩⟩
        rw [run_block_eq_ok_iff (registers_reach_of_eq hs) hbody (helse.bound_le hn)]
        exact ⟨b, _, q, hb, hreads, by simp [Construct.sections, Section.entries]⟩

/-- A branch with its alternatives. -/
theorem run_ifStatement_eq_ok_iff (h : s.lookahead.value = .keyword .ifWord)
    (hn : s.position.bound ≤ n) {u : Unit} :
  s.run (ifStatement body) = (.ok u, t) ↔
    ∃ e b c, (Construct.branch e b c).Takes A f s t
  := by
  rw [ifStatement, run_advance_bind_eq_ok_iff_reads h (by simp)]
  constructor
  · rintro ⟨p₁, hif, hrun⟩
    rw [run_guarded_bind_eq_ok_iff hA (registers_reach_of_eq hs) hbody
      (hif.bound_le hn)] at hrun
    obtain ⟨e, b, T, p₂, he, hb, hreads, hrun⟩ := hrun
    have hblock := hif.append hreads
    rw [reach_reach, run_get_bind, run_alternatives_eq_ok_iff hA hbody _ (registers_reach_of_eq hs)
      (hblock.bound_le hn) (bound_position_lt_budget _)] at hrun
    obtain ⟨c, T', q, hc, hrest, hmay, rfl⟩ := hrun
    obtain rfl : T' = s.symbols := hc.eq_of_alternatives
    refine ⟨e, b, c, _, q, .branch he hb hc, ?_, hmay, ?_⟩
    · simpa [Construct.tokens] using hblock.append hrest
    · simp [Construct.sections]
  · rintro ⟨e, b, c, T, q, hchecks, hreads, hmay, rfl⟩
    obtain ⟨p₁, hif, hreads⟩ := Position.reads_cons_iff_exists.mp hreads
    rw [← List.cons_append, ← List.append_assoc] at hreads
    obtain ⟨p₂, hreads, hrest⟩ := Position.reads_append_iff.mp hreads
    have hblock := hif.append hreads
    refine ⟨p₁, hif, ?_⟩
    cases hchecks with
    | branch he hb hc =>
      rw [run_guarded_bind_eq_ok_iff hA (registers_reach_of_eq hs) hbody (hif.bound_le hn)]
      refine ⟨e, b, _, p₂, he, hb, hreads, ?_⟩
      rw [reach_reach, run_get_bind, run_alternatives_eq_ok_iff hA hbody _
        (registers_reach_of_eq hs) (hblock.bound_le hn) (bound_position_lt_budget _)]
      exact ⟨c, _, q, hc, hrest, hmay, by simp [Construct.sections]⟩

/-! ### Bodies -/

/-- A statement is read exactly if it takes the pass to the state that is reached. -/
theorem run_statement_eq_ok_iff (hn : s.position.bound ≤ n) {u : Unit} :
  s.run (statement f body) = (.ok u, t) ↔ ∃ c : Construct .statement, c.Takes A f s t
  := by
  rw [statement, run_peek_bind]
  constructor
  · intro h
    have hscalar : ∀ type : ScalarType, s.lookahead.value = type.token →
        s.run (scalarVariable type) = (.ok u, t) →
        ∃ c : Construct .statement, c.Takes A f s t := by
      intro type hvalue h
      obtain ⟨name, value, hc⟩ := (run_scalarVariable_eq_ok_iff_takes hA hs hvalue).mp h
      exact ⟨_, hc⟩
    split at h
    · rename_i hvalue
      apply hscalar .byte hvalue h
    · rename_i hvalue
      apply hscalar .int hvalue h
    · rename_i hvalue
      apply hscalar .float hvalue h
    · rename_i hvalue
      obtain ⟨value, hc⟩ := (run_returnStatement_eq_ok_iff hA hs hvalue).mp h
      exact ⟨_, hc⟩
    · rename_i hvalue
      obtain ⟨e, b, c, hc⟩ := (run_ifStatement_eq_ok_iff hA hs hbody hvalue hn).mp h
      exact ⟨_, hc⟩
    · rename_i hvalue
      obtain ⟨e, b, hc⟩ := (run_whileStatement_eq_ok_iff hA hs hbody hvalue hn).mp h
      exact ⟨_, hc⟩
    · rename_i hvalue
      obtain ⟨start, condition, step, b, hc⟩ :=
        (run_forStatement_eq_ok_iff hA hs hbody hvalue hn).mp h
      exact ⟨_, hc⟩
    · cases h
    · cases h
    · rename_i hvalue
      obtain ⟨e, hc⟩ | ⟨es, hc⟩ | ⟨record, hc⟩ :=
        (run_namedStatement_eq_ok_iff hA hs (f := f) hvalue).mp h <;>
      exact ⟨_, hc⟩
    · cases h
  · rintro ⟨c, hc⟩
    have hlookahead : ∃ t rest, c.tokens = t :: rest ∧ s.lookahead.value = t := by
      obtain ⟨token, rest, hcons, -⟩ := c.exists_tokens_eq_cons
      obtain ⟨T, q, -, hreads, -⟩ := hc
      rw [hcons] at hreads
      exact ⟨token, rest, hcons, hreads.lookahead⟩
    obtain ⟨token, rest, hcons, hvalue⟩ := hlookahead
    cases c
    all_goals obtain ⟨rfl, -⟩ := List.cons.inj hcons
    case scalar type name value =>
      have hrun := (run_scalarVariable_eq_ok_iff_takes hA hs hvalue (u := u)).mpr ⟨_, _, hc⟩
      cases type <;> rw [hvalue] <;> exact hrun
    all_goals rw [hvalue]
    case assignment =>
      apply (run_namedStatement_eq_ok_iff hA hs hvalue).mpr (.inl ⟨_, hc⟩)
    case call =>
      apply (run_namedStatement_eq_ok_iff hA hs hvalue).mpr (.inr (.inl ⟨_, hc⟩))
    case record =>
      apply (run_namedStatement_eq_ok_iff hA hs hvalue).mpr (.inr (.inr ⟨_, hc⟩))
    case returning =>
      apply (run_returnStatement_eq_ok_iff hA hs hvalue).mpr ⟨_, hc⟩
    case branch =>
      apply (run_ifStatement_eq_ok_iff hA hs hbody hvalue hn).mpr ⟨_, _, _, hc⟩
    case whileLoop =>
      apply (run_whileStatement_eq_ok_iff hA hs hbody hvalue hn).mpr ⟨_, _, hc⟩
    case forLoop =>
      apply (run_forStatement_eq_ok_iff hA hs hbody hvalue hn).mpr ⟨_, _, _, _, hc⟩

end

/-- Bodies are read in as many steps as tokens can follow. The induction is on the number of steps:
a block inside a statement begins after a token of it, and so does what follows the statement. -/
theorem readsBodies_statements {registers : Nat} {A : Acceptance}
    (hA : Outline.Exact registers A) (f : Enclosing) (fuel : Nat) :
  ReadsBodies registers A f fuel (statements f fuel)
  := by
  induction fuel with
  | zero =>
    intro s t u _ hfuel
    cases hfuel
  | succ fuel ih =>
    intro s t u hs hfuel
    have hn : s.position.bound ≤ fuel := Nat.lt_succ_iff.mp hfuel
    rw [statements, run_peek_bind]
    constructor
    · intro h
      split at h
      · rename_i hvalue
        obtain ⟨q, hclose, rfl⟩ := (run_advance_eq_ok_iff_reads hvalue (by simp)).mp h
        exact ⟨.close, _, q, .close, hclose, trivial, rfl⟩
      · cases h
      · obtain ⟨_, u, hfirst, hrest⟩ := run_bind_eq_ok_iff.mp h
        obtain ⟨c, T, p, hc, hreads, -, rfl⟩ := (run_statement_eq_ok_iff hA hs ih hn).mp hfirst
        obtain ⟨token, tokens, hcons, -⟩ := c.exists_tokens_eq_cons
        have hlower : p.bound < fuel := by
          rw [hcons] at hreads
          apply hreads.bound_lt hn
        obtain ⟨b, T', q, hb, hmore, -, rfl⟩ := (ih (registers_reach_of_eq hs) hlower).mp hrest
        refine ⟨.more c b, T', q, .more hc hb, hreads.append hmore, trivial, ?_⟩
        simp [Construct.sections, hc.depth_eq]
    · rintro ⟨b, T, q, hchecks, hreads, -, rfl⟩
      cases hchecks with
      | close =>
        have hvalue := hreads.lookahead
        rw [show s.lookahead.value = .mark .rbrace from hvalue]
        apply (run_advance_eq_ok_iff_reads hvalue (by simp)).mpr
        exact ⟨q, hreads, rfl⟩
      | @more _ T' _ c b hc hb =>
        obtain ⟨p, hfirst, hrest⟩ := Position.reads_append_iff.mp hreads
        obtain ⟨token, tokens, hcons, hbrace, heof, -⟩ := c.exists_tokens_eq_cons
        rw [hcons] at hfirst
        have hvalue : s.lookahead.value = token := hfirst.lookahead
        have hlower := hfirst.bound_lt hn
        rw [← hcons] at hfirst
        split
        · rename_i h
          exact absurd (hvalue.symm.trans h) hbrace
        · rename_i h
          exact absurd (hvalue.symm.trans h) heof
        · apply run_bind_eq_ok_iff.mpr
          refine ⟨(), _, (run_statement_eq_ok_iff hA hs ih hn).mpr
            ⟨c, T', p, hc, hfirst, ?_, rfl⟩, ?_⟩
          · apply Construct.mayPrecede_of_ne
            apply Construct.lookahead_ne_elseWord hrest
          · apply (ih (registers_reach_of_eq hs) hlower).mpr
            refine ⟨b, T, q, hb, hrest, by cases b <;> trivial, ?_⟩
            simp [Construct.sections, hc.depth_eq]

/-- A pass reads the body of a function exactly if there is a tree for it that keeps the static
rules. -/
theorem run_functionBody_eq_ok_iff {A : Acceptance} {s t : Pass}
    (hA : Outline.Exact s.registers A) {f : Enclosing} {u : Unit} :
  s.run (functionBody f) = (.ok u, t) ↔ ∃ b : Construct .body, b.Takes A f s t
  := by
  rw [functionBody, run_get_bind]
  apply readsBodies_statements hA f s.budget rfl s.bound_position_lt_budget

end Pass

end SilFront
