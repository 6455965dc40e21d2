import Mathlib.Logic.Relation
import SilFront.Proofs.LineBreak

/-!
# Programs after programs

A pass goes from declaration to declaration, and none of them depends on the token after it. So if a
program is accepted, and the text of another one follows on the next line, then the pass comes to the
first token of the other text with the listing and the table of names that the first program leaves
behind.

From there on it does what a pass over the other text does from that table of names: its entries
come after those of the first program, and its errors are as many lines further down as there are
lines before the other text (`Pass.continuing`, `compile_append`).
-/

namespace SilFront

theorem Listing.append_nil (l : Listing) :
  l.append [] = l
  := by
  apply ext_toList
  rw [toList_append, List.append_nil]

/-- Tokens that stand in front of a stream are passed on the way to its first token. -/
theorem Position.exists_passes_of_append {ts : List (Located Token)}
    (hts : ∀ t ∈ ts, t.value ≠ .eof) {stream : TokenStream} {q : Position}
    (hq : stream.next = (.ok q.lookahead, q.stream)) :
  ∃ p : Position, (⟨ts.map .ok ++ stream.steps, stream.finish⟩ : TokenStream).next =
    (.ok p.lookahead, p.stream) ∧ p.Passes ts q
  := by
  induction ts with
  | nil => exact ⟨q, hq, .nil q⟩
  | cons t ts ih =>
    rw [List.forall_mem_cons] at hts
    obtain ⟨p, hp, hpasses⟩ := ih hts.2
    refine ⟨⟨t, ⟨ts.map .ok ++ stream.steps, stream.finish⟩⟩, rfl, ?_⟩
    apply Passes.cons hts.1 (Position.next?_eq_some_iff.mpr hp) hpasses

namespace Pass

open PassM

variable {s t u : Pass}

/-! ### From declaration to declaration -/

/-- A declaration leads from one state to another one. -/
def Declares (s t : Pass) : Prop :=
  s.lookahead.value ≠ .eof ∧ s.run declaration = (.ok (), t)

/-- Every declaration has a token. -/
theorem bound_lt_of_run_declaration (h : s.run declaration = (.ok (), t)) :
  t.position.bound < s.position.bound
  := by
  obtain ⟨d, T, q, -, hreads, rfl⟩ :=
    (run_declaration_eq_ok_iff (Outline.exact_accepted s.registers)).mp h
  obtain ⟨token, tokens, hcons, -⟩ := d.exists_tokens_eq_cons
  rw [hcons] at hreads
  apply hreads.bound_lt le_rfl

/-- The number of steps makes no difference, if there are enough of them. -/
theorem run_declarations_eq {n m : Nat} (hn : s.position.bound < n) (hm : s.position.bound < m) :
  s.run (declarations n) = s.run (declarations m)
  := by
  induction n generalizing s m with
  | zero => cases hn
  | succ n ih =>
    cases m with
    | zero => cases hm
    | succ m =>
      rw [declarations, declarations, run_bind_of_run_eq_ok (run_sees _ _),
        run_bind_of_run_eq_ok (run_sees _ _)]
      split
      · rfl
      · rw [run_bind, run_bind]
        rcases hrun : s.run declaration with ⟨_ | _, t⟩
        · rfl
        · have hlt := bound_lt_of_run_declaration hrun
          apply ih (by omega) (by omega)

/-- A program goes on after each of its declarations as it would begin there. -/
theorem Declares.run_program_eq (h : s.Declares t) :
  s.run program = t.run program
  := by
  obtain ⟨hmore, hrun⟩ := h
  have hlt := bound_lt_of_run_declaration hrun
  have hbudget := bound_position_lt_budget s
  obtain ⟨n, hn⟩ := Nat.exists_eq_add_one_of_ne_zero (Nat.ne_zero_of_lt hbudget)
  rw [program, run_get_bind, run_get_bind, hn, declarations, run_bind_of_run_eq_ok (run_sees _ _),
    decide_eq_false hmore, if_neg Bool.false_ne_true, run_bind_of_run_eq_ok hrun]
  apply run_declarations_eq (by omega) (bound_position_lt_budget t)

theorem run_program_eq_of_reaches (h : Relation.ReflTransGen Declares s t) :
  s.run program = t.run program
  := by
  induction h with
  | refl => rfl
  | tail _ hlast ih => rw [ih, hlast.run_program_eq]

/-- A program that keeps the static rules leads past its tokens, whatever follows them. -/
theorem reaches_of_checks {A : Acceptance} (hA : Outline.Exact s.registers A) {program : Program}
    {T : SymbolTable} {q : Position} (hchecks : program.Checks A s.symbols T)
    (hreads : s.position.Reads program.tokens q) :
  Relation.ReflTransGen Declares s
    (s.reach q T (Section.all (program.sections s.symbols.depth)))
  := by
  induction program generalizing s with
  | nil =>
    cases hchecks
    obtain rfl := Position.reads_nil_iff.mp hreads
    rw [Program.sections, List.flatMap_nil, Section.all_nil, reach_position]
  | cons d program ih =>
    cases hchecks with
    | @cons _ T' _ _ _ hd hprogram =>
      obtain ⟨p, hfirst, hrest⟩ := Position.reads_append_iff.mp hreads
      obtain ⟨token, tokens, hcons, hmore⟩ := d.exists_tokens_eq_cons
      have hvalue : s.lookahead.value = token := by
        rw [hcons] at hfirst
        exact hfirst.lookahead
      have hdeclares : s.Declares (s.reach p T' (Section.all (d.sections s.symbols.depth))) := by
        refine ⟨hvalue ▸ hmore, ?_⟩
        apply (run_declaration_eq_ok_iff hA).mpr ⟨d, T', p, hd, hfirst, rfl⟩
      have hih := ih (s := s.reach p T' (Section.all (d.sections s.symbols.depth))) hA hprogram hrest
      apply Relation.ReflTransGen.head hdeclares
      simpa [Program.sections, hd.depth_eq] using hih

/-! ### Going on -/

/-- A state `k` lines further down, after entries that were written earlier. -/
def continuing (k : Nat) (earlier : Listing) (s : Pass) : Pass :=
  { s with
    lookahead := s.lookahead.below k
    stream := s.stream.below k
    listing := earlier.append s.listing.toList }

@[simp]
theorem budget_continuing (k : Nat) (earlier : Listing) (s : Pass) :
  (s.continuing k earlier).budget = s.budget
  := by
  have hok : Except.isOk ∘ Step.below k = Except.isOk := by
    funext step
    cases step <;> rfl
  simp only [budget, continuing, TokenStream.below, TokenStream.ahead, List.takeWhile_map, hok,
    List.length_map]

end Pass

namespace Correspondence

open PassM

variable {k : Nat} {earlier : Listing} {α : Type} {Q : α → α → Prop}

/-- The same outcome `k` lines further down, after entries that were written earlier. -/
inductive Continues (k : Nat) (earlier : Listing) (Q : α → α → Prop) :
    Except Diagnostic α × Pass → Except Diagnostic α × Pass → Prop
  | ok {x y : α} {t : Pass} (result : Q x y) :
      Continues k earlier Q (.ok x, t) (.ok y, t.continuing k earlier)
  | error {e : Diagnostic} {t : Pass} :
      Continues k earlier Q (.error e, t) (.error (e.below k), t.continuing k earlier)

/-- The actions that do the same `k` lines further down and after entries that were written
earlier. -/
def continuation (k : Nat) (earlier : Listing) : Correspondence where
  Places l l' := l' = l.below k
  Relates Q a b := ∀ s : Pass, Continues k earlier Q (s.run a) ((s.continuing k earlier).run b)
  relates_pure := by
    intro α Q x y hQ s
    exact .ok hQ
  relates_bind := by
    intro α β Q R a b first second h h' s
    have hfirst := h s
    rw [Pass.run_bind, Pass.run_bind]
    generalize s.run a = outcome at hfirst ⊢
    generalize (s.continuing k earlier).run b = outcome' at hfirst ⊢
    cases hfirst with
    | ok result => apply h' _ _ result
    | error => exact .error
  relates_peek := by
    intro s
    exact .ok ⟨rfl⟩
  relates_advance := by
    intro s
    rw [Pass.run_advance, Pass.run_advance, Pass.continuing, TokenStream.next_below]
    rcases s.stream.next with ⟨_ | t, stream⟩
    · exact .error
    · exact .ok rfl
  relates_refuseAt := by
    rintro α Q cause l _ rfl s
    exact .error
  relates_symbols := by
    intro s
    exact .ok rfl
  relates_budget := by
    intro α Q a b h s
    rw [Pass.run_get_bind, Pass.run_get_bind, Pass.budget_continuing]
    apply h

namespace continuation

/-- A change of the listing at its end. -/
theorem relates_modify_listing {change : Listing → Listing} {entries : List Entry}
    (h : ∀ l, (change l).toList = l.toList ++ entries) :
  (continuation k earlier).Relates Eq (modify fun s => { s with listing := change s.listing })
    (modify fun s => { s with listing := change s.listing })
  := by
  intro s
  have hlisting : change (earlier.append s.listing.toList) =
      earlier.append (change s.listing).toList := by
    apply Listing.ext_toList
    simp [h]
  rw [Pass.run_modify, Pass.run_modify, Pass.continuing, hlisting]
  exact .ok rfl

theorem relates_emit (code : List Operation) :
  (continuation k earlier).Relates Eq (emit code) (emit code)
  := relates_modify_listing fun l => l.toList_append (code.map .operation)

theorem relates_note (content : Note) :
  (continuation k earlier).Relates Eq (note content) (note content)
  := relates_modify_listing fun l => l.toList_push (.note content)

theorem relates_modify_symbols (change : SymbolTable → SymbolTable) :
  (continuation k earlier).Relates Eq (modify fun s => { s with symbols := change s.symbols })
    (modify fun s => { s with symbols := change s.symbols })
  := by
  intro s
  exact .ok rfl

theorem relates_compile {items items' : List Item} {l l' : Location} (slot : Slot)
    (hitems : List.Forall₂ (Item.Matches (continuation k earlier).Places) items items')
    (hplace : (continuation k earlier).Places l l') :
  (continuation k earlier).Relates Eq
    (do emit (← check (Expression.compile items slot (← get).registers l)))
    (do emit (← check (Expression.compile items' slot (← get).registers l')))
  := by
  intro s
  have hcompile : Expression.Agree (continuation k earlier).Places (fun _ => False) Eq
      (Expression.compile items slot s.registers l)
      (Expression.compile items' slot s.registers l') :=
    Expression.agree_compile le_rfl (.inl rfl) slot hitems hplace
  rw [Pass.run_get_bind, Pass.run_get_bind, Pass.run_bind, Pass.run_bind,
    show (s.continuing k earlier).registers = s.registers from rfl]
  generalize Expression.compile items slot s.registers l = code at hcompile ⊢
  generalize Expression.compile items' slot s.registers l' = code' at hcompile ⊢
  cases hcompile with
  | @ok code _ h =>
    cases h
    apply relates_emit code s
  | @refused e e' h =>
    obtain ⟨rfl⟩ := h
    exact .error
  | pardoned h => apply h.elim

theorem relates_transaction {a b : PassM Unit} (h : (continuation k earlier).Relates Eq a b) :
  (continuation k earlier).Relates Eq (transaction a) (transaction b)
  := by
  intro s
  have haction := h s
  have hlength : (s.continuing k earlier).listing.length = earlier.length + s.listing.length := by
    rw [← Listing.length_toList, Pass.continuing, Listing.toList_append, List.length_append]
    rfl
  rw [Pass.run_transaction, Pass.run_transaction, hlength]
  generalize s.run a = outcome at haction ⊢
  generalize (s.continuing k earlier).run b = outcome' at haction ⊢
  cases haction with
  | ok result => exact .ok result
  | @error e t =>
    have hlisting : (t.continuing k earlier).listing.take (earlier.length + s.listing.length) =
        earlier.append (t.listing.take s.listing.length).toList := by
      apply Listing.ext_toList
      simp only [Pass.continuing, Listing.toList_take, Listing.toList_append, ← Listing.length_toList,
        List.take_length_add_append]
    simp only [hlisting]
    exact .error

theorem onSteps :
  (continuation k earlier).OnSteps
  where
  relates_emit := relates_emit
  relates_note := relates_note
  relates_modify_symbols := relates_modify_symbols
  relates_compile := relates_compile
  relates_transaction := relates_transaction

end continuation
end Correspondence

/-- What a program does, it does further down and after other entries too. -/
theorem Pass.continues_program (k : Nat) (earlier : Listing) (s : Pass) :
  Correspondence.Continues k earlier Eq (s.run PassM.program)
    ((s.continuing k earlier).run PassM.program)
  := Correspondence.continuation.onSteps.onPrograms.relates_program s

/-- The pass over an accepted program and another text comes to the first token of that text. -/
theorem Pass.exists_reaches_of_compile {source more : String} {registers : Nat} {listing : Listing}
    {u : Pass} (h : compile source registers = .ok listing)
    (hmore : start more registers = .ok u) :
  ∃ s t p : Pass, start source registers = .ok s ∧ s.run PassM.program = (.ok (), t) ∧
    t.listing = listing ∧ start (source ++ "\n" ++ more) registers = .ok p ∧
    Relation.ReflTransGen Declares p
      ({ u with symbols := t.symbols }.continuing (source.toList.count '\n' + 1) listing)
  := by
  obtain ⟨first, t, hfirst, hrun, rfl⟩ := compile_eq_ok_iff_run.mp h
  have hdeclarations := hrun
  rw [PassM.program, run_get_bind, run_declarations_eq_ok_iff (Outline.exact_accepted registers) _
    rfl (bound_position_lt_budget _)] at hdeclarations
  obtain ⟨program, T, last, hchecks, ⟨ts, hpasses, hts⟩, heof, rfl⟩ := hdeclarations
  -- all of the first text is read, so both texts are read in turn
  have hne : ∀ t, .ok t ∈ (TokenStream.ofText source).steps → t.value ≠ .eof := by
    intro t ht
    apply Cursor.value_ne_eof_of_mem_steps _ ht
  have hsteps : (TokenStream.ofText source).steps = ts.map .ok :=
    (TokenStream.exists_passes_iff hne hfirst).mp ⟨last, hpasses, heof⟩
  have hstream : TokenStream.ofText (source ++ "\n" ++ more) = _ :=
    TokenStream.ofText_append_newline (by simp [hsteps]) more
  obtain ⟨q, hq, rfl⟩ := start_eq_ok_iff.mp hmore
  have hbelow := TokenStream.next_below (source.toList.count '\n' + 1) (.ofText more)
  rw [hq] at hbelow
  obtain ⟨p, hp, hreads⟩ := Position.exists_passes_of_append
    (q := ⟨q.lookahead.below _, q.stream.below _⟩)
    (fun t ht => hne t (hsteps ▸ List.mem_map_of_mem ht)) hbelow
  rw [← hsteps, ← hstream] at hp
  refine ⟨_, _, ofPosition p registers, start_eq_ok_iff.mpr ⟨first, hfirst, rfl⟩, hrun, rfl,
    start_eq_ok_iff.mpr ⟨p, hp, rfl⟩, ?_⟩
  have hreaches := reaches_of_checks (s := ofPosition p registers)
    (Outline.exact_accepted registers) hchecks ⟨ts, hreads, hts⟩
  simp only [continuing, ofPosition, reach, Listing.toList_empty, Listing.append_nil] at hreaches ⊢
  exact hreaches

/-- If a program is accepted and another text follows on the next line, of which the first token can
be read, then the pass over both comes to that token with the listing and the table of names that the
first program leaves behind. Its outcome is that of a pass over the other text alone from that table
of names, further down and after the listing of the first program. -/
theorem compile_append {source more : String} {registers : Nat} {listing : Listing} {u : Pass}
    (h : compile source registers = .ok listing) (hmore : Pass.start more registers = .ok u) :
  ∃ s t p v : Pass,
    Pass.start source registers = .ok s ∧ s.run PassM.program = (.ok (), t) ∧
    t.listing = listing ∧
    Pass.start (source ++ "\n" ++ more) registers = .ok p ∧
    Relation.ReflTransGen Pass.Declares p v ∧
    v.lookahead = u.lookahead.below (source.toList.count '\n' + 1) ∧
    v.stream = u.stream.below (source.toList.count '\n' + 1) ∧
    v.symbols = t.symbols ∧ v.listing = listing ∧
    (p.run PassM.program).1 = ({ u with symbols := t.symbols }.run PassM.program).1.mapError
      (Located.below (source.toList.count '\n' + 1)) ∧
    (p.run PassM.program).2.symbols =
      ({ u with symbols := t.symbols }.run PassM.program).2.symbols ∧
    (p.run PassM.program).2.listing.toList =
      listing.toList ++ ({ u with symbols := t.symbols }.run PassM.program).2.listing.toList
  := by
  obtain ⟨s, t, p, hs, hrun, hlisting, hp, hreaches⟩ := Pass.exists_reaches_of_compile h hmore
  have hempty : u.listing = .empty := by
    obtain ⟨q, -, rfl⟩ := Pass.start_eq_ok_iff.mp hmore
    rfl
  refine ⟨s, t, p, _, hs, hrun, hlisting, hp, hreaches, rfl, rfl, rfl, ?_, ?_⟩
  · rw [Pass.continuing, hempty, Listing.toList_empty, Listing.append_nil]
  · have hcontinues := Pass.continues_program (source.toList.count '\n' + 1) listing
      { u with symbols := t.symbols }
    rw [Pass.run_program_eq_of_reaches hreaches]
    generalize Pass.run _ PassM.program = outcome at hcontinues ⊢
    generalize Pass.run (Pass.continuing _ _ _) PassM.program = outcome' at hcontinues ⊢
    cases hcontinues with
    | ok => exact ⟨rfl, rfl, Listing.toList_append ..⟩
    | error => exact ⟨rfl, rfl, Listing.toList_append ..⟩

/-- The first program ends in a comment that is closed by the line break only. The second one uses its
variable, and is refused in its own second line. -/
theorem compile_append_refused :
  ∃ listing u p v,
    compile "int a = 1;\n# one" 4 = .ok listing ∧ Pass.start "int b = a;\nint c = d;" 4 = .ok u ∧
    Pass.start ("int a = 1;\n# one" ++ "\n" ++ "int b = a;\nint c = d;") 4 = .ok p ∧
    Relation.ReflTransGen Pass.Declares p v ∧ v.lookahead = ⟨.keyword .int, ⟨3, 1⟩⟩ ∧
    v.listing = listing ∧ listing.toList <+: (p.run PassM.program).2.listing.toList ∧
    (p.run PassM.program).1 = .error (.ofSyntax ⟨.undefinedName "d", ⟨4, 9⟩⟩)
  := by
  have hcompile : (compile "int a = 1;\n# one" 4).isOk := by decide +kernel
  have hstart : (Pass.start "int b = a;\nint c = d;" 4).map Pass.lookahead =
      .ok ⟨.keyword .int, ⟨1, 1⟩⟩ := by decide +kernel
  have hrefused : (Pass.start ("int a = 1;\n# one" ++ "\n" ++ "int b = a;\nint c = d;") 4).map
      (fun p => (p.run PassM.program).1) =
      .ok (.error (.ofSyntax ⟨.undefinedName "d", ⟨4, 9⟩⟩)) := by decide +kernel
  rcases hlisting : compile "int a = 1;\n# one" 4 with _ | listing
  · rw [hlisting] at hcompile
    cases hcompile
  rcases hu : Pass.start "int b = a;\nint c = d;" 4 with _ | u
  · rw [hu] at hstart
    cases hstart
  obtain ⟨s, t, p, v, -, -, -, hp, hreaches, hlookahead, -, -, hv, -, -, hprefix⟩ :=
    compile_append hlisting hu
  rw [hu] at hstart
  rw [hp] at hrefused
  refine ⟨listing, u, p, v, rfl, rfl, hp, hreaches, ?_, hv, ⟨_, hprefix.symm⟩, ?_⟩
  · rw [hlookahead, show u.lookahead = _ from Except.ok.inj hstart]
    rfl
  · apply Except.ok.inj hrefused

end SilFront
