import SilFront.Proofs.Shunting

/-!
# Trees of what is read

At every token there is only one way to go on reading, and the lemmas `Reading.of_…` say which. Where
the tokens of a grouped tree stand, it is therefore that tree which is read, `emits_of_reading`, if
every name that is called in it is one of a function.
-/

namespace SilFront

/-! ### What is read at a token -/

/-- No operand is an operator. -/
theorem Token.IsOperand.operator?_eq_none {T : SymbolTable} {token : Token}
    (h : token.IsOperand T) :
  token.operator? = none
  := by
  cases token with
  | mark m => cases h
  | _ => rfl

/-- No operator stops an expression. -/
theorem Yard.Stops.operator?_eq_none {y : Yard} {token : Token} (h : y.Stops token) :
  token.operator? = none
  := by
  unfold Yard.Stops at h
  split at h
  · rfl
  · rfl
  · rfl
  · rfl
  · rfl
  · exact h

theorem Yard.Stops.ne_lparen {y : Yard} {token : Token} (h : y.Stops token) :
  token ≠ .mark .lparen
  := by
  rintro rfl
  exact h

/-- No operand stops an expression. -/
theorem Yard.Stops.not_isOperand {y : Yard} {token : Token} (h : y.Stops token)
    (T : SymbolTable) :
  ¬ token.IsOperand T
  := by
  intro hoperand
  cases token with
  | number n => exact h
  | string s => exact h
  | ident name => exact h
  | _ => exact hoperand

namespace Reading

variable {T : SymbolTable} {registers : Nat} {y y' : Yard} {p q r : Position}
  {code : List Operation}

/-- A reading ends where reading stops. -/
theorem stops (h : Reading T registers y p code y' r) :
  y'.Stops r.lookahead.value
  := by
  induction h with
  | stop stops => exact stops
  | operand _ _ _ ih => exact ih
  | call _ _ _ _ _ _ _ _ _ _ _ _ _ _ _ ih => exact ih
  | opening _ _ _ ih => exact ih
  | closing _ _ _ _ ih => exact ih
  | operator _ _ _ ih => exact ih

/-- Nothing is read from where reading stops. -/
theorem eq_of_stops (h : Reading T registers y p code y' r) (hstops : y.Stops p.lookahead.value) :
  code = [] ∧ y' = y ∧ r = p
  := by
  cases h with
  | stop => exact ⟨rfl, rfl, rfl⟩
  | operand operand => exact absurd operand (hstops.not_isOperand T)
  | call ident => simp [ident, Yard.Stops] at hstops
  | opening opening => simp [opening, Yard.Stops] at hstops
  | closing closing unclosed =>
    rw [closing] at hstops
    exact absurd hstops unclosed
  | operator operator =>
    rw [hstops.operator?_eq_none] at operator
    cases operator

/-- A leaf that no opening parenthesis follows is read as an operand. -/
theorem of_leaf {leaf : Leaf} (h : Reading T registers y p code y' r)
    (value : p.lookahead.value = leaf.token) (next : p.next? = some q)
    (hq : q.lookahead.value ≠ .mark .lparen) :
  leaf.token.IsOperand T ∧ Reading T registers (y.operand p.lookahead) q code y' r
  := by
  cases h with
  | stop stops =>
    rw [value] at stops
    cases leaf <;> cases stops
  | operand operand next' rest =>
    obtain rfl := Option.some.inj (next.symm.trans next')
    rw [value] at operand
    exact ⟨operand, rest⟩
  | call ident _ _ next' opening =>
    obtain rfl := Option.some.inj (next.symm.trans next')
    exact absurd opening hq
  | opening opening =>
    rw [value] at opening
    cases leaf <;> cases opening
  | closing closing =>
    rw [value] at closing
    cases leaf <;> cases closing
  | operator operator =>
    rw [value] at operator
    cases leaf <;> cases operator

/-- The name of a function is read as a call. -/
theorem of_function {name : String} (h : Reading T registers y p code y' r)
    (ident : p.lookahead.value = .ident name) (kind : T.kind? name = some .function) :
  ∃ f p₁ p₂ p₃ q arguments rest, T.functionNamed? name = some f ∧ p.next? = some p₁ ∧
    p₁.next? = some p₂ ∧ Argument.Chain p₂ arguments p₃ ∧
    (∀ a ∈ arguments,
      Reading T registers .empty a.start a.calls a.yard a.stop ∧ a.Compiles registers) ∧
    p₃.lookahead.value = .mark .rparen ∧ p₃.next? = some q ∧ arguments.length = f.arity ∧
    f.returns ≠ .void ∧ code = arguments.flatMap Argument.operations ++ .call name :: rest ∧
    Reading T registers (y.operand ⟨.returnValue, p.lookahead.location⟩) q rest y' r
  := by
  cases h with
  | stop stops => simp [ident, Yard.Stops] at stops
  | operand operand => simp [ident, Token.IsOperand, kind] at operand
  | @call _ _ _ p₁ p₂ p₃ q _ rest _ f arguments ident' _ function next opening next₁ chain readings
      compiles closing next₃ arity returns more =>
    obtain rfl := Token.ident.inj (ident.symm.trans ident')
    exact ⟨f, p₁, p₂, p₃, q, arguments, rest, function, next, next₁, chain,
      fun a ha => ⟨readings a ha, compiles a ha⟩, closing, next₃, arity, returns, rfl, more⟩
  | opening opening => simp [ident] at opening
  | closing closing => simp [ident] at closing
  | operator operator => simp [ident, Token.operator?] at operator

/-- Reading from an opening parenthesis on goes on behind it. -/
theorem of_opening (h : Reading T registers y p code y' r)
    (opening : p.lookahead.value = .mark .lparen) (next : p.next? = some q) :
  Reading T registers y.openParenthesis q code y' r
  := by
  cases h with
  | opening _ next' rest =>
    obtain rfl := Option.some.inj (next.symm.trans next')
    exact rest
  | _ => simp_all [Yard.Stops, Token.IsOperand, Token.operator?, Mark.operator?]

/-- Reading from a parenthesis that closes another goes on behind it. -/
theorem of_closing (h : Reading T registers y p code y' r)
    (closing : p.lookahead.value = .mark .rparen) (unclosed : y.unclosed ≠ 0)
    (next : p.next? = some q) :
  Reading T registers y.closeParenthesis q code y' r
  := by
  cases h with
  | closing _ _ next' rest =>
    obtain rfl := Option.some.inj (next.symm.trans next')
    exact rest
  | _ => simp_all [Yard.Stops, Token.IsOperand, Token.operator?, Mark.operator?]

/-- Reading from an operator on goes on behind it. -/
theorem of_operator {op : BinaryOp} (h : Reading T registers y p code y' r)
    (operator : p.lookahead.value.operator? = some op) (next : p.next? = some q) :
  Reading T registers (y.operator ⟨op, p.lookahead.location⟩) q code y' r
  := by
  cases h with
  | stop stops => simp [stops.operator?_eq_none] at operator
  | operand operand => simp [operand.operator?_eq_none] at operator
  | operator operator' next' rest =>
    obtain rfl := Option.some.inj (next.symm.trans next')
    obtain rfl := Option.some.inj (operator.symm.trans operator')
    exact rest
  | _ => simp_all [Token.operator?, Mark.operator?]

end Reading

namespace Tree

/-- Every name that is called is one of a function. -/
inductive Resolved (T : SymbolTable) : Tree → Prop
  | leaf (leaf : Located Leaf) : Resolved T (.leaf leaf)
  | call {name : Located String} {arguments : List Tree}
      (kind : T.kind? name.value = some .function) (resolved : ∀ a ∈ arguments, Resolved T a) :
      Resolved T (.call name arguments)
  | parenthesis {inner : Tree} (resolved : Resolved T inner) : Resolved T (.parenthesis inner)
  | binary {lhs rhs : Tree} {op : Located BinaryOp} (left : Resolved T lhs)
      (right : Resolved T rhs) : Resolved T (.binary lhs op rhs)

/-- The first token of a tree is no closing parenthesis. -/
theorem Spells.lookahead_ne_rparen {tree : Tree} {ts : List (Located Token)} (h : tree.Spells ts) :
  ∀ {p q : Position}, p.Passes ts q → p.lookahead.value ≠ .mark .rparen
  := by
  induction h with
  | leaf leaf =>
    intro p q hpasses
    obtain ⟨hfirst, -⟩ := Position.passes_cons_iff.mp hpasses
    rw [← hfirst, Located.map]
    cases leaf.value <;> simp [Leaf.token]
  | call =>
    intro p q hpasses
    obtain ⟨hfirst, -⟩ := Position.passes_cons_iff.mp hpasses
    simp [← hfirst, Located.map]
  | parenthesis opens =>
    intro p q hpasses
    obtain ⟨hfirst, -⟩ := Position.passes_cons_iff.mp hpasses
    simp [← hfirst, opens]
  | binary _ _ _ ihLeft =>
    intro p q hpasses
    obtain ⟨_, hleft, -⟩ := Position.passes_append_iff.mp hpasses
    apply ihLeft hleft

section

variable {T : SymbolTable} {registers : Nat}

/-- The argument of a call that was read as a tree. -/
def Pushed.ofArgument (tree : Tree) (a : Argument) : Pushed :=
  ⟨tree, a.calls, a.code⟩

/-- An argument whose tree is grouped compiles as that tree does. -/
theorem Pushed.Compiles.ofArgument {tree : Tree} {a : Argument} (hgrouped : tree.Grouped)
    (hyard : a.yard = Yard.empty.after tree) (h : a.Compiles registers) :
  (ofArgument tree a).Compiles registers
  := by
  obtain ⟨-, -, hcode⟩ := h
  rw [hyard, Yard.queue_after_of_grouped hgrouped] at hcode
  exact ⟨a.start.lookahead.location, hcode⟩

/-- Arguments that are read after each other are those that are written after each other. -/
theorem exists_pushed {q q' : Position} (hq : q.lookahead.value = .mark .rparen)
    (hq' : q'.lookahead.value = .mark .rparen) :
  ∀ {written : List (Tree × List (Located Token))} {arguments : List Argument}
    {inner : List (Located Token)} {p : Position},
    (∀ a ∈ written, a.1.Grouped ∧ a.1.Spells a.2) →
    (∀ a ∈ written, ∀ {calls y p q r}, p.Passes a.2 q → Yard.empty.Stops q.lookahead.value →
      Reading T registers .empty p calls y r →
      a.1.Emits T registers calls ∧ y = Yard.empty.after a.1 ∧ r = q) →
    Joined (written.map Prod.snd) inner → p.Passes inner q →
    Argument.Chain p arguments q' →
    (∀ a ∈ arguments,
      Reading T registers .empty a.start a.calls a.yard a.stop ∧ a.Compiles registers) →
    q' = q ∧ ∃ pushed : List Pushed, pushed.map Pushed.tree = written.map Prod.fst ∧
      (∀ a ∈ pushed, a.tree.Emits T registers a.calls ∧ a.Compiles registers) ∧
      arguments.length = pushed.length ∧
      arguments.flatMap Argument.operations = pushed.flatMap Pushed.operations
  -- Both lists have the same length: where only one of them went on, a closing parenthesis would
  -- have to be a comma or the first token of an argument.
  | [], [], _, p, _, _, rfl, hpasses, hchain, _ => by
      obtain rfl := Position.passes_nil_iff.mp hpasses
      obtain rfl : p = q' := hchain
      exact ⟨rfl, [], rfl, by simp, rfl, rfl⟩
  | [], a :: arguments, _, p, _, _, rfl, hpasses, hchain, harguments => by
      obtain rfl := Position.passes_nil_iff.mp hpasses
      obtain ⟨hread, -, hqueue, -⟩ := harguments a List.mem_cons_self
      rw [hchain.start] at hread
      exact absurd hq (hread.lookahead_ne_rparen hqueue)
  | [(tree, ts)], [], _, p, hwritten, _, rfl, hpasses, hchain, _ => by
      obtain rfl : p = q' := hchain
      exact absurd hq' ((hwritten _ List.mem_cons_self).2.lookahead_ne_rparen hpasses)
  | (tree, ts) :: w :: written, [], _, p, hwritten, _, ⟨comma, us, hcomma, rfl, hjoined⟩, hpasses,
      hchain, _ => by
      obtain rfl : p = q' := hchain
      obtain ⟨_, hfirst, -⟩ := Position.passes_append_iff.mp hpasses
      exact absurd hq' ((hwritten _ List.mem_cons_self).2.lookahead_ne_rparen hfirst)
  | [(tree, ts)], [a], _, _, hwritten, hread, rfl, hpasses, ⟨rfl, hstop⟩, harguments => by
      obtain ⟨hreading, hcompiles⟩ := harguments a List.mem_cons_self
      have hstops := Yard.stops_of_unclosed_eq_zero (y := .empty) rfl (.inr hq)
      obtain ⟨hemits, hyard, hend⟩ := hread _ List.mem_cons_self hpasses hstops hreading
      use hstop.symm.trans hend, [.ofArgument tree a], rfl
      rw [List.forall_mem_singleton]
      exact ⟨⟨hemits, .ofArgument (hwritten _ List.mem_cons_self).1 hyard hcompiles⟩, rfl, rfl⟩
  | [(tree, ts)], a :: b :: arguments, _, _, hwritten, hread, rfl, hpasses,
      ⟨rfl, hcomma, _⟩, harguments => by
      obtain ⟨hreading, -⟩ := harguments a List.mem_cons_self
      have hstops := Yard.stops_of_unclosed_eq_zero (y := .empty) rfl (.inr hq)
      obtain ⟨-, -, rfl⟩ := hread _ List.mem_cons_self hpasses hstops hreading
      simp [hq] at hcomma
  | (tree, ts) :: w :: written, [a], _, _, hwritten, hread, ⟨comma, us, hcomma, rfl, hjoined⟩,
      hpasses, ⟨rfl, hstop⟩, harguments => by
      obtain ⟨hreading, -⟩ := harguments a List.mem_cons_self
      obtain ⟨stop, hfirst, hrest⟩ := Position.passes_append_iff.mp hpasses
      obtain ⟨rfl, -⟩ := Position.passes_cons_iff.mp hrest
      have hstops := Yard.stops_of_unclosed_eq_zero (y := .empty) rfl (.inl hcomma)
      obtain ⟨-, -, rfl⟩ := hread _ List.mem_cons_self hfirst hstops hreading
      simp [hstop, hq'] at hcomma
  | (tree, ts) :: w :: written, a :: b :: arguments, _, _, hwritten, hread,
      ⟨comma, us, hcomma, rfl, hjoined⟩, hpasses, ⟨rfl, hcomma', start, hstart, hchain⟩,
      harguments => by
      obtain ⟨hreading, hcompiles⟩ := harguments a List.mem_cons_self
      obtain ⟨stop, hfirst, hrest⟩ := Position.passes_append_iff.mp hpasses
      obtain ⟨rfl, -, start', hnext, hmore⟩ := Position.passes_cons_iff.mp hrest
      have hstops := Yard.stops_of_unclosed_eq_zero (y := .empty) rfl (.inl hcomma)
      obtain ⟨hemits, hyard, rfl⟩ := hread _ List.mem_cons_self hfirst hstops hreading
      obtain rfl := Option.some.inj (hstart.symm.trans hnext)
      obtain ⟨hend, pushed, htrees, hpushed, hlength, hcode⟩ := exists_pushed hq hq'
        (fun a ha => hwritten a (List.mem_cons_of_mem _ ha))
        (fun a ha => hread a (List.mem_cons_of_mem _ ha)) hjoined hmore hchain
        (fun a ha => harguments a (List.mem_cons_of_mem _ ha))
      use hend, .ofArgument tree a :: pushed
      refine ⟨by rw [List.map_cons, htrees]; rfl, ?_, by simpa using hlength, ?_⟩
      · rw [List.forall_mem_cons]
        exact ⟨⟨hemits, .ofArgument (hwritten _ List.mem_cons_self).1 hyard hcompiles⟩, hpushed⟩
      · rw [List.flatMap_cons, hcode, List.flatMap_cons]
        rfl

/-- What is read where a grouped tree is written begins with that tree. -/
theorem emits_of_reading {tree : Tree} {ts : List (Located Token)} (h : tree.Spells ts) :
  ∀ {y y' : Yard} {p q r : Position} {code : List Operation}, tree.Grouped → tree.Resolved T →
    p.Passes ts q → q.lookahead.value ≠ .mark .lparen → Reading T registers y p code y' r →
    ∃ calls rest, tree.Emits T registers calls ∧ code = calls ++ rest ∧
      Reading T registers (y.after tree) q rest y' r
  := by
  induction h with
  | leaf leaf =>
    intro y y' p q r code _ _ hpasses hq hread
    obtain ⟨hleaf, -, hnext⟩ := Position.passes_singleton_iff.mp hpasses
    have hvalue : p.lookahead.value = leaf.value.token := by rw [← hleaf]; rfl
    obtain ⟨hoperand, hrest⟩ := hread.of_leaf hvalue hnext hq
    rw [← hleaf] at hrest
    exact ⟨[], code, .leaf hoperand, rfl, hrest⟩
  | @call name opening closing arguments written inner opens trees spells joined closes ih =>
    intro y y' p q r code hgrouped hresolved hpasses _ hread
    obtain ⟨hname, -, p₁, hp₁, hrest⟩ := Position.passes_cons_iff.mp hpasses
    obtain ⟨p₂, p₃, rfl, hp₂, hinner, rfl, hq⟩ := hrest.enclosed
    cases hgrouped with
    | call grouped =>
      cases hresolved with
      | call kind resolved =>
        have hident : p.lookahead.value = .ident name.value := by rw [← hname]; rfl
        have hlocation : p.lookahead.location = name.location := by rw [← hname]; rfl
        obtain ⟨f, _, _, p₄, _, args, rest, hf, hnext, hnext₁, hchain, hargs, hclose, hnext₂, harity,
          hreturns, rfl, hrest⟩ := hread.of_function hident kind
        obtain rfl := Option.some.inj (hp₁.symm.trans hnext)
        obtain rfl := Option.some.inj (hp₂.symm.trans hnext₁)
        have hmem : ∀ a ∈ written, a.1 ∈ arguments := by
          intro a ha
          rw [← trees]
          apply List.mem_map_of_mem ha
        obtain ⟨rfl, pushed, htrees, hpushed, hlength, hcode⟩ := exists_pushed closes hclose
          (fun a ha => ⟨grouped _ (hmem a ha), spells a ha⟩)
          (by
            intro a ha calls y p q r hpasses hstops hreading
            obtain ⟨calls, rest, hemits, rfl, hrest⟩ := ih a ha (grouped _ (hmem a ha))
              (resolved _ (hmem a ha)) hpasses hstops.ne_lparen hreading
            obtain ⟨rfl, rfl, rfl⟩ := hrest.eq_of_stops (hstops.of_unclosed_eq (by simp))
            rw [List.append_nil]
            exact ⟨hemits, rfl, rfl⟩)
          joined hinner hchain hargs
        obtain rfl := Option.some.inj (hq.symm.trans hnext₂)
        have hcount : arguments.length = f.arity := by
          rw [← harity, hlength, ← trees, ← htrees, List.length_map]
        refine ⟨pushed.flatMap Pushed.operations ++ [.call name.value], rest, ?_, ?_, ?_⟩
        · apply Emits.call kind hf (htrees.trans trees) (fun a ha => (hpushed a ha).1)
            (fun a ha => (hpushed a ha).2) hcount hreturns
        · rw [hcode, List.append_assoc, List.singleton_append]
        · rw [hlocation] at hrest
          exact hrest
  | parenthesis opens spells closes ih =>
    intro y y' p q r code hgrouped hresolved hpasses _ hread
    obtain ⟨p₁, p₂, rfl, hp₁, hinner, rfl, hq⟩ := hpasses.enclosed
    cases hgrouped with
    | parenthesis grouped =>
      cases hresolved with
      | parenthesis resolved =>
        obtain ⟨calls, rest, hemits, rfl, hrest⟩ :=
          ih grouped resolved hinner (by simp [closes]) (hread.of_opening opens hp₁)
        use calls, rest, .parenthesis hemits, rfl
        apply hrest.of_closing closes _ hq
        simp
  | @binary lhs rhs t op ts us left operator right ihLeft ihRight =>
    intro y y' p q r code hgrouped hresolved hpasses hq hread
    obtain ⟨p₁, hleft, hpasses⟩ := Position.passes_append_iff.mp hpasses
    obtain ⟨rfl, -, p₂, hp₂, hright⟩ := Position.passes_cons_iff.mp hpasses
    have hop := Token.operator?_eq_some_iff.mpr operator
    have hp₁ : p₁.lookahead.value ≠ .mark .lparen := by
      intro hopen
      simp [hopen, Token.operator?, Mark.operator?] at hop
    cases hgrouped with
    | binary groupedLeft groupedRight =>
      cases hresolved with
      | binary resolvedLeft resolvedRight =>
        obtain ⟨left, _, hemitsLeft, rfl, hread₁⟩ :=
          ihLeft groupedLeft resolvedLeft hleft hp₁ hread
        obtain ⟨right, rest, hemitsRight, rfl, hread₂⟩ :=
          ihRight groupedRight resolvedRight hright hq (hread₁.of_operator hop hp₂)
        use left ++ right, rest, .binary hemitsLeft hemitsRight
        exact ⟨(List.append_assoc ..).symm, hread₂⟩

end

end Tree

end SilFront
