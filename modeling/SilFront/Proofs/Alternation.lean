import SilFront.Proofs.Calls

/-!
# Order of operands and operators

While items are read, nothing checks that operands and operators take turns: only the numbers of
both are checked, when the queue is compiled. So `1 2 +` compiles, although it is no expression of
the grammar.

`Alternates` is what is missing. It looks at the tokens one after the other and keeps nothing but
what may come next. An expression that compiles is one of the grammar exactly if its tokens
alternate, since the parentheses and commas have been checked by then.
-/

namespace SilFront

/-- What may come next in an expression. -/
inductive Turn where
  /-- An operand must begin. -/
  | operand
  /-- The parenthesis of a call has been opened: an operand must begin, or it is closed. -/
  | opened
  /-- A name has been read, of which a call may follow. -/
  | named
  /-- An operand has ended. -/
  | done
deriving DecidableEq

namespace Turn

/-- What may come after a token that begins an operand. -/
def begin? : Token → Option Turn
  | .number _ | .string _ => some .done
  | .ident _ => some .named
  | .mark .lparen => some .operand
  | _ => none

/-- What may come after a token that follows an operand. -/
def follow? : Token → Option Turn
  | .mark .rparen => some .done
  | .mark .comma => some .operand
  | token => token.operator?.map fun _ => .operand

/-- What may come after a token, if the token itself may come. -/
def next? : Turn → Token → Option Turn
  | .operand, token => begin? token
  | .opened, .mark .rparen => some .done
  | .opened, token => begin? token
  | .named, .mark .lparen => some .opened
  | .named, token => follow? token
  | .done, token => follow? token

/-- What may come after some tokens, if each of them may come. -/
def scan (turn : Turn) (ts : List (Located Token)) : Option Turn :=
  ts.foldlM (fun turn t => turn.next? t.value) turn

@[simp]
theorem scan_nil (turn : Turn) :
  turn.scan [] = some turn
  := rfl

@[simp]
theorem scan_cons (turn : Turn) (t : Located Token) (ts : List (Located Token)) :
  turn.scan (t :: ts) = (turn.next? t.value).bind fun next => next.scan ts
  := rfl

@[simp]
theorem scan_append (turn : Turn) (ts us : List (Located Token)) :
  turn.scan (ts ++ us) = (turn.scan ts).bind fun next => next.scan us
  := List.foldlM_append

theorem scan_cons_eq_some_iff {turn last : Turn} {t : Located Token} {ts : List (Located Token)} :
  turn.scan (t :: ts) = some last ↔
    ∃ next, turn.next? t.value = some next ∧ next.scan ts = some last
  := Option.bind_eq_some_iff

/-- Tokens in turn can follow each other exactly if the later ones can follow where the earlier ones
lead. -/
theorem scan_append_eq_some_iff {turn last : Turn} {ts us : List (Located Token)} :
  turn.scan (ts ++ us) = some last ↔ ∃ next, turn.scan ts = some next ∧ next.scan us = some last
  := by
  rw [scan_append]
  apply Option.bind_eq_some_iff

/-- An operand may begin. -/
def Begins (turn : Turn) : Prop :=
  turn = .operand ∨ turn = .opened

/-- An operand may have ended. -/
def Ends (turn : Turn) : Prop :=
  turn = .named ∨ turn = .done

end Turn

/-- Operands and operators take turns, no parentheses are empty but those of a call, and commas stand
between operands only. -/
def Alternates (ts : List (Located Token)) : Prop :=
  Turn.operand.scan ts = some .named ∨ Turn.operand.scan ts = some .done

instance (ts : List (Located Token)) : Decidable (Alternates ts) :=
  inferInstanceAs (Decidable (_ ∨ _))

namespace Turn

/-! ### Expressions of the grammar alternate -/

/-- Where an operand is due, only a closing parenthesis may be judged otherwise than at the
beginning. -/
theorem Begins.next? {turn : Turn} (h : turn.Begins) {token : Token}
    (htoken : token ≠ .mark .rparen) :
  turn.next? token = begin? token
  := by
  obtain rfl | rfl := h
  · rfl
  · unfold Turn.next?
    split <;> simp_all

/-- Behind an operand, only an opening parenthesis may be judged otherwise than behind any other. -/
theorem Ends.next? {turn : Turn} (h : turn.Ends) {token : Token}
    (htoken : token ≠ .mark .lparen) :
  turn.next? token = follow? token
  := by
  obtain rfl | rfl := h
  · unfold Turn.next?
    split <;> simp_all
  · rfl

/-- A leaf is an operand. -/
theorem begin?_leaf (leaf : Leaf) :
  ∃ turn, begin? leaf.token = some turn ∧ turn.Ends
  := by
  cases leaf with
  | number n => exact ⟨.done, rfl, .inr rfl⟩
  | string s => exact ⟨.done, rfl, .inr rfl⟩
  | name id => exact ⟨.named, rfl, .inl rfl⟩

/-- An operator calls for an operand. -/
theorem follow?_operator {token : Token} {op : BinaryOp} (h : token.operator? = some op) :
  follow? token = some .operand
  := by
  unfold follow?
  split
  · cases h
  · rfl
  · rw [h, Option.map_some]

/-- No expression begins with an operator. -/
theorem begin?_operator {token : Token} {op : BinaryOp} (h : token.operator? = some op) :
  begin? token = none
  := by
  unfold begin?
  split
  · cases h
  · cases h
  · cases h
  · cases h
  · rfl

/-- Arguments between commas alternate up to the parenthesis that closes their call. -/
theorem scan_joined {closing : Located Token} (hclosing : closing.value = .mark .rparen) :
  ∀ {runs : List (List (Located Token))} {inner : List (Located Token)} {turn : Turn},
    (∀ run ∈ runs, ∀ {turn : Turn}, turn.Begins → ∃ last, turn.scan run = some last ∧ last.Ends) →
    Joined runs inner → turn.Begins → (runs = [] → turn = .opened) →
    turn.scan (inner ++ [closing]) = some .done
  | [], _, turn, _, rfl, _, hopened => by
      rw [hopened rfl, List.nil_append, scan_cons, hclosing]
      rfl
  | [run], _, turn, hruns, rfl, hturn, _ => by
      obtain ⟨last, hscan, hlast⟩ := hruns run List.mem_cons_self hturn
      rw [scan_append, hscan, Option.bind_some, scan_cons, hlast.next? (by simp [hclosing]), hclosing]
      rfl
  | run :: next :: runs, _, turn, hruns, ⟨comma, us, hcomma, rfl, hjoined⟩, hturn, _ => by
      obtain ⟨last, hscan, hlast⟩ := hruns run List.mem_cons_self hturn
      have hrest : Turn.operand.scan (us ++ [closing]) = some .done := scan_joined hclosing
        (fun run hrun => hruns run (List.mem_cons_of_mem _ hrun)) hjoined (.inl rfl) nofun
      rw [List.append_assoc, scan_append, hscan, Option.bind_some, List.cons_append, scan_cons,
        hlast.next? (by simp [hcomma]), hcomma]
      exact hrest

/-- The tokens of a phrase alternate from where an operand may begin to where one may have ended. -/
theorem exists_scan_of_derives {phrase : Phrase} {ts : List (Located Token)}
    (h : Derives phrase ts) :
  ∀ {turn : Turn}, turn.Begins → ∃ last, turn.scan ts = some last ∧ last.Ends
  := by
  induction h with
  | @leaf t leaf value =>
    intro turn hturn
    obtain ⟨last, hlast, hends⟩ := begin?_leaf leaf
    have ht : t.value ≠ .mark .rparen := by
      rw [value]
      cases leaf <;> simp [Leaf.token]
    use last
    rw [scan_cons, hturn.next? ht, value, hlast]
    exact ⟨rfl, hends⟩
  | call ident opens derives joined closes ih =>
    intro turn hturn
    have hjoined := scan_joined closes ih joined (.inr rfl) (fun _ => rfl)
    use .done
    rw [scan_cons, hturn.next? (by simp [ident]), ident, begin?, Option.bind_some, scan_cons, opens]
    exact ⟨hjoined, .inr rfl⟩
  | parenthesis opens derives closes ih =>
    intro turn hturn
    obtain ⟨last, hscan, hlast⟩ := ih (.inl rfl)
    use .done
    rw [scan_cons, hturn.next? (by simp [opens]), opens, begin?, Option.bind_some, scan_append,
      hscan, Option.bind_some, scan_cons, hlast.next? (by simp [closes]), closes]
    exact ⟨rfl, .inr rfl⟩
  | single operand ih => apply ih
  | @more ts us t op expression operator operand ihExpression ihOperand =>
    intro turn hturn
    obtain ⟨last, hscan, hlast⟩ := ihExpression hturn
    have hop := Token.operator?_eq_some_iff.mpr operator
    have ht : t.value ≠ .mark .lparen := by
      intro hopen
      simp [hopen, Token.operator?, Mark.operator?] at hop
    rw [scan_append, hscan, Option.bind_some, scan_cons, hlast.next? ht, follow?_operator hop]
    apply ihOperand (.inl rfl)

end Turn

/-- In an expression, operands and operators alternate. -/
theorem alternates_of_derives {ts : List (Located Token)} (h : Derives .expression ts) :
  Alternates ts
  := by
  obtain ⟨last, hscan, rfl | rfl⟩ := Turn.exists_scan_of_derives h (.inl rfl)
  · exact .inl hscan
  · exact .inr hscan

/-! ### What alternates is of the grammar -/

/-- Two expressions with an operator between them are an expression. -/
theorem Derives.append {ts us : List (Located Token)} {t : Located Token} {op : BinaryOp}
    (h : Derives .expression ts) (hop : t.value.operator? = some op)
    (h' : Derives .expression us) :
  Derives .expression (ts ++ t :: us)
  := by
  generalize hphrase : Phrase.expression = phrase at h'
  induction h' with
  | leaf => cases hphrase
  | call => cases hphrase
  | parenthesis => cases hphrase
  | single operand => apply Derives.more h (Token.operator?_eq_some_iff.mp hop) operand
  | more expression operator operand ih =>
    have hmore := Derives.more (ih hphrase) operator operand
    rwa [List.append_assoc, List.cons_append] at hmore

namespace Turn

/-- The tokens that complete an expression from where something may come next. -/
def Completes : Turn → List (Located Token) → Prop
  | .operand, ts => Derives .expression ts
  | .opened, ts => ts = [] ∨ Derives .expression ts
  | .named, ts => ∀ name : Located Token, (∃ id, name.value = .ident id) →
    Derives .expression (name :: ts)
  | .done, ts => ∀ us, Derives .operand us → Derives .expression (us ++ ts)

/-- The tokens that complete an expression out of a number of open parentheses. -/
def Leaves : Nat → Turn → List (Located Token) → Prop
  | 0, turn, ts => turn.Completes ts
  | n + 1, turn, ts => ∃ inner closing outer, closing.value = .mark .rparen ∧
    ts = inner ++ closing :: outer ∧ turn.Completes inner ∧ Leaves n .done outer

/-- Tokens in front of others change what the innermost of them complete only. -/
theorem Leaves.append {turn turn' : Turn} (ts : List (Located Token))
    (hcompletes : ∀ us, turn.Completes us → turn'.Completes (ts ++ us)) :
  ∀ {n : Nat} {us : List (Located Token)}, Leaves n turn us → Leaves n turn' (ts ++ us)
  | 0, us, h => hcompletes us h
  | _ + 1, _, ⟨inner, closing, outer, hclosing, rfl, hinner, houter⟩ =>
    ⟨ts ++ inner, closing, outer, hclosing, (List.append_assoc ..).symm, hcompletes inner hinner,
      houter⟩

/-- An expression completes what calls for an operand. -/
theorem Begins.completes {turn : Turn} (h : turn.Begins) {ts : List (Located Token)}
    (hts : Derives .expression ts) :
  turn.Completes ts
  := by
  obtain rfl | rfl := h
  · exact hts
  · exact .inr hts

/-- What completes something that calls for an operand is an expression, unless nothing does. -/
theorem Begins.derives {turn : Turn} (h : turn.Begins) {ts : List (Located Token)}
    (hcompletes : turn.Completes ts) (hts : ts ≠ []) :
  Derives .expression ts
  := by
  obtain rfl | rfl := h
  · exact hcompletes
  · exact hcompletes.resolve_left hts

/-- No token is needed where a parenthesis may be closed. -/
theorem completes_nil {turn : Turn} (h : turn ≠ .operand) :
  turn.Completes []
  := by
  cases turn with
  | operand => exact absurd rfl h
  | opened => exact .inl rfl
  | named =>
    rintro name ⟨id, hid⟩
    apply Derives.single
    apply Derives.leaf (show name.value = (Leaf.name id).token from hid)
  | done =>
    intro us hus
    rw [List.append_nil]
    apply Derives.single hus

/-- An operand completes what the tokens after it complete. -/
theorem Begins.completes_append {turn : Turn} (h : turn.Begins) {ts us : List (Located Token)}
    (hts : Derives .operand ts) (hus : Turn.done.Completes us) :
  turn.Completes (ts ++ us)
  := by
  apply h.completes (hus ts hts)

/-- A leaf completes what the tokens after it complete. -/
theorem Begins.completes_cons {turn next : Turn} (h : turn.Begins) {t : Located Token}
    {leaf : Leaf} {ts : List (Located Token)} (ht : t.value = leaf.token)
    (hnext : begin? leaf.token = some next) (hts : next.Completes ts) :
  turn.Completes (t :: ts)
  := by
  apply h.completes
  cases leaf with
  | number n =>
    obtain rfl := Option.some.inj hnext
    apply hts [t] (.leaf ht)
  | string s =>
    obtain rfl := Option.some.inj hnext
    apply hts [t] (.leaf ht)
  | name id =>
    obtain rfl := Option.some.inj hnext
    apply hts t ⟨id, ht⟩

/-- An operator completes what the operands after it complete. -/
theorem Ends.completes_cons {turn : Turn} (h : turn.Ends) {t : Located Token} {op : BinaryOp}
    {ts : List (Located Token)} (hop : t.value.operator? = some op)
    (hts : Derives .expression ts) :
  turn.Completes (t :: ts)
  := by
  obtain rfl | rfl := h
  · rintro name ⟨id, hid⟩
    have hname : Derives .operand [name] :=
      .leaf (show name.value = (Leaf.name id).token from hid)
    apply Derives.append (.single hname) hop hts
  · intro us hus
    apply Derives.append (.single hus) hop hts

/-! ### Which tokens may come -/

section

variable {turn next : Turn}

/-- A leaf stands only where an operand is due. -/
theorem begins_of_next?_leaf {leaf : Leaf} (h : turn.next? leaf.token = some next) :
  turn.Begins ∧ begin? leaf.token = some next
  := by
  cases turn with
  | operand => exact ⟨.inl rfl, h⟩
  | opened => exact ⟨.inr rfl, by cases leaf <;> exact h⟩
  | named => cases leaf <;> cases h
  | done => cases leaf <;> cases h

/-- A parenthesis is opened where an operand is due, or behind the name of a function. -/
theorem cases_of_next?_lparen (h : turn.next? (.mark .lparen) = some next) :
  turn.Begins ∧ next = .operand ∨ turn = .named ∧ next = .opened
  := by
  cases turn with
  | operand => exact .inl ⟨.inl rfl, (Option.some.inj h).symm⟩
  | opened => exact .inl ⟨.inr rfl, (Option.some.inj h).symm⟩
  | named => exact .inr ⟨rfl, (Option.some.inj h).symm⟩
  | done => cases h

/-- No parenthesis is closed where an operand is due. -/
theorem ne_operand_of_next?_rparen (h : turn.next? (.mark .rparen) = some next) :
  turn ≠ .operand ∧ next = .done
  := by
  cases turn with
  | operand => cases h
  | _ => exact ⟨nofun, (Option.some.inj h).symm⟩

/-- A comma stands only behind an operand. -/
theorem ends_of_next?_comma (h : turn.next? (.mark .comma) = some next) :
  turn.Ends ∧ next = .operand
  := by
  cases turn with
  | operand => cases h
  | opened => cases h
  | named => exact ⟨.inl rfl, (Option.some.inj h).symm⟩
  | done => exact ⟨.inr rfl, (Option.some.inj h).symm⟩

/-- An operator stands only behind an operand. -/
theorem ends_of_next?_operator {token : Token} {op : BinaryOp} (hop : token.operator? = some op)
    (h : turn.next? token = some next) :
  turn.Ends ∧ next = .operand
  := by
  have hopen : token ≠ .mark .lparen := by
    rintro rfl
    cases hop
  have hclose : token ≠ .mark .rparen := by
    rintro rfl
    cases hop
  have hbegins : ¬ turn.Begins := by
    intro hbegins
    rw [hbegins.next? hclose, begin?_operator hop] at h
    cases h
  have hends : turn.Ends := by
    cases turn with
    | operand => exact absurd (.inl rfl) hbegins
    | opened => exact absurd (.inr rfl) hbegins
    | named => exact .inl rfl
    | done => exact .inr rfl
  rw [hends.next? hopen, follow?_operator hop] at h
  exact ⟨hends, (Option.some.inj h).symm⟩

end

/-! ### Readings -/

/-- Arguments that follow each other are expressions between commas, if their tokens alternate. -/
theorem exists_joined_of_chain {q : Position} :
  ∀ {args : List Argument} {p : Position}, Argument.Chain p args q →
    (∀ a ∈ args, ∃ ts, a.start.Passes ts a.stop ∧ ts ≠ [] ∧
      ∀ turn last : Turn, turn.scan ts = some last → last ≠ .operand → turn.Completes ts) →
    ∃ runs inner, runs.length = args.length ∧ Joined runs inner ∧ p.Passes inner q ∧
      ∀ (turn last : Turn) (closing : Located Token) (rest : List (Located Token)), turn.Begins →
        closing.value = .mark .rparen → turn.scan (inner ++ closing :: rest) = some last →
        (∀ run ∈ runs, Derives .expression run) ∧ Turn.done.scan rest = some last
  | [], p, hchain, _ => by
      obtain rfl : p = q := hchain
      refine ⟨[], [], rfl, rfl, .nil p, ?_⟩
      intro turn last closing rest _ hclosing hscan
      obtain ⟨next, hnext, hrest⟩ := scan_cons_eq_some_iff.mp hscan
      rw [hclosing] at hnext
      obtain ⟨-, rfl⟩ := ne_operand_of_next?_rparen hnext
      exact ⟨by simp, hrest⟩
  | [a], _, ⟨rfl, hstop⟩, hargs => by
      obtain ⟨ts, hpasses, hts, hcompletes⟩ := hargs a List.mem_cons_self
      rw [hstop] at hpasses
      refine ⟨[ts], ts, rfl, rfl, hpasses, ?_⟩
      intro turn last closing rest hturn hclosing hscan
      obtain ⟨middle, hmiddle, hscan⟩ := scan_append_eq_some_iff.mp hscan
      obtain ⟨next, hnext, hrest⟩ := scan_cons_eq_some_iff.mp hscan
      rw [hclosing] at hnext
      obtain ⟨hne, rfl⟩ := ne_operand_of_next?_rparen hnext
      rw [List.forall_mem_singleton]
      exact ⟨hturn.derives (hcompletes turn middle hmiddle hne) hts, hrest⟩
  | a :: b :: args, _, ⟨rfl, hcomma, start, hstart, hchain⟩, hargs => by
      obtain ⟨ts, hpasses, hts, hcompletes⟩ := hargs a List.mem_cons_self
      obtain ⟨_ | ⟨run, runs⟩, inner, hlength, hjoined, hinner, hscans⟩ := exists_joined_of_chain hchain
        (fun b hb => hargs b (List.mem_cons_of_mem a hb))
      · cases hlength
      · refine ⟨ts :: run :: runs, ts ++ a.stop.lookahead :: inner, ?_,
          ⟨a.stop.lookahead, inner, hcomma, rfl, hjoined⟩,
          hpasses.append (.cons (by simp [hcomma]) hstart hinner), ?_⟩
        · simpa using hlength
        · intro turn last closing rest hturn hclosing hscan
          rw [List.append_assoc] at hscan
          obtain ⟨middle, hmiddle, hscan⟩ := scan_append_eq_some_iff.mp hscan
          obtain ⟨next, hnext, hscan⟩ := scan_cons_eq_some_iff.mp hscan
          rw [hcomma] at hnext
          obtain ⟨hends, rfl⟩ := ends_of_next?_comma hnext
          obtain ⟨hruns, hrest⟩ := hscans .operand last closing rest (.inl rfl) hclosing hscan
          have hne : middle ≠ .operand := by
            rintro rfl
            rcases hends with h | h <;> cases h
          rw [List.forall_mem_cons]
          exact ⟨⟨hturn.derives (hcompletes turn middle hmiddle hne) hts, hruns⟩, hrest⟩

/-- An operand is the token of a leaf. -/
theorem exists_leaf_of_isOperand {T : SymbolTable} {token : Token} (h : token.IsOperand T) :
  ∃ leaf : Leaf, token = leaf.token
  := by
  cases token with
  | number n => exact ⟨.number n, rfl⟩
  | string s => exact ⟨.string s, rfl⟩
  | ident name => exact ⟨.name name, rfl⟩
  | _ => cases h

/-- What is read with all parentheses closed in the end leaves those that were open before, if its
tokens alternate. -/
theorem leaves_of_reading {T : SymbolTable} {registers : Nat} {y y' : Yard} {p r : Position}
    {code : List Operation} (h : Reading T registers y p code y' r) :
  y'.unclosed = 0 → ∃ ts, p.Passes ts r ∧ (ts = [] → y' = y) ∧
    ∀ turn last : Turn, turn.scan ts = some last → last ≠ .operand → Leaves y.unclosed turn ts
  := by
  induction h with
  | @stop y p stops =>
    intro hclosed
    refine ⟨[], .nil p, fun _ => rfl, ?_⟩
    intro turn last hscan hlast
    obtain rfl := Option.some.inj hscan
    rw [hclosed]
    apply completes_nil hlast
  | @operand y y' p q r code operand next rest ih =>
    intro hclosed
    obtain ⟨ts, hpasses, -, hleaves⟩ := ih hclosed
    obtain ⟨leaf, hleaf⟩ := exists_leaf_of_isOperand operand
    refine ⟨p.lookahead :: ts, .cons operand.ne_eof next hpasses, nofun, ?_⟩
    intro turn last hscan hlast
    obtain ⟨after, hafter, hrest⟩ := scan_cons_eq_some_iff.mp hscan
    rw [hleaf] at hafter
    obtain ⟨hbegins, hbegin⟩ := begins_of_next?_leaf hafter
    apply Leaves.append [p.lookahead] _ (hleaves after last hrest hlast)
    intro us hus
    apply hbegins.completes_cons hleaf hbegin hus
  | @call y y' p p₁ p₂ p₃ q r code name f args ident kind function next opening next₁ chain readings
      compiles closing next₃ arity returns rest ihArgs ih =>
    intro hclosed
    obtain ⟨ts, hpasses, -, hleaves⟩ := ih hclosed
    have hargs : ∀ a ∈ args, ∃ ts, a.start.Passes ts a.stop ∧ ts ≠ [] ∧
        ∀ turn last : Turn, turn.scan ts = some last → last ≠ .operand → turn.Completes ts := by
      intro a ha
      obtain ⟨hyard, hqueue, -⟩ := compiles a ha
      obtain ⟨us, hus, hempty, hcompletes⟩ := ihArgs a ha hyard
      refine ⟨us, hus, ?_, hcompletes⟩
      intro hnil
      rw [hempty hnil] at hqueue
      exact hqueue rfl
    obtain ⟨runs, inner, -, hjoined, hinner, hscans⟩ := exists_joined_of_chain chain hargs
    refine ⟨p.lookahead :: p₁.lookahead :: (inner ++ p₃.lookahead :: ts), ?_, nofun, ?_⟩
    · apply Position.Passes.cons (by simp [ident]) next
      apply Position.Passes.cons (by simp [opening]) next₁
      apply hinner.append (.cons (by simp [closing]) next₃ hpasses)
    · intro turn last hscan hlast
      obtain ⟨after, hafter, hscan₁⟩ := scan_cons_eq_some_iff.mp hscan
      rw [show p.lookahead.value = (Leaf.name name).token from ident] at hafter
      obtain ⟨hbegins, hbegin⟩ := begins_of_next?_leaf hafter
      obtain rfl := Option.some.inj hbegin
      obtain ⟨after, hafter₁, hscan₂⟩ := scan_cons_eq_some_iff.mp hscan₁
      rw [opening] at hafter₁
      obtain rfl := Option.some.inj hafter₁
      obtain ⟨hruns, hrest⟩ := hscans .opened last p₃.lookahead ts (.inr rfl) closing hscan₂
      have hcall : Derives .operand (p.lookahead :: p₁.lookahead :: (inner ++ [p₃.lookahead])) :=
        .call ident opening hruns hjoined closing
      have houter := Leaves.append _ (fun us hus => hbegins.completes_append hcall hus)
        (hleaves .done last hrest hlast)
      simpa using houter
  | @opening y y' p q r code opening next rest ih =>
    intro hclosed
    obtain ⟨ts, hpasses, -, hleaves⟩ := ih hclosed
    refine ⟨p.lookahead :: ts, .cons (by simp [opening]) next hpasses, nofun, ?_⟩
    intro turn last hscan hlast
    obtain ⟨after, hafter, hrest⟩ := scan_cons_eq_some_iff.mp hscan
    rw [opening] at hafter
    have hopen := hleaves after last hrest hlast
    rw [Yard.unclosed_openParenthesis] at hopen
    obtain ⟨inner, close, outer, hclose, rfl, hinner, houter⟩ := hopen
    rw [show p.lookahead :: (inner ++ close :: outer) =
      p.lookahead :: (inner ++ [close]) ++ outer by simp]
    apply Leaves.append _ _ houter
    intro us hus
    obtain ⟨hbegins, rfl⟩ | ⟨rfl, rfl⟩ := cases_of_next?_lparen hafter
    · apply hbegins.completes_append (.parenthesis opening hinner hclose) hus
    · rintro name ⟨id, hid⟩
      -- the arguments are none or one, since a comma would not have been read
      apply hus (name :: p.lookahead :: (inner ++ [close]))
      have hnone : ∀ run ∈ ([] : List (List (Located Token))), Derives .expression run := nofun
      obtain rfl | hinner := hinner
      · apply Derives.call hid opening hnone rfl hclose
      · apply Derives.call hid opening (List.forall_mem_singleton.mpr hinner) rfl hclose
  | @closing y y' p q r code closing unclosed next rest ih =>
    intro hclosed
    obtain ⟨ts, hpasses, -, hleaves⟩ := ih hclosed
    refine ⟨p.lookahead :: ts, .cons (by simp [closing]) next hpasses, nofun, ?_⟩
    intro turn last hscan hlast
    obtain ⟨after, hafter, hrest⟩ := scan_cons_eq_some_iff.mp hscan
    rw [closing] at hafter
    obtain ⟨hne, rfl⟩ := ne_operand_of_next?_rparen hafter
    have houter := hleaves .done last hrest hlast
    rw [Yard.unclosed_closeParenthesis] at houter
    obtain ⟨n, hn⟩ := Nat.exists_eq_succ_of_ne_zero unclosed
    rw [hn] at houter ⊢
    exact ⟨[], p.lookahead, ts, closing, rfl, completes_nil hne, houter⟩
  | @operator y y' p q r code op operator next rest ih =>
    intro hclosed
    obtain ⟨ts, hpasses, -, hleaves⟩ := ih hclosed
    refine ⟨p.lookahead :: ts, .cons (Token.ne_eof_of_operator? operator) next hpasses, nofun, ?_⟩
    intro turn last hscan hlast
    obtain ⟨after, hafter, hrest⟩ := scan_cons_eq_some_iff.mp hscan
    obtain ⟨hends, rfl⟩ := ends_of_next?_operator operator hafter
    have hoperand := hleaves .operand last hrest hlast
    rw [Yard.unclosed_operator] at hoperand
    apply Leaves.append [p.lookahead] _ hoperand
    intro us hus
    apply hends.completes_cons operator hus

end Turn

namespace Pass

/-- The tokens that are passed when an expression compiles are determined, and they are an expression
of the grammar exactly if they alternate. -/
theorem derives_iff_alternates {s t : Pass} {slot : Slot}
    (h : s.run (PassM.expression slot) = (.ok (), t)) :
  ∃ ts, (∀ us, s.position.Passes us t.position ↔ us = ts) ∧
    (Derives .expression ts ↔ Alternates ts)
  := by
  obtain ⟨calls, y, q, code, hread, hclosed, -, -, rfl⟩ := run_expression_eq_ok_iff.mp h
  obtain ⟨ts, hpasses, -, hcompletes⟩ := Turn.leaves_of_reading hread hclosed
  use ts
  constructor
  · intro us
    constructor
    · intro hus
      apply hus.unique hpasses
    · rintro rfl
      exact hpasses
  constructor
  · apply alternates_of_derives
  · rintro (hnamed | hdone)
    · apply hcompletes .operand .named hnamed nofun
    · apply hcompletes .operand .done hdone nofun

/-- The tokens of `2 * (3 - 1)` compile and alternate, so that they are an expression. -/
theorem derives_iff_alternates_product :
  let here (token : Token) : Located Token := ⟨token, .start⟩
  let number (n : Int64) : Located Token := here (.number (.int n))
  let ts := [number 2] ++ here (.mark .star) ::
    (here (.mark .lparen) :: (([number 3] ++ here (.mark .minus) :: [number 1]) ++
      [here (.mark .rparen)]))
  let p := Position.ofTokens ts .start
  let q := Position.ofTokens [] .start
  let s : Pass := ⟨p.lookahead, p.stream, .empty, .empty, 3⟩
  s.run (PassM.expression .register) = (.ok (), s.goto q [.load 0 (.number (.int 4))]) ∧
    s.position.Passes ts q ∧ Alternates ts ∧ Derives .expression ts
  := by
  intro here number ts p q s
  let leaf (n : Int64) : Tree := .leaf ⟨.number (.int n), .start⟩
  let difference : Tree := .binary (leaf 3) ⟨.sub, .start⟩ (leaf 1)
  let product : Tree := .binary (leaf 2) ⟨.mul, .start⟩ (.parenthesis difference)
  have hdifference : difference.Spells ([number 3] ++ here (.mark .minus) :: [number 1]) :=
    .binary (t := here (.mark .minus)) (.leaf ⟨.number (.int 3), .start⟩) rfl
      (.leaf ⟨.number (.int 1), .start⟩)
  have hspells : product.Spells ts :=
    .binary (t := here (.mark .star)) (.leaf ⟨.number (.int 2), .start⟩) rfl
      (.parenthesis rfl hdifference rfl)
  have hgrouped : product.Grouped :=
    .binary (.leaf _) (.parenthesis (.binary (.leaf _) (.leaf _) trivial trivial)) trivial trivial
  have hleaf : ∀ n, (leaf n).Emits .empty 3 [] := fun n => .leaf trivial
  have hemits : product.Emits .empty 3 [] :=
    .binary (hleaf 2) (.parenthesis (.binary (hleaf 3) (hleaf 1)))
  have hmore : ∀ t ∈ ts, t.value ≠ .eof := by decide
  have hpasses : s.position.Passes ts q := Position.passes_ofTokens hmore [] _
  have hcode : Expression.compile product.postorder .register 3 .start =
      .ok [.load 0 (.number (.int 4))] := by decide +kernel
  have hrun := run_expression_of_emits hspells hgrouped hemits hcode hpasses rfl
  obtain ⟨us, hunique, hiff⟩ := derives_iff_alternates hrun
  obtain rfl := (hunique ts).mp hpasses
  have halternates : Alternates ts := by decide
  exact ⟨hrun, hpasses, halternates, hiff.mpr halternates⟩

/-- The tokens `1 2 +` compile, but are no expression. -/
theorem postfix_sum_compiles :
  let here (token : Token) : Located Token := ⟨token, .start⟩
  let number (n : Int64) : Located Token := here (.number (.int n))
  let ts := [number 1, number 2, here (.mark .plus)]
  let p := Position.ofTokens ts .start
  let s : Pass := ⟨p.lookahead, p.stream, .empty, .empty, 2⟩
  let t := (s.run (PassM.expression .register)).2
  (s.run (PassM.expression .register)).1.isOk = true ∧
    t.listing.toList = [.operation (.load 0 (.number (.int 3)))] ∧
    t.lookahead.value = .eof ∧ ¬ Derives .expression ts
  := by
  intro here number ts p s t
  refine ⟨by decide +kernel, by decide +kernel, by decide +kernel, ?_⟩
  intro hderives
  have halternates := alternates_of_derives hderives
  revert halternates
  decide

end Pass

end SilFront
