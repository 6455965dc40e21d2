import SilFront.Proofs.Names
import SilFront.Proofs.Tiling

/-!
# What listings are made of

Every name and every string in a listing is a token of the source, and apart from them a listing
has only numbers, registers and what the last call returned in it. `Entry.MadeOf` says so for the
tokens with some property. An expression keeps its operands as they are, so the property carries
over from the tokens of a program to the entries that are written for it
(`Program.Checks.madeOf`), whatever it is.
-/

namespace SilFront

/-- A record type names a token with a property. -/
def DataType.MadeOf (P : Token → Prop) : DataType → Prop
  | .scalar _ => True
  | .record package => P (.ident package)

/-- The values of an operation are numbers or tokens with a property, and what is pushed is a number
or the first register. -/
def Operation.MadeOf (P : Token → Prop) : Operation → Prop
  | .load _ value => (∃ n, value = .number n) ∨ ∃ t, P t ∧ Value.ofToken? t = some value
  | .binary .. => True
  | .call function => P (.ident function)
  | .push value => value = .register 0 ∨ ∃ n, value = .number n

/-- The names in a note are tokens with a property. -/
def Note.MadeOf (P : Token → Prop) : Note → Prop
  | .functionCreated name _ _ => P (.ident name)
  | .scopeChanged _ => True
  | .argumentDeclared name type _ => P (.ident name) ∧ type.MadeOf P
  | .variableDeclared name type _ _ => P (.ident name) ∧ type.MadeOf P
  | .packageCreated name => P (.ident name)
  | .fieldAdded package field type => P (.ident package) ∧ P (.ident field) ∧ type.MadeOf P
  | .assigned name => P (.ident name)
  | .returned function _ => P (.ident function)
  | .branch _ => True

/-- An entry is made of tokens with a property. -/
def Entry.MadeOf (P : Token → Prop) : Entry → Prop
  | .operation op => op.MadeOf P
  | .note content => content.MadeOf P

/-- The entries of a section are made of tokens with a property. -/
def Section.MadeOf (P : Token → Prop) (s : Section) : Prop :=
  ∀ e ∈ s.entries, e.MadeOf P

variable {P : Token → Prop}

/-! ### Expressions -/

/-- The code of a queue is made of its operands. -/
theorem Expression.Straight.madeOf {registers : Nat} {slot : Slot} {items : List Item}
    {code : List Operation} (h : Straight registers slot items code)
    (hitems : ∀ t, .operand t ∈ items → P t.value) :
  ∀ op ∈ code, op.MadeOf P
  := by
  intro op hop
  obtain hdest | rfl | ⟨n, rfl⟩ := h.writes_or_pushes op hop
  · cases op with
    | load dest value =>
      obtain hn | ⟨t, ht, hvalue⟩ := h.loads dest value hop
      · exact .inl hn
      · exact .inr ⟨t.value, hitems t ht, hvalue⟩
    | binary => trivial
    | call => cases hdest
    | push => cases hdest
  · exact .inl rfl
  · exact .inr ⟨n, rfl⟩

namespace Outline

variable {T : SymbolTable} {registers : Nat}

theorem mem_tokensOf {e : Outline} {t : Token} (ht : t ∈ e.tokens) :
  ∀ {es : List Outline}, e ∈ es → t ∈ tokensOf es
  | [_], h => by
    rw [List.mem_singleton] at h
    rwa [tokensOf, ← h]
  | e₁ :: e₂ :: rest, h => by
    rw [tokensOf, List.mem_append]
    obtain rfl | h := List.mem_cons.mp h
    · exact .inl ht
    · exact .inr (List.mem_cons_of_mem _ (mem_tokensOf ht h))

/-- The operations of an expression are made of its tokens and of what its calls return. -/
theorem Compiles.madeOf (hreturned : P .returnValue) {slot : Slot} {y : Yard} {e : Outline}
    (h : e.Compiles T registers slot y) :
  (∀ t ∈ e.tokens, P t) → y.MadeOf P → ∀ op ∈ e.operations, op.MadeOf P
  := by
  induction h with
  | done _ compiles =>
    intro _ hy
    apply (Expression.straight_of_compile compiles).madeOf hy.queue
  | token next _ ih =>
    intro htokens hy
    obtain ⟨ht, hrest⟩ := List.forall_mem_cons.mp htokens
    apply ih hrest (hy.next (fun _ => ht) next)
  | call _ _ _ _ _ _ ihArgs ih =>
    intro htokens hy
    simp only [tokens, List.forall_mem_cons, List.forall_mem_append] at htokens
    obtain ⟨hname, -, harguments, -, hrest⟩ := htokens
    rw [operations, List.forall_mem_append, List.forall_mem_cons, operationsOf_eq_flatMap]
    refine ⟨?_, hname, ih hrest (hy.operand hreturned)⟩
    intro op hop
    obtain ⟨a, ha, hop⟩ := List.mem_flatMap.mp hop
    apply ihArgs a ha (fun t ht => harguments t (mem_tokensOf ht ha)) .empty op hop

/-- The code of an expression is made of the tokens of the expression. -/
theorem Compiled.madeOf (hreturned : P .returnValue) {slot : Slot} {follower : Token} {e : Outline}
    (h : e.Compiled registers T slot follower) (htokens : ∀ t ∈ e.tokens, P t) :
  (Section.expression e).MadeOf P
  := by
  intro entry hentry
  obtain ⟨op, hop, rfl⟩ := List.mem_map.mp hentry
  apply h.1.madeOf hreturned htokens .empty op hop

/-- The code of a call is made of the tokens of the call. -/
theorem Arguments.madeOf (hreturned : P .returnValue) {function : String}
    {arguments : List Outline} (h : Arguments (Compiled registers) T arguments)
    (hname : P (.ident function)) (htokens : ∀ t ∈ tokensOf arguments, P t) :
  (Section.call function arguments).MadeOf P
  := by
  intro entry hentry
  obtain ⟨op, hop, rfl⟩ := List.mem_map.mp hentry
  obtain hop | hop := List.mem_append.mp hop
  · rw [operationsOf_eq_flatMap] at hop
    obtain ⟨e, he, hop⟩ := List.mem_flatMap.mp hop
    apply (h.compiles e he).madeOf hreturned (fun t ht => htokens t (mem_tokensOf ht he))
      .empty op hop
  · obtain rfl := List.mem_singleton.mp hop
    exact hname

end Outline

/-! ### Programs -/

theorem Section.madeOf_note {content : Note} :
  (Section.note content).MadeOf P ↔ content.MadeOf P
  := List.forall_mem_singleton

/-- A value is written before what is done with it. -/
theorem madeOf_valueSections (hreturned : P .returnValue) {T : SymbolTable} {registers : Nat}
    {value : Option Outline} {content : Note}
    (accepted : ∀ e ∈ value, e.Compiled registers T .register (.mark .semicolon))
    (htokens : ∀ e ∈ value, ∀ t ∈ e.tokens, P t) (hcontent : content.MadeOf P) :
  ∀ s ∈ (value.map Section.expression).toList ++ [.note content], s.MadeOf P
  := by
  rw [List.forall_mem_append, List.forall_mem_singleton, Section.madeOf_note]
  refine ⟨?_, hcontent⟩
  intro s hs
  obtain ⟨e, he, rfl⟩ := Option.map_eq_some_iff.mp (Option.mem_toList.mp hs)
  apply (accepted e he).madeOf hreturned (htokens e he)

/-- What is written for a declared variable is made of the tokens of the declaration. -/
theorem madeOf_variableSections (hreturned : P .returnValue) {T : SymbolTable} {registers : Nat}
    {type : ScalarType} {name : String} {value : Option Outline} (depth : Nat)
    (accepted : ∀ e ∈ value, e.Compiled registers T .register (.mark .semicolon))
    (htokens : ∀ t ∈ variableTokens type name value, P t) :
  ∀ s ∈ variableSections depth type name value, s.MadeOf P
  := by
  apply madeOf_valueSections hreturned accepted
  · rintro e rfl t ht
    apply htokens t
    simp [variableTokens, ht]
  · exact ⟨htokens _ (by simp [variableTokens]), trivial⟩

/-- What is written for a block is made of what its statements are made of. -/
theorem madeOf_blockSections {depth : Nat} {statements : List Section}
    (h : ∀ s ∈ statements, s.MadeOf P) :
  ∀ s ∈ blockSections depth statements, s.MadeOf P
  := by
  rw [blockSections, List.forall_mem_cons, List.forall_mem_append, List.forall_mem_singleton,
    Section.madeOf_note, Section.madeOf_note]
  exact ⟨trivial, h, trivial⟩

/-- What is written for a construct is made of its tokens, what calls return, and the name of the
function around it. -/
theorem Construct.Checks.madeOf (hreturned : P .returnValue) {registers : Nat} {f : Enclosing}
    (hf : P (.ident f.name)) {k : Part} {T T' : SymbolTable} {c : Construct k}
    (h : c.Checks (Outline.Compiled registers) f T T') :
  (∀ t ∈ c.tokens, P t) → ∀ depth, ∀ s ∈ c.sections f depth, s.MadeOf P
  := by
  induction h with
  | scalar accepted =>
    intro htokens depth
    exact madeOf_variableSections hreturned depth accepted htokens
  | assignment _ accepted =>
    intro htokens depth
    simp only [tokens, List.forall_mem_cons, List.forall_mem_append] at htokens
    obtain ⟨hname, -, hvalue, -⟩ := htokens
    rw [sections, List.forall_mem_cons, List.forall_mem_singleton, Section.madeOf_note]
    exact ⟨accepted.madeOf hreturned hvalue, hname⟩
  | call _ _ accepted =>
    intro htokens depth
    simp only [tokens, List.forall_mem_cons, List.forall_mem_append] at htokens
    obtain ⟨hname, -, harguments, -⟩ := htokens
    rw [sections, List.forall_mem_singleton]
    exact accepted.madeOf hreturned hname harguments
  | record =>
    intro htokens depth
    simp only [tokens, List.forall_mem_cons] at htokens
    obtain ⟨hpackage, hname, -⟩ := htokens
    rw [sections, List.forall_mem_singleton, Section.madeOf_note]
    exact ⟨hname, hpackage⟩
  | returning accepted =>
    intro htokens depth
    simp only [tokens, List.forall_mem_cons, List.forall_mem_append] at htokens
    obtain ⟨-, hvalue, -⟩ := htokens
    have hnote : ∀ withValue, (Note.returned f.name withValue).MadeOf P := fun _ => hf
    apply madeOf_valueSections hreturned (fun e he => (accepted e he).2) _ (hnote _)
    rintro e rfl
    exact hvalue
  | branch accepted _ _ ihBody ihRest =>
    intro htokens depth
    simp only [tokens, conditionTokens, List.forall_mem_cons, List.forall_mem_append] at htokens
    obtain ⟨-, ⟨-, hcondition, -⟩, -, hbody, hrest⟩ := htokens
    rw [sections, List.forall_mem_cons, List.forall_mem_cons, List.forall_mem_append,
      Section.madeOf_note]
    exact ⟨accepted.madeOf hreturned hcondition, trivial,
      madeOf_blockSections (ihBody hbody (depth + 1)), ihRest hrest depth⟩
  | whileLoop accepted _ ih =>
    intro htokens depth
    simp only [tokens, conditionTokens, List.forall_mem_cons, List.forall_mem_append] at htokens
    obtain ⟨-, ⟨-, hcondition, -⟩, -, hbody⟩ := htokens
    rw [sections, List.forall_mem_cons, List.forall_mem_cons, Section.madeOf_note]
    exact ⟨accepted.madeOf hreturned hcondition, trivial,
      madeOf_blockSections (ih hbody (depth + 1))⟩
  | forLoop acceptedStart acceptedCondition acceptedStep _ ih =>
    intro htokens depth
    simp only [tokens, List.forall_mem_cons, List.forall_mem_append] at htokens
    obtain ⟨-, -, hstart, -, hcondition, -, hstep, -, -, hbody⟩ := htokens
    rw [sections, List.forall_mem_cons, List.forall_mem_cons, List.forall_mem_cons,
      List.forall_mem_cons, Section.madeOf_note]
    exact ⟨acceptedStart.madeOf hreturned hstart, acceptedCondition.madeOf hreturned hcondition,
      acceptedStep.madeOf hreturned hstep, trivial, madeOf_blockSections (ih hbody (depth + 1))⟩
  | close =>
    intro _ depth
    exact List.forall_mem_nil _
  | more _ _ ihFirst ihRest =>
    intro htokens depth
    rw [tokens, List.forall_mem_append] at htokens
    rw [sections, List.forall_mem_append]
    exact ⟨ihFirst htokens.1 depth, ihRest htokens.2 depth⟩
  | done =>
    intro _ depth
    exact List.forall_mem_nil _
  | elseIf accepted _ _ ihBody ihRest =>
    intro htokens depth
    simp only [tokens, conditionTokens, List.forall_mem_cons, List.forall_mem_append] at htokens
    obtain ⟨-, -, ⟨-, hcondition, -⟩, -, hbody, hrest⟩ := htokens
    rw [sections, List.forall_mem_cons, List.forall_mem_cons, List.forall_mem_append,
      Section.madeOf_note]
    exact ⟨accepted.madeOf hreturned hcondition, trivial,
      madeOf_blockSections (ihBody hbody (depth + 1)), ihRest hrest depth⟩
  | otherwise _ ih =>
    intro htokens depth
    simp only [tokens, List.forall_mem_cons] at htokens
    obtain ⟨-, -, hbody⟩ := htokens
    rw [sections, List.forall_mem_cons, Section.madeOf_note]
    exact ⟨trivial, madeOf_blockSections (ih hbody (depth + 1))⟩

theorem mem_parameterTokens {item : TypedName} :
  ∀ {items : List TypedName}, item ∈ items → .ident item.name ∈ parameterTokens items
  | [_], h => by
    rw [List.mem_singleton] at h
    simp [parameterTokens, TypedName.tokens, h]
  | _ :: _ :: _, h => by
    obtain rfl | h := List.mem_cons.mp h
    · simp [parameterTokens, TypedName.tokens]
    · rw [parameterTokens, List.mem_append]
      exact .inr (List.mem_cons_of_mem _ (mem_parameterTokens h))

/-- What is written for a declaration is made of its tokens. -/
theorem Declaration.Checks.madeOf (hreturned : P .returnValue) {registers : Nat}
    {T T' : SymbolTable} {d : Declaration} (h : d.Checks (Outline.Compiled registers) T T')
    (htokens : ∀ t ∈ d.tokens, P t) (depth : Nat) :
  ∀ s ∈ d.sections depth, s.MadeOf P
  := by
  cases h with
  | function _ _ statements =>
    simp only [tokens, List.forall_mem_cons, List.forall_mem_append] at htokens
    obtain ⟨-, hname, -, hparameters, -, -, -, -, hbody⟩ := htokens
    apply madeOf_blockSections
    rw [List.forall_mem_append, List.forall_mem_cons, Section.madeOf_note]
    refine ⟨?_, hname, statements.madeOf hreturned hname hbody (depth + 1)⟩
    intro s hs
    obtain ⟨item, hitem, rfl⟩ := List.mem_map.mp hs
    exact Section.madeOf_note.mpr ⟨hparameters _ (mem_parameterTokens hitem), trivial⟩
  | package =>
    simp only [tokens, List.forall_mem_cons, List.forall_mem_append, List.forall_mem_flatMap]
      at htokens
    obtain ⟨-, hname, -, hfields, -⟩ := htokens
    rw [sections, List.forall_mem_cons, Section.madeOf_note]
    refine ⟨hname, ?_⟩
    intro s hs
    obtain ⟨item, hitem, rfl⟩ := List.mem_map.mp hs
    have hfield : P (.ident item.name) := (hfields item hitem).1 _ (by simp [TypedName.tokens])
    exact Section.madeOf_note.mpr ⟨hname, hfield, trivial⟩
  | global accepted => exact madeOf_variableSections hreturned depth accepted htokens

/-- What is written for a program is made of its tokens and of what calls return. -/
theorem Program.Checks.madeOf (hreturned : P .returnValue) {registers : Nat} {T T' : SymbolTable}
    {program : Program} (h : program.Checks (Outline.Compiled registers) T T') (depth : Nat) :
  (∀ t ∈ program.tokens, P t) → ∀ e ∈ Section.all (program.sections depth), e.MadeOf P
  := by
  induction h with
  | nil =>
    intro _
    exact List.forall_mem_nil _
  | cons declaration _ ih =>
    intro htokens
    rw [tokens, List.flatMap_cons, List.forall_mem_append] at htokens
    rw [sections, List.flatMap_cons, Section.all_append, List.forall_mem_append]
    refine ⟨?_, ih htokens.2⟩
    intro e he
    obtain ⟨s, hs, he⟩ := List.mem_flatMap.mp he
    exact declaration.madeOf hreturned htokens.1 depth s hs e he

/-! ### Listings -/

/-- A token that some lexeme spells, or what a call returned. -/
def Token.Spelled (token : Token) : Prop :=
  token = .returnValue ∨ ∃ lexeme, token.SpelledBy lexeme

/-- Listings are made of tokens that are spelled in the source. -/
theorem madeOf_of_compile {source : String} {registers : Nat} {listing : Listing}
    (h : compile source registers = .ok listing) :
  ∀ e ∈ listing.toList, e.MadeOf Token.Spelled
  := by
  obtain ⟨program, ⟨tokens, T, htokens, hvalues, hchecks⟩, hlisting⟩ :=
    exists_spelledBy_of_compile h
  obtain ⟨ts, hsteps, rfl⟩ := TokenStream.tokens_eq_ok_iff.mp htokens
  obtain ⟨tiles, last, htiling⟩ := Cursor.exists_tiling hsteps
  have hprogram : program.tokens = tiles.map Tile.token :=
    List.append_cancel_right (hvalues.symm.trans htiling.values)
  rw [hlisting]
  apply hchecks.madeOf (.inl rfl)
  rw [hprogram, List.forall_mem_map]
  exact fun tile _ => .inr ⟨tile.lexeme, tile.spelledBy⟩

end SilFront
