import SilFront.Diagnostic
import SilFront.Token.Stream

/-!
# The pass over the tokens

A program is compiled in one pass over its tokens: each construct checks its tokens, changes the
table of visible names and writes its entries as soon as it is recognised. The pass looks one token
ahead and never goes back.

A construct is a `PassM` action. When it fails, the state it has reached is kept, so that what was
declared and written before the failure is still there, and another action can go on from it.
-/

namespace SilFront

/-- The state of a pass. -/
structure Pass where
  /-- The next token. -/
  lookahead : Located Token
  /-- What is read after it. -/
  stream : TokenStream
  symbols : SymbolTable
  listing : Listing
  /-- The number of registers that an expression may use. -/
  registers : Nat

/-- An action of a pass, which may fail and keeps its state when it does. -/
abbrev PassM :=
  ExceptT Diagnostic (StateM Pass)

namespace Pass

/-- A bound on the number of constructs that can follow: each takes a token, and none goes on after
an error. -/
def budget (s : Pass) : Nat :=
  s.stream.ahead + 3

/-- The pass before the first token of a text, which may fail to be one. -/
def start (text : String) (registers : Nat) : Except Diagnostic Pass :=
  match (TokenStream.ofText text).next with
  | (.ok lookahead, stream) => .ok { lookahead, stream, symbols := .empty, listing := .empty, registers }
  | (.error e, _) => .error (.ofLexical e)

/-- Runs an action from a state. -/
def run {α : Type} (s : Pass) (action : PassM α) : Except Diagnostic α × Pass :=
  StateT.run (ExceptT.run action) s

/-! ### Running composite actions -/

@[simp]
theorem run_pure {α : Type} (s : Pass) (value : α) :
  s.run (pure value) = (.ok value, s)
  := rfl

@[simp]
theorem run_throw {α : Type} (s : Pass) (e : Diagnostic) :
  s.run (throw e : PassM α) = (.error e, s)
  := rfl

@[simp]
theorem run_get (s : Pass) :
  s.run get = (.ok s, s)
  := rfl

@[simp]
theorem run_modify (s : Pass) (change : Pass → Pass) :
  s.run (modify change) = (.ok (), change s)
  := rfl

/-- The second of two actions runs from the state that the first has reached, if that one
succeeds. -/
theorem run_bind {α β : Type} (s : Pass) (first : PassM α) (second : α → PassM β) :
  s.run (first >>= second) =
    match s.run first with
    | (.ok value, t) => t.run (second value)
    | (.error e, t) => (.error e, t)
  := by
  have h : s.run (first >>= second) =
      (fun r : Except Diagnostic α × Pass => ExceptT.bindCont second r.1 r.2) (s.run first) := rfl
  rw [h]
  rcases s.run first with ⟨_ | _, t⟩ <;> rfl

/-- A handler runs from the state in which the handled action has failed. -/
theorem run_tryCatch {α : Type} (s : Pass) (action : PassM α) (handler : Diagnostic → PassM α) :
  s.run (tryCatch action handler) =
    match s.run action with
    | (.ok value, t) => (.ok value, t)
    | (.error e, t) => t.run (handler e)
  := by
  have h : s.run (tryCatch action handler) =
      StateT.run (ExceptT.run (ExceptT.tryCatch action handler)) s := rfl
  have h' : s.run action = StateT.run action s := rfl
  rw [h, h', ExceptT.tryCatch, ExceptT.run_mk, StateT.run_bind]
  rcases StateT.run action s with ⟨_ | _, t⟩ <;> rfl

end Pass

namespace PassM

/-! ### Failing -/

/-- Refuses the program at a location. -/
def refuseAt {α : Type} (cause : SyntaxError) (location : Location) : PassM α :=
  throw (.ofSyntax ⟨cause, location⟩)

/-- Refuses the program at the next token. -/
def refuse {α : Type} (cause : SyntaxError) : PassM α := do
  refuseAt cause (← get).lookahead.location

/-- Succeeds with the value of a checked computation, or refuses the program for its reason. -/
def check {α : Type} : Except (Located SyntaxError) α → PassM α
  | .ok value => pure value
  | .error e => throw (.ofSyntax e)

/-! ### Tokens -/

/-- The next token. -/
def peek : PassM (Located Token) := do
  return (← get).lookahead

/-- Goes on to the token after the next one. When that one cannot be read, the next token stays and
the text that could not be read is passed over. -/
def advance : PassM Unit := do
  let s ← get
  match s.stream.next with
  | (.ok lookahead, stream) => set { s with lookahead, stream }
  | (.error e, stream) =>
    set { s with stream }
    throw (.ofLexical e)

/-- Whether the next token is a given one. -/
def sees (token : Token) : PassM Bool := do
  return (← peek).value = token

/-- Goes past the next token if it is a given one, and says whether it is. -/
def accept (token : Token) : PassM Bool := do
  if ← sees token then
    advance
    return true
  else
    return false

/-- Goes past a mark that has to stand at a place. -/
def expect (mark : Mark) (place : Place) : PassM Unit := do
  let next ← peek
  if next.value = .mark mark then advance
  else refuse (.missingMark mark place next.value)

/-- Goes past an identifier. -/
def identifier : PassM (Located String) := do
  let next ← peek
  match next.value with
  | .ident name =>
    advance
    return ⟨name, next.location⟩
  | found => refuse (.missingIdentifier found)

/-! ### Entries -/

/-- Writes an entry. -/
def write (e : Entry) : PassM Unit :=
  modify fun s => { s with listing := s.listing.push e }

/-- Writes a note. -/
def note (content : Note) : PassM Unit :=
  write (.note content)

/-- Writes operations. -/
def emit (code : List Operation) : PassM Unit :=
  modify fun s => { s with listing := s.listing.append (code.map .operation) }

/-- Runs an action and, if it fails, takes back the entries that it has written. -/
def transaction {α : Type} (action : PassM α) : PassM α := do
  let mark := (← get).listing.length
  try action
  catch e =>
    modify fun s => { s with listing := s.listing.take mark }
    throw e

/-! ### Names -/

/-- The table of visible names. -/
def symbols : PassM SymbolTable := do
  return (← get).symbols

/-- Changes the table of visible names; a refusal is blamed on a location. -/
def declare (location : Location) (change : SymbolTable → Except SymbolError SymbolTable) :
    PassM Unit := do
  match change (← symbols) with
  | .ok table => modify fun s => { s with symbols := table }
  | .error cause => refuseAt (.symbol cause) location

/-- The depth of the innermost scope. -/
def depth : PassM Nat := do
  return (← symbols).depth

/-- Notes the depth of the innermost scope. -/
def noteDepth : PassM Unit := do
  note (.scopeChanged (← depth))

/-- Enters a scope. -/
def enterScope : PassM Unit := do
  modify fun s => { s with symbols := s.symbols.enter }
  noteDepth

/-- Leaves the innermost scope. -/
def exitScope : PassM Unit := do
  modify fun s => { s with symbols := s.symbols.exit }
  noteDepth

end PassM

namespace Pass

open PassM

/-! ### Running the primitive actions -/

@[simp]
theorem run_refuseAt {α : Type} (s : Pass) (cause : SyntaxError) (location : Location) :
  s.run (refuseAt cause location : PassM α) = (.error (.ofSyntax ⟨cause, location⟩), s)
  := rfl

@[simp]
theorem run_refuse {α : Type} (s : Pass) (cause : SyntaxError) :
  s.run (refuse cause : PassM α) = (.error (.ofSyntax ⟨cause, s.lookahead.location⟩), s)
  := rfl

@[simp]
theorem run_peek (s : Pass) :
  s.run peek = (.ok s.lookahead, s)
  := rfl

/-- Going on to another token changes neither the table of names nor the listing, also when that
token cannot be read. -/
theorem run_advance (s : Pass) :
  s.run advance =
    match s.stream.next with
    | (.ok lookahead, stream) => (.ok (), { s with lookahead, stream })
    | (.error e, stream) => (.error (.ofLexical e), { s with stream })
  := by
  have h : s.run advance = s.run (match s.stream.next with
      | (.ok lookahead, stream) => set { s with lookahead, stream }
      | (.error e, stream) => do
        set { s with stream }
        throw (.ofLexical e)) := rfl
  rw [h]
  rcases s.stream.next with ⟨_ | _, stream⟩ <;> rfl

@[simp]
theorem run_write (s : Pass) (e : Entry) :
  s.run (write e) = (.ok (), { s with listing := s.listing.push e })
  := rfl

@[simp]
theorem run_emit (s : Pass) (code : List Operation) :
  s.run (emit code) = (.ok (), { s with listing := s.listing.append (code.map .operation) })
  := rfl

/-- A transaction that fails leaves the listing as long as it was. -/
theorem run_transaction {α : Type} (s : Pass) (action : PassM α) :
  s.run (transaction action) =
    match s.run action with
    | (.ok value, t) => (.ok value, t)
    | (.error e, t) => (.error e, { t with listing := t.listing.take s.listing.length })
  := by
  have h : s.run (transaction action) = s.run (tryCatch action fun e => do
      modify fun t => { t with listing := t.listing.take s.listing.length }
      throw e) := rfl
  rw [h, run_tryCatch]
  rfl

@[simp]
theorem run_symbols (s : Pass) :
  s.run PassM.symbols = (.ok s.symbols, s)
  := rfl

/-- A refused declaration changes nothing. -/
theorem run_declare (s : Pass) (location : Location)
    (change : SymbolTable → Except SymbolError SymbolTable) :
  s.run (declare location change) =
    match change s.symbols with
    | .ok table => (.ok (), { s with symbols := table })
    | .error cause => (.error (.ofSyntax ⟨.symbol cause, location⟩), s)
  := by
  have h : s.run (declare location change) = s.run (match change s.symbols with
      | .ok table => modify fun t => { t with symbols := table }
      | .error cause => refuseAt (.symbol cause) location) := rfl
  rw [h]
  rcases change s.symbols with _ | _ <;> rfl

end Pass

end SilFront
