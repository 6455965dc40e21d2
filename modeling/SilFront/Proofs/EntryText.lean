import SilFront.Proofs.DecimalText
import SilFront.Proofs.Quoting
import SilFront.Proofs.Vocabulary

/-!
# Texts of entries

An entry that is made of tokens of some source can be told from its line, up to a few words
(`Entry.line_eq_iff`), and everything in the line but the tab of an operation is printable
(`Entry.printable_text`).

* Values are told apart by how their texts begin: a string with a quote, a number with a digit or a
  sign, a variable and what a call returned with a letter. A variable may have a name that is also
  the text of another value; such pairs are `Value.Homograph`s.
* An operation begins with the register that it writes, or with a word of its own. A name has no
  space in it, so what is loaded is never mistaken for an operator on two registers.
* The names and types in a note stand in quotes and have no quotes in them, so the text of a note
  is split at its quotes into `Note.pieces`, which tell the note.
-/

namespace SilFront

/-! ### Words -/

namespace Token.Spelled

variable {name : String}

/-- A name begins as a word does, goes on as one and is no keyword. -/
theorem exists_word (h : (Token.ident name).Spelled) :
  ∃ first tail, name.toList = first :: tail ∧ isWordStart first ∧ (∀ c ∈ tail, isWordPart c) ∧
    ∀ k : Keyword, k.text ≠ name
  := by
  obtain h | ⟨lexeme, h⟩ := h
  · cases h
  · cases h with
    | @ident first tail hfirst htail hkeyword =>
      exact ⟨first, tail, String.toList_ofList, hfirst, htail, hkeyword⟩

theorem isWordPart_of_mem (h : (Token.ident name).Spelled) :
  ∀ c ∈ name.toList, isWordPart c
  := by
  obtain ⟨first, tail, hname, hfirst, htail, -⟩ := h.exists_word
  rw [hname, List.forall_mem_cons]
  exact ⟨isWordPart_of_isWordStart hfirst, htail⟩

theorem notMem_toList (h : (Token.ident name).Spelled) {c : Char} (hc : isWordPart c = false) :
  c ∉ name.toList
  := by
  intro hmem
  rw [h.isWordPart_of_mem c hmem] at hc
  contradiction

/-- The characters of a string have codes of one byte. -/
theorem toNat_lt {s : String} (h : (Token.string s).Spelled) :
  ∀ c ∈ s.toList, c.toNat < 256
  := by
  obtain h | ⟨lexeme, h⟩ := h
  · cases h
  · cases h with
    | string hbody =>
      rw [String.toList_ofList]
      apply toNat_lt_of_stringBody hbody

end Token.Spelled

/-! ### Printable texts -/

namespace Text

/-- A text of printable characters. -/
def Printable (s : String) : Prop :=
  ∀ c ∈ s.toList, isPrintable c

instance (s : String) : Decidable (Printable s) :=
  decidable_of_iff (s.toList.all isPrintable) List.all_eq_true

@[simp]
theorem printable_append {s t : String} :
  Printable (s ++ t) ↔ Printable s ∧ Printable t
  := by
  rw [Printable, String.toList_append, List.forall_mem_append]
  rfl

theorem isPrintable_of_isWordPart {c : Char} (h : Token.isWordPart c) :
  isPrintable c
  := by
  obtain rfl | hline := eq_or_ne c '_'
  · decide
  · have halpha := Token.isAlpha_iff c
    simp only [Token.isWordPart, Char.isAlphanum, Char.isDigit] at h
    have hrange : ' '.val ≤ c.val ∧ c.val ≤ '~'.val := by grind
    rwa [isPrintable, Bool.and_eq_true, decide_eq_true_eq, decide_eq_true_eq]

theorem isPrintable_of_isDigit {c : Char} (h : c.isDigit) :
  isPrintable c
  := by
  apply isPrintable_of_isWordPart
  rw [Token.isWordPart, Char.isAlphanum, h, Bool.or_true, Bool.true_or]

/-- A text of printable characters other than quotes. -/
def Plain (s : String) : Prop :=
  ∀ c ∈ s.toList, isPrintable c ∧ c ≠ '"'

instance (s : String) : Decidable (Plain s) :=
  decidable_of_iff (s.toList.all fun c => isPrintable c && c != '"') (by simp [Plain])

/-- What is plain is printable. -/
theorem Plain.printable {s : String} (h : Plain s) :
  Printable s
  := fun c hc => (h c hc).1

theorem Plain.notMem {s : String} (h : Plain s) :
  '"' ∉ s.toList
  := fun hc => (h _ hc).2 rfl

@[simp]
theorem plain_append {s t : String} :
  Plain (s ++ t) ↔ Plain s ∧ Plain t
  := by
  rw [Plain, String.toList_append, List.forall_mem_append]
  rfl

/-- Parts of words are plain. -/
theorem plain_of_isWordPart {s : String} (h : ∀ c ∈ s.toList, Token.isWordPart c) :
  Plain s
  := by
  intro c hc
  refine ⟨isPrintable_of_isWordPart (h c hc), ?_⟩
  rintro rfl
  have hquote := h _ hc
  contradiction

theorem plain_name {name : String} (h : (Token.ident name).Spelled) :
  Plain name
  := plain_of_isWordPart h.isWordPart_of_mem

theorem printable_number (n : Number) :
  Printable n.text
  := by
  have hmarks : Decimal.marks.all isPrintable := by decide
  intro c hc
  obtain h | h := Number.isDigit_of_mem_text hc
  · apply isPrintable_of_isDigit h
  · apply List.all_eq_true.mp hmarks c h

@[simp]
theorem plain_nat (n : ℕ) :
  Plain (toString n)
  := by
  apply plain_of_isWordPart
  intro c hc
  rw [toString, instToStringNat, Nat.toList_repr] at hc
  rw [Token.isWordPart, Char.isAlphanum,
    Nat.isDigit_of_mem_toDigits (by decide) (by decide) hc, Bool.or_true, Bool.true_or]

@[simp]
theorem printable_nat (n : ℕ) :
  Printable (toString n)
  := (plain_nat n).printable

end Text

/-! ### Values -/

namespace Value

/-- A value that a listing may load: no register, a string that a literal denotes, or a variable
with a name that a source can spell. -/
def Loadable : Value → Prop
  | .register _ => False
  | .number _ => True
  | .string s => ∀ c ∈ s.toList, c.toNat < 256
  | .variable name => (Token.ident name).Spelled
  | .returned => True

/-- A value that is made of tokens can be loaded. -/
theorem loadable_of_madeOf {dest : ℕ} {v : Value}
    (h : (Operation.load dest v).MadeOf Token.Spelled) :
  v.Loadable
  := by
  obtain ⟨n, rfl⟩ | ⟨t, ht, hvalue⟩ := h
  · trivial
  · cases t with
    | number | returnValue =>
      cases hvalue
      trivial
    | string s =>
      cases hvalue
      exact ht.toNat_lt
    | ident name =>
      cases hvalue
      exact ht
    | keyword | mark | accumulator | eof => cases hvalue

theorem printable_text {v : Value} (h : v.Loadable) :
  Text.Printable v.text
  := by
  cases v with
  | register => cases h
  | number n => exact Text.printable_number n
  | string s =>
    rw [text, Text.printable_append, Text.printable_append]
    exact ⟨⟨by decide, fun c => Text.Quoted.isPrintable_of_mem_encode⟩, by decide⟩
  | «variable» name => exact (Text.plain_name h).printable
  | returned => decide

/-- Values that are different and yet written alike: the second one is spelled as the name of a
variable. -/
inductive Homograph : Value → Value → Prop
  | returned : Homograph (.variable "rr") .returned
  | infinity {x : Float} (h : Decimal.Parts.ofFloat x = .infinity) :
      Homograph (.variable "inf") (.number (.float x))
  | notANumber {x : Float} (h : (Decimal.Parts.ofFloat x).IsNaN) :
      Homograph (.variable "NaN") (.number (.float x))

/-- Homographs are written alike. -/
theorem Homograph.text_eq {v v' : Value} (h : Homograph v v') :
  v.text = v'.text
  := by
  cases h with
  | returned => rfl
  | infinity h => exact (Decimal.floatText_of_infinity h).symm
  | notANumber h => exact (Decimal.floatText_of_isNaN h).symm

/-- The names that are written as numbers are those of the special numbers. -/
theorem Homograph.eq_of_number {name : String} {n : Number}
    (h : Homograph (.variable name) (.number n)) :
  name = "inf" ∨ name = "NaN"
  := by
  cases h with
  | infinity => exact .inl rfl
  | notANumber => exact .inr rfl

/-- Only the text of a string begins with a quote. -/
theorem head?_text_ne_quote {v : Value} (h : v.Loadable) (hv : ∀ s, v ≠ .string s) :
  v.text.toList.head? ≠ some '"'
  := by
  cases v with
  | register => cases h
  | number n =>
    obtain ⟨c, cs, htext, hc⟩ | ⟨x, rfl, hx | hx⟩ := n.exists_head_text
    · rw [text, htext]
      rintro ⟨⟩
      obtain hc | hc := hc <;> contradiction
    · rw [text, Number.text, Decimal.floatText_of_isNaN hx]
      decide
    · rw [text, Number.text, Decimal.floatText_of_infinity hx]
      decide
  | string s => exact absurd rfl (hv s)
  | «variable» name =>
    obtain ⟨first, tail, hname, hfirst, -⟩ := h.exists_word
    rw [text, hname]
    rintro ⟨⟩
    contradiction
  | returned => decide

/-- A number that is written as a word is written as one of two. -/
theorem homograph_of_number {n : Number} {first : Char} {tail : List Char}
    (htext : n.text.toList = first :: tail) (hfirst : Token.isWordStart first) :
  Homograph (.variable n.text) (.number n)
  := by
  obtain ⟨c, cs, hhead, hc⟩ | ⟨x, rfl, hx | hx⟩ := n.exists_head_text
  · rw [htext] at hhead
    obtain rfl : first = c := (List.cons.inj hhead).1
    obtain hc | rfl := hc
    · rw [Token.isWordStart_of_isDigit hc] at hfirst
      contradiction
    · contradiction
  · rw [Number.text, Decimal.floatText_of_isNaN hx]
    exact .notANumber hx
  · rw [Number.text, Decimal.floatText_of_infinity hx]
    exact .infinity hx

/-- No number is written like a register or what a call returned. -/
theorem toList_text_number_ne (n : Number) (tail : List Char) :
  n.text.toList ≠ 'r' :: tail
  := by
  intro h
  obtain hname | hname := (homograph_of_number h (by decide)).eq_of_number <;>
  · rw [hname] at h
    cases h

/-- A value can be told from its text, but for the words that are also names. -/
theorem eq_or_homograph {v v' : Value} (hv : v.Loadable) (hv' : v'.Loadable)
    (h : v.text = v'.text) :
  v = v' ∨ Homograph v v' ∨ Homograph v' v
  := by
  have hnumber : ∀ {name : String} {n : Number}, (Token.ident name).Spelled → name = n.text →
      Homograph (.variable name) (.number n) := by
    rintro name n hname rfl
    obtain ⟨first, tail, htext, hfirst, -⟩ := hname.exists_word
    exact homograph_of_number htext hfirst
  have hstring : ∀ {s : String} {v : Value}, v.Loadable → (Value.string s).text = v.text →
      ∃ s', v = .string s' := by
    intro s v hv htext
    by_contra! hne
    apply head?_text_ne_quote hv hne
    rw [← htext]
    simp [text]
  cases v with
  | register => cases hv
  | number n =>
    cases v' with
    | register => cases hv'
    | number n' => exact .inl (by rw [Number.text_injective h])
    | string s => cases (hstring hv h.symm).choose_spec
    | «variable» name => exact .inr (.inr (hnumber hv' h.symm))
    | returned => exact absurd (congrArg String.toList h) (toList_text_number_ne n _)
  | string s =>
    obtain ⟨s', rfl⟩ := hstring hv' h
    left
    have hencode : Text.Quoted.encode s = Text.Quoted.encode s' := by simpa [text] using h
    rw [Text.Quoted.eq_of_encode hv hv' hencode]
  | «variable» name =>
    cases v' with
    | register => cases hv'
    | number n => exact .inr (.inl (hnumber hv h))
    | string s => cases (hstring hv h.symm).choose_spec
    | «variable» name' => exact .inl (congrArg _ h)
    | returned =>
      obtain rfl : name = "rr" := h
      exact .inr (.inl .returned)
  | returned =>
    cases v' with
    | register => cases hv'
    | number n => exact absurd (congrArg String.toList h.symm) (toList_text_number_ne n _)
    | string s => cases (hstring hv h.symm).choose_spec
    | «variable» name =>
      obtain rfl : "rr" = name := h
      exact .inr (.inr .returned)
    | returned => exact .inl rfl

end Value

/-! ### Operations -/

namespace BinaryOp

/-- The operator with a symbol. -/
theorem find?_symbol (op : BinaryOp) :
  all.find? (fun op' => op'.symbol = op.symbol) = some op
  := by
  cases op <;> decide

/-- The symbol of an operator tells it. -/
theorem symbol_injective {op op' : BinaryOp} (h : op.symbol = op'.symbol) :
  op = op'
  := by
  have hfind := find?_symbol op
  rw [h, find?_symbol op'] at hfind
  exact (Option.some.inj hfind).symm

theorem notMem_symbol (op : BinaryOp) :
  ' ' ∉ op.symbol.toList
  := by
  cases op <;> decide

theorem printable_symbol (op : BinaryOp) :
  Text.Printable op.symbol
  := by
  cases op <;> decide

end BinaryOp

/-- There are only digits in the text of a natural number. -/
theorem notMem_toString {c : Char} (hc : c.isDigit = false) (hminus : c ≠ '-') (n : ℕ) :
  c ∉ (toString n).toList
  := by
  intro h
  obtain h | h := Decimal.isDigit_of_mem_toString (n := n) h
  · rw [h] at hc
    contradiction
  · contradiction

/-- The text of a natural number tells it. -/
theorem toString_nat_inj {m n : ℕ} :
  toString m = toString n ↔ m = n
  := by
  constructor
  · intro h
    have hread : ∀ k : ℕ, Decimal.readInt (toString k).toList = k := fun k =>
      Decimal.readInt_toString k
    have hm := hread m
    rw [h, hread n] at hm
    exact_mod_cast hm.symm
  · rintro rfl
    rfl

namespace Operation

theorem toList_text_load (dest : ℕ) (v : Value) :
  (Operation.load dest v).text.toList =
    'r' :: ((toString dest).toList ++ ' ' :: '=' :: ' ' :: v.text.toList)
  := by
  change ("r" ++ toString dest ++ " = " ++ v.text).toList = _
  simp

theorem toList_text_binary (dest lhs rhs : ℕ) (op : BinaryOp) :
  (Operation.binary dest lhs op rhs).text.toList =
    'r' :: ((toString dest).toList ++ ' ' :: '=' :: ' ' :: 'r' :: ((toString lhs).toList ++
      ' ' :: (op.symbol.toList ++ ' ' :: 'r' :: (toString rhs).toList)))
  := by
  change ("r" ++ toString dest ++ " = r" ++ toString lhs ++ " " ++ op.symbol ++ " r" ++
    toString rhs).toList = _
  simp

theorem toList_text_call (function : String) :
  (Operation.call function).text.toList = "call ".toList ++ function.toList
  := by
  change ("call " ++ function).toList = _
  rw [String.toList_append]

theorem toList_text_push (v : Value) :
  (Operation.push v).text.toList = "push(".toList ++ v.text.toList ++ [')']
  := by
  change ("push(" ++ v.text ++ ")").toList = _
  rw [String.toList_append, String.toList_append]
  rfl

variable {op op' : Operation}

/-- Operations that are written alike though they load different values. -/
def Alike (op op' : Operation) : Prop :=
  op = op' ∨ ∃ dest v v', op = .load dest v ∧ op' = .load dest v' ∧
    (Value.Homograph v v' ∨ Value.Homograph v' v)

/-- Operations that differ in homographs only are written alike. -/
theorem Alike.text_eq (h : op.Alike op') :
  op.text = op'.text
  := by
  obtain rfl | ⟨dest, v, v', rfl, rfl, h | h⟩ := h
  · rfl
  · rw [text, text, h.text_eq]
  · rw [text, text, h.text_eq]

/-- The register that is written, and what follows it. -/
theorem dest_inj {dest dest' : ℕ} {source source' : List Char}
    (h : 'r' :: ((toString dest).toList ++ ' ' :: '=' :: ' ' :: source) =
      'r' :: ((toString dest').toList ++ ' ' :: '=' :: ' ' :: source')) :
  dest = dest' ∧ source = source'
  := by
  obtain ⟨hdest, hsource⟩ := append_mark_inj (notMem_toString (by decide) (by decide) dest)
    (notMem_toString (by decide) (by decide) dest') (List.cons.inj h).2
  exact ⟨toString_nat_inj.mp (String.toList_inj.mp hdest), by simpa using hsource⟩

/-- What is loaded is never written like an operator on two registers. -/
theorem load_ne_binary {dest dest' lhs rhs : ℕ} {v : Value} {o : BinaryOp} (hv : v.Loadable) :
  (Operation.load dest v).text ≠ (Operation.binary dest' lhs o rhs).text
  := by
  intro h
  have htext := congrArg String.toList h
  rw [toList_text_load, toList_text_binary] at htext
  obtain ⟨-, hsource⟩ := dest_inj htext
  cases v with
  | register => cases hv
  | number n => exact Value.toList_text_number_ne n _ hsource
  | string s =>
    rw [Value.text] at hsource
    simp at hsource
  | «variable» name =>
    apply hv.notMem_toList (c := ' ') (by decide)
    rw [Value.text] at hsource
    simp [hsource]
  | returned =>
    have hspace : ' ' ∈ Value.returned.text.toList := by simp [hsource]
    revert hspace
    decide

/-- The text of an operation on registers tells its registers and its operator. -/
theorem binary_inj {dest dest' lhs lhs' rhs rhs' : ℕ} {o o' : BinaryOp}
    (h : (Operation.binary dest lhs o rhs).text = (Operation.binary dest' lhs' o' rhs').text) :
  Operation.binary dest lhs o rhs = .binary dest' lhs' o' rhs'
  := by
  have htext := congrArg String.toList h
  rw [toList_text_binary, toList_text_binary] at htext
  obtain ⟨rfl, hsource⟩ := dest_inj htext
  obtain ⟨hlhs, hrest⟩ := append_mark_inj (notMem_toString (by decide) (by decide) lhs)
    (notMem_toString (by decide) (by decide) lhs') (List.cons.inj hsource).2
  obtain ⟨hsymbol, hrhs⟩ := append_mark_inj o.notMem_symbol o'.notMem_symbol hrest
  rw [toString_nat_inj.mp (String.toList_inj.mp hlhs),
    BinaryOp.symbol_injective (String.toList_inj.mp hsymbol),
    toString_nat_inj.mp (String.toList_inj.mp (List.cons.inj hrhs).2)]

/-- The first letter of an operation. -/
theorem head?_text (op : Operation) :
  op.text.toList.head? = some (match op with
    | .load .. | .binary .. => 'r'
    | .call _ => 'c'
    | .push _ => 'p')
  := by
  cases op with
  | load => rw [toList_text_load]; rfl
  | binary => rw [toList_text_binary]; rfl
  | call => rw [toList_text_call]; rfl
  | push => rw [toList_text_push]; rfl

/-- An operation can be told from its text, but for the words that are also names. -/
theorem alike_of_text (hop : op.MadeOf Token.Spelled) (hop' : op'.MadeOf Token.Spelled)
    (h : op.text = op'.text) :
  op.Alike op'
  := by
  have hhead := head?_text op
  rw [h, head?_text op'] at hhead
  cases op with
  | load dest v =>
    cases op' with
    | load dest' v' =>
      have htext := congrArg String.toList h
      rw [toList_text_load, toList_text_load] at htext
      obtain ⟨rfl, hvalue⟩ := dest_inj htext
      obtain rfl | hhomograph := Value.eq_or_homograph (Value.loadable_of_madeOf hop)
        (Value.loadable_of_madeOf hop') (String.toList_inj.mp hvalue)
      · exact .inl rfl
      · exact .inr ⟨dest, v, v', rfl, rfl, hhomograph⟩
    | binary => exact absurd h (load_ne_binary (Value.loadable_of_madeOf hop))
    | call => cases hhead
    | push => cases hhead
  | binary dest lhs o rhs =>
    cases op' with
    | load => exact absurd h.symm (load_ne_binary (Value.loadable_of_madeOf hop'))
    | binary => exact .inl (binary_inj h)
    | call => cases hhead
    | push => cases hhead
  | call function =>
    cases op' with
    | call function' =>
      have htext := congrArg String.toList h
      rw [toList_text_call, toList_text_call] at htext
      rw [String.toList_inj.mp (List.append_cancel_left htext)]
      exact .inl rfl
    | _ => cases hhead
  | push v =>
    cases op' with
    | push v' =>
      have htext := congrArg String.toList h
      rw [toList_text_push, toList_text_push, List.append_left_inj, List.append_right_inj] at htext
      left
      obtain rfl | ⟨n, rfl⟩ := hop <;> obtain rfl | ⟨n', rfl⟩ := hop'
      · rfl
      · exact absurd htext.symm (Value.toList_text_number_ne n' _)
      · exact absurd htext (Value.toList_text_number_ne n _)
      · rw [Number.text_injective (String.toList_inj.mp htext)]
    | _ => cases hhead

theorem printable_text (h : op.MadeOf Token.Spelled) :
  Text.Printable op.text
  := by
  cases op with
  | load dest v =>
    change Text.Printable ("r" ++ toString dest ++ " = " ++ v.text)
    simp only [Text.printable_append, Text.printable_nat, and_true]
    exact ⟨⟨by decide, by decide⟩, Value.printable_text (Value.loadable_of_madeOf h)⟩
  | binary dest lhs o rhs =>
    change Text.Printable ("r" ++ toString dest ++ " = r" ++ toString lhs ++ " " ++ o.symbol ++
      " r" ++ toString rhs)
    simp only [Text.printable_append, Text.printable_nat, o.printable_symbol, and_true]
    decide
  | call function =>
    change Text.Printable ("call " ++ function)
    rw [Text.printable_append]
    exact ⟨by decide, (Text.plain_name h).printable⟩
  | push v =>
    change Text.Printable ("push(" ++ v.text ++ ")")
    rw [Text.printable_append, Text.printable_append]
    refine ⟨⟨by decide, ?_⟩, by decide⟩
    obtain rfl | ⟨n, rfl⟩ := h
    · decide
    · exact Text.printable_number n

end Operation

/-! ### Types -/

/-- Scalar types are written as keywords. -/
theorem ScalarType.exists_keyword (type : ScalarType) :
  ∃ k : Keyword, k.text = type.text
  := by
  cases type with
  | byte => exact ⟨.byte, rfl⟩
  | int => exact ⟨.int, rfl⟩
  | float => exact ⟨.float, rfl⟩

theorem ScalarType.text_injective {type type' : ScalarType} (h : type.text = type'.text) :
  type = type'
  := by
  revert h
  cases type <;> cases type' <;> decide

theorem ScalarType.plain_text (type : ScalarType) :
  Text.Plain type.text
  := by
  cases type <;> decide

theorem ReturnType.text_injective {type type' : ReturnType} (h : type.text = type'.text) :
  type = type'
  := by
  cases type with
  | scalar type =>
    cases type' with
    | scalar type' => rw [ScalarType.text_injective h]
    | void =>
      revert h
      cases type <;> decide
  | void =>
    cases type' with
    | scalar type =>
      revert h
      cases type <;> decide
    | void => rfl

theorem ReturnType.plain_text (type : ReturnType) :
  Text.Plain type.text
  := by
  cases type with
  | scalar type => exact type.plain_text
  | void => decide

namespace DataType

variable {type type' : DataType}

/-- The text of a type tells it, since names of packages are no keywords. -/
theorem text_injective (h : type.MadeOf Token.Spelled) (h' : type'.MadeOf Token.Spelled)
    (heq : type.text = type'.text) :
  type = type'
  := by
  have hkeyword : ∀ {package : String} (type : ScalarType), (Token.ident package).Spelled →
      type.text ≠ package := by
    intro package type hpackage
    obtain ⟨_, _, -, -, -, hne⟩ := hpackage.exists_word
    obtain ⟨k, hk⟩ := type.exists_keyword
    exact hk ▸ hne k
  cases type with
  | scalar type =>
    cases type' with
    | scalar type' => rw [ScalarType.text_injective heq]
    | record package => exact absurd heq (hkeyword type h')
  | record package =>
    cases type' with
    | scalar type => exact absurd heq.symm (hkeyword type h)
    | record package' => exact congrArg _ heq

/-- The text of a type is plain. -/
theorem plain_text (h : type.MadeOf Token.Spelled) :
  Text.Plain type.text
  := by
  cases type with
  | scalar type => exact type.plain_text
  | record package => exact Text.plain_name h

end DataType

/-! ### Notes -/

namespace Note

/-- What stands between the quotes of a note, and before and after them. -/
def pieces : Note → List String
  | .functionCreated name returns arity =>
    ["Create function ", name, " with return value of type ", returns.text,
      " and " ++ toString arity ++ " arguments"]
  | .scopeChanged depth => ["Change scope to " ++ toString depth]
  | .argumentDeclared name type depth =>
    ["Define new argument ", name, " of type ", type.text, " in scope " ++ toString depth]
  | .variableDeclared name type depth initialized =>
    ["Define new variable ", name, " of type ", type.text,
      (if initialized then " and initialize with r0" else "") ++ " in scope " ++ toString depth]
  | .packageCreated name => ["Create new package ", name, ""]
  | .fieldAdded package field type =>
    ["Add item into package ", package, " <- ", field, " of type ", type.text, ""]
  | .assigned name => ["Assign variable ", name, " a new value r0"]
  | .returned function withValue =>
    ["Return from function ", function, if withValue then " with r0" else ""]
  | .branch head => [head.text]

theorem toString_string (s : String) :
  toString s = s
  := rfl

/-- A note is written as its pieces with quotes between them. -/
theorem toList_text (n : Note) :
  n.text.toList = ['"'].intercalate (n.pieces.map String.toList)
  := by
  cases n <;>
  · delta text
    dsimp only [pieces, toString_string]
    simp [List.intercalate]

/-- No quote stands between the quotes of a note, and what stands there is printable. -/
theorem plain_pieces {n : Note} (h : n.MadeOf Token.Spelled) :
  ∀ piece ∈ n.pieces, Text.Plain piece
  := by
  cases n with
  | functionCreated name returns arity =>
    simp only [pieces, List.forall_mem_cons, Text.plain_append, Text.plain_nat, returns.plain_text,
      and_true]
    exact ⟨by decide, Text.plain_name h, by decide, by decide⟩
  | scopeChanged depth =>
    simp only [pieces, List.forall_mem_cons, Text.plain_append, Text.plain_nat, and_true]
    decide
  | argumentDeclared name type depth =>
    simp only [pieces, List.forall_mem_cons, Text.plain_append, Text.plain_nat, and_true]
    exact ⟨by decide, Text.plain_name h.1, by decide, DataType.plain_text h.2, by decide⟩
  | variableDeclared name type depth initialized =>
    simp only [pieces, List.forall_mem_cons, Text.plain_append, Text.plain_nat, and_true]
    refine ⟨by decide, Text.plain_name h.1, by decide, DataType.plain_text h.2, ?_, by decide⟩
    cases initialized <;> decide
  | packageCreated name =>
    simp only [pieces, List.forall_mem_cons]
    exact ⟨by decide, Text.plain_name h, by decide⟩
  | fieldAdded package field type =>
    simp only [pieces, List.forall_mem_cons]
    exact ⟨by decide, Text.plain_name h.1, by decide, Text.plain_name h.2.1, by decide,
      DataType.plain_text h.2.2, by decide⟩
  | assigned name =>
    simp only [pieces, List.forall_mem_cons]
    exact ⟨by decide, Text.plain_name h, by decide⟩
  | returned function withValue =>
    simp only [pieces, List.forall_mem_cons]
    refine ⟨by decide, Text.plain_name h, ?_⟩
    cases withValue <;> decide
  | branch head =>
    cases head <;> decide

/-- A note on a scope and one on a branch begin differently. -/
theorem scope_ne_branch {depth : ℕ} {head : Branch} :
  (scopeChanged depth).pieces ≠ (branch head).pieces
  := by
  intro h
  have hhead := congrArg (fun text : String => text.toList.head?) (List.cons.inj h).1
  cases head <;> simp [Branch.text] at hhead

/-- Whether a variable is given a value, and the scope that it is in. -/
theorem initialized_inj {initialized initialized' : Bool} {depth depth' : ℕ}
    (h : (if initialized then " and initialize with r0" else "") ++ " in scope " ++ toString depth =
      (if initialized' then " and initialize with r0" else "") ++ " in scope " ++
        toString depth') :
  initialized = initialized' ∧ depth = depth'
  := by
  have hsecond := congrArg (fun text : String => text.toList[1]?) h
  cases initialized <;> cases initialized'
  · exact ⟨rfl, toString_nat_inj.mp ((String.append_right_inj _).mp h)⟩
  · simp at hsecond
  · simp at hsecond
  · exact ⟨rfl, toString_nat_inj.mp ((String.append_right_inj _).mp h)⟩

/-- A note can be told from the pieces that its text is split into. -/
theorem pieces_injective {n n' : Note} (h : n.MadeOf Token.Spelled) (h' : n'.MadeOf Token.Spelled)
    (heq : n.pieces = n'.pieces) :
  n = n'
  := by
  cases n with
  | functionCreated name returns arity =>
    cases n' with
    | functionCreated name' returns' arity' =>
      simp only [pieces, List.cons.injEq, String.append_left_inj, String.append_right_inj,
        toString_nat_inj, true_and, and_true] at heq
      obtain ⟨rfl, hreturns, rfl⟩ := heq
      rw [ReturnType.text_injective hreturns]
    | _ => simp [pieces] at heq
  | scopeChanged depth =>
    cases n' with
    | scopeChanged depth' =>
      simp only [pieces, List.cons.injEq, String.append_right_inj, toString_nat_inj,
        and_true] at heq
      rw [heq]
    | branch head => cases scope_ne_branch heq
    | _ => simp [pieces] at heq
  | argumentDeclared name type depth =>
    cases n' with
    | argumentDeclared name' type' depth' =>
      simp only [pieces, List.cons.injEq, String.append_right_inj, toString_nat_inj, true_and,
        and_true] at heq
      obtain ⟨rfl, htype, rfl⟩ := heq
      rw [DataType.text_injective h.2 h'.2 htype]
    | _ => simp [pieces] at heq
  | variableDeclared name type depth initialized =>
    cases n' with
    | variableDeclared name' type' depth' initialized' =>
      simp only [pieces, List.cons.injEq, true_and, and_true] at heq
      obtain ⟨rfl, htype, hrest⟩ := heq
      obtain ⟨rfl, rfl⟩ := initialized_inj hrest
      rw [DataType.text_injective h.2 h'.2 htype]
    | _ => simp [pieces] at heq
  | packageCreated name =>
    cases n' with
    | packageCreated name' =>
      simp only [pieces, List.cons.injEq, true_and, and_true] at heq
      rw [heq]
    | _ => simp [pieces] at heq
  | fieldAdded package field type =>
    cases n' with
    | fieldAdded package' field' type' =>
      simp only [pieces, List.cons.injEq, true_and, and_true] at heq
      obtain ⟨rfl, rfl, htype⟩ := heq
      rw [DataType.text_injective h.2.2 h'.2.2 htype]
    | _ => simp [pieces] at heq
  | assigned name =>
    cases n' with
    | assigned name' =>
      simp only [pieces, List.cons.injEq, true_and, and_true] at heq
      rw [heq]
    | _ => simp [pieces] at heq
  | returned function withValue =>
    cases n' with
    | returned function' withValue' =>
      simp only [pieces, List.cons.injEq, true_and, and_true] at heq
      obtain ⟨rfl, hvalue⟩ := heq
      revert hvalue
      cases withValue <;> cases withValue' <;> simp
    | _ => simp [pieces] at heq
  | branch head =>
    cases n' with
    | branch head' =>
      revert heq
      cases head <;> cases head' <;> simp [pieces, Branch.text]
    | scopeChanged depth => cases scope_ne_branch heq.symm
    | _ => simp [pieces] at heq

/-- A note can be told from its text. -/
theorem eq_of_text {n n' : Note} (h : n.MadeOf Token.Spelled) (h' : n'.MadeOf Token.Spelled)
    (heq : n.text = n'.text) :
  n = n'
  := by
  have hsplit : ∀ {n : Note}, n.MadeOf Token.Spelled →
      n.text.toList.splitOn '"' = n.pieces.map String.toList := by
    intro n hn
    rw [toList_text, List.splitOn_intercalate]
    · rw [List.forall_mem_map]
      exact fun piece hpiece => (plain_pieces hn piece hpiece).notMem
    · cases n <;> simp [pieces]
  apply pieces_injective h h'
  apply List.map_injective_iff.mpr fun _ _ => String.toList_inj.mp
  rw [← hsplit h, ← hsplit h', heq]

theorem printable_text {n : Note} (h : n.MadeOf Token.Spelled) :
  Text.Printable n.text
  := by
  intro c hc
  rw [toList_text] at hc
  obtain rfl | ⟨piece, hpiece, hc⟩ := mem_intercalate hc
  · decide
  · obtain ⟨text, htext, rfl⟩ := List.mem_map.mp hpiece
    exact (plain_pieces h text htext).printable c hc

end Note

/-! ### Entries -/

namespace Entry

variable {e e' : Entry}

/-- Entries that are written alike: they are the same, or operations that are written alike. -/
def Alike : Entry → Entry → Prop
  | .operation op, .operation op' => op.Alike op'
  | .note n, .note n' => n = n'
  | _, _ => False

theorem printable_text (h : e.MadeOf Token.Spelled) :
  Text.Printable e.text
  := by
  cases e with
  | operation op => exact Operation.printable_text h
  | note n => exact Note.printable_text h

/-- Whatever stands in a line but for the tab of an operation is printable. -/
theorem notMem_line (h : e.MadeOf Token.Spelled) {c : Char} (hc : Text.isPrintable c = false)
    (htab : c ≠ '\t') :
  c ∉ e.line.toList
  := by
  have htext : c ∉ e.text.toList := by
    intro hmem
    rw [printable_text h c hmem] at hc
    contradiction
  cases e with
  | operation op =>
    rw [line, String.toList_append, List.mem_append]
    rintro (hmem | hmem)
    · exact htab (List.mem_singleton.mp hmem)
    · exact htext hmem
  | note n => exact htext

/-- No note is written like an operation. -/
theorem line_operation_ne {op : Operation} {n : Note} (h : n.MadeOf Token.Spelled) :
  (operation op).line ≠ (note n).line
  := by
  intro heq
  have htab : '\t' ∈ n.text.toList := by
    rw [line, line] at heq
    rw [← heq, String.toList_append]
    exact List.mem_append_left _ (by decide)
  have hprintable := Note.printable_text h '\t' htab
  contradiction

/-- Entries are told apart by their lines, but for those that are written alike. -/
theorem line_eq_iff (h : e.MadeOf Token.Spelled) (h' : e'.MadeOf Token.Spelled) :
  e.line = e'.line ↔ e.Alike e'
  := by
  cases e with
  | operation op =>
    cases e' with
    | operation op' =>
      rw [line, line, String.append_right_inj]
      exact ⟨Operation.alike_of_text h h', Operation.Alike.text_eq⟩
    | note n => exact ⟨fun heq => line_operation_ne h' heq, False.elim⟩
  | note n =>
    cases e' with
    | operation op => exact ⟨fun heq => line_operation_ne h heq.symm, False.elim⟩
    | note n' => exact ⟨Note.eq_of_text h h', fun heq => congrArg Note.text heq⟩

end Entry

end SilFront
