import SilFront.Listing

/-!
# Requests

The arguments of the command are read from left to right: an input file, an output file, and options
that may stand anywhere. An option takes its value from the same argument, after an equals sign, or
from the next one, which must not look like an option then. Nothing may be given twice. After `--`
every argument is a file.
-/

namespace SilFront

/-- What is to be compiled, and how. -/
structure Options where
  input : String
  output : String
  /-- The file for the expanded source, if one is asked for. -/
  scratch : Option String
  registers : Nat
  verbose : Bool
deriving DecidableEq, Repr

/-- What a list of arguments asks for. -/
inductive Request where
  | compile (options : Options)
  | version
  | help
  /-- The arguments make no sense. -/
  | misuse
deriving DecidableEq, Repr

namespace Request

/-- The output file unless another is asked for. -/
def defaultOutput : String :=
  "out.silcode"

/-- The arguments read so far. -/
structure Given where
  files : List String
  scratch : Option String
  registers : Option Nat
  verbose : Bool
deriving DecidableEq, Repr

/-- A number that 64 bits hold, in decimal digits and with a plus sign or without. -/
def readCount? (text : String) : Option Nat :=
  let digits : List Char := match text.toList with
    | '+' :: rest => rest
    | rest => rest
  let value := digits.foldl (fun n c => 10 * n + (c.toNat - '0'.toNat)) 0
  if digits ≠ [] ∧ digits.all Char.isDigit ∧ value < 0x10000000000000000 then some value else none

namespace Given

/-- Nothing read. -/
def empty : Given :=
  ⟨[], none, none, false⟩

/-- Reads a file; there are two at most, and their names are not empty. -/
def addFile (g : Given) (name : String) : Except Request Given :=
  if name ≠ "" ∧ g.files.length < 2 then .ok { g with files := g.files ++ [name] }
  else .error .misuse

/-- Reads the scratch file. -/
def addScratch (g : Given) (name : String) : Except Request Given :=
  if name ≠ "" ∧ g.scratch.isNone then .ok { g with scratch := some name }
  else .error .misuse

/-- Reads the number of registers. -/
def addRegisters (g : Given) (text : String) : Except Request Given :=
  match readCount? text, g.registers with
  | some n, none => .ok { g with registers := some n }
  | _, _ => .error .misuse

/-- Reads a flag in its short form. -/
def addFlag (g : Given) (letter : Char) : Except Request Given :=
  match letter, g.verbose with
  | 'v', false => .ok { g with verbose := true }
  | 'V', _ => .error .version
  | 'h', _ => .error .help
  | _, _ => .error .misuse

/-- Reads an option with a value. -/
def addOption (g : Given) (name value : String) : Except Request Given :=
  match name with
  | "scratch" => g.addScratch value
  | "registers" => g.addRegisters value
  | _ => .error .misuse

/-- The short form of a flag. -/
def flagLetter? (name : String) : Option Char :=
  match name with
  | "verbose" => some 'v'
  | "version" => some 'V'
  | "help" => some 'h'
  | _ => none

/-- Whether an argument cannot be the value of the option before it. -/
def isOption (argument : String) : Bool :=
  argument.startsWith "-" && argument ≠ "-"

/-- What everything read asks for. -/
def finish (g : Given) : Request :=
  let compile (input output : String) : Request :=
    .compile
      { input, output
        scratch := g.scratch
        registers := g.registers.getD defaultRegisters
        verbose := g.verbose }
  match g.files with
  | [input] => compile input defaultOutput
  | [input, output] => compile input output
  | _ => .misuse

/-- Reads the arguments that are left. -/
def read (g : Given) : List String → Except Request Given
  | [] => .ok g
  | argument :: rest => do
    match argument.toList with
    | ['-', '-'] => rest.foldlM addFile g
    | '-' :: '-' :: option =>
      let name := String.ofList (option.takeWhile (· ≠ '='))
      match option.dropWhile (· ≠ '='), flagLetter? name with
      | _ :: value, _ => (← g.addOption name (String.ofList value)).read rest
      | [], some letter => (← g.addFlag letter).read rest
      | [], none =>
        match rest with
        | value :: rest =>
          if isOption value then throw .misuse
          (← g.addOption name value).read rest
        | [] => throw .misuse
    | '-' :: letter :: letters => (← (letter :: letters).foldlM addFlag g).read rest
    | _ => (← g.addFile argument).read rest

end Given

/-- What a list of arguments asks for. -/
def ofArguments (arguments : List String) : Request :=
  match Given.empty.read arguments with
  | .ok g => g.finish
  | .error request => request

end Request

end SilFront
