import SilFront.CommandLine.FileTree
import SilFront.CommandLine.Request
import SilFront.Pass.Program

/-!
# Builds

A build reads the input file, empties the output file, expands the source, leaves the expanded
source in a scratch file and reads it again, compiles it, and writes the listing over the beginning
of the output file. It stops at the first failure, and what was written before stays. A program that
is refused still leaves the listing of what was compiled before the error.

A build works on any file system; `FileTree.system` is the one that is a value.
-/

namespace SilFront

/-- The operations of a file system. -/
structure FileSystem (m : Type → Type) where
  /-- The text of a file. -/
  readText : String → m (Except Fault String)
  /-- Makes a file with a text, in place of what it held. -/
  writeText : String → String → m (Except Fault Unit)
  /-- Writes a text over the beginning of a file. -/
  overwriteText : String → String → m (Except Fault Unit)
  /-- The files that a source in a directory calls for. -/
  library : String → String → m Library

/-- The file system of a file tree. -/
def FileTree.system : FileSystem (StateM FileTree) where
  readText path := do
    return (← get).readText path
  writeText path text := do
    match (← get).write path text.toUTF8 with
    | .ok t => set t; return .ok ()
    | .error fault => return .error fault
  overwriteText path text := do
    match (← get).overwrite path text.toUTF8 with
    | .ok t => set t; return .ok ()
    | .error fault => return .error fault
  library directory source := do
    return (← get).library directory source

/-- The reasons for which a build fails. -/
inductive Failure where
  | input (path : String) (fault : Fault)
  | output (path : String) (fault : Fault)
  | expansion (path : String) (cause : ExpansionError)
  | scratch (path : String) (fault : Fault)
  | program (path : String) (cause : Diagnostic)
  | listing (path : String) (fault : Fault)
deriving DecidableEq

/-- The wording of a reason. The reason for which a file that is called for cannot be read is given
once more as the cause of the failure. -/
def Failure.message : Failure → String
  | .input path fault => s!"Cannot open input file {path}: {fault.message}"
  | .output path fault => s!"Cannot open output file {path}: {fault.message}"
  | .expansion path (.unreadable file reason) =>
    s!"Failed to preprocess {path}: {(ExpansionError.unreadable file reason).message}: {reason}"
  | .expansion path cause => s!"Failed to preprocess {path}: {cause.message}"
  | .scratch path fault => s!"Cannot access scratch file {path}: {fault.message}"
  | .program path cause => s!"Failed to compile {path}: {cause.describe}"
  | .listing path fault => s!"Cannot write output file {path}: {fault.message}"

section

variable {m : Type → Type} [Monad m]

/-- Succeeds with the answer of a file system, or fails for its reason. -/
def attempt {α : Type} (failure : Fault → Failure) (answer : m (Except Fault α)) :
    ExceptT Failure m α := do
  match ← answer with
  | .ok value => return value
  | .error fault => throw (failure fault)

/-- Builds a program with a scratch file. -/
def build (fs : FileSystem m) (o : Options) (scratch : String) : ExceptT Failure m Unit := do
  let source ← attempt (.input o.input) (fs.readText o.input)
  attempt (.output o.output) (fs.writeText o.output "")
  let library ← fs.library (Path.directory o.input) source
  match ((Session.start library).expand source).1 with
  | .error cause => throw (.expansion o.input cause)
  | .ok expanded =>
    attempt (.scratch scratch) (fs.writeText scratch expanded)
    let text ← attempt (.scratch scratch) (fs.readText scratch)
    match Pass.start text o.registers with
    | .error cause => throw (.program o.input cause)
    | .ok start =>
      let (result, finish) := start.run PassM.program
      attempt (.listing o.output) (fs.overwriteText o.output finish.listing.text)
      match result with
      | .ok _ => return
      | .error cause => throw (.program o.input cause)

end

/-! ### Reports -/

/-- What the command reports. -/
inductive Report where
  | success
  | answered (text : String)
  | misused
  | failed (cause : Failure)

namespace Report

/-- The exit code of the command. -/
def exitCode : Report → UInt32
  | .success | .answered _ => 0
  | .failed _ => 1
  | .misused => 2

/-- What the command writes to standard output. -/
def output : Report → String
  | .answered text => text
  | _ => ""

/-- What stands before the wording of a failure, in red and bold. -/
def errorMark : String :=
  "\x1b[38;5;9m\x1b[1merror:\x1b[0m "

/-- The line that the command writes to standard error when a build fails. -/
def errorLine : Report → Option String
  | .failed cause => some (errorMark ++ cause.message)
  | _ => none

/-- The report on a build. -/
def ofBuild : Except Failure Unit → Report
  | .ok _ => .success
  | .error cause => .failed cause

end Report

/-- The name and version of the command. -/
def versionText : String :=
  "silang 0.1.0\n"

/-- The usage of the command. -/
def usageText : String :=
  "Usage: silang [OPTIONS] <INPUT> [OUTPUT]\n"

/-- The options of the command and what they mean. -/
def helpText : String :=
  "Compile a SILang source file into a pseudo-instruction listing\n\n" ++ usageText ++ "\n"
    ++ "Arguments:\n"
    ++ "  <INPUT>   Source file to compile\n"
    ++ "  [OUTPUT]  Where to write the instruction listing [default: out.silcode]\n\n"
    ++ "Options:\n"
    ++ "      --scratch <PATH>  Scratch file receiving the preprocessed source\n"
    ++ "      --registers <N>   Number of pseudo-registers available to one expression [default: 16]\n"
    ++ "  -v, --verbose         Enable verbose output\n"
    ++ "  -h, --help            Print help\n"
    ++ "  -V, --version         Print version\n"

/-- The name of the scratch file in the directory for temporary files. -/
def scratchName : String :=
  "tmp.sil"

/-- The scratch file: the one that is asked for, or else one in the directory for temporary files. -/
def Options.scratchFile (o : Options) (temporary : String) : String :=
  o.scratch.getD (Path.join temporary scratchName)

section

variable {m : Type → Type} [Monad m]

/-- Builds a program and reports on it. -/
def buildReport (fs : FileSystem m) (temporary : String) (o : Options) : m Report := do
  return .ofBuild (← (build fs o (o.scratchFile temporary)).run)

/-- Runs the command on its arguments. -/
def command (fs : FileSystem m) (temporary : String) (arguments : List String) : m Report := do
  match Request.ofArguments arguments with
  | .version => return .answered versionText
  | .help => return .answered helpText
  | .misuse => return .misused
  | .compile o => buildReport fs temporary o

end

end SilFront
