import SilFront.CommandLine.Build

/-!
# The command

The command on the files of the computer.
-/

namespace SilFront

/-- Whether the system means an error number, which it may negate. -/
def meansNumber (code number : UInt32) : Bool :=
  code == number || code == 0 - number

/-- The reason that the system gives for a failure. -/
def faultOfSystem (e : IO.Error) : Fault :=
  match e with
  | .noFileOrDirectory .. => .notFound
  | .inappropriateType _ code _ =>
    if meansNumber code 21 then .isDirectory
    else if meansNumber code 20 then .notDirectory
    else .system (toString e)
  | .permissionDenied _ code _ =>
    if meansNumber code 13 then .denied else .system (toString e)
  | .invalidArgument _ code _ =>
    if meansNumber code 36 then .tooLong else .system (toString e)
  | e => .system (toString e)

/-- Runs an action on the file of the computer at a path. -/
def attemptSystem {α : Type} (path : String) (action : IO α) : IO (Except Fault α) := do
  match Path.check path with
  | .error fault => return .error fault
  | .ok _ =>
    try return .ok (← action)
    catch e => return .error (faultOfSystem e)

/-- The text of a file of the computer. -/
def readSystem (path : String) : IO (Except Fault String) := do
  match ← attemptSystem path (IO.FS.readBinFile path) with
  | .error fault => return .error fault
  | .ok contents =>
    match String.fromUTF8? contents with
    | some text => return .ok text
    | none => return .error .notText

/-- Writes a text over the beginning of a file of the computer. -/
def overwriteSystem (path text : String) : IO Unit :=
  IO.FS.withFile path .readWrite fun handle => do
    handle.putStr text
    handle.flush

/-- Reads files, and the files that they call for, from a directory. -/
partial def gatherSystem (directory : String) (found : List (String × Except String String)) :
    List String → IO Library
  | [] => return .ofFiles found
  | name :: rest => do
    if (found.lookup name).isSome then gatherSystem directory found rest
    else
      let contents ← readSystem (Path.join directory name)
      let called := match contents with
        | .ok text => Fragment.files text
        | .error _ => []
      gatherSystem directory ((name, contents.mapError Fault.message) :: found) (rest ++ called)

/-- The file system of the computer. -/
def computer : FileSystem IO where
  readText := readSystem
  writeText path text := attemptSystem path (IO.FS.writeFile path text)
  overwriteText path text := attemptSystem path (overwriteSystem path text)
  library directory source := gatherSystem directory [] (Fragment.files source)

end SilFront

/-- Runs the command. -/
def main (arguments : List String) : IO UInt32 := do
  let temporary := (← IO.getEnv "TMPDIR").getD "/tmp"
  let report ← SilFront.command SilFront.computer temporary arguments
  IO.print report.output
  match report, report.errorLine with
  | .misused, _ => IO.eprint ("error: invalid arguments\n\n" ++ SilFront.usageText)
  | _, some line => IO.eprintln line
  | _, none => pure ()
  return report.exitCode
