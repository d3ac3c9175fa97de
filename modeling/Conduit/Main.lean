import Conduit.Command.Execute

/-!
# The command line

Reads the files that a command names, executes it and prints its report. The exit status is 0 if the
command succeeds, 1 if it fails, and 2 if the words of the command line are no command.
-/

namespace Conduit

/-- What is found under the name of a file. -/
def FileContent.read (path : String) : IO FileContent := do
  try
    return .text (← IO.FS.readFile path)
  catch
    | .noFileOrDirectory .. => return .absent
    | _ => return .unreadable

/-- The directory of the user's configurations. -/
def configDirectory : IO String := do
  match ← IO.getEnv "XDG_CONFIG_HOME", ← IO.getEnv "HOME" with
  | some directory, home =>
    return if directory.startsWith "/" then directory else home.elim "." (· ++ "/.config")
  | none, home => return home.elim "." (· ++ "/.config")

/-- The files that an invocation names, with the place of its configuration. -/
def Invocation.paths (i : Invocation) (standard : String) : List String :=
  i.config.getD standard :: i.command.bundles ++ i.command.inputs?.toList

/-- Prints a report, and gives the exit status. -/
def Report.print (r : Report) : IO UInt32 := do
  r.output.forM IO.println
  match r.error with
  | none => return 0
  | some e =>
    IO.eprintln s!"Error: {e.message}"
    match e with
    | .load _ cause => IO.eprintln s!"\nCaused by:\n    {cause.message}"
    | _ => return 1
    return 1

/-- Executes an invocation. -/
def Invocation.perform (i : Invocation) : IO UInt32 := do
  let asked ← IO.getEnv "PIPEWRIGHT_CONFIG_PATH"
  let standard := EngineConfig.defaultPath asked (← configDirectory)
  let files ← (i.paths standard).mapM fun path => return (path, ← FileContent.read path)
  let found := Dict.ofList files
  (i.execute (fun path => (found.get? path).getD .absent) standard).print

end Conduit

/-- Executes the command that the words of a command line write. -/
def main (words : List String) : IO UInt32 := do
  match Conduit.Invocation.parse? words with
  | some i => i.perform
  | none =>
    IO.eprintln "error: invalid arguments"
    return 2
