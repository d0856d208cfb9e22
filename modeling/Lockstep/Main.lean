import Lockstep.Cli.Command

/-!
# The command line program
-/

namespace Lockstep.Cli

private def fileError (path : String) (e : IO.Error) : FileError :=
  match e with
  | .noFileOrDirectory .. => ⟨.opening, path, .missing⟩
  | e => ⟨.opening, path, .other (toString e)⟩

instance : Host IO where
  print s := do (← IO.getStdout).putStr s
  complain s := do (← IO.getStderr).putStr s
  save path text := do
    try
      IO.FS.writeFile path text
      return none
    catch e => return some (fileError path e)
  load path := do
    try
      return .ok (← IO.FS.readFile path)
    catch e => return .error (fileError path e)

end Lockstep.Cli

def main (args : List String) : IO UInt32 := do
  match ← (Lockstep.Cli.run args : ExceptT Lockstep.Cli.Error IO Unit).run with
  | .ok () => return 0
  | .error e =>
    (← IO.getStderr).putStrLn e.message
    return 1
