/-!
# Hosts

What a command needs from the system it runs on: two streams and files by path.
-/

namespace Lockstep.Cli

/-- Why a file cannot be used. -/
inductive FileFault where
  /-- The file, or a directory on the way to it, is not there. -/
  | missing
  | isDirectory
  /-- A file stands where the path goes on. -/
  | notDirectory
  | nameTooLong
  /-- The path holds a character that no path can hold. -/
  | invalid
  | other (text : String)
deriving DecidableEq, Repr

def FileFault.message : FileFault → String
  | .missing => "no such file or directory"
  | .isDirectory => "is a directory"
  | .notDirectory => "not a directory"
  | .nameTooLong => "file name too long"
  | .invalid => "invalid argument"
  | .other text => text

/-- What was tried with a file. -/
inductive FileAction where
  | opening
  | reading
deriving DecidableEq, Repr

def FileAction.word : FileAction → String
  | .opening => "open"
  | .reading => "read"

structure FileError where
  action : FileAction
  path : String
  fault : FileFault
deriving DecidableEq, Repr

def FileError.message (e : FileError) : String :=
  e.action.word ++ " " ++ e.path ++ ": " ++ e.fault.message

class Host (m : Type → Type) where
  print : String → m Unit
  complain : String → m Unit
  save : String → String → m (Option FileError)
  load : String → m (Except FileError String)

end Lockstep.Cli
