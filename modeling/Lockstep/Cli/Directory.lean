import Lockstep.Cli.Host

/-!
# A directory in memory

A working directory that holds files and no directories of its own, with the directories around it.
A path is walked name by name: every name but the last has to lead to a directory. The first name
that does not decides the fault, so a path through a file fails even if `..` follows.
-/

namespace Lockstep.Cli

/-- The longest name, in bytes. -/
def maxName : Nat := 255

/-- The longest path, in bytes. -/
def maxPath : Nat := 4095

/-- A directory that a path can reach. -/
inductive Folder where
  | here
  /-- Any of the directories that hold the working directory. -/
  | above
  | root
  | devices
  | temporary
deriving DecidableEq, Repr

/-- The root is its own parent. -/
def Folder.parent : Folder → Folder
  | .here | .above => .above
  | .root | .devices | .temporary => .root

/-- What a name stands for in a directory. -/
inductive Entry where
  | folder (f : Folder)
  | file (text : String)
  /-- Takes what is written and reads as empty. -/
  | sink
  | vacant
deriving DecidableEq, Repr

/-- A path as it is walked. A path without names leads to the directory it starts from. -/
structure Path where
  start : Folder
  folders : List String
  last : String
  /-- The path ends in a slash and so asks for a directory. -/
  slashed : Bool
deriving DecidableEq, Repr

def Path.ofText (text : String) : Except FileFault Path :=
  if text.contains '\x00' then .error .invalid
  else if text.isEmpty then .error .missing
  else if maxPath < text.utf8ByteSize then .error .nameTooLong
  else
    let names := (text.splitOn "/").filter (· ≠ "")
    .ok
      { start := if text.startsWith "/" then .root else .here
        folders := names.dropLast
        last := names.getLast?.getD "."
        slashed := text.endsWith "/" }

/-- The files of the working directory, and all that was printed. -/
structure Directory where
  files : List (String × String) := []
  stdout : String := ""
  stderr : String := ""
deriving Repr, Inhabited

namespace Directory

def text? (d : Directory) (name : String) : Option String := d.files.lookup name

/-- Only the directories that every system has are known outside the working directory. -/
def known (d : Directory) : Folder → String → Entry
  | .here, name => ((d.text? name).map Entry.file).getD .vacant
  | .root, "dev" => .folder .devices
  | .root, "tmp" => .folder .temporary
  | .devices, "null" => .sink
  | _, _ => .vacant

def entry (d : Directory) (f : Folder) (name : String) : Except FileFault Entry :=
  if name = "." then .ok (.folder f)
  else if name = ".." then .ok (.folder f.parent)
  else if maxName < name.utf8ByteSize then .error .nameTooLong
  else .ok (d.known f name)

/-- Goes on to the directory of that name. -/
def enter (d : Directory) (f : Folder) (name : String) : Except FileFault Folder := do
  match ← d.entry f name with
  | .folder g => return g
  | .file _ | .sink => throw .notDirectory
  | .vacant => throw .missing

def walk (d : Directory) : Folder → List String → Except FileFault Folder
  | f, [] => .ok f
  | f, name :: rest =>
    match d.enter f name with
    | .ok g => d.walk g rest
    | .error e => .error e

def put (d : Directory) (name text : String) : Directory :=
  { d with files := (name, text) :: d.files.filter (·.1 ≠ name) }

/-- Writes a file. What is written outside the working directory is not kept. -/
def write (d : Directory) (path text : String) : Except FileFault Directory := do
  let p ← Path.ofText path
  let f ← d.walk p.start p.folders
  if p.slashed then throw .isDirectory
  match ← d.entry f p.last with
  | .folder _ => throw .isDirectory
  | .sink => return d
  | .file _ | .vacant => return if f = .here then d.put p.last text else d

def save (d : Directory) (path text : String) : Option FileError × Directory :=
  match d.write path text with
  | .ok d => (none, d)
  | .error e => (some ⟨.opening, path, e⟩, d)

/-- What a path leads to. With a slash behind it, it leads to a directory or nowhere. -/
def find (d : Directory) (path : String) : Except FileFault Entry := do
  let p ← Path.ofText path
  let f ← d.walk p.start p.folders
  if p.slashed then return .folder (← d.enter f p.last) else d.entry f p.last

/-- A directory can be opened but not read. -/
def load (d : Directory) (path : String) : Except FileError String :=
  match d.find path with
  | .ok (.file text) => .ok text
  | .ok .sink => .ok ""
  | .ok .vacant => .error ⟨.opening, path, .missing⟩
  | .ok (.folder _) => .error ⟨.reading, path, .isDirectory⟩
  | .error e => .error ⟨.opening, path, e⟩

end Directory

instance : Host (StateM Directory) where
  print s := modify fun d => { d with stdout := d.stdout ++ s }
  complain s := modify fun d => { d with stderr := d.stderr ++ s }
  save path text := modifyGet (·.save path text)
  load path := return (← get).load path

end Lockstep.Cli
