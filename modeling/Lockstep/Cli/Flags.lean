import Lockstep.Cli.Numeral
import Lockstep.Text.Quoted

/-!
# Flags

Options of a command, written `-name value`, `-name=value` or with two dashes. A switch takes no
value of its own. Flags end at the first argument that is none, or after `--`.
-/

namespace Lockstep.Cli

inductive FlagValue where
  | text (s : String)
  | switch (b : Bool)
  | int (n : Int)
  | uint (n : Nat)
deriving DecidableEq, Repr, Inhabited

namespace FlagValue

/-- The word for the kind of value in a usage text. -/
def kindWord : FlagValue → String
  | .text _ => " string"
  | .switch _ => ""
  | .int _ => " int"
  | .uint _ => " uint"

/-- How a usage text shows the value that holds without the flag; an empty one is not shown. -/
def shownDefault : FlagValue → String
  | .text s => if s = "" then "" else " (default " ++ Text.quoted s ++ ")"
  | .switch b => if b then " (default true)" else ""
  | .int n => if n = 0 then "" else " (default " ++ toString n ++ ")"
  | .uint n => if n = 0 then "" else " (default " ++ toString n ++ ")"

end FlagValue

structure Flag where
  name : String
  /-- The value without the flag. It also fixes the kind of value the flag takes. -/
  initial : FlagValue
  help : String
deriving Inhabited

inductive FlagError where
  | badSyntax (arg : String)
  | undefined (name : String)
  | help
  | needsValue (name : String)
  | badSwitch (value name : String)
  | badValue (value name : String) (e : NumeralError)
deriving DecidableEq, Repr

def FlagError.message : FlagError → String
  | .badSyntax arg => "bad flag syntax: " ++ arg
  | .undefined name => "flag provided but not defined: -" ++ name
  | .help => "flag: help requested"
  | .needsValue name => "flag needs an argument: -" ++ name
  | .badSwitch v name =>
    "invalid boolean value " ++ Text.quoted v ++ " for -" ++ name ++ ": parse error"
  | .badValue v name e =>
    "invalid value " ++ Text.quoted v ++ " for flag -" ++ name ++ ": " ++ e.message

def readSwitch : String → Option Bool
  | "1" | "t" | "T" | "true" | "TRUE" | "True" => some true
  | "0" | "f" | "F" | "false" | "FALSE" | "False" => some false
  | _ => none

/-- Reads a value of the kind that the flag takes. -/
def readValue (flag : Flag) (v : String) : Except FlagError FlagValue :=
  match flag.initial with
  | .text _ => .ok (.text v)
  | .switch _ =>
    match readSwitch v with
    | some b => .ok (.switch b)
    | none => .error (.badSwitch v flag.name)
  | .int _ =>
    match readSigned v with
    | .ok n => .ok (.int n)
    | .error e => .error (.badValue v flag.name e)
  | .uint _ =>
    match readUnsigned v with
    | .ok n => .ok (.uint n)
    | .error e => .error (.badValue v flag.name e)

/-- The flags given on a command line; a later one overrides an earlier. -/
structure Settings where
  flags : List Flag
  given : List (String × FlagValue) := []
deriving Inhabited

namespace Settings

def value (s : Settings) (name : String) : FlagValue :=
  match s.given.lookup name with
  | some v => v
  | none => ((s.flags.find? (·.name == name)).map Flag.initial).getD default

def text (s : Settings) (name : String) : String :=
  match s.value name with
  | .text t => t
  | _ => ""

def switch (s : Settings) (name : String) : Bool :=
  match s.value name with
  | .switch b => b
  | _ => false

def int (s : Settings) (name : String) : Int :=
  match s.value name with
  | .int n => n
  | _ => 0

def uint (s : Settings) (name : String) : Nat :=
  match s.value name with
  | .uint n => n
  | _ => 0

def give (s : Settings) (name : String) (v : FlagValue) : Settings :=
  { s with given := (name, v) :: s.given }

end Settings

/-- The name of a flag argument, and its value after an equals sign. -/
def splitFlag (cs : List Char) : String × Option String :=
  match cs with
  | [] => ("", none)
  | c :: rest =>
    let name := rest.takeWhile (· ≠ '=')
    match rest.dropWhile (· ≠ '=') with
    | [] => (String.ofList (c :: name), none)
    | _ :: v => (String.ofList (c :: name), some (String.ofList v))

/-- What an argument is to the flag reader. -/
inductive Argument where
  /-- The flags end, before or after this argument. -/
  | stop
  | malformed
  | flag (name : String) (value : Option String)

def classify (arg : String) : Argument :=
  match arg.toList with
  | '-' :: '-' :: [] => .stop
  | '-' :: '-' :: cs =>
    if cs.head? = some '-' || cs.head? = some '=' then .malformed
    else let (name, v) := splitFlag cs; .flag name v
  | '-' :: c :: cs =>
    if c = '=' then .malformed else let (name, v) := splitFlag (c :: cs); .flag name v
  | _ => .stop

/-- Reads flags up to the first argument that is none. -/
def readFlags (s : Settings) : List String → Except FlagError Settings
  | [] => .ok s
  | arg :: rest =>
    match classify arg with
    | .stop => .ok s
    | .malformed => .error (.badSyntax arg)
    | .flag name value =>
      match s.flags.find? (·.name == name) with
      | none =>
        .error (if name = "help" || name = "h" then .help else .undefined name)
      | some flag =>
        match flag.initial, value, rest with
        | .switch _, none, rest => readFlags (s.give name (.switch true)) rest
        | _, some v, rest =>
          match readValue flag v with
          | .ok v => readFlags (s.give name v) rest
          | .error e => .error e
        | _, none, [] => .error (.needsValue name)
        | _, none, v :: rest =>
          match readValue flag v with
          | .ok v => readFlags (s.give name v) rest
          | .error e => .error e

/-- One flag in a usage text. A short switch has its help on the same line. -/
def flagUsage (f : Flag) : String :=
  let head := "  -" ++ f.name ++ f.initial.kindWord
  let gap := if head.length ≤ 4 then "\t" else "\n    \t"
  head ++ gap ++ f.help ++ f.initial.shownDefault ++ "\n"

/-- The usage of a command. Flags are listed in the order of their names. -/
def usage (command : String) (flags : List Flag) : String :=
  flags.foldl (fun acc f => acc ++ flagUsage f) ("Usage of " ++ command ++ ":\n")

end Lockstep.Cli
