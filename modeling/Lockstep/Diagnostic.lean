import Lockstep.Text.Columns

/-!
# Diagnostics

Messages about a design, collected in order and printed as they arrive, one to a line, as text or
as records. Notes are always collected but printed only by a verbose reporter.
-/

namespace Lockstep

inductive Severity where
  | note | warning | error
deriving DecidableEq, Repr, Inhabited

namespace Severity

def ofCode? : Int → Option Severity
  | 0 => some .note
  | 1 => some .warning
  | 2 => some .error
  | _ => none

def code : Severity → Nat
  | .note => 0
  | .warning => 1
  | .error => 2

def word : Severity → String
  | .note => "note"
  | .warning => "warning"
  | .error => "error"

/-- The word for a severity code. -/
def wordOfCode (n : Int) : String :=
  match ofCode? n with
  | some s => s.word
  | none => "unknown"

end Severity

structure Diagnostic where
  severity : Severity
  /-- The part of the design it is about; may be empty. -/
  place : String
  message : String
deriving DecidableEq, Repr, Inhabited

namespace Diagnostic

/-- One character of a string in a record. Characters that could end a script are escaped too. -/
def recordChar (c : Char) : String :=
  let n := c.toNat
  match n with
  | 0x22 => "\\\""
  | 0x5c => "\\\\"
  | 0x08 => "\\b"
  | 0x0c => "\\f"
  | 0x0a => "\\n"
  | 0x0d => "\\r"
  | 0x09 => "\\t"
  | _ =>
    if n < 0x20 || n == 0x3c || n == 0x3e || n == 0x26 || n == 0x2028 || n == 0x2029 then
      "\\u" ++ Text.zeroPadded 4 (Text.hexDigits n)
    else String.singleton c

def recordString (s : String) : String :=
  "\"" ++ s.foldl (fun acc c => acc ++ recordChar c) "" ++ "\""

/-- A record with the fields severity, where and message; an empty place is left out. -/
def asRecord (d : Diagnostic) : String :=
  "\x7b\"severity\":" ++ recordString d.severity.word ++
    (if d.place = "" then "" else ",\"where\":" ++ recordString d.place) ++
    ",\"message\":" ++ recordString d.message ++ "\x7d"

def asText (d : Diagnostic) : String :=
  d.severity.word ++ ": " ++ (if d.place = "" then "" else d.place ++ ": ") ++ d.message

end Diagnostic

structure Reporter where
  /-- Prints records instead of text. -/
  records : Bool := false
  verbose : Bool := false
  /-- Prints nothing at all. -/
  silent : Bool := false
  diagnostics : List Diagnostic := []
  /-- Everything printed so far. -/
  printed : String := ""
deriving Repr, Inhabited

namespace Reporter

/-- A reporter for a format by name; any other name than `json` stands for plain text. -/
def forFormat (format : String) : Reporter := { records := format == "json" }

def prints (r : Reporter) (d : Diagnostic) : Bool :=
  !r.silent && (d.severity != .note || r.verbose)

def report (r : Reporter) (d : Diagnostic) : Reporter :=
  let line := if r.records then d.asRecord else d.asText
  { r with
    diagnostics := r.diagnostics ++ [d]
    printed := if r.prints d then r.printed ++ line ++ "\n" else r.printed }

def error (r : Reporter) (place message : String) : Reporter :=
  r.report ⟨.error, place, message⟩

def warning (r : Reporter) (place message : String) : Reporter :=
  r.report ⟨.warning, place, message⟩

def note (r : Reporter) (place message : String) : Reporter :=
  r.report ⟨.note, place, message⟩

def errorCount (r : Reporter) : Nat :=
  r.diagnostics.countP (·.severity == .error)

def hasErrors (r : Reporter) : Bool := 0 < r.errorCount

end Reporter

end Lockstep
