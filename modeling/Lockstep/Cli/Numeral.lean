/-!
# Numerals on the command line

Integers in base ten, or in the base that a `0x`, `0b`, `0o` or `0` in front gives. Underscores may
stand between digits and after the base. A numeral that leaves its range is refused as soon as it
does, even if what follows is no digit.
-/

namespace Lockstep.Cli

inductive NumeralError where
  | malformed
  | outOfRange
deriving DecidableEq, Repr

def NumeralError.message : NumeralError → String
  | .malformed => "parse error"
  | .outOfRange => "value out of range"

/-- The value of a digit, up to base 36. -/
def digitValue (c : Char) : Option Nat :=
  let n := c.toNat
  if 0x30 ≤ n && n ≤ 0x39 then some (n - 0x30)
  else if 0x61 ≤ n && n ≤ 0x7a then some (n - 0x61 + 10)
  else if 0x41 ≤ n && n ≤ 0x5a then some (n - 0x41 + 10)
  else none

/-- The base of a numeral and its digits. -/
def numeralBase : List Char → Nat × List Char
  | '0' :: c :: d :: rest =>
    match c.toLower with
    | 'b' => (2, d :: rest)
    | 'o' => (8, d :: rest)
    | 'x' => (16, d :: rest)
    | _ => (8, c :: d :: rest)
  | '0' :: rest => (8, rest)
  | cs => (10, cs)

def readDigits (base : Nat) : Nat → List Char → Except NumeralError Nat
  | n, [] => .ok n
  | n, c :: rest =>
    if c = '_' then readDigits base n rest
    else
      match digitValue c with
      | none => .error .malformed
      | some d =>
        if base ≤ d then .error .malformed
        else
          let n := n * base + d
          if 2 ^ 64 ≤ n then .error .outOfRange else readDigits base n rest

inductive Seen where
  | start | digit | underscore | other
deriving DecidableEq

/-- Each underscore stands between digits; a base in front counts as a digit. -/
def underscoresFrom (hex : Bool) : Seen → List Char → Bool
  | seen, [] => seen ≠ .underscore
  | seen, c :: rest =>
    if c.isDigit || (hex && (digitValue c).any (fun d => 10 ≤ d && d < 16)) then
      underscoresFrom hex .digit rest
    else if c = '_' then seen = .digit && underscoresFrom hex .underscore rest
    else seen ≠ .underscore && underscoresFrom hex .other rest

def underscoresPlaced : List Char → Bool
  | '0' :: c :: rest =>
    match c.toLower with
    | 'x' => underscoresFrom true .digit rest
    | 'b' | 'o' => underscoresFrom false .digit rest
    | _ => underscoresFrom false .start ('0' :: c :: rest)
  | cs => underscoresFrom false .start cs

def readUnsignedChars (cs : List Char) : Except NumeralError Nat :=
  if cs.isEmpty then .error .malformed
  else
    let (base, digits) := numeralBase cs
    match readDigits base 0 digits with
    | .error e => .error e
    | .ok n =>
      if digits.contains '_' && !underscoresPlaced cs then .error .malformed else .ok n

/-- An unsigned 64-bit integer. -/
def readUnsigned (s : String) : Except NumeralError Nat := readUnsignedChars s.toList

/-- A signed 64-bit integer. -/
def readSigned (s : String) : Except NumeralError Int := do
  match s.toList with
  | '-' :: cs =>
    let n ← readUnsignedChars cs
    if n ≤ 1 <<< 63 then return -(n : Int) else throw .outOfRange
  | '+' :: cs =>
    let n ← readUnsignedChars cs
    if n < 1 <<< 63 then return n else throw .outOfRange
  | cs =>
    let n ← readUnsignedChars cs
    if n < 1 <<< 63 then return n else throw .outOfRange

end Lockstep.Cli
