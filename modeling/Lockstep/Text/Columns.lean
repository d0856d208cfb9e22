/-!
# Columns and hexadecimal numbers

Text is padded to a column by characters, on the right. Hexadecimal numbers are written in
lower case after `0x`.
-/

namespace Lockstep.Text

def padRight (width : Nat) (s : String) : String :=
  s ++ String.ofList (List.replicate (width - s.length) ' ')

def hexDigits (n : Nat) : String := String.ofList (Nat.toDigits 16 n)

def zeroPadded (width : Nat) (digits : String) : String :=
  String.ofList (List.replicate (width - digits.length) '0') ++ digits

def hex (n : Nat) : String := "0x" ++ hexDigits n

/-- At least six digits. -/
def address (n : Nat) : String := "0x" ++ zeroPadded 6 (hexDigits n)

def indent (levels : Nat) : String := String.ofList (List.replicate (2 * levels) ' ')

/-- Each line is ended. -/
def lines (ls : List String) : String := ls.foldl (fun acc l => acc ++ l ++ "\n") ""

end Lockstep.Text
