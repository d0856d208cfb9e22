import Lockstep.Text.Columns
import Lockstep.Text.Printable

/-!
# Quoted text

Text between double quotes. Printable characters stand for themselves, the usual control
characters have a letter, and any other character is written by its code point.
-/

namespace Lockstep.Text

/-- A code point in `width` lower-case hexadecimal digits, after a backslash and a letter. -/
def codePoint (letter : String) (width : Nat) (c : Char) : String :=
  "\\" ++ letter ++ zeroPadded width (hexDigits c.toNat)

def quotedChar (c : Char) : String :=
  match c.toNat with
  | 0x22 => "\\\""
  | 0x5c => "\\\\"
  | 0x07 => "\\a"
  | 0x08 => "\\b"
  | 0x0c => "\\f"
  | 0x0a => "\\n"
  | 0x0d => "\\r"
  | 0x09 => "\\t"
  | 0x0b => "\\v"
  | n =>
    if isPrintable c then String.singleton c
    else if n < 0x80 then codePoint "x" 2 c
    else if n < 0x10000 then codePoint "u" 4 c
    else codePoint "U" 8 c

def quoted (s : String) : String :=
  "\"" ++ s.foldl (fun acc c => acc ++ quotedChar c) "" ++ "\""

end Lockstep.Text
