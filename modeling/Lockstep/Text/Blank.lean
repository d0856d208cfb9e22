/-!
# Blank characters

The white space of Unicode, and text without it at either end.
-/

namespace Lockstep.Text

def isBlank (c : Char) : Bool :=
  let n := c.toNat
  (0x09 ≤ n && n ≤ 0x0d) || n == 0x20 || n == 0x85 || n == 0xa0 || n == 0x1680 ||
    (0x2000 ≤ n && n ≤ 0x200a) || n == 0x2028 || n == 0x2029 || n == 0x202f ||
    n == 0x205f || n == 0x3000

def trim (s : String) : String :=
  String.ofList ((s.toList.dropWhile isBlank).reverse.dropWhile isBlank).reverse

/-- The parts between commas, trimmed; empty parts are left out. -/
def splitList (s : String) : List String :=
  ((s.splitOn ",").map trim).filter (· ≠ "")

end Lockstep.Text
