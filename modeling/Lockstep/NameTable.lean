/-!
# Unique names

The names taken in a module. A name that is wanted again is numbered: `a`, `a_1`, `a_2`.
Each stem remembers the last number tried, and names are never given back.
-/

namespace Lockstep

structure NameTable where
  /-- Taken names, each with the last number tried for it as a stem. -/
  entries : List (String × Nat) := []
deriving Repr, Inhabited

namespace NameTable

def taken (t : NameTable) (name : String) : Bool :=
  t.entries.any (·.1 == name)

def counter (t : NameTable) (stem : String) : Nat :=
  (t.entries.lookup stem).getD 0

def numbered (stem : String) (n : Nat) : String := stem ++ "_" ++ toString n

/-- The first number from `n` on whose name is free, among the next `tries`. -/
def firstFree (t : NameTable) (stem : String) : Nat → Nat → Nat
  | 0, n => n
  | tries + 1, n => if t.taken (numbered stem n) then firstFree t stem tries (n + 1) else n

def reserve (t : NameTable) (name : String) : NameTable :=
  { entries := (name, 0) :: t.entries }

def setCounter (t : NameTable) (stem : String) (n : Nat) : NameTable :=
  { entries := t.entries.map fun e => if e.1 == stem then (e.1, n) else e }

/-- Takes `stem` if it is free, else the stem with the next free number. An empty stem stands
for `tmp`. One more try than there are names always finds a free one. -/
def claim (t : NameTable) (wanted : String) : String × NameTable :=
  let stem := if wanted = "" then "tmp" else wanted
  if t.taken stem then
    let n := t.firstFree stem (t.entries.length + 1) (t.counter stem + 1)
    let name := numbered stem n
    (name, (t.setCounter stem n).reserve name)
  else
    (stem, t.reserve stem)

end NameTable

end Lockstep
