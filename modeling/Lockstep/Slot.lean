import Lockstep.Module

/-!
# Reconfigurable slots

A slot holds variants of a module that can take each other's place. The first variant fixes the
ports: every other one declares the same ports, in the same order, with equal types.
-/

namespace Lockstep

structure Slot where
  name : String
  variants : List Module := []
deriving Inhabited

namespace Slot

/-- A port as a variant shows it to the outside. -/
structure Face where
  direction : Direction
  name : String
  type : TypeSlot
deriving DecidableEq, Repr, Inhabited

def Face.text (f : Face) : String :=
  f.direction.word ++ " " ++ f.name ++ " " ++ f.type.describe

def faces (m : Module) : List Face :=
  m.ports.toList.map fun p => ⟨p.direction, p.name, m.symbols.type? p.type⟩

inductive Error where
  | portCount (slot variant : String) (got : Nat) (main : String) (want : Nat)
  | portFace (slot variant : String) (position : Nat) (got want : Face)
deriving DecidableEq, Repr, Inhabited

def Error.message : Error → String
  | .portCount slot variant got main want =>
    slot ++ ": variant " ++ variant ++ " has " ++ toString got ++ " ports, main " ++ main ++
      " has " ++ toString want ++ ": reconfigurable variant port mismatch"
  | .portFace slot variant position got want =>
    slot ++ ": variant " ++ variant ++ " port " ++ toString position ++ " is " ++ got.text ++
      ", want " ++ want.text ++ ": reconfigurable variant port mismatch"

def main (s : Slot) : Option Module := s.variants.head?

/-- The first position from `n` on where two port lists differ. -/
def firstDifference : Nat → List Face → List Face → Option (Nat × Face × Face)
  | n, got :: gots, want :: wants =>
    if got = want then firstDifference (n + 1) gots wants else some (n, got, want)
  | _, _, _ => none

/-- Adds a variant, unless its ports differ from those of the main one. -/
def add (s : Slot) (variant : Module) : Except Error Slot :=
  let extended := { s with variants := s.variants ++ [variant] }
  match s.main with
  | none => .ok extended
  | some main =>
    let got := faces variant
    let want := faces main
    if got.length ≠ want.length then
      .error (.portCount s.name variant.name got.length main.name want.length)
    else
      match firstDifference 0 got want with
      | none => .ok extended
      | some (n, g, w) => .error (.portFace s.name variant.name n g w)

end Slot

end Lockstep
