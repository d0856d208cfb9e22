import Lockstep.Machine
import Lockstep.Module.Dump

/-!
# State tables

The structure of a machine: for each state its code and its edges in the order of emission, the
fall-through first. Indices are reported as they are written, not clamped.
-/

namespace Lockstep.Machine

inductive Guard where
  | always
  | holds (e : Expr)
  | fails (e : Expr)
deriving DecidableEq, Repr, Inhabited

/-- One candidate successor. -/
structure Edge where
  guard : Guard
  target : Option (Target Expr)
deriving DecidableEq, Repr, Inhabited

def transitionEdges (t : Transition Expr) : List Edge :=
  match t.guard, t.otherwise with
  | none, _ => [⟨.always, t.target⟩]
  | some g, none => [⟨.holds g, t.target⟩]
  | some g, some other => [⟨.holds g, t.target⟩, ⟨.fails g, some other⟩]

structure Row where
  index : Nat
  code : UInt64
  name : String
  edges : List Edge
deriving Inhabited

def stateEdges (n : Nat) (s : State) : List Edge :=
  ⟨.always, some (.after n)⟩ :: s.gotos.flatMap transitionEdges

def table (f : Machine) : List Row :=
  f.states.toList.zipIdx.map fun (s, n) =>
    { index := n, code := f.code n, name := s.name, edges := stateEdges n s }

def Guard.text (g : Symbols) : Guard → String
  | .always => ""
  | .holds e => g.exprText e
  | .fails e => "!" ++ g.exprText e

/-- The index an edge leads to; -1 if it is computed or not known. -/
def edgeIndex (f : Machine) (e : Edge) : Int :=
  (e.target.bind f.targetIndex).getD (-1)

/-- What stands for the index of an edge that has none. -/
def edgeNote (f : Machine) (g : Symbols) (e : Edge) : String :=
  match e.target with
  | some (.computed c) => g.exprText c
  | some (.named name) => if (f.lookup name).isSome then "" else "?" ++ name
  | _ => ""

def edgeLine (f : Machine) (g : Symbols) (e : Edge) : String :=
  let index := f.edgeIndex e
  let target := if index < 0 then f.edgeNote g e else toString index
  match e.guard.text g with
  | "" => "  -> " ++ target
  | guard => "  " ++ guard ++ " -> " ++ target

def rowLines (f : Machine) (g : Symbols) (r : Row) : List String :=
  ("state " ++ toString r.index ++ " " ++ (if r.name = "" then "-" else r.name) ++
    " code=" ++ Text.hex r.code.toNat) :: r.edges.map (f.edgeLine g)

/-- The table as lines of text. -/
def tableText (f : Machine) (g : Symbols) : String :=
  Text.lines (f.table.flatMap (f.rowLines g))

end Lockstep.Machine
