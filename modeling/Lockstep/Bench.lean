import Lockstep.Sim.Run

/-!
# Running a design on the bench

A module is reset, started by a pulse, and clocked until its busy output falls again.
-/

namespace Lockstep.Bench

inductive Error where
  | sim (e : Sim.Error)
  | timeout (module : String) (cycles : Int)
  | mismatch (module signal : String) (got want : UInt64)
deriving DecidableEq, Repr, Inhabited

def Error.message : Error → String
  | .sim e => e.message
  | .timeout m n => m ++ " after " ++ toString n ++ " cycles: design did not finish"
  | .mismatch m s got want =>
    m ++ ": " ++ s ++ " = " ++ toString got ++ ", want " ++ toString want

/-- The value that an output holds once the design has finished. -/
structure Expectation where
  signal : String
  value : UInt64
deriving DecidableEq, Repr, Inhabited

/-- The end of a run. Without a simulation the design could not be started. -/
structure Outcome (σ : Type) where
  sim : Option Sim
  ticks : Int
  error : Option Error
  seen : σ

def drive (s : Sim) (name : String) (v : UInt64) : Except Sim.Error Sim :=
  match s.set name v with
  | (s, none) => .ok s
  | (_, some e) => .error e

def pulse (s : Sim) : Except Sim.Error Sim :=
  match s.tick with
  | (s, none) => .ok s
  | (_, some e) => .error e

/-- One cycle of reset, then one cycle of start. -/
def boot (m : Module) : Except Sim.Error Sim := do
  let s ← Sim.start m
  let s ← pulse (← drive s "rst" 1)
  let s ← drive s "rst" 0
  let s ← pulse (← drive s "start" 1)
  drive s "start" 0

section

variable {σ : Type} (observe : σ → Sim → Nat → σ)

/-- Clocks a started design, at most `left` more times; the next tick is number `n`. -/
def finish (name : String) (limit : Int) :
    Nat → Nat → Bool → Sim → σ → Outcome σ
  | 0, _, _, s, seen => ⟨some s, limit, some (.timeout name limit), seen⟩
  | left + 1, n, started, s, seen =>
    match s.tick with
    | (s, some e) => ⟨some s, n, some (.sim e), seen⟩
    | (s, none) =>
      let seen := observe seen s n
      match s.get "busy" with
      | .error e => ⟨some s, n, some (.sim e), seen⟩
      | .ok busy =>
        if busy = 1 then finish name limit left (n + 1) true s seen
        else if started then ⟨some s, n, none, seen⟩
        else finish name limit left (n + 1) started s seen

/-- Runs a design for at most `limit` cycles after its start; `observe` sees every cycle. -/
def run (m : Module) (limit : Int) (seen : σ) : Outcome σ :=
  match boot m with
  | .error e => ⟨none, 0, some (.sim e), seen⟩
  | .ok s => finish observe m.name limit limit.toNat 1 false s seen

end

/-- The first expectation that does not hold. -/
def check (s : Sim) : List Expectation → Option Error
  | [] => none
  | e :: rest =>
    match s.get e.signal with
    | .error err => some (.sim err)
    | .ok got =>
      if got = e.value then check s rest
      else some (.mismatch s.module.name e.signal got e.value)

end Lockstep.Bench
