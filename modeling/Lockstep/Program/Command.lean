import Lockstep.Script.Term

/-!
# Program commands

The language of sequencer programs: assignments that are collected into states, control flow over
states, and functions that are called through a stack in hardware.
-/

namespace Lockstep.Program

open Script (Term)

inductive Command where
  | reg (name : String) (type : SignalType)
  | memory (name : String) (type : SignalType) (depth : Int)
  | assign (dest : String) (value : Term)
  | assignAt (memory : String) (index value : Term)
  /-- A conditional within one state. -/
  | when (test : Term) (thn els : List Command)
  /-- Ends the current state. -/
  | step
  | ifThen (test : Term) (body : List Command)
  /-- The other branch of the `ifThen` right before it. -/
  | orElse (body : List Command)
  | whileLoop (test : Term) (body : List Command)
  | loop (body : List Command)
  | breakLoop
  | nextRound
  | terminate
  /-- Names the state that receives the statements that follow. -/
  | label (name : String)
  | goto (label : String)
  /-- Runs the body with an index from zero up to a count that is read when the loop runs. -/
  | count (limit : Term) (index : Option String) (body : List Command)
  | times (n : Int) (index : Option String) (body : List Command)
  /-- Runs the body for every word of a memory. -/
  | each (memory : String) (word index : Option String) (body : List Command)
  | define (name : String) (depth : Int) (returns : Option SignalType)
      (overflow : Option (List Command)) (body : List Command)
  | call (function : String) (args : List Term) (result : Option String)
  | callDepth (function : String) (depth : Int) (args : List Term) (result : Option String)
  | ret (value : Term)
  | bind (name : String) (value : Term)
  /-- Records what is known about an expression. -/
  | probe (value : Term)
  | resize (signal : String) (type : SignalType)
  | stateBody (state : Int) (body : List Script.Stmt)
  | stateGoto (state : Int) (transition : Transition Term)
  | newState (name : String)
  | buildMachine
deriving Inhabited

/-- A function for one list of argument types. Its stack is a memory for each argument and one for
return addresses. -/
structure Instance where
  argTypes : List SignalType
  args : List SignalId
  returnAddr : SignalId
  sp : SignalId
  depth : SignalId
  ret : SignalId
  /-- The type of the stack pointer, shared by the depth. -/
  spType : TypeId
  /-- The first state of the body. -/
  entry : Nat := 0
  /-- The return register has its type. -/
  resolved : Bool
  /-- The depth of the stack is fixed. -/
  sized : Bool := false
deriving Inhabited

structure Function where
  name : String
  /-- The depth of the stack of a recursive function; zero leaves it to the argument types. -/
  depth : Int
  returns : Option SignalType
  /-- Elaborated after every call and run instead of it when the stack is full. -/
  overflow : Option (List Command)
  body : List Command
  instances : Array Instance := #[]
deriving Inhabited

/-- An instance by the position of its function and its own among the instances. -/
structure InstanceRef where
  function : Nat
  position : Nat
deriving DecidableEq, Repr, Inhabited

end Lockstep.Program
