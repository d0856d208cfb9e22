import Lockstep.Design

/-!
# The bundled designs
-/

namespace Lockstep.Catalog

open Program (Command)
open Script (Term)

private def u (width : Int) : SignalType := .unsigned width

private def num (v : UInt64) (width : Int) : Term := .number v width

private def sig (name : String) : Term := .signal name

def accumulate : Design where
  name := "accumulate"
  summary := "a<=1; b<=2; 10 times a<=a+b"
  outputs := [("a", u 8)]
  expect := [⟨"a", 21⟩]
  body :=
    [.reg "b" (u 8),
     .assign "a" (num 1 8),
     .assign "b" (num 2 8),
     .times 10 none [.assign "a" (.bin .add (sig "a") (sig "b"))],
     .terminate]

/-- The test sees `x` before the increment of its own state. -/
def breakloop : Design where
  name := "breakloop"
  summary := "infinite loop left by break"
  outputs := [("x", u 8), ("done", u 1)]
  expect := [⟨"done", 1⟩, ⟨"x", 24⟩]
  body :=
    [.assign "x" (num 0 8),
     .assign "done" (num 0 1),
     .loop
       [.assign "x" (.bin .add (sig "x") (num 3 8)),
        .ifThen (.relate .ge (sig "x") (num 20 8)) [.breakLoop]],
     .assign "done" (num 1 1),
     .terminate]

def factorial : Design where
  name := "factorial"
  summary := "recursive factorial of 5"
  outputs := [("result", u 16)]
  expect := [⟨"result", 120⟩]
  body :=
    [.define "fact" 0 (some (u 16)) none
       [.ifThen (.relate .le (.arg 0) (num 1 8)) [.ret (num 1 16)],
        .call "fact" [.bin .sub (.arg 0) (num 1 8)] (some "below"),
        .ret (.bin .mul (.arg 0) (.var "below"))],
     .call "fact" [num 5 8] (some "value"),
     .assign "result" (.var "value"),
     .terminate]

def gcd : Design where
  name := "gcd"
  summary := "subtractive gcd with while and if/else"
  outputs := [("a", u 8), ("b", u 8)]
  expect := [⟨"a", 6⟩, ⟨"b", 6⟩]
  body :=
    [.assign "a" (num 48 8),
     .assign "b" (num 18 8),
     .step,
     .whileLoop (.relate .ne (sig "a") (sig "b"))
       [.ifThen (.relate .gt (sig "a") (sig "b"))
          [.assign "a" (.bin .sub (sig "a") (sig "b"))],
        .orElse [.assign "b" (.bin .sub (sig "b") (sig "a"))]],
     .terminate]

def memsum : Design where
  name := "memsum"
  summary := "fill a memory, then sum it with each"
  outputs := [("total", u 8)]
  expect := [⟨"total", 46⟩]
  body :=
    [.memory "mem" (u 8) 4,
     .assign "total" (num 0 8),
     .times 4 (some "i") [.assignAt "mem" (.var "i") (.bin .add (.var "i") (num 10 8))],
     .each "mem" (some "word") none
       [.assign "total" (.bin .add (sig "total") (.var "word"))],
     .terminate]

def overflow : Design where
  name := "overflow"
  summary := "recursion past a depth-1 stack with a handler"
  outputs := [("count", u 8), ("ovf", u 1)]
  expect := [⟨"count", 1⟩, ⟨"ovf", 1⟩]
  body :=
    [.assign "count" (num 0 8),
     .assign "ovf" (num 0 1),
     .define "down" 1 none (some [.assign "ovf" (num 1 1)])
       [.assign "count" (.bin .add (sig "count") (num 1 8)),
        .ifThen (.relate .ne (.arg 0) (num 0 4))
          [.call "down" [.bin .sub (.arg 0) (num 1 4)] none],
        .ret .hole],
     .call "down" [num 3 4] none,
     .terminate]

def twocalls : Design where
  name := "twocalls"
  summary := "one function called from two sites"
  outputs := [("a", u 8), ("b", u 8)]
  expect := [⟨"a", 6⟩, ⟨"b", 8⟩]
  body :=
    [.define "inc" 0 none none [.ret (.bin .add (.arg 0) (num 1 8))],
     .call "inc" [num 5 8] (some "first"),
     .assign "a" (.var "first"),
     .call "inc" [num 7 8] (some "second"),
     .assign "b" (.var "second"),
     .terminate]

/-- All designs, in the order of their names. -/
def all : List Design :=
  [accumulate, breakloop, factorial, gcd, memsum, overflow, twocalls]

def find? (name : String) : Option Design := all.find? (·.name == name)

end Lockstep.Catalog
