import Lockstep.Bench
import Lockstep.Program.Elaborate

/-!
# Designs

A design is a sequencer program with its outputs, and the values they hold at the end. Every design
has the inputs `clk`, `rst` and `start` and the output `busy`.
-/

namespace Lockstep

open Program (Command Session Sequencer)

structure Design where
  name : String
  summary : String
  outputs : List (String × SignalType)
  body : List Command
  expect : List Bench.Expectation
deriving Inhabited

namespace Design

/-- A design with its program built in. -/
structure Product where
  session : Session
  sequencer : Sequencer
  expect : List Bench.Expectation
deriving Inhabited

def Product.module (p : Product) : Module := p.session.module

/-- The module of a design before its program is elaborated, with its start input. -/
def top (d : Design) : SignalId × Module :=
  let m : Module := { name := d.name }
  let (clk, m) := m.addPort "clk" .input .bit
  let (rst, m) := m.addPort "rst" .input .bit
  let (start, m) := m.addPort "start" .input .bit
  let m := { m with clock := some { signal := some clk }, reset := .ref rst }
  (start, d.outputs.foldl (fun m (name, t) => (m.addPort name .output t).2) m)

def build (d : Design) (encoding : Encoding) (reporter : Option Reporter) :
    Except Program.Error Product × Option Reporter :=
  let (start, m) := d.top
  let opts : Program.Options := { name := "ctl", start := .ref start, encoding }
  match Program.build { module := m, reporter } opts d.body with
  | (.error e, s) => (.error e, s.reporter)
  | (.ok q, s) =>
    let (_, m) := q.addBusy s.module
    (.ok { session := { s with module := m }, sequencer := q, expect := d.expect }, s.reporter)

end Design

end Lockstep
