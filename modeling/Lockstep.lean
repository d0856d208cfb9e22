import Lockstep.Cli.Directory
import Lockstep.Main
import Lockstep.Proofs.Blocks
import Lockstep.Proofs.Comparison
import Lockstep.Proofs.Machine.Construction
import Lockstep.Proofs.Machine.Register
import Lockstep.Proofs.Names
import Lockstep.Proofs.Program.Acceptance
import Lockstep.Proofs.Program.Agreement
import Lockstep.Proofs.Program.Convergence
import Lockstep.Proofs.Program.Idle
import Lockstep.Proofs.Program.Recursion
import Lockstep.Proofs.Program.Returns
import Lockstep.Proofs.Program.Wiring
import Lockstep.Proofs.Sim.Observer
import Lockstep.Proofs.Sim.Order
import Lockstep.Script.Description
import Lockstep.Slot
