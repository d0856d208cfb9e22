import Lockstep.Proofs.Program.Discipline

/-!
# The stacks of recursive functions

A function is found to be recursive when one of its calls is elaborated while its own body is, which
is when the call stands among the states of that body: in the body itself, or in one of the bodies
that were elaborated within it. Such a call fixes the depth of the stack. Every other stack has room
for one call, also that of a function which can only be reached again through a body elaborated
before its own.
-/

namespace Lockstep.Program

open Sim Machine

/-! ## Calls in a plan -/

section Map

variable {ρ σ : Type} {L : List (Site ρ)} {r : InstanceRef} {request : Int} (h : ρ → σ)

end Map

/-! ## Depths -/

namespace Built

variable {s s' : Session} {opts : Options} {body : List Command} {L : List (Site LinkId)}
variable {c : Context} {q : Sequencer} (h : Built s opts body L c q s')
include h

/-- The depth that a call state asks for is that of a command of the program. -/
theorem asked {k : Nat} {r : InstanceRef} {request : Int} (hk : Calls L k r request) :
    ∃ f, s'.functions[r.function]? = some f ∧
      ∃ x ∈ Command.withinAll body, x.asks = some (f.name, request) := by
  obtain ⟨owner, args, link, hsite⟩ := hk
  have hlt : k < c.draft.machine.states.size :=
    h.code.size ▸ (List.getElem?_eq_some_iff.mp hsite).1
  obtain ⟨_, -, -, -, -, -, hclosed⟩ :=
    h.code.sites k _ _ hsite (Array.getElem?_eq_getElem hlt)
  obtain ⟨_, _, _, -, -, -, -, -, f, hf, hreq, -⟩ := hclosed List.not_mem_nil
  exact ⟨f, h.functions ▸ hf, hreq⟩

/-- Building the machine changes the type of state codes only. -/
theorem room (inst : Instance) :
    inst.room s'.module.symbols = inst.room c.session.module.symbols := by
  rw [h.symbols]
  rfl

end Built

end Lockstep.Program
