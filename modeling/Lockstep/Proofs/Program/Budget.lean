import Lockstep.Program.Elaborate

/-!
# The budget for calls

Calls are elaborated with a budget for how deep they may be inside each other. An elaboration that
does not run out of its budget is the same with any larger one.
-/

namespace Lockstep.Program

/-! ## The same steps around -/

/-- Elaborations are related when the same steps stand around related ones. -/
structure Congruence (R : (α : Type) → ElabM α → ElabM α → Prop) : Prop where
  refl {α : Type} (x : ElabM α) : R α x x
  bind {α β : Type} {x y : ElabM α} {f g : α → ElabM β} :
    R α x y → (∀ a, R β (f a) (g a)) → R β (x >>= f) (y >>= g)

namespace Congruence

variable {R : (α : Type) → ElabM α → ElabM α → Prop} (h : Congruence R) {α β : Type}
include h

/-- The same step first. -/
theorem lead (x : ElabM α) {f g : α → ElabM β} (hf : ∀ a, R β (f a) (g a)) :
    R β (x >>= f) (x >>= g) := h.bind (h.refl x) hf

/-- The same steps after. -/
theorem trail {x y : ElabM α} (hx : R α x y) (f : α → ElabM β) : R β (x >>= f) (y >>= f) :=
  h.bind hx fun a => h.refl (f a)

section

variable {x y : ElabM Unit} (hxy : R Unit x y)
include hxy

theorem ifThen (test : Expr) : R Nat (ifThen test x) (ifThen test y) :=
  h.lead _ fun _ => h.lead _ fun _ => h.trail hxy _

theorem orElse : R Nat (orElse x) (orElse y) := by
  refine h.lead _ fun d => ?_
  split
  · exact h.lead _ fun _ => h.lead _ fun _ => h.trail hxy _
  · exact h.refl _

theorem loop (head tail : Option Expr) (advance : Option Statement) :
    R Nat (loop head tail advance x) (loop head tail advance y) :=
  h.lead _ fun _ => h.lead _ fun _ => h.trail hxy _

end

section

variable {x y : Expr → ElabM Unit} (hxy : ∀ i, R Unit (x i) (y i))
include hxy

theorem count (limit : Expr) : R Nat (count limit x) (count limit y) := by
  refine h.lead _ fun _ => h.lead _ fun _ => h.lead _ fun _ => h.lead _ fun _ => ?_
  refine h.lead _ fun _ => h.lead _ fun _ => h.lead _ fun _ => h.lead _ fun _ => ?_
  exact h.loop (hxy _) _ _ _

theorem times (n : UInt64) : R Nat (times n x) (times n y) := h.lead _ fun _ => h.count hxy _

end

section

variable {run run' : List Command → ElabM Unit} (hrun : ∀ body, R Unit (run body) (run' body))
include hrun

theorem finishCall (r : InstanceRef) (call : Nat) (link : LinkId) (skip : Nat) :
    R Unit (finishCall run r call link skip) (finishCall run' r call link skip) := by
  refine h.lead _ fun f => ?_
  cases f.overflow with
  | none => exact h.refl _
  | some handler => exact h.trail (hrun handler) _

theorem callExisting (r : InstanceRef) (args : List Expr) :
    R Unit (callExisting run r args) (callExisting run' r args) :=
  h.lead _ fun _ => h.lead _ fun _ => h.finishCall hrun _ _ _ _

theorem callFirst (r : InstanceRef) (args : List Expr) :
    R Unit (callFirst run r args) (callFirst run' r args) := by
  refine h.lead _ fun _ => h.lead _ fun _ => h.lead _ fun _ => h.lead _ fun _ => ?_
  refine h.lead _ fun _ => h.lead _ fun _ => h.lead _ fun _ => h.lead _ fun f => ?_
  refine h.bind (hrun f.body) fun _ => h.lead _ fun _ => h.lead _ fun _ => h.lead _ fun _ => ?_
  exact h.lead _ fun _ => h.finishCall hrun _ _ _ _

theorem callFunction (fn : Nat) (depth : Int) (args : List Expr) :
    R Expr (callFunction run fn depth args) (callFunction run' fn depth args) := by
  refine h.lead _ fun s => h.lead _ fun types => h.lead _ fun o => ?_
  dsimp only
  split
  · exact h.lead _ fun _ => h.trail (h.callExisting hrun _ _) _
  · refine h.lead _ fun f => ?_
    split
    · exact h.trail (h.callExisting hrun _ _) _
    · exact h.lead _ fun _ => h.trail (h.callFirst hrun _ _) _

end

variable {call call' : Caller}

theorem callNamed (hcall : ∀ fn depth args, R Expr (call fn depth args) (call' fn depth args))
    (command name : String) (depth : Int) (args : List Script.Term) (result : Option String) :
    R Unit (callNamed call command name depth args result)
      (callNamed call' command name depth args result) := by
  refine h.lead _ fun s => ?_
  split
  · exact h.refl _
  · exact h.lead _ fun _ => h.trail (hcall _ _ _) _

mutual

theorem perform (hcall : ∀ fn depth args, R Expr (call fn depth args) (call' fn depth args)) :
    ∀ x : Command, R Unit (perform call x) (perform call' x)
  | .when test thn els => by
    refine h.lead _ fun _ => h.lead _ fun _ => h.bind (performAll hcall thn) fun _ => ?_
    exact h.lead _ fun _ => h.lead _ fun _ => h.trail (performAll hcall els) _
  | .ifThen _ body => h.lead _ fun _ => h.trail (h.ifThen (performAll hcall body) _) _
  | .orElse body => h.trail (h.orElse (performAll hcall body)) _
  | .whileLoop _ body => h.lead _ fun _ => h.trail (h.loop (performAll hcall body) _ _ _) _
  | .loop body => h.trail (h.loop (performAll hcall body) _ _ _) _
  | .count _ _ body =>
    h.lead _ fun _ => h.trail (h.count (fun _ => h.lead _ fun _ => performAll hcall body) _) _
  | .times _ _ body => h.trail (h.times (fun _ => h.lead _ fun _ => performAll hcall body) _) _
  | .each _ _ _ body => by
    refine h.lead _ fun _ => h.lead _ fun _ => h.trail (h.times (fun _ => ?_) _) _
    exact h.lead _ fun _ => h.lead _ fun _ => performAll hcall body
  | .call .. | .callDepth .. => h.callNamed hcall _ _ _ _ _
  | .reg .. | .memory .. | .assign .. | .assignAt .. | .step | .breakLoop | .nextRound
  | .terminate | .label _ | .goto _ | .define .. | .ret _ | .bind .. | .probe _ | .resize ..
  | .stateBody .. | .stateGoto .. | .newState _ | .buildMachine => h.refl _

theorem performAll (hcall : ∀ fn depth args, R Expr (call fn depth args) (call' fn depth args)) :
    ∀ body : List Command, R Unit (performAll call body) (performAll call' body)
  | [] => h.refl _
  | x :: rest => h.bind (perform hcall x) fun _ => performAll hcall rest

end

end Congruence

/-! ## Budgets -/

/-- Where the first computation does not run out of its budget, the second one does the same. -/
def Below {α : Type} (x y : ElabM α) : Prop :=
  ∀ c, (∃ c', x.run c = .error .endless c') ∨ x.run c = y.run c

namespace Below

theorem trans {α : Type} {x y z : ElabM α} (h : Below x y) (h' : Below y z) : Below x z := by
  intro c
  rcases h c with hx | hx
  · exact .inl hx
  · rw [hx]
    exact h' c

theorem congruence : Congruence fun _ x y => Below x y := by
  refine ⟨fun _ _ => .inr rfl, fun {_ _ x y f g} hx hf c => ?_⟩
  rcases hx c with ⟨c', hend⟩ | hsame
  · left
    refine ⟨c', ?_⟩
    simp only [EStateM.run, Bind.bind, EStateM.bind] at hend ⊢
    rw [hend]
  · simp only [EStateM.run, Bind.bind, EStateM.bind] at hsame ⊢
    rw [← hsame]
    split
    · exact hf _ _
    · exact .inr rfl

theorem callWithin_succ : ∀ (n fn : Nat) (depth : Int) (args : List Expr),
    Below (callWithin n fn depth args) (callWithin (n + 1) fn depth args)
  | 0, _, _, _ => fun c => .inl ⟨c, rfl⟩
  | n + 1, fn, depth, args =>
    congruence.callFunction (congruence.performAll (callWithin_succ n)) fn depth args

theorem callWithin {n m : Nat} (hnm : n ≤ m) (fn : Nat) (depth : Int) (args : List Expr) :
    Below (callWithin n fn depth args) (callWithin m fn depth args) := by
  induction hnm with
  | refl => exact congruence.refl _
  | step _ ih => exact ih.trans (callWithin_succ _ fn depth args)

end Below

/-- A program that does not run out of its budget is built the same with a larger one. -/
theorem build_le {n m : Nat} (hnm : n ≤ m) (s : Session) (opts : Options) (body : List Command)
    (h : (build s { opts with budget := n } body).1 ≠ .error .endless) :
    build s { opts with budget := n } body = build s { opts with budget := m } body := by
  have hbelow : Below (elaborate { opts with budget := n } body)
      (elaborate { opts with budget := m } body) :=
    Below.congruence.trail (Below.congruence.lead _ fun _ =>
      Below.congruence.trail (Below.congruence.performAll (Below.callWithin hnm) body) _) _
  have hdraft : ∀ k, draft s { opts with budget := k } = draft s opts := fun _ => rfl
  rcases hbelow (draft s opts) with ⟨c, hend⟩ | hsame
  · rw [build, hdraft, hend] at h
    exact absurd rfl h
  · simp only [build, hdraft, hsame]

end Lockstep.Program
