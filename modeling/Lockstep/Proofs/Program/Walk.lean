import Lockstep.Proofs.Program.World

/-!
# Along the commands of a body

What is shown of the elaboration of a body is often passed on from step to step, and from a body to
the construct around it. The induction over commands is the same for all such properties. They differ
in what they ask of a command, in how they tell frames apart, and in the commands without a body.
-/

namespace Lockstep.Program

/-- The command has a body of its own that is performed with it. -/
def Command.isConstruct : Command → Bool
  | .when .. | .ifThen .. | .orElse _ | .whileLoop .. | .loop _
  | .count .. | .times .. | .each .. => true
  | _ => false

/-- The frames that the body of a command is in. -/
def Command.frames {ι : Type} (branch round : ι → ι) : Command → ι → ι
  | .ifThen .. | .orElse _ => branch
  | .whileLoop .. | .loop _ | .count .. | .times .. | .each .. => round
  | _ => id

/-- `P i` is shown of steps inside the frames `i`, and `Q i` is asked of the commands there. A branch
is inside `branch i` and a loop inside `round i`. -/
structure Walk {ι : Type} (branch round : ι → ι) (P : ι → (α : Type) → ElabM α → Prop)
    (Q : ι → Command → Prop) (call : Caller) : Prop where
  pure (i : ι) : P i Unit (pure ())
  bind {i : ι} {α β : Type} {x : ElabM α} {f : α → ElabM β} :
    P i α x → (∀ a, P i β (f a)) → P i β (x >>= f)
  record (i : ι) (command : String) (fact : Fact) : P i Unit (record command fact)
  bindVar (i : ι) (name : Option String) (e : Expr) : P i Unit (bindVar name e)
  getSymbols (i : ι) : P i Symbols getSymbols
  resolveSignal (i : ι) (name : String) : P i SignalId (resolveSignal name)
  exactNumber (i : ι) (n : UInt64) : P i Expr (exactNumber n)
  resolve {i : ι} {x : Command} {t : Script.Term} : Q i x → t ∈ x.terms → P i Expr (resolve t)
  ifThen {i : ι} {body : ElabM Unit} (test : Expr) :
    P (branch i) Unit body → P i Nat (ifThen test body)
  orElse {i : ι} {body : ElabM Unit} : P (branch i) Unit body → P i Nat (orElse body)
  loop {i : ι} {body : ElabM Unit} (test : Option Expr) :
    P (round i) Unit body → P i Nat (loop test test none body)
  count {i : ι} {body : Expr → ElabM Unit} (limit : Expr) :
    (∀ e, P (round i) Unit (body e)) → P i Nat (count limit body)
  choice {i : ι} {test : Script.Term} {thn els : List Command} : Q i (.when test thn els) →
    P i Unit (performAll call thn) → P i Unit (performAll call els) →
    P i Unit (perform call (.when test thn els))
  simple {i : ι} {x : Command} : Q i x → x.isConstruct = false → P i Unit (perform call x)
  parts {i : ι} {x : Command} : Q i x → ∀ y ∈ x.parts, Q (x.frames branch round i) y

namespace Walk

variable {ι : Type} {branch round : ι → ι} {P : ι → (α : Type) → ElabM α → Prop}
  {Q : ι → Command → Prop} {call : Caller}

theorem recordState (h : Walk branch round P Q call) {i : ι} {make : ElabM Nat} (hmake : P i Nat make)
    (command : String) : P i Unit (recordState command make) :=
  h.bind hmake fun _ => h.record i command _

theorem times (h : Walk branch round P Q call) {i : ι} {body : Expr → ElabM Unit} (n : UInt64)
    (hbody : ∀ e, P (round i) Unit (body e)) : P i Nat (times n body) :=
  h.bind (h.exactNumber i n) fun limit => h.count limit hbody

mutual

theorem perform (h : Walk branch round P Q call) :
    ∀ (i : ι) (x : Command), Q i x → P i Unit (perform call x)
  | i, .when test thn els, hx =>
    h.choice hx (performAll h i thn fun y hy => h.parts hx y (List.mem_append_left _ hy))
      (performAll h i els fun y hy => h.parts hx y (List.mem_append_right _ hy))
  | i, .ifThen test body, hx => by
    rw [Program.perform]
    exact h.bind (h.resolve hx List.mem_cons_self) fun e =>
      h.recordState (h.ifThen e (performAll h _ body (h.parts hx))) "if"
  | i, .orElse body, hx => by
    rw [Program.perform]
    exact h.recordState (h.orElse (performAll h _ body (h.parts hx))) "else"
  | i, .whileLoop test body, hx => by
    rw [Program.perform]
    exact h.bind (h.resolve hx List.mem_cons_self) fun e =>
      h.recordState (h.loop _ (performAll h _ body (h.parts hx))) "while"
  | i, .loop body, hx => by
    rw [Program.perform]
    exact h.recordState (h.loop none (performAll h _ body (h.parts hx))) "loop"
  | i, .count limit index body, hx => by
    rw [Program.perform]
    refine h.bind (h.resolve hx List.mem_cons_self) fun e => h.recordState (h.count e fun j => ?_) "for"
    exact h.bind (h.bindVar _ index j) fun _ => performAll h _ body (h.parts hx)
  | i, .times n index body, hx => by
    rw [Program.perform]
    refine h.recordState (h.times _ fun j => ?_) "times"
    exact h.bind (h.bindVar _ index j) fun _ => performAll h _ body (h.parts hx)
  | i, .each mem word index body, hx => by
    rw [Program.perform]
    refine h.bind (h.resolveSignal i mem) fun m => h.bind (h.getSymbols i) fun g => ?_
    refine h.recordState (h.times _ fun j => ?_) "each"
    exact h.bind (h.bindVar _ word _) fun _ => h.bind (h.bindVar _ index j) fun _ =>
      performAll h _ body (h.parts hx)
  | _, .reg .., hx | _, .memory .., hx | _, .assign .., hx | _, .assignAt .., hx | _, .step, hx
  | _, .breakLoop, hx | _, .nextRound, hx | _, .terminate, hx | _, .label _, hx | _, .goto _, hx
  | _, .define .., hx | _, .call .., hx | _, .callDepth .., hx | _, .ret _, hx | _, .bind .., hx
  | _, .probe _, hx | _, .resize .., hx | _, .stateBody .., hx | _, .stateGoto .., hx
  | _, .newState _, hx | _, .buildMachine, hx => h.simple hx rfl

theorem performAll (h : Walk branch round P Q call) :
    ∀ (i : ι) (body : List Command), (∀ x ∈ body, Q i x) → P i Unit (performAll call body)
  | i, [], _ => by
    rw [Program.performAll]
    exact h.pure i
  | i, x :: rest, hbody => by
    rw [Program.performAll]
    exact h.bind (perform h i x (hbody x List.mem_cons_self)) fun _ =>
      performAll h i rest fun y hy => hbody y (List.mem_cons_of_mem x hy)

end

end Walk

/-- A conditional statement, for what is shown of every statement that is emitted. -/
theorem choice_of_emit {P : (α : Type) → ElabM α → Prop} {call : Caller} {test : Script.Term}
    {thn els : List Command}
    (hbind : ∀ {α β : Type} {x : ElabM α} {f : α → ElabM β}, P α x → (∀ a, P β (f a)) → P β (x >>= f))
    (htest : P Expr (resolve test)) (hopen : P Unit openBlock) (hclose : P (List Statement) closeBlock)
    (hemit : ∀ st, P Unit (emit st)) (hthn : P Unit (performAll call thn))
    (hels : P Unit (performAll call els)) : P Unit (perform call (.when test thn els)) := by
  rw [perform]
  exact hbind htest fun _ => hbind hopen fun _ => hbind hthn fun _ => hbind hclose fun _ =>
    hbind hopen fun _ => hbind hels fun _ => hbind hclose fun _ => hemit _

end Lockstep.Program
