import Lockstep.Proofs.Program.Budget
import Lockstep.Proofs.Program.Commands
import Lockstep.Proofs.Passing

/-!
# Careful elaboration

Elaboration that stops at the first command whose widths cannot come out right: a register, a memory,
a literal or a declared return type that has no width or more bits than a word, a memory without
words, an index into something that is no memory, an argument or a count whose width is not known when
its turn comes. It only knows the commands of the language itself, and calls only functions that the
program has defined. Where it gets to its end, elaboration does the same.
-/

namespace Lockstep

/-- The expression is complete: nothing is left out, its signals exist, its literals are from one bit
to a word wide, and what is read at an index is a memory. -/
def Symbols.complete (g : Symbols) : Expr → Bool
  | .hole => false
  | .ref i => g.signals[i]?.isSome
  | .lit _ t => (g.type? t).isResolved
  | .bin _ l r | .cmp _ l r => g.complete l && g.complete r
  | .not e => g.complete e
  | .index i e => g.isMemory i && g.complete e

namespace Program

open Script (Term)

variable {α β : Type}

/-- Goes on only if the condition holds. -/
def demand (p : Bool) : ElabM Unit := if p then return () else abort .undefined

def resolveComplete (t : Term) : ElabM Expr := do
  let e ← resolve t
  demand ((← getSymbols).complete e)
  return e

/-- In a place that may stay empty. -/
def resolveOptional (t : Term) : ElabM Expr := do
  let e ← resolve t
  demand (e = .hole || (← getSymbols).complete e)
  return e

mutual

/-- Elaborates one command with all checks; `call` elaborates function calls. -/
def careful (call : Caller) : Command → ElabM Unit
  | .reg name t => do
    demand (TypeSlot.isResolved (some t))
    perform call (.reg name t)
  | .memory name t depth => do
    demand (TypeSlot.isResolved (some t) && 0 < depth)
    perform call (.memory name t depth)
  | .assign dest value => do
    let i ← resolveSignal dest
    emit (.assign i none (← resolveComplete value))
  | .assignAt dest index value => do
    let i ← resolveSignal dest
    let index ← resolveOptional index
    demand (index = .hole || (← getSymbols).isMemory i)
    emit (.assign i index.toOption (← resolveComplete value))
  | .when test thn els => do
    let test ← resolveOptional test
    openBlock
    carefulAll call thn
    let thn ← closeBlock
    openBlock
    carefulAll call els
    let els ← closeBlock
    emit (.cond test thn els)
  | .ifThen test body => do
    let test ← resolveOptional test
    recordState "if" (ifThen test (carefulAll call body))
  | .orElse body => recordState "else" (orElse (carefulAll call body))
  | .whileLoop test body => do
    let test ← resolveOptional test
    recordState "while" (loop test.toOption test.toOption none (carefulAll call body))
  | .loop body => recordState "loop" (loop none none none (carefulAll call body))
  | .count limit index body => do
    let limit ← resolveComplete limit
    demand (!((← getSymbols).typeOf limit).isUnknown)
    recordState "for" <| count limit fun i => do
      bindVar index i
      carefulAll call body
  | .times n index body =>
    recordState "times" <| times (UInt64.ofInt n) fun i => do
      bindVar index i
      carefulAll call body
  | .each name word index body => do
    let mem ← resolveSignal name
    let depth := ((← getSymbols).signals[mem]?.map Signal.depth).getD 0
    recordState "each" <| times (UInt64.ofInt depth) fun i => do
      bindVar word (.index mem i)
      bindVar index i
      carefulAll call body
  | .define name depth returns overflow body => do
    demand (returns.all fun t => TypeSlot.isResolved (some t))
    perform call (.define name depth returns overflow body)
  | .ret value => do
    let value ← resolveOptional value
    recordState "return" (returnFrom value.toOption)
  | .resize .. | .stateBody .. | .stateGoto .. | .newState _ | .buildMachine => abort .undefined
  | .step => perform call .step
  | .breakLoop => perform call .breakLoop
  | .nextRound => perform call .nextRound
  | .terminate => perform call .terminate
  | .label name => perform call (.label name)
  | .goto name => perform call (.goto name)
  | .call fn args result => perform call (.call fn args result)
  | .callDepth fn depth args result => perform call (.callDepth fn depth args result)
  | .bind name value => perform call (.bind name value)
  | .probe value => perform call (.probe value)

def carefulAll (call : Caller) : List Command → ElabM Unit
  | [] => return ()
  | c :: rest => do
    careful call c
    carefulAll call rest

end

/-- Calls with all checks, with a bound on how deep bodies and handlers are nested. -/
def carefulWithin : Nat → Caller
  | 0 => fun _ _ _ => throw .endless
  | n + 1 => fun fn depth args => do
    let c ← get
    let g := c.session.module.symbols
    demand (c.draft.functions.contains fn &&
      args.all fun a => g.complete a && !(g.typeOf a).isUnknown)
    callFunction (carefulAll (carefulWithin n)) fn depth args

/-- Elaborates a program with all checks, up to the point where all its states are known. -/
def carefulPrepare (opts : Options) (body : List Command) : ElabM Unit := do
  let c ← get
  let g := c.session.module.symbols
  demand ([opts.start, c.draft.machine.reset].all fun e => e = .hole || g.complete e)
  beginProgram opts.start
  carefulAll (carefulWithin opts.budget) body
  stepIfWaiting
  settleReturns

/-! ## The same outcome -/

/-- Where `x` succeeds, `y` does the same. -/
def Follows (x y : ElabM α) : Prop := ∀ c a c', x.run c = .ok a c' → y.run c = .ok a c'

namespace Follows

theorem congruence : Congruence fun _ x y => Follows x y := by
  refine ⟨fun _ _ _ _ h => h, fun {_ _ x y f g} hx hf c b c' h => ?_⟩
  simp only [EStateM.run, Bind.bind, EStateM.bind] at h ⊢
  cases hr : x c with
  | error e c₁ => simp [hr] at h
  | ok a c₁ =>
    have hy : y c = .ok a c₁ := hx c a c₁ hr
    rw [hr] at h
    rw [hy]
    exact hf a c₁ b c' h

theorem demand {p : Bool} {x y : ElabM α} (h : Follows x y) :
    Follows (do Program.demand p; x) y := by
  unfold Program.demand
  split
  · exact h
  · intro c a c' hx
    cases hx

/-- Looking at the symbols changes nothing. -/
theorem getSymbols {f : Symbols → ElabM α} {y : ElabM α} (h : ∀ g, Follows (f g) y) :
    Follows (Program.getSymbols >>= f) y :=
  fun c a c' hx => h c.session.module.symbols c a c' hx

theorem resolveComplete (t : Term) : Follows (resolveComplete t) (resolve t) := by
  have h : Follows (Program.resolveComplete t) (resolve t >>= pure) :=
    congruence.lead _ fun _ => .getSymbols fun _ => .demand (congruence.refl _)
  rwa [bind_pure] at h

theorem resolveOptional (t : Term) : Follows (resolveOptional t) (resolve t) := by
  have h : Follows (Program.resolveOptional t) (resolve t >>= pure) :=
    congruence.lead _ fun _ => .getSymbols fun _ => .demand (congruence.refl _)
  rwa [bind_pure] at h

variable {call call' : Caller}

mutual

theorem careful (h : ∀ fn depth args, Follows (call fn depth args) (call' fn depth args))
    (x : Command) : Follows (careful call x) (perform call' x) := by
  have hc := congruence
  cases x with
  | reg name t | memory name t depth => exact .demand (hc.refl _)
  | assign dest value => exact hc.lead _ fun _ => hc.trail (.resolveComplete value) _
  | assignAt dest index value =>
    exact hc.lead _ fun _ => hc.bind (.resolveOptional index) fun _ => .getSymbols fun _ =>
      .demand (hc.trail (.resolveComplete value) _)
  | when test thn els =>
    exact hc.bind (.resolveOptional test) fun _ => hc.lead _ fun _ =>
      hc.bind (carefulAll h thn) fun _ => hc.lead _ fun _ => hc.lead _ fun _ =>
        hc.trail (carefulAll h els) _
  | ifThen test body =>
    exact hc.bind (.resolveOptional test) fun _ => hc.trail (hc.ifThen (carefulAll h body) _) _
  | orElse body => exact hc.trail (hc.orElse (carefulAll h body)) _
  | whileLoop test body =>
    exact hc.bind (.resolveOptional test) fun _ => hc.trail (hc.loop (carefulAll h body) _ _ _) _
  | loop body => exact hc.trail (hc.loop (carefulAll h body) _ _ _) _
  | count limit index body =>
    exact hc.bind (.resolveComplete limit) fun _ => .getSymbols fun _ => .demand
      (hc.trail (hc.count (fun _ => hc.lead _ fun _ => carefulAll h body) _) _)
  | times n index body => exact hc.trail (hc.times (fun _ => hc.lead _ fun _ => carefulAll h body) _) _
  | each name word index body =>
    exact hc.lead _ fun _ => hc.lead _ fun _ => hc.trail
      (hc.times (fun _ => hc.lead _ fun _ => hc.lead _ fun _ => carefulAll h body) _) _
  | define name depth returns overflow body => exact .demand (hc.refl _)
  | ret value => exact hc.trail (.resolveOptional value) _
  | call fn args result | callDepth fn depth args result => exact hc.callNamed h _ _ _ _ _
  | resize | stateBody | stateGoto | newState | buildMachine =>
    intro c a c' hx
    cases hx
  | step | breakLoop | nextRound | terminate | label | goto | bind | probe => exact hc.refl _

theorem carefulAll (h : ∀ fn depth args, Follows (call fn depth args) (call' fn depth args))
    (body : List Command) : Follows (carefulAll call body) (performAll call' body) := by
  cases body with
  | nil => exact congruence.refl _
  | cons x rest => exact congruence.bind (careful h x) fun _ => carefulAll h rest

end

theorem carefulWithin (n : Nat) (fn : Nat) (depth : Int) (args : List Expr) :
    Follows (carefulWithin n fn depth args) (callWithin n fn depth args) := by
  induction n generalizing fn depth args with
  | zero => exact congruence.refl _
  | succ n ih =>
    intro c a c' hx
    exact Follows.demand (congruence.callFunction (carefulAll ih) fn depth args) c a c' hx

/-- Careful elaboration that gets to its end does what elaboration does. -/
theorem carefulPrepare (opts : Options) (body : List Command) :
    Follows (carefulPrepare opts body) (prepare opts body) := by
  intro c a c' hx
  exact Follows.demand (congruence.lead _ fun _ =>
    congruence.trail (carefulAll (.carefulWithin opts.budget) body) _) c a c' hx

end Follows

end Program

end Lockstep
