import Lockstep.Proofs.Program.Calls
import Lockstep.Proofs.Program.Walk

/-!
# Commands keep the layout

Every structured command of a program that assigns no made signal extends the layout. The proof
follows the elaboration: by the structure of the commands within a body, and by the budget of calls
across bodies and handlers.
-/

namespace Lockstep.Program

variable {env : Env} {L : List (Site LinkId)} {opens : List Nat} {c : Context} {inside : Bool}
variable {call : Caller} {x : Command} {name : String}

/-! ## Names -/

theorem mem_of_lookup {α : Type} {xs : List (String × α)} {a : α} (h : xs.lookup name = some a) :
    (name, a) ∈ xs := by
  obtain ⟨before, after, rfl, -⟩ := List.lookup_eq_some_iff.mp h
  simp

/-- A name that the program may assign stands for a clean signal. -/
theorem World.clean_signal {fs : Array Function} {m : Module} {sc : Script.Scope}
    (h : World env fs m sc) {i : SignalId} (hname : env.assignable name)
    (hi : sc.signal? m name = some i) : env.Clean fs m.symbols i := by
  have hscope : (name, i) ∈ sc.bound ++ sc.loose → env.Clean fs m.symbols i := fun hmem =>
    ⟨(h.names _ hmem).1, .inl (h.names _ hmem).2⟩
  unfold Script.Scope.signal? at hi
  rcases (Option.orElse_eq_some ..).mp hi with hi | ⟨-, hi⟩
  · exact hscope (List.mem_append_left _ (mem_of_lookup hi))
  rcases (Option.orElse_eq_some ..).mp hi with hi | ⟨-, hi⟩
  · obtain ⟨hlt, hmatch, -⟩ := Array.findIdx?_eq_some_iff_getElem.mp hi
    have hsame : m.symbols.signalName i = name := by
      simp only [Bool.and_eq_true, beq_iff_eq] at hmatch
      simp [Symbols.signalName, Array.getElem?_eq_getElem hlt, hmatch.2]
    exact ⟨hlt, .inr (hsame ▸ hname)⟩
  · exact hscope (List.mem_append_right _ (mem_of_lookup hi))

/-- A command is tame if all commands within it are commands of a tame one. -/
theorem Env.Tame.sub {y : Command} {inside' : Bool} (h : env.Tame inside x)
    (hin : ∀ z ∈ y.within, z ∈ x.within)
    (hinner : ∀ z ∈ if inside' then y.within else y.inner, z ∈ if inside then x.within else x.inner) :
    env.Tame inside' y :=
  ⟨fun z hz => h.structured z (hin z hz), fun z hz => h.assigns z (hin z hz),
    fun z hz => h.calls z (hin z hz), fun z hz => h.requests z (hin z hz),
    fun z hz => h.escapes z (hinner z hz)⟩

theorem Env.Tame.parts (h : env.Tame inside x) : ∀ y ∈ x.parts, env.Tame inside y := by
  intro y hy
  refine h.sub (fun z => Command.within_of_parts hy) fun z hz => ?_
  cases inside with
  | true => exact Command.within_of_parts hy hz
  | false => exact Command.inner_of_parts hy hz

/-- The body or handler of a function is inside it. -/
theorem Env.Tame.inner (h : env.Tame inside x) {body : List Command}
    (hsub : ∀ y ∈ Command.withinAll body, y ∈ x.within)
    (hinner : ∀ y ∈ Command.withinAll body, y ∈ x.inner) : ∀ y ∈ body, env.Tame true y := by
  intro y hy
  refine h.sub (fun z hz => hsub z (Command.mem_withinAll hy hz)) fun z hz => ?_
  have hz : z ∈ Command.withinAll body := Command.mem_withinAll hy hz
  split
  · exact hsub z hz
  · exact hinner z hz

/-! ## Simple commands -/

theorem Keeps.recordState {make : ElabM Nat} (hmake : Keeps env inside make) (command : String) :
    Keeps env inside (recordState command make) :=
  .bind hmake fun _ => .of_steady fun _ => .record command _

theorem Keeps.declareBound (command name : String) (kind : SignalKind) (t : SignalType)
    (depth : Int) :
    Keeps env inside (declareBound command name (·.declare name kind t 0 depth)) :=
  .of_steady fun _ => .declareBound command name (fun m => m.declare_expands ..) fun m =>
    ⟨le_refl _, by rw [Module.declare, Module.declareAt_size]; exact Nat.lt_succ_self _⟩

/-- The signal that is assigned, and then the rest. -/
theorem Inv.resolveSignal (h : Inv env L opens c) (hname : env.assignable name) {β : Type}
    {f : SignalId → ElabM β} (hf : ∀ i,
      env.Clean c.session.functions c.session.module.symbols i →
      Ensures (f i) c fun _ c' => ∃ L', Kept env L opens c L' c') :
    Ensures (resolveSignal name >>= f) c fun _ c' => ∃ L', Kept env L opens c L' c' :=
  ensures_bind.mpr (.resolveSignal fun i hi => hf i (h.world.clean_signal hname hi))

theorem Keeps.assign {dest : String} (hdest : env.assignable dest) (call : Caller)
    (value : Script.Term) : Keeps env inside (perform call (.assign dest value)) := by
  refine ⟨fun {c L opens} h hin => ?_⟩
  rw [perform]
  refine h.resolveSignal hdest fun i hi => ensures_bind.mpr (.resolve fun e m hm => ?_)
  rw [ensures_emit]
  have hk := h.kept_expand hm
  exact ⟨L, hk.emit (by simpa [Stmt.dests] using hk.widens.clean hi)⟩

theorem Keeps.assignAt {dest : String} (hdest : env.assignable dest) (call : Caller)
    (index value : Script.Term) : Keeps env inside (perform call (.assignAt dest index value)) := by
  refine ⟨fun {c L opens} h hin => ?_⟩
  rw [perform]
  refine h.resolveSignal hdest fun i hi => ensures_bind.mpr (.resolve fun e m hm =>
    ensures_bind.mpr (.resolve fun e' m' hm' => ?_))
  rw [ensures_emit]
  have hk := h.kept_expand (hm.trans hm')
  exact ⟨L, hk.emit (by simpa [Stmt.dests] using hk.widens.clean hi)⟩

theorem Keeps.when {thn els : List Command} (hthn : Keeps env inside (performAll call thn))
    (hels : Keeps env inside (performAll call els)) (test : Script.Term) :
    Keeps env inside (perform call (.when test thn els)) := by
  refine ⟨fun {c L opens} h hin => ?_⟩
  simp only [perform, ensures_ops, ensures_openBlock, ensures_closeBlock]
  refine .resolve fun e m hm => ?_
  have hk₀ := h.kept_expand hm
  have hk₁ := hk₀.reblock hk₀.inv.pending.enter
  refine (hthn.run hk₁.inv (hk₁.stays hin)).mono ?_
  rintro _ c₂ ⟨L₂, hk₂⟩
  obtain ⟨hblock, hleave⟩ := hk₂.inv.pending.leave
  have hk₃ := (hk₁.trans hk₂).reblock hleave.enter
  refine (hels.run hk₃.inv (hk₃.stays hin)).mono ?_
  rintro _ c₄ ⟨L₄, hk₄⟩
  obtain ⟨hblock', hleave'⟩ := hk₄.inv.pending.leave
  refine ⟨L₄, ((hk₃.trans hk₄).reblock hleave').emit fun i hi => ?_⟩
  simp only [Stmt.dests, List.mem_append] at hi
  rcases hi with hi | hi
  · exact hk₄.widens.clean (hblock i hi)
  · exact hblock' i hi

/-- A function without instances changes nothing but the names that can be called. -/
theorem Keeps.defineFunction {f : Function} (hf : f.instances = #[])
    (hbody : (∀ x ∈ f.body, env.Tame true x) ∧
      ∀ handler, f.overflow = some handler → ∀ x ∈ handler, env.Tame true x) :
    Keeps env inside (defineFunction f) := by
  refine ⟨fun {c L opens} h hin => ?_⟩
  simp only [Program.defineFunction, ensures_ops]
  have hw : Widens env c.session.functions (c.session.functions.push f) c.session.module.symbols
      c.session.module.symbols := .define hf
  have hold : ∀ r inst, env.Has (c.session.functions.push f) r inst →
      env.Has c.session.functions r inst := fun r inst hi =>
    ⟨hi.1, by rw [← instance?_push hf]; exact hi.2⟩
  refine ⟨L, ⟨List.prefix_rfl, fun _ _ hj => hj, rfl, rfl, rfl, hw, fun hs => hs.define hf⟩,
    ⟨h.world.define hf hbody, ?_,
    h.pending.widen hw, ⟨fun st hst => (h.resets.zero st hst).widen hw,
      fun r inst hi => h.resets.pointers r inst (hold r inst hi),
      fun i hi => hw.clean (h.resets.defaults i hi)⟩⟩,
    fun r inst hi => h.entries r inst (hold r inst hi)⟩
  refine h.code.define hw fun fn => ?_
  rw [List.mem_append, List.mem_singleton, h.code.functions, Array.size_push]
  have hbase := h.world.base
  constructor
  · rintro (⟨hb, hlt⟩ | rfl)
    · exact ⟨hb, by omega⟩
    · exact ⟨hbase, by omega⟩
  · rintro ⟨hb, hlt⟩
    by_cases hfn : fn = c.session.functions.size
    · exact .inr hfn
    · exact .inl ⟨hb, by omega⟩

/-! ## Bodies -/

/-- Calls of the functions of the program keep the layout. -/
def CallsKeep (env : Env) (call : Caller) : Prop :=
  ∀ {c : Context} {L : List (Site LinkId)} {opens : List Nat} (fn : Nat) (depth : Int)
    (args : List Expr) (f : Function), Inv env L opens c → env.base ≤ fn →
    c.session.functions[fn]? = some f → env.requests f.name depth →
    Ensures (call fn depth args) c fun _ c' => ∃ L', Kept env L opens c L' c'

theorem Steady.mapM {α β : Type} {f : α → ElabM β} (hf : ∀ a c, Steady env (f a) c) :
    ∀ (xs : List α) (c : Context), Steady env (xs.mapM f) c
  | [], c => by
    rw [List.mapM_nil]
    exact .pure []
  | x :: xs, c => by
    rw [List.mapM_cons]
    exact .bind (hf x c) fun b c' => .bind (mapM hf xs c') fun bs c'' => .pure (b :: bs)

theorem Keeps.callNamed (hcall : CallsKeep env call) (hname : name ∉ env.foreign)
    (command : String) {depth : Int} (hdepth : env.requests name depth) (args : List Script.Term)
    (result : Option String) :
    Keeps env inside (callNamed call command name depth args result) := by
  refine ⟨fun {c L opens} h hin => ?_⟩
  unfold Program.callNamed
  rw [ensures_bind, ensures_get]
  split
  · simp
  · next fn hfn =>
    obtain ⟨hbase, f₀, hf₀, rfl⟩ := h.world.callable _ (mem_of_lookup hfn) hname
    rw [ensures_bind]
    refine (Steady.mapM (fun t c => .resolve t) args c).mono h.world fun args' c₁ hd ha => ?_
    have hk₁ := h.kept_advance hd ha
    rw [ensures_bind]
    obtain ⟨f, hf, -, hfname⟩ := ha.widens.handlers fn f₀ hbase hf₀
    refine (hcall fn depth args' f hk₁.inv hbase hf (hfname ▸ hdepth)).mono ?_
    rintro e c₂ ⟨L₂, hk₂⟩
    have hrest : Keeps env inside (do
        bindVar result e
        record command (.expr ((← getSymbols).exprText e))) := by
      refine .of_steady fun c => .bind (.bindVar result e) fun _ c' => ?_
      intro hw
      simp only [ensures_ops]
      exact Steady.record command _ hw
    refine (hrest.run hk₂.inv ((hk₁.trans hk₂).stays hin)).mono ?_
    rintro _ c₃ ⟨L₃, hk₃⟩
    exact ⟨L₃, (hk₁.trans hk₂).trans hk₃⟩

theorem Keeps.resolve (t : Script.Term) : Keeps env inside (resolve t) := .of_steady fun _ => .resolve t

theorem Keeps.simple (hcall : CallsKeep env call) :
    ∀ (inside : Bool) (x : Command), env.Tame inside x → x.isConstruct = false →
      Keeps env inside (perform call x)
  | _, .reg name t, _, _ => .declareBound "reg" name .reg t 0
  | _, .memory name t depth, _, _ => .declareBound "mem" name .memory t depth
  | _, .assign dest value, h, _ => .assign (h.assigns _ List.mem_cons_self dest rfl) call value
  | _, .assignAt dest index value, h, _ =>
    .assignAt (h.assigns _ List.mem_cons_self dest rfl) call index value
  | _, .step, _, _ => .recordState .step "step"
  | _, .breakLoop, _, _ => .recordState .breakLoop "break"
  | _, .nextRound, _, _ => .recordState .nextRound "continue"
  | inside, .terminate, h, _ => by
    rw [Program.perform]
    refine .recordState (.terminate fun hin => h.escapes _ ?_ rfl) "terminate"
    rw [if_pos hin]
    exact List.mem_cons_self
  | _, .define name depth returns overflow body, h, _ => by
    rw [Program.perform]
    refine .defineFunction rfl ⟨h.inner (fun y hy => by simp [Command.within, hy])
      fun y hy => by simp [Command.inner, hy], ?_⟩
    rintro handler rfl
    exact h.inner (fun y hy => by simp [Command.within, Command.withinHandler, hy])
      fun y hy => by simp [Command.inner, Command.withinHandler, hy]
  | _, .call fn args result, h, _ =>
    .callNamed hcall (h.calls _ List.mem_cons_self fn rfl) "call"
      (h.requests _ List.mem_cons_self fn 0 rfl) args result
  | _, .callDepth fn depth args result, h, _ =>
    .callNamed hcall (h.calls _ List.mem_cons_self fn rfl) "calld"
      (h.requests _ List.mem_cons_self fn depth rfl) args result
  | _, .ret value, _, _ => .bind (.resolve value) fun e => .recordState (.returnFrom _) "return"
  | _, .bind name value, _, _ =>
    .bind (.resolve value) fun e => .of_steady fun _ => .bindVar (some name) e
  | _, .probe value, _, _ => by
    rw [Program.perform]
    refine .bind (.resolve value) fun e => .of_steady fun c hw => ?_
    simp only [ensures_ops]
    exact fun shown _ => Steady.record "probe" _ hw
  | _, .label _, h, _ | _, .goto _, h, _ | _, .resize .., h, _ | _, .stateBody .., h, _
  | _, .stateGoto .., h, _ | _, .newState _, h, _ | _, .buildMachine, h, _ =>
    absurd (h.structured _ List.mem_cons_self) (by simp [Command.isStructured, Command.isRaw])

theorem Keeps.walk (hcall : CallsKeep env call) :
    Walk id id (fun inside _ x => Keeps env inside x) (fun inside x => env.Tame inside x) call where
  pure _ := .pure ()
  bind := .bind
  record _ command fact := .of_steady fun _ => .record command fact
  bindVar _ name e := .of_steady fun _ => .bindVar name e
  exactNumber _ n := .of_steady fun _ => .exactNumber n
  getSymbols _ := ⟨fun h _ => ensures_getSymbols.mpr ⟨_, .refl h⟩⟩
  resolveSignal _ _ := ⟨fun h _ => .resolveSignal fun _ _ => ⟨_, .refl h⟩⟩
  resolve _ _ := .resolve _
  ifThen test hbody := .ifThen hbody test
  orElse hbody := .orElse hbody
  loop _ hbody := ⟨fun h hin => h.loop hin hbody (by simp)⟩
  count limit hbody := .count hbody limit
  choice _ hthn hels := .when hthn hels _
  simple h hx := .simple hcall _ _ h hx
  parts {inside x} h y hy := by
    have hframes : x.frames id id inside = inside := by cases x <;> rfl
    rw [hframes]
    exact h.parts y hy

theorem Keeps.performAll (hcall : CallsKeep env call) (inside : Bool) (body : List Command)
    (h : ∀ x ∈ body, env.Tame inside x) : Keeps env inside (performAll call body) :=
  (Keeps.walk hcall).performAll inside body h

/-- Whatever the budget of nested calls is. -/
theorem callWithin_keeps (n : Nat) : CallsKeep env (callWithin n) := by
  induction n with
  | zero =>
    intro c L opens fn depth args f _ _ _ _
    simp [callWithin]
  | succ n ih =>
    intro c L opens fn depth args f h hbase hf hdepth
    exact h.callFunction (fun body hbody => .performAll ih true body hbody) hbase hf hdepth args

end Lockstep.Program
