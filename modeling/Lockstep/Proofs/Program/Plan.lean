import Lockstep.Proofs.Program.Outcome
import Lockstep.Proofs.Program.Uncoded

/-!
# The plan of a built program

What a program is once it has been built: its states with the bodies they belong to. The first is
the end state; each of the others is a plain state, a call or a return. Control stays within a body
except through calls and returns, the return address of a call is the code of the state that comes
after it, and the signals of the stacks belong to calls, returns and resets alone. The module may go
on growing around the program.
-/

namespace Lockstep.Program

variable {fs : Array Function} {body : List Command} {opts : Options} {q : Sequencer}
  {s s' : Session} {d : SignalId}

/-- The program with its states coded otherwise. -/
def Sequencer.reencode (e : Encoding) (q : Sequencer) : Sequencer :=
  { q with machine := q.machine.reencode e }

/-- An instance of a function of the program. -/
def Sequencer.Has (q : Sequencer) (fs : Array Function) (r : InstanceRef) (inst : Instance) : Prop :=
  r.function ∈ q.functions ∧ instance? fs r = some inst

/-- The signals made for the program: its state register, its next-state wire and its stacks. -/
def Sequencer.made (q : Sequencer) (fs : Array Function) : List SignalId :=
  q.machine.current :: q.machine.next ::
    q.functions.flatMap fun fn => ((fs[fn]?.map (·.instances.toList)).getD []).flatMap Instance.stack

theorem Sequencer.mem_made :
    d ∈ q.made fs ↔ d = q.machine.current ∨ d = q.machine.next ∨
      ∃ r inst, q.Has fs r inst ∧ d ∈ inst.stack := by
  simp only [made, List.mem_cons, List.mem_flatMap]
  refine or_congr Iff.rfl (or_congr Iff.rfl ⟨?_, ?_⟩)
  · rintro ⟨fn, hfn, inst, hinst, hd⟩
    cases hf : fs[fn]? with
    | none => simp [hf] at hinst
    | some f =>
      have hmem : inst ∈ f.instances.toList := by simpa [hf] using hinst
      obtain ⟨pos, hpos⟩ := List.getElem?_of_mem hmem
      refine ⟨⟨fn, pos⟩, inst, ⟨hfn, ?_⟩, hd⟩
      rw [instance?, hf, Option.bind_some, ← Array.getElem?_toList, hpos]
  · rintro ⟨r, inst, ⟨hfn, hr⟩, hd⟩
    obtain ⟨f, hf, hpos⟩ := Option.bind_eq_some_iff.mp hr
    rw [← Array.getElem?_toList] at hpos
    exact ⟨r.function, hfn, inst, by simpa [hf] using List.mem_of_getElem? hpos, hd⟩

theorem Sequencer.Has.mem_made {r : InstanceRef} {inst : Instance} (h : q.Has fs r inst)
    (hd : d ∈ inst.stack) : d ∈ q.made fs :=
  Sequencer.mem_made.mpr (.inr (.inr ⟨r, inst, h, hd⟩))

/-- The program is self-contained, does not assign by name what is made for it, and was built. -/
structure Accepted (s : Session) (opts : Options) (body : List Command) (q : Sequencer)
    (s' : Session) : Prop extends SelfContained s body where
  built : build s opts body = (.ok q, s')
  closed : s.Closed
  assigns : ∀ x ∈ Command.withinAll body, ∀ name, x.assigns = some name →
    ∀ d ∈ q.made s'.functions, s'.module.symbols.signalName d ≠ name
  size : q.machine.size < 2 ^ 63

/-- Whether a program was built and is accepted; what was built. -/
def accept? (s : Session) (opts : Options) (body : List Command) : Option (Sequencer × Session) :=
  match build s opts body with
  | (.error _, _) => none
  | (.ok q, s') =>
    let size := s.module.symbols.signals.size
    let made := (q.made s'.functions).map s'.module.symbols.signalName
    if s.module.processes.toList.all (fun p => (Stmt.blockDests p.body).all (· < size)) &&
        (s.scope.bound ++ s.scope.loose).all (·.2 < size) &&
        (Command.withinAll body).all (fun x => x.isStructured &&
          x.assigns.all (! made.contains ·) &&
          x.calls.all (! (s.scope.functions.map Prod.fst).contains ·)) &&
        q.machine.size < 2 ^ 63 then some (q, s')
    else none

theorem Accepted.of_accept? (h : accept? s opts body = some (q, s')) :
    Accepted s opts body q s' := by
  unfold accept? at h
  split at h
  · simp at h
  · next q₁ s₁ hb =>
    dsimp only at h
    split at h
    · next hc =>
      obtain ⟨rfl, rfl⟩ := Prod.mk.inj (Option.some.inj h)
      simp only [Bool.and_eq_true, List.all_eq_true, decide_eq_true_eq] at hc
      obtain ⟨⟨⟨hproc, hnames⟩, hcmd⟩, hsize⟩ := hc
      refine ⟨⟨fun x hx => (hcmd x hx).1.1, fun x hx name hcall => ?_⟩, hb, ⟨hproc, hnames⟩,
        fun x hx name ha d hd => ?_, hsize⟩
      · have hall := (hcmd x hx).2
        rwa [hcall, Option.all_some, Bool.not_eq_true', ← Bool.not_eq_true,
          List.contains_iff_mem] at hall
      · have hall := (hcmd x hx).1.2
        rw [ha, Option.all_some, Bool.not_eq_true', ← Bool.not_eq_true, List.contains_iff_mem,
          List.mem_map, not_exists] at hall
        exact fun hname => hall d ⟨hd, hname⟩
    · simp at h

/-- The module was only added to since the program was built, by processes that leave alone what
was made for it. -/
structure Hosts (q : Sequencer) (s : Session) (M : Module) : Prop where
  grows : s.module.Grows M
  links : s.module.symbols.links.toList <+: M.symbols.links.toList
  later : ∀ p ∈ M.processes.toList.drop s.module.processes.size,
    ∀ d ∈ q.made s.functions, d ∉ Stmt.blockDests p.body

/-- What is known of the state of a site in a built program. -/
def Sited (escapes : Prop) (q : Sequencer) (fs : Array Function) (g : Symbols) (L : List (Site Nat))
    (k : Nat) (st : Machine.State) : Site Nat → Prop
  | ⟨owner, .idle⟩ => st.body = [] ∧ st.gotos = [waitFor q.run k] ∧ Reaches L none (k + 1) owner
  | ⟨owner, .plain⟩ =>
    (∀ d ∈ Stmt.blockDests st.body, d ∉ q.made fs) ∧ Reaches L none (k + 1) owner ∧
      ∀ t ∈ st.gotos, Leads escapes L none owner t
  | ⟨owner, .call r args _ resume⟩ => ∃ inst link entry skip, q.Has fs r inst ∧
    args.length = inst.args.length ∧ st.body = [inst.push q.machine.type args link] ∧
    g.links[link]? = some (q.machine.code resume) ∧
    st.gotos = [.branch inst.roomTest (.state (entry : Nat)) (.state (skip : Nat))] ∧
    Reaches L none entry (some r) ∧ Reaches L none skip owner ∧ Reaches L none resume owner ∧
    ∃ f, fs[r.function]? = some f ∧ (f.overflow = none → resume = skip) ∧
      (f.overflow ≠ none → ∃ last, resume = last + 1 ∧ skip ≤ last ∧
        L[last]? = some ⟨owner, .plain⟩)
  | ⟨owner, .ret⟩ => ∃ r inst before, owner = some r ∧ q.Has fs r inst ∧
    st.body = before ++ [inst.pop] ∧ (∀ d ∈ Stmt.blockDests before, d ∉ q.made fs) ∧
    st.gotos = [inst.leave]

/-- The sites of all states. The first is the end state; `escapes` says whether bodies and handlers
may go there. -/
structure Plan (escapes : Prop) (q : Sequencer) (fs : Array Function) (g : Symbols)
    (L : List (Site Nat)) : Prop where
  size : q.machine.size = L.length
  first : L[0]? = some ⟨none, .idle⟩
  sites : ∀ (k : Nat) site st, L[k]? = some site → q.machine.states[k]? = some st →
    Sited escapes q fs g L k st site

/-- The machine of the program and its stacks in a module. -/
structure Grounded (q : Sequencer) (fs : Array Function) (M : Module) : Prop where
  installed : ∃ others, q.machine.Installed M others ∧
    ∀ p ∈ others, ∀ d ∈ q.made fs, d ∉ Stmt.blockDests p.body
  clock : q.machine.clock.isSome = true
  fallback : q.machine.fallback = 0
  register : ∃ x, M.symbols.signals[q.machine.current]? = some x ∧ x.kind = .reg
  stacked : ∀ r inst, q.Has fs r inst → Stacked M.symbols q.machine.type inst
  machine_apart : ∀ r inst, q.Has fs r inst →
    q.machine.current ∉ inst.stack ∧ q.machine.next ∉ inst.stack
  stacks_apart : ∀ r r' inst inst', q.Has fs r inst → q.Has fs r' inst' →
    ∀ d ∈ inst.stack, d ∈ inst'.stack → r = r'
  zero : ∀ st ∈ q.machine.onReset, ∃ i t, st = .assign i none (.const 0 t) ∧
    (i ∉ q.made fs ∨ ∃ r inst, q.Has fs r inst ∧ i = inst.sp)
  pointers : ∀ r inst, q.Has fs r inst →
    ∃ t, .assign inst.sp none (.const 0 t) ∈ q.machine.onReset
  defaults : ∀ d ∈ Stmt.blockDests q.machine.defaults, d ∉ q.made fs

/-- A push assigns its own stack. -/
theorem Instance.push_dests (inst : Instance) {code : TypeId} {args : List Expr} {link : LinkId}
    (hd : d ∈ Stmt.blockDests [inst.push code args link]) : d ∈ inst.stack := by
  simp only [Instance.push, Stmt.blockDests, Stmt.dests, Stmt.blockDests_append, List.append_nil,
    List.mem_append, List.mem_cons, List.not_mem_nil, or_false] at hd
  rcases hd with hd | rfl | rfl
  · obtain ⟨st, hst, hd⟩ := Stmt.exists_of_mem_blockDests hd
    obtain ⟨⟨mem, a⟩, hz, rfl⟩ := List.mem_map.mp hst
    obtain rfl : d = mem := by simpa [Stmt.dests] using hd
    simp [Instance.stack, (List.of_mem_zip hz).1]
  · simp [Instance.stack]
  · simp [Instance.stack]

/-! ## From the links of return addresses to the states they stand for -/

section Resolve

variable {ρ σ : Type}

def Role.map (h : ρ → σ) : Role ρ → Role σ
  | .idle => .idle
  | .plain => .plain
  | .call callee args request back => .call callee args request (h back)
  | .ret => .ret

def Site.map (h : ρ → σ) (site : Site ρ) : Site σ := ⟨site.owner, site.role.map h⟩

theorem Reaches.map (h : ρ → σ) {L : List (Site ρ)} {cur o : Option InstanceRef} {j : Nat}
    (hj : Reaches L cur j o) : Reaches (L.map (Site.map h)) cur j o := by
  rcases hj with ⟨site, hs, ho⟩ | ⟨rfl, ho⟩
  · exact .inl ⟨site.map h, by rw [List.getElem?_map, hs, Option.map_some], ho⟩
  · exact .inr ⟨by rw [List.length_map], ho⟩

theorem Leads.map (h : ρ → σ) {escapes : Prop} {L : List (Site ρ)} {cur o : Option InstanceRef}
    {t : Transition Expr} (ht : Leads escapes L cur o t) :
    Leads escapes (L.map (Site.map h)) cur o t := by
  refine ⟨ht.1, fun a ha => ?_⟩
  obtain ⟨j, hj, hr⟩ := ht.2 a ha
  exact ⟨j, hj, hr.imp_right (.map h)⟩

/-- The state that a return address stands for. -/
def resumeOf (resumes : List (LinkId × Nat)) (link : LinkId) : Nat :=
  ((resumes.find? (·.1 == link)).map Prod.snd).getD 0

theorem resumeOf_mem {resumes : List (LinkId × Nat)} {link : LinkId} {j : Nat}
    (hone : ∀ l j j', (l, j) ∈ resumes → (l, j') ∈ resumes → j = j')
    (hj : (link, j) ∈ resumes) : resumeOf resumes link = j := by
  unfold resumeOf
  cases hf : resumes.find? (·.1 == link) with
  | none =>
    rw [List.find?_eq_none] at hf
    exact absurd (by simp) (hf _ hj)
  | some x =>
    obtain rfl : x.1 = link := by simpa using List.find?_some hf
    exact hone _ _ _ (List.mem_of_find?_eq_some hf) hj

end Resolve

/-! ## From the elaborated program to the built one -/

/-- The environment of a program of which the end is known: it may assign what has no name of a
signal that was made for it. -/
def Env.knowing (s : Session) (opts : Options) (body : List Command) (q : Sequencer)
    (s' : Session) : Env :=
  .start s opts body fun name => ∀ d ∈ q.made s'.functions, s'.module.symbols.signalName d ≠ name

theorem Accepted.tame (h : Accepted s opts body q s') {x : Command} (hx : x ∈ body) :
    (Env.knowing s opts body q s').Tame false x := by
  have hin : ∀ y ∈ x.within, y ∈ Command.withinAll body := fun y hy => Command.mem_withinAll hx hy
  refine ⟨fun y hy => h.structured y (hin y hy), fun y hy => h.assigns y (hin y hy),
    fun y hy => h.calls y (hin y hy), fun y hy name depth ha => ⟨y, hin y hy, ha⟩, ?_⟩
  rintro y hy rfl
  exact Command.mem_innerAll hx hy

/-- A program that was elaborated, and the machine built from it. -/
structure Built (s : Session) (opts : Options) (body : List Command) (L : List (Site LinkId))
    (c : Context) (q : Sequencer) (s' : Session) : Prop
    extends Elaborated s opts body (fun name => ∀ d ∈ q.made s'.functions,
      s'.module.symbols.signalName d ≠ name) L c where
  prepared : ∃ c₁, (prepare opts body).run (draft s opts) = .ok () c₁ ∧
    Relinked c₁.draft.machine c₁.draft.resumes c₁ c
  build : c.draft.machine.build c.session.module = (none, q.machine, s'.module)
  functions : s'.functions = c.session.functions
  own : q.functions = c.draft.functions
  run : q.run = c.draft.run
  name : q.name = c.draft.name

theorem Accepted.exists_built (h : Accepted s opts body q s') :
    ∃ L c, Built s opts body L c q s' := by
  have hb := h.built
  unfold Program.build at hb
  split at hb
  · next q' c' hrun =>
    obtain ⟨hq, rfl⟩ := Prod.mk.inj hb
    cases hq
    obtain ⟨L, c, he, hprep, hbuild, hf, hown, hrun, hname⟩ :=
      Elaborated.of_elaborate h.closed opts (fun x hx => h.tame hx) _ _ hrun
    exact ⟨L, c, he, hprep, hbuild, hf, hown, hrun, hname⟩
  · simp at hb

namespace Built

variable {L : List (Site LinkId)} {c : Context}

section

variable (h : Built s opts body L c q s')
include h

theorem machine : q.machine = { c.draft.machine with built := true } :=
  (Machine.build_ok h.build).2.1

theorem symbols : s'.module.symbols = c.session.module.symbols.setType q.machine.type
    (.unsigned q.machine.registerWidth) := by
  obtain ⟨-, hm, next, -, hsym, -⟩ := Machine.build_ok h.build
  rw [hsym, hm]
  rfl

/-- A machine without a clock cannot be built. -/
theorem clocked : q.machine.clock.isSome = true := by
  have ho := (Machine.build_ok h.build).1
  rw [h.machine]
  cases hc : c.draft.machine.clock with
  | some event => rfl
  | none =>
    unfold Machine.obstacle at ho
    split at ho
    · simp at ho
    · split at ho
      · simp at ho
      · simp [hc] at ho

theorem alike : Alike (draft s opts).draft.machine q.machine := by
  rw [h.machine]
  exact h.code.alike.trans rfl

theorem has_iff {r : InstanceRef} {inst : Instance} :
    q.Has s'.functions r inst ↔
      (Env.knowing s opts body q s').Has c.session.functions r inst := by
  rw [Sequencer.Has, Env.Has, h.own, h.functions]
  refine and_congr_left fun hi => ?_
  rw [h.code.functions]
  refine and_iff_left ?_
  obtain ⟨f, hf, -⟩ := Option.bind_eq_some_iff.mp hi
  exact (Array.getElem?_eq_some_iff.mp hf).1

theorem made_iff {d : SignalId} :
    d ∈ q.made s'.functions ↔ (Env.knowing s opts body q s').Made c.session.functions d := by
  rw [Sequencer.mem_made, h.alike.current, h.alike.next]
  exact or_congr Iff.rfl (or_congr Iff.rfl (exists_congr fun r => exists_congr fun inst =>
    and_congr_left' h.has_iff))

/-- What the program may assign was not made for it: no made signal has such a name. -/
theorem not_made {d : SignalId} (hd : (Env.knowing s opts body q s').Clean c.session.functions
      c.session.module.symbols d) : d ∉ q.made s'.functions := by
  intro hmem
  rcases hd.2 with hnot | hname
  · exact hnot (h.made_iff.mp hmem)
  · refine hname d hmem ?_
    rw [h.symbols]
    rfl

theorem stacked {r : InstanceRef} {inst : Instance} (hi : q.Has s'.functions r inst) :
    Stacked s'.module.symbols q.machine.type inst := by
  have htype : q.machine.type = (draft s opts).draft.machine.type := h.alike.type
  have hr := h.has_iff.mp hi
  rw [h.symbols, htype]
  refine (h.world.stacked r inst hr).congr (fun _ _ => rfl) ?_
  have hne : inst.spType ≠ (draft s opts).draft.machine.type := h.world.code_apart r inst hr
  simp [Symbols.setType, Ne.symm hne]

/-- The plan with the return addresses as the elaborated program has them. It does not depend on how
states are coded, as long as the return addresses are codes of the same encoding. -/
theorem sited {e : Encoding} {g : Symbols} (hlinks : ∀ l j, (l, j) ∈ c.draft.resumes →
      g.links[l]? = some ((q.machine.reencode e).code j)) {k : Nat} {site : Site LinkId}
    {st : Machine.State} (hk : L[k]? = some site) (hst : q.machine.states[k]? = some st) :
    Sited (.terminate ∈ Command.innerAll body) (q.reencode e) s'.functions g
      (L.map (Site.map (resumeOf c.draft.resumes))) k st (site.map (resumeOf c.draft.resumes)) := by
  have hstates : c.draft.machine.states[k]? = some st := by
    rw [h.machine] at hst
    exact hst
  have hs := h.code.sites k site st hk hstates
  rw [h.building, List.head?_nil] at hs
  obtain ⟨owner, role⟩ := site
  cases role with
  | idle =>
    obtain ⟨hbody, hgotos, hnext⟩ := hs
    refine ⟨hbody, ?_, hnext.map _⟩
    change st.gotos = [waitFor q.run k]
    rw [hgotos, h.run, h.code.run]
  | plain =>
    obtain ⟨hbody, hnext, hgotos⟩ := hs
    exact ⟨fun d hd => h.not_made (hbody d hd), hnext.map _, fun t ht => (hgotos t ht).map _⟩
  | call r args request link =>
    obtain ⟨inst, hi, hlen, -, hbody, -, hclosed⟩ := hs
    obtain ⟨entry, skip, resume, hgotos, hmem, hentry, hskip, hresume, f, hf, -, hnone, hsome⟩ :=
      hclosed List.not_mem_nil
    have hback : resumeOf c.draft.resumes link = resume :=
      resumeOf_mem h.code.resumes_unique hmem
    refine ⟨inst, link, entry, skip, h.has_iff.mpr hi, hlen, ?_, ?_, hgotos, hentry.map _,
      hskip.map _, ?_, f, by rw [h.functions]; exact hf, ?_, fun hne => ?_⟩
    · change st.body = [inst.push q.machine.type args link]
      rw [h.alike.type]
      exact hbody
    · rw [hback]
      exact hlinks link resume hmem
    · rw [hback]
      exact hresume.map _
    · rw [hback]
      exact hnone
    · rw [hback]
      obtain ⟨last, hlast, hle, hsite⟩ := hsome hne
      exact ⟨last, hlast, hle, by rw [List.getElem?_map, hsite]; rfl⟩
  | ret =>
    obtain ⟨r, inst, before, ho, hi, hbody, hbefore, hgotos⟩ := hs
    exact ⟨r, inst, before, ho, h.has_iff.mpr hi, hbody, fun d hd => h.not_made (hbefore d hd),
      hgotos⟩

theorem plan_reencode {e : Encoding} {g : Symbols} (hlinks : ∀ l j, (l, j) ∈ c.draft.resumes →
      g.links[l]? = some ((q.machine.reencode e).code j)) :
    Plan (.terminate ∈ Command.innerAll body) (q.reencode e) s'.functions g
      (L.map (Site.map (resumeOf c.draft.resumes))) where
  size := by
    change q.machine.size = _
    rw [List.length_map, h.machine]
    exact h.code.size
  first := by
    rw [List.getElem?_map, h.code.first]
    rfl
  sites k site st hk hst := by
    rw [List.getElem?_map] at hk
    obtain ⟨site, hsite, rfl⟩ := Option.map_eq_some_iff.mp hk
    exact h.sited hlinks hsite hst

theorem links {l : LinkId} {j : Nat} (hl : (l, j) ∈ c.draft.resumes) :
    s'.module.symbols.links[l]? = some (q.machine.code j) := by
  rw [h.symbols, h.machine]
  exact h.toElaborated.resumes l j hl

theorem plan : Plan (.terminate ∈ Command.innerAll body) q s'.functions s'.module.symbols
    (L.map (Site.map (resumeOf c.draft.resumes))) :=
  h.plan_reencode (e := q.machine.encoding) fun _ _ => h.links

/-- Only the processes of its machine assign what was made for the program. -/
theorem others_free {M : Module} (hM : Hosts q s' M) : ∃ after next,
    q.machine.nextBody = .ok next ∧
    M.processes.toList = s.module.processes.toList ++ q.machine.processes next ++ after ∧
    (s.Closed → ∀ p ∈ s.module.processes.toList ++ after, ∀ d ∈ q.made s'.functions,
      d ∉ Stmt.blockDests p.body) := by
  obtain ⟨-, hm, next, hbody, -, hproc⟩ := Machine.build_ok h.build
  rw [h.processes] at hproc
  obtain ⟨after, hafter⟩ := hM.grows.processes
  have hbody' : q.machine.nextBody = .ok next := by
    rw [hm, Machine.nextBody_built, hbody]
  have hown : q.machine.processes next = c.draft.machine.processes next := by
    rw [hm]
    rfl
  refine ⟨after, next, hbody', by rw [← hafter, hproc, hown], fun hs p hp d hd hmem => ?_⟩
  rcases List.mem_append.mp hp with hp | hp
  · exact h.before d (hs.processes p hp d hmem) (h.made_iff.mp hd)
  · refine hM.later p ?_ d hd hmem
    rw [← hafter, List.drop_left' (Array.length_toList ..)]
    exact hp

end

end Built

/-- The bodies of the states assign stacks and what the program may assign. -/
theorem Plan.body_dests {g : Symbols} {L : List (Site Nat)} {escapes : Prop}
    (h : Plan escapes q fs g L) {st : Machine.State} (hst : st ∈ q.machine.states.toList)
    (hd : d ∈ Stmt.blockDests st.body) :
    d ∉ q.made fs ∨ ∃ r inst, q.Has fs r inst ∧ d ∈ inst.stack := by
  obtain ⟨k, hk⟩ := List.getElem?_of_mem hst
  rw [Array.getElem?_toList] at hk
  have hlt : k < L.length := h.size ▸ (Array.getElem?_eq_some_iff.mp hk).1
  have hs := h.sites k _ st (List.getElem?_eq_getElem hlt) hk
  generalize L[k] = site at hs
  obtain ⟨owner, role⟩ := site
  cases role with
  | idle =>
    rw [hs.1] at hd
    exact absurd hd List.not_mem_nil
  | plain => exact .inl (hs.1 d hd)
  | call r args request resume =>
    obtain ⟨inst, link, entry, skip, hi, -, hbody, -⟩ := hs
    rw [hbody] at hd
    exact .inr ⟨r, inst, hi, inst.push_dests hd⟩
  | ret =>
    obtain ⟨r, inst, before, -, hi, hbody, hbefore, -⟩ := hs
    rw [hbody, Stmt.blockDests_append, List.mem_append] at hd
    rcases hd with hd | hd
    · exact .inl (hbefore d hd)
    · refine .inr ⟨r, inst, hi, ?_⟩
      simp only [Instance.pop, Stmt.blockDests, Stmt.dests, List.append_nil,
        List.mem_singleton] at hd
      simp [Instance.stack, hd]

theorem Plan.grow {g g' : Symbols} {L : List (Site Nat)} {escapes : Prop}
    (h : Plan escapes q fs g L) (hlinks : g.links.toList <+: g'.links.toList) :
    Plan escapes q fs g' L where
  size := h.size
  first := h.first
  sites k site st hk hst := by
    have hs := h.sites k site st hk hst
    obtain ⟨owner, role⟩ := site
    cases role with
    | idle | plain | ret => exact hs
    | call r args request resume =>
      obtain ⟨inst, link, entry, skip, hi, hlen, hbody, hlink, hrest⟩ := hs
      refine ⟨inst, link, entry, skip, hi, hlen, hbody, ?_, hrest⟩
      rw [← Array.getElem?_toList] at hlink ⊢
      obtain ⟨more, hmore⟩ := hlinks
      rw [← hmore, List.getElem?_append_left (List.getElem?_eq_some_iff.mp hlink).1, hlink]

namespace Built

variable {L : List (Site LinkId)} {c : Context} {M : Module} (h : Built s opts body L c q s')
include h

theorem zero {st : Statement} (hst : st ∈ q.machine.onReset) :
    ∃ i t, st = .assign i none (.const 0 t) ∧
      (i ∉ q.made s'.functions ∨ ∃ r inst, q.Has s'.functions r inst ∧ i = inst.sp) := by
  rw [h.machine] at hst
  obtain ⟨i, t, rfl, hi | ⟨r, inst, hi, rfl⟩⟩ := h.resets.zero st hst
  · exact ⟨i, t, rfl, .inl (h.not_made hi)⟩
  · exact ⟨inst.sp, t, rfl, .inr ⟨r, inst, h.has_iff.mpr hi, rfl⟩⟩

theorem defaults {d : SignalId} (hd : d ∈ Stmt.blockDests q.machine.defaults) :
    d ∉ q.made s'.functions := by
  rw [h.machine] at hd
  exact h.not_made (h.resets.defaults d hd)

theorem machine_apart {r : InstanceRef} {inst : Instance} (hi : q.Has s'.functions r inst) :
    q.machine.current ∉ inst.stack ∧ q.machine.next ∉ inst.stack := by
  rw [h.alike.current, h.alike.next]
  exact h.world.machine_apart r inst (h.has_iff.mp hi)

/-- Register and wire are made, but belong to no stack, so the body process leaves them alone. -/
theorem body_free {d : SignalId} (hd : d = q.machine.current ∨ d = q.machine.next) :
    d ∉ Stmt.blockDests q.machine.dispatchBody := by
  intro hmem
  have hmade : d ∈ q.made s'.functions := Sequencer.mem_made.mpr (hd.imp_right .inl)
  have hstack : ∀ r inst, q.Has s'.functions r inst → d ∉ inst.stack := by
    intro r inst hi
    rcases hd with rfl | rfl
    · exact (h.machine_apart hi).1
    · exact (h.machine_apart hi).2
  rcases q.machine.dispatchBody_dests d hmem with hmem | hmem | ⟨st, hst, hmem⟩
  · obtain ⟨st, hst, hmem⟩ := Stmt.exists_of_mem_blockDests hmem
    obtain ⟨i, t, rfl, hi⟩ := h.zero hst
    obtain rfl : d = i := by simpa [Stmt.dests] using hmem
    rcases hi with hi | ⟨r, inst, hi, rfl⟩
    · exact hi hmade
    · exact hstack r inst hi (by simp [Instance.stack])
  · exact h.defaults hmem hmade
  · rcases h.plan.body_dests hst hmem with hmem | ⟨r, inst, hi, hmem⟩
    · exact hmem hmade
    · exact hstack r inst hi hmem

theorem sized (hM : Hosts q s' M) (hn : q.machine.size < 2 ^ 63) :
    q.machine.Sized M.symbols ∧ q.machine.current < M.symbols.signals.size := by
  have hfall : c.draft.machine.fallback = 0 := h.code.alike.fallback
  have hpos : 0 < c.draft.machine.size := by
    rw [Machine.size, h.code.size]
    exact (List.getElem?_eq_some_iff.mp h.code.first).1
  have hplaced : c.draft.machine.Placed c.session.module := by
    obtain ⟨x, hx, hxt, -⟩ := h.world.current
    obtain ⟨y, hy, hyt, -⟩ := h.world.next
    have hp : Machine.Placed (draft s opts).draft.machine c.session.module :=
      ⟨⟨x, hx, hxt⟩, ⟨y, hy, hyt⟩, h.world.apart, h.world.code⟩
    exact hp.of_fields h.code.alike.current h.code.alike.next h.code.alike.type
  rw [h.machine] at hn ⊢
  obtain ⟨hsized, hreg⟩ := Machine.sized_of_build hplaced h.build hM.grows hn
    ⟨by rw [hfall], by rw [hfall]; exact_mod_cast hpos⟩
  exact ⟨⟨hsized.current, hsized.next, hsized.type,
    ⟨hsized.countable.index, hsized.countable.oneHot⟩, hsized.fallback⟩, hreg⟩

theorem installed (hs : s.Closed) (hM : Hosts q s' M) (hn : q.machine.size < 2 ^ 63) :
    ∃ others, q.machine.Installed M others ∧
      ∀ p ∈ others, ∀ d ∈ q.made s'.functions, d ∉ Stmt.blockDests p.body := by
  obtain ⟨after, next, hbody, hproc, hothers⟩ := h.others_free hM
  obtain ⟨hsized, hreg⟩ := h.sized hM hn
  have hfree := hothers hs
  have hapart : q.machine.current ≠ q.machine.next := by
    rw [h.alike.current, h.alike.next]
    exact h.world.apart
  refine ⟨s.module.processes.toList ++ after, ⟨hsized, hapart, hreg,
    ⟨_, _, next, rfl, hbody, hproc⟩, fun p hp => ?_, fun p hp => ?_, h.body_free (.inl rfl),
    h.body_free (.inr rfl)⟩, hfree⟩
  · exact hfree p hp _ (Sequencer.mem_made.mpr (.inl rfl))
  · exact hfree p hp _ (Sequencer.mem_made.mpr (.inr (.inl rfl)))

end Built

/-- A program that was built runs by a plan, in every module that hosts it. -/
theorem Accepted.grounded (h : Accepted s opts body q s') {M : Module} (hM : Hosts q s' M) :
    ∃ L, Plan (.terminate ∈ Command.innerAll body) q s'.functions M.symbols L ∧
      Grounded q s'.functions M := by
  obtain ⟨L, c, hb⟩ := h.exists_built
  refine ⟨_, hb.plan.grow hM.links, hb.installed h.closed hM h.size, hb.clocked,
    hb.alike.fallback, ?_, fun r inst hi => ?_, fun r inst hi => hb.machine_apart hi,
    fun r r' inst inst' hi hi' => ?_, fun st hst => hb.zero hst, fun r inst hi => ?_,
    fun d hd => hb.defaults hd⟩
  · obtain ⟨x, hx, -, hkind⟩ := hb.world.current
    refine ⟨x, hM.grows.signal ?_, hkind⟩
    rw [hb.symbols, hb.alike.current]
    exact hx
  · have hst := hb.stacked hi
    refine hst.congr (fun d hd => ?_) ?_
    · obtain ⟨x, hx⟩ := hst.signal hd
      rw [hx, hM.grows.signal hx]
    · rw [hst.width, hM.grows.type hst.width]
  · exact hb.world.stacks_apart r r' inst inst' (hb.has_iff.mp hi) (hb.has_iff.mp hi')
  · rw [hb.machine]
    exact hb.resets.pointers r inst (hb.has_iff.mp hi)

end Lockstep.Program
