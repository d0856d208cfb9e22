import Lockstep.Proofs.Program.Live
import Lockstep.Proofs.Program.Sealed
import Lockstep.Proofs.Sim.Recoded

/-!
# One program under two encodings

A program that names no state code is built into the same machine under every encoding, but for
the encoding itself. The two modules differ in the type of the state register and in the values of
the return addresses, and one plan describes both programs.
-/

namespace Lockstep

/-- What is added to a module. -/
structure Addition where
  types : List SignalType := []
  signals : List Signal := []
  links : List UInt64 := []
  processes : List Process := []

def Module.add (m : Module) (a : Addition) : Module :=
  { m with
    symbols :=
      { types := m.symbols.types ++ a.types.toArray
        signals := m.symbols.signals ++ a.signals.toArray
        links := m.symbols.links ++ a.links.toArray }
    processes := m.processes ++ a.processes.toArray }

theorem Module.add_grows (m : Module) (a : Addition) : m.Grows (m.add a) :=
  ⟨⟨a.types, by simp [add]⟩, ⟨a.signals, by simp [add]⟩, ⟨a.processes, by simp [add]⟩⟩

/-- Tables that differ in state codes alone still do so with the same symbols added. -/
theorem Symbols.Recoded.add {k : Coding} {m m' : Module} (h : m.symbols.Recoded k m'.symbols)
    (htypes : m'.symbols.types.size = m.symbols.types.size)
    (hlinks : m'.symbols.links.size = m.symbols.links.size) (a : Addition) :
    (m.add a).symbols.Recoded k (m'.add a).symbols where
  signals := by simp only [Module.add, h.signals]
  types t ht := by
    simp only [Module.add, Array.getElem?_append, htypes, h.types t ht]
  links l hl := by
    simp only [Module.add, Array.getElem?_append, hlinks, h.links l hl]

/-- The late constant of the given type that an assignment stores. -/
def Stmt.stored? (t : TypeId) : Statement → Option LinkId
  | .assign _ _ (.lit (.link l) u) => if u = some t then some l else none
  | _ => none

/-- The type of the state codes, and the return addresses that the states store. -/
def Machine.coding (f : Machine) : Coding where
  type := f.type
  links := f.states.toList.flatMap fun st =>
    (Stmt.nestedBlock st.body).filterMap (Stmt.stored? f.type)

namespace Program

/-- The instances of all functions of the program. -/
def Sequencer.instances (q : Sequencer) (fs : Array Function) : List Instance :=
  q.functions.flatMap fun fn => (fs[fn]?.map (·.instances.toList)).getD []

theorem Sequencer.mem_instances {q : Sequencer} {fs : Array Function} {inst : Instance} :
    inst ∈ q.instances fs ↔ ∃ r, q.Has fs r inst := by
  rw [instances, List.mem_flatMap]
  constructor
  · rintro ⟨fn, hfn, hinst⟩
    cases hf : fs[fn]? with
    | none => simp [hf] at hinst
    | some f =>
      rw [hf, Option.map_some, Option.getD_some] at hinst
      obtain ⟨pos, hpos⟩ := List.getElem?_of_mem hinst
      refine ⟨⟨fn, pos⟩, hfn, ?_⟩
      rw [instance?, hf, Option.bind_some, ← Array.getElem?_toList, hpos]
  · rintro ⟨r, hfn, hr⟩
    obtain ⟨f, hf, hpos⟩ := Option.bind_eq_some_iff.mp hr
    rw [← Array.getElem?_toList] at hpos
    refine ⟨r.function, hfn, ?_⟩
    rw [hf, Option.map_some, Option.getD_some]
    exact List.mem_of_getElem? hpos

/-- The signals that hold state codes: the state register, the next-state wire and the
return-address memories. -/
def Sequencer.codes (q : Sequencer) (fs : Array Function) : List SignalId :=
  q.machine.current :: q.machine.next :: (q.instances fs).map Instance.returnAddr

/-- Neither the program nor one of the other processes reads a state code, no other signal has the
type of state codes, and the others do not assign what was made for the program. -/
structure Oblivious (q : Sequencer) (fs : Array Function) (g : Symbols) (others : List Process) :
    Prop where
  signals : ∀ i < g.signals.size, g.isCoded q.machine.coding i = true → i ∈ q.codes fs
  reset : q.machine.reset.isUncoded g q.machine.coding = true
  blocks : ∀ body ∈ q.machine.defaults :: q.machine.onReset ::
    q.machine.states.toList.map Machine.State.body,
    Stmt.blockUncoded g q.machine.coding body = true
  guards : ∀ st ∈ q.machine.states.toList, ∀ t ∈ st.gotos,
    t.guard.all (·.isUncoded g q.machine.coding) = true
  reads : ∀ p ∈ others, Stmt.blockUncoded g q.machine.coding p.body = true
  assigns : ∀ p ∈ others, ∀ d ∈ q.run :: q.made fs, d ∉ Stmt.blockDests p.body

instance (q : Sequencer) (fs : Array Function) (g : Symbols) (others : List Process) :
    Decidable (Oblivious q fs g others) :=
  decidable_of_iff (_ ∧ _ ∧ _ ∧ _ ∧ _ ∧ _)
    ⟨fun h => ⟨h.1, h.2.1, h.2.2.1, h.2.2.2.1, h.2.2.2.2.1, h.2.2.2.2.2⟩,
      fun h => ⟨h.signals, h.reset, h.blocks, h.guards, h.reads, h.assigns⟩⟩

theorem Oblivious.body {q : Sequencer} {fs : Array Function} {g : Symbols} {others : List Process}
    (h : Oblivious q fs g others) {k : Nat} {st : Machine.State} (hst : q.machine.states[k]? = some st) :
    Stmt.blockUncoded g q.machine.coding st.body = true :=
  h.blocks _ (List.mem_cons_of_mem _ (List.mem_cons_of_mem _
    (List.mem_map_of_mem (Array.mem_toList_iff.mpr (Array.mem_of_getElem? hst)))))

/-- A program with index codes in the module `M`, and the same program with one-hot codes in `M'`,
among the same other processes. -/
structure Twins (escapes : Prop) (q : Sequencer) (fs : Array Function) (M M' : Module)
    (before after : List Process) (L : List (Site Nat)) : Prop where
  binary : q.machine.encoding = .binary
  grounded : Grounded q fs M
  grounded' : Grounded (q.reencode .oneHot) fs M'
  plan : Plan escapes q fs M.symbols L
  plan' : Plan escapes (q.reencode .oneHot) fs M'.symbols L
  closed : q.machine.Sealed
  resumes : ∀ (k : Nat) owner r args request resume,
    L[k]? = some ⟨owner, .call r args request resume⟩ → resume < q.machine.size
  symbols : M.symbols.Recoded q.machine.coding M'.symbols
  coded : ∀ d ∈ q.codes fs, M.symbols.isCoded q.machine.coding d = true
  wire : ∃ x, M.symbols.signals[q.machine.next]? = some x ∧ x.kind = .wire
  flag : ∃ x, M.symbols.signals[q.run]? = some x ∧ x.kind = .reg
  processes : ∃ next, q.machine.nextBody = .ok next ∧
    M.processes.toList = before ++ q.machine.processes next ++ after
  processes' : ∃ next, (q.reencode .oneHot).machine.nextBody = .ok next ∧
    M'.processes.toList = before ++ (q.reencode .oneHot).machine.processes next ++ after
  oblivious : Oblivious q fs M.symbols (before ++ after)

namespace Built

variable {s s' : Session} {opts : Options} {body : List Command} {L : List (Site LinkId)}
variable {c : Context} {q : Sequencer}

section

variable (h : Built s opts body L c q s')
include h

/-- The program calls by a return address in one of its states. -/
theorem link_mem {l : LinkId} {j : Nat} (hl : (l, j) ∈ c.draft.resumes) :
    l ∈ q.machine.coding.links := by
  obtain ⟨k, ⟨owner, r, args, request, hk⟩, -⟩ := h.code.resumes l j hl
  have hlt : k < c.draft.machine.states.size :=
    h.code.size ▸ (List.getElem?_eq_some_iff.mp hk).1
  obtain ⟨inst, -, -, -, hbody, -⟩ := h.code.sites k _ _ hk (Array.getElem?_eq_getElem hlt)
  have htype : q.machine.type = (draft s opts).draft.machine.type := h.alike.type
  have hstates : q.machine.states = c.draft.machine.states := by
    rw [h.machine]
  refine List.mem_flatMap.mpr ⟨c.draft.machine.states[k], ?_, ?_⟩
  · rw [hstates]
    exact Array.getElem_mem_toList hlt
  · refine List.mem_filterMap.mpr ⟨.assign inst.returnAddr (some (.ref inst.sp))
      (.lit (.link l) (some q.machine.type)), ?_, by simp [Stmt.stored?]⟩
    rw [hbody, htype]
    simp only [Instance.push, Stmt.nestedBlock, Stmt.nested, Stmt.nestedBlock_append,
      List.mem_append, List.mem_cons]
    exact .inl (.inr (.inl (.inr (.inl (.inl rfl)))))

/-- Every call comes back to a state that its return address stands for. -/
theorem resume_lt {n : Nat} (hn : ∀ l j, (l, j) ∈ c.draft.resumes → j < n) {k : Nat}
    {owner : Option InstanceRef} {r : InstanceRef} {args : List Expr} {request : Int}
    {resume : Nat} (hk : (L.map (Site.map (resumeOf c.draft.resumes)))[k]? =
      some ⟨owner, .call r args request resume⟩) : resume < n := by
  rw [List.getElem?_map] at hk
  obtain ⟨⟨owner', role⟩, hsite, hmap⟩ := Option.map_eq_some_iff.mp hk
  cases role with
  | idle | plain | ret => simp [Site.map, Role.map] at hmap
  | call r' args' request' link =>
    have hlt : k < c.draft.machine.states.size :=
      h.code.size ▸ (List.getElem?_eq_some_iff.mp hsite).1
    obtain ⟨inst, -, -, -, -, -, hclosed⟩ :=
      h.code.sites k _ _ hsite (Array.getElem?_eq_getElem hlt)
    obtain ⟨entry, skip, back, -, hmem, -⟩ := hclosed List.not_mem_nil
    have hback : resumeOf c.draft.resumes link = resume := by
      simp only [Site.map, Role.map, Site.mk.injEq, Role.call.injEq] at hmap
      exact hmap.2.2.2.2
    rw [← hback, resumeOf_mem h.code.resumes_unique hmem]
    exact hn link back hmem

/-- The processes of its machine come after those of the session. -/
theorem added (a : Addition) : ∃ next, q.machine.nextBody = .ok next ∧
    (s'.module.add a).processes.toList =
      s.module.processes.toList ++ q.machine.processes next ++ a.processes := by
  obtain ⟨-, hm, next, hbody, -, hproc⟩ := Machine.build_ok h.build
  refine ⟨next, by rw [hm, Machine.nextBody_built, hbody], ?_⟩
  rw [h.processes] at hproc
  rw [Module.add, Array.toList_append, hproc, hm]
  rfl

omit h in
theorem hosts (a : Addition)
    (ha : ∀ p ∈ a.processes, ∀ d ∈ q.made s'.functions, d ∉ Stmt.blockDests p.body) :
    Hosts q s' (s'.module.add a) := by
  refine ⟨s'.module.add_grows a, ⟨a.links, by simp [Module.add]⟩, fun p hp => ha p ?_⟩
  rw [Module.add, Array.toList_append, List.drop_left' (Array.length_toList ..)] at hp
  simpa using hp

end

/-- Where the program names no state code, another encoding leads to the same draft. -/
theorem reencoded {e : Encoding} {L' : List (Site LinkId)} {c' : Context} {q' : Sequencer}
    {s'' : Session} (h : Built s opts body L c q s')
    (h' : Built s { opts with encoding := e } body L' c' q' s'')
    (hx : ∀ x ∈ body, x.Uncoded (s.scope.functions.map Prod.fst)) :
    c'.draft = c.draft.reencode e ∧ c'.session.functions = c.session.functions ∧
      c'.session.module.symbols.signals = c.session.module.symbols.signals ∧
      c'.session.module.symbols.types = c.session.module.symbols.types ∧
      ∀ l, (∀ j, (l, j) ∉ c.draft.resumes) →
        c'.session.module.symbols.links[l]? = c.session.module.symbols.links[l]? := by
  obtain ⟨c₁, hrun, hd, hf, -, hs, ht, -, -, hl⟩ := h.prepared
  obtain ⟨c₂, hrun', hd', hf', -, hs', ht', -, -, hl'⟩ := h'.prepared
  have hstart : (draft s opts).session.Uncoded s.functions.size
      (s.scope.functions.map Prod.fst) := by
    refine ⟨le_refl _, fun p hp hne => absurd (List.mem_map_of_mem hp) hne, fun fn f hb hfn => ?_⟩
    exact absurd (Array.getElem?_eq_some_iff.mp hfn).1 (Nat.not_lt.mpr hb)
  have hdraft : draft s { opts with encoding := e } = (draft s opts).reencode e := rfl
  have hblind := ((Blind.prepare (v := ⟨_, _, e⟩) opts hx).run _ hstart).1
  rw [hrun, ← hdraft] at hblind
  obtain rfl : c₂ = c₁.reencode e := by
    have hok := hrun'.symm.trans hblind
    simpa [reencodeEnd] using hok
  refine ⟨hd'.trans (congrArg (Draft.reencode e) hd.symm), hf'.trans hf.symm, hs'.trans hs.symm,
    ht'.trans ht.symm, fun l hfree => ?_⟩
  rw [hd] at hfree
  exact (hl' l hfree).trans (hl l hfree).symm

/-- No state leads past the last one, and every return address stands for a state. -/
theorem sealed_of_terminate {init : List Command}
    (h : Built s opts (init ++ [.terminate]) L c q s')
    (hacc : Accepted s opts (init ++ [.terminate]) q s') : q.machine.Sealed ∧
      ∀ l j, (l, j) ∈ c.draft.resumes → j < q.machine.size := by
  obtain ⟨c₁, hrun, hd, -⟩ := h.prepared
  have hbody : ∀ x ∈ init ++ [.terminate], (Env.knowing s opts (init ++ [.terminate]) q s').Tame
      false x := fun x hx => hacc.tame hx
  obtain ⟨hsealed, hresumes⟩ := Ensures.prepare_sealed hacc.closed opts hbody _ _ hrun
  rw [h.machine, hd]
  exact ⟨⟨hsealed.targets, hsealed.falls⟩, hresumes⟩

/-- The signal has the type of state codes, also with something added to the module. -/
theorem coded (h : Built s opts body L c q s') (a : Addition) :
    ∀ d ∈ q.codes s'.functions, (s'.module.add a).symbols.isCoded q.machine.coding d = true := by
  have hgrows := s'.module.add_grows a
  have hcoded : ∀ {d : SignalId} {x : Signal}, s'.module.symbols.signals[d]? = some x →
      x.type = some q.machine.type →
      (s'.module.add a).symbols.isCoded q.machine.coding d = true := by
    intro d x hx ht
    rw [Symbols.isCoded, hgrows.signal hx, Option.any_some, ht]
    exact beq_self_eq_true _
  have htype : q.machine.type = (draft s opts).draft.machine.type := h.alike.type
  intro d hd
  rcases List.mem_cons.mp hd with rfl | hd
  · obtain ⟨x, hx, ht, -⟩ := h.world.current
    refine hcoded (x := x) ?_ (ht.trans (congrArg some htype.symm))
    rw [h.symbols, h.alike.current]
    exact hx
  · rcases List.mem_cons.mp hd with rfl | hd
    · obtain ⟨x, hx, ht, -⟩ := h.world.next
      refine hcoded (x := x) ?_ (ht.trans (congrArg some htype.symm))
      rw [h.symbols, h.alike.next]
      exact hx
    · obtain ⟨inst, hinst, rfl⟩ := List.mem_map.mp hd
      obtain ⟨r, hr⟩ := Sequencer.mem_instances.mp hinst
      obtain ⟨x, hx, ht⟩ := (h.stacked hr).address
      exact hcoded hx ht

/-- The symbols of the two builds differ in state codes alone. -/
theorem recoded {e : Encoding} {L' : List (Site LinkId)} {c' : Context} {q' : Sequencer}
    {s'' : Session} (h : Built s opts body L c q s')
    (h' : Built s { opts with encoding := e } body L' c' q' s'')
    (hx : ∀ x ∈ body, x.Uncoded (s.scope.functions.map Prod.fst)) :
    s'.module.symbols.Recoded q.machine.coding s''.module.symbols ∧
      s''.module.symbols.types.size = s'.module.symbols.types.size ∧
      s''.module.symbols.links.size = s'.module.symbols.links.size := by
  obtain ⟨hdraft, -, hsignals, htypes, hlinks⟩ := h.reencoded h' hx
  have htype : q'.machine.type = q.machine.type := h'.alike.type.trans h.alike.type.symm
  have hother : ∀ l ∉ q.machine.coding.links,
      c'.session.module.symbols.links[l]? = c.session.module.symbols.links[l]? :=
    fun l hl => hlinks l fun j hj => hl (h.link_mem hj)
  have hresumes : c'.draft.resumes = c.draft.resumes := (congrArg Draft.resumes hdraft :)
  -- every return address is filled in on both sides
  have hsome : ∀ l : LinkId,
      s''.module.symbols.links[l]? = none ↔ s'.module.symbols.links[l]? = none := by
    intro l
    by_cases hl : ∃ j, (l, j) ∈ c.draft.resumes
    · obtain ⟨j, hj⟩ := hl
      rw [h.links hj, h'.links (hresumes ▸ hj)]
      exact iff_of_false (Option.some_ne_none _) (Option.some_ne_none _)
    · rw [h.symbols, h'.symbols]
      exact (congrArg (· = none) (hlinks l (not_exists.mp hl))).to_iff
  refine ⟨⟨?_, fun t ht => ?_, fun l hl => ?_⟩, ?_, ?_⟩
  · rw [h.symbols, h'.symbols]
    exact hsignals
  · rw [h.symbols, h'.symbols, htype]
    have hne : q.machine.type ≠ t := Ne.symm ht
    simp only [Symbols.setType, htypes, Array.getElem?_setIfInBounds, if_neg hne]
  · rw [h.symbols, h'.symbols]
    exact hother l hl
  · rw [h.symbols, h'.symbols]
    simp [Symbols.setType, htypes]
  · refine le_antisymm (Array.getElem?_eq_none_iff.mp ?_) (Array.getElem?_eq_none_iff.mp ?_)
    · rw [hsome, Array.getElem?_eq_none_iff]
    · rw [← hsome, Array.getElem?_eq_none_iff]

end Built

/-- A program whose last command terminates it, built under both encodings in one module, to which
the same is then added. -/
theorem Accepted.twins {s s₁ s₂ : Session} {opts : Options} {init : List Command}
    {q q' : Sequencer} (h : Accepted s { opts with encoding := .binary } (init ++ [.terminate]) q s₁)
    (h' : Accepted s { opts with encoding := .oneHot } (init ++ [.terminate]) q' s₂)
    (hterms : ∀ x ∈ Command.withinAll (init ++ [.terminate]), ∀ t ∈ x.terms, t.isUncoded = true)
    (a : Addition) (ho : Oblivious q s₁.functions (s₁.module.add a).symbols
      (s.module.processes.toList ++ a.processes)) :
    q' = q.reencode .oneHot ∧ s₂.functions = s₁.functions ∧
      ∃ L, Twins (.terminate ∈ Command.innerAll (init ++ [.terminate])) q s₁.functions
        (s₁.module.add a) (s₂.module.add a) s.module.processes.toList a.processes L := by
  obtain ⟨L, c, hb⟩ := h.exists_built
  obtain ⟨L', c', hb'⟩ := h'.exists_built
  have hx : ∀ x ∈ init ++ [.terminate], x.Uncoded (s.scope.functions.map Prod.fst) :=
    fun x hx y hy => have hin := Command.mem_withinAll hx hy
      ⟨h.structured y hin, hterms y hin, h.calls y hin⟩
  obtain ⟨hdraft, hfs, -⟩ := hb.reencoded hb' hx
  have hq : q' = q.reencode .oneHot := by
    have hname : q'.name = q.name := by rw [hb'.name, hb.name, hdraft]; rfl
    have hmachine : q'.machine = q.machine.reencode .oneHot := by
      rw [hb'.machine, hb.machine, hdraft]
      rfl
    have hrun : q'.run = q.run := by rw [hb'.run, hb.run, hdraft]; rfl
    have hown : q'.functions = q.functions := by rw [hb'.own, hb.own, hdraft]; rfl
    calc q' = ⟨q'.name, q'.machine, q'.run, q'.functions⟩ := rfl
      _ = q.reencode .oneHot := by
        rw [hname, hmachine, hrun, hown]
        rfl
  have hfunctions : s₂.functions = s₁.functions :=
    hb'.functions.trans (hfs.trans hb.functions.symm)
  have hresumes : c'.draft.resumes = c.draft.resumes := (congrArg Draft.resumes hdraft :)
  obtain ⟨hsealed, hlt⟩ := hb.sealed_of_terminate h
  obtain ⟨hrecoded, htypes, hlinks⟩ := hb.recoded hb' hx
  have hfree : ∀ p ∈ a.processes, ∀ d ∈ q.made s₁.functions, d ∉ Stmt.blockDests p.body :=
    fun p hp d hd => ho.assigns p (List.mem_append_right _ hp) d (List.mem_cons_of_mem _ hd)
  have hM : Hosts q s₁ (s₁.module.add a) := Built.hosts a hfree
  have hM' : Hosts q' s₂ (s₂.module.add a) := Built.hosts a (by rw [hq, hfunctions]; exact hfree)
  subst hq
  refine ⟨rfl, hfunctions, L.map (Site.map (resumeOf c.draft.resumes)), ?_⟩
  obtain ⟨-, -, hg⟩ := h.grounded hM
  obtain ⟨-, -, hg'⟩ := h'.grounded hM'
  rw [hfunctions] at hg'
  exact {
    binary := (congrArg Machine.encoding hb.alike :)
    grounded := hg
    grounded' := hg'
    plan := hb.plan.grow hM.links
    plan' := (hb.plan_reencode fun l j hl => hb'.links (hresumes ▸ hl)).grow hM'.links
    closed := hsealed
    resumes := fun k owner r args request resume hk => hb.resume_lt hlt hk
    symbols := hrecoded.add htypes hlinks a
    coded := hb.coded a
    wire := by
      obtain ⟨x, hx, -, hkind⟩ := hb.world.next
      refine ⟨x, hM.grows.signal ?_, hkind⟩
      rw [hb.symbols, hb.alike.next]
      exact hx
    flag := by
      obtain ⟨x, hx, hkind⟩ := hb.world.flag
      refine ⟨x, hM.grows.signal ?_, hkind⟩
      rw [hb.symbols, hb.run, hb.code.run]
      exact hx
    processes := hb.added a
    processes' := hb'.added a
    oblivious := ho }

end Program

end Lockstep
