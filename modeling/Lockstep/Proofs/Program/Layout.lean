import Lockstep.Proofs.Program.Advance

/-!
# The layout of a program

Every state of a program belongs to the body of one instance, or to no body at all. Within a body
control passes from state to state; it enters another body through a call state only, and leaves
its own through a return state, or for the end state. Jumps are added to states long after
these were made, and calls are completed only after the body of the callee has been elaborated, so
a layout is stated for a program that is still growing: the place after the last state stands for
the state to come.
-/

namespace Lockstep

/-- The index that a target is written with. -/
def Target.place? : Target Expr → Option Int
  | .state id => some id
  | .after id => some (id + 1)
  | .named _ | .computed _ => none

namespace Program

variable {ρ : Type}
variable {a b : Instance} {r : InstanceRef} {f f' : Machine} {k : Nat} {cur o : Option InstanceRef}

/-- What a state does to the stacks. -/
inductive Role (ρ : Type) where
  /-- Nothing, and nothing else either: waits for the run flag. -/
  | idle
  /-- Nothing. -/
  | plain
  /-- Pushes a call that asks for a depth; `back` tells where it comes back to. -/
  | call (callee : InstanceRef) (args : List Expr) (request : Int) (back : ρ)
  /-- Returns from the body that the state belongs to. -/
  | ret

structure Site (ρ : Type) where
  /-- The instance whose body the state belongs to. -/
  owner : Option InstanceRef
  role : Role ρ

/-- The test of a call for room on the stack. -/
def Instance.roomTest (inst : Instance) : Expr := .cmp .ult (.ref inst.sp) (.ref inst.depth)

/-- The whole body of a call state. -/
def Instance.push (inst : Instance) (code : TypeId) (args : List Expr) (link : LinkId) : Statement :=
  .cond inst.roomTest
    (((inst.args.zip args).map fun (mem, a) => Stmt.assign mem (some (.ref inst.sp)) a) ++
      [.assign inst.returnAddr (some (.ref inst.sp)) (.lit (.link link) (some code)),
       .assign inst.sp none (.plus (.ref inst.sp) (.const 1 (some inst.spType)))]) []

/-- What a return state does last. -/
def Instance.pop (inst : Instance) : Statement := .assign inst.sp none (stackTop inst)

/-- The jump of a return state. -/
def Instance.leave (inst : Instance) : Transition Expr :=
  .jump (.computed (.index inst.returnAddr (stackTop inst)))

/-- The way out of the end state, taken when the run flag is set. -/
def waitFor (run : SignalId) (k : Nat) : Transition Expr := .branch (.ref run) (.after k) (.state k)

theorem Instance.Same.roomTest (h : a.Same b) : b.roomTest = a.roomTest :=
  (congrArg Instance.roomTest h.eq :)

theorem Instance.Same.push (h : a.Same b) : b.push = a.push :=
  (congrArg Instance.push h.eq :)

theorem Instance.Same.pop (h : a.Same b) : b.pop = a.pop :=
  (congrArg Instance.pop h.eq :)

theorem Instance.Same.leave (h : a.Same b) : b.leave = a.leave :=
  (congrArg Instance.leave h.eq :)

theorem Instance.Same.args (h : a.Same b) : b.args = a.args :=
  (congrArg Instance.args h.eq :)

/-- State `j` belongs to `o`. The state that comes next will belong to `cur`. -/
def Reaches (L : List (Site ρ)) (cur : Option InstanceRef) (j : Nat) (o : Option InstanceRef) :
    Prop :=
  (∃ site, L[j]? = some site ∧ site.owner = o) ∨ (j = L.length ∧ cur = o)

theorem Reaches.le {L : List (Site ρ)} {j : Nat} (h : Reaches L cur j o) : j ≤ L.length := by
  rcases h with ⟨site, hs, -⟩ | ⟨rfl, -⟩
  · exact (List.getElem?_eq_some_iff.mp hs).1.le
  · exact le_refl _

/-- State `k` belongs to the body of `r`. -/
def Owns (L : List (Site ρ)) (k : Nat) (r : InstanceRef) : Prop :=
  ∃ site, L[k]? = some site ∧ site.owner = some r

/-- State `k` calls `r` and asks for a depth. -/
def Calls (L : List (Site ρ)) (k : Nat) (r : InstanceRef) (request : Int) : Prop :=
  ∃ owner args back, L[k]? = some ⟨owner, .call r args request back⟩

/-- A call of `r` that asks for this depth stands among the states that were made for the body of
`r`, which may not be complete. -/
def Asks (L : List (Site ρ)) (building : List InstanceRef) (r : InstanceRef) (request : Int) :
    Prop :=
  ∃ i k, i ≤ k ∧ Owns L i r ∧ Calls L k r request ∧ (r ∈ building ∨ ∃ j, k ≤ j ∧ Owns L j r)

theorem getElem?_concat {α : Type} {xs : List α} {x y : α} (h : (xs ++ [x])[k]? = some y) :
    (k < xs.length ∧ xs[k]? = some y) ∨ (k = xs.length ∧ x = y) := by
  rw [List.getElem?_append] at h
  split at h
  · next hlt => exact .inl ⟨hlt, h⟩
  · next hge =>
    obtain ⟨hlt, hy⟩ := List.getElem?_eq_some_iff.mp h
    rw [List.length_singleton] at hlt
    exact .inr ⟨by omega, by simpa using hy⟩

theorem Owns.of_concat {L : List (Site ρ)} {role : Role ρ} (h : Owns (L ++ [⟨o, role⟩]) k r) :
    Owns L k r ∨ (k = L.length ∧ o = some r) := by
  obtain ⟨site, hk, ho⟩ := h
  rcases getElem?_concat hk with ⟨-, hk⟩ | ⟨rfl, rfl⟩
  · exact .inl ⟨site, hk, ho⟩
  · exact .inr ⟨rfl, ho⟩

theorem Calls.of_concat {L : List (Site ρ)} {role : Role ρ} {request : Int}
    (h : Calls (L ++ [⟨o, role⟩]) k r request) :
    Calls L k r request ∨ (k = L.length ∧ ∃ args back, role = .call r args request back) := by
  obtain ⟨owner, args, back, hk⟩ := h
  rcases getElem?_concat hk with ⟨-, hk⟩ | ⟨rfl, hsite⟩
  · exact .inl ⟨owner, args, back, hk⟩
  · exact .inr ⟨rfl, args, back, (Site.mk.inj hsite).2⟩

theorem Calls.lt {L : List (Site ρ)} {request : Int} (h : Calls L k r request) : k < L.length := by
  obtain ⟨owner, args, back, hk⟩ := h
  exact (List.getElem?_eq_some_iff.mp hk).1

theorem Owns.lt {L : List (Site ρ)} (h : Owns L k r) : k < L.length := by
  obtain ⟨site, hk, -⟩ := h
  exact (List.getElem?_eq_some_iff.mp hk).1

theorem site_of_prefix {L L' : List (Site ρ)} (h : L <+: L') {site : Site ρ}
    (hk : L[k]? = some site) : L'[k]? = some site := by
  obtain ⟨more, hmore⟩ := h
  rw [← hmore, List.getElem?_append_left (List.getElem?_eq_some_iff.mp hk).1, hk]

section Growth

variable {L L' : List (Site ρ)} {building building' : List InstanceRef} {r : InstanceRef}
variable {request : Int}

theorem Owns.grow (h : L <+: L') {k : Nat} (hk : Owns L k r) : Owns L' k r := by
  obtain ⟨site, hsite, ho⟩ := hk
  exact ⟨site, site_of_prefix h hsite, ho⟩

theorem Calls.grow (h : L <+: L') {k : Nat} (hk : Calls L k r request) : Calls L' k r request := by
  obtain ⟨owner, args, back, hsite⟩ := hk
  exact ⟨owner, args, back, site_of_prefix h hsite⟩

/-- A body that is left has a state after all calls in it. -/
theorem Asks.grow (h : Asks L building r request) (hg : L <+: L')
    (hleft : r ∈ building → r ∉ building' → Owns L' (L'.length - 1) r) :
    Asks L' building' r request := by
  obtain ⟨i, k, hik, hown, hcall, hlater⟩ := h
  refine ⟨i, k, hik, hown.grow hg, hcall.grow hg, ?_⟩
  rcases hlater with hr | ⟨j, hkj, hj⟩
  · by_cases hr' : r ∈ building'
    · exact .inl hr'
    · have hlt := (hcall.grow hg).lt
      exact .inr ⟨L'.length - 1, by omega, hleft hr hr'⟩
  · exact .inr ⟨j, hkj, hj.grow hg⟩

/-- A new state adds no call to a body, unless it is one, made while the body is open. -/
theorem Asks.of_concat {o : Option InstanceRef} {role : Role ρ}
    (h : Asks (L ++ [⟨o, role⟩]) building' r request)
    (ho : ∀ r, o = some r → r ∈ building)
    (hnew : r ∈ building' → r ∈ building ∨ ∀ k, ¬ Owns (L ++ [⟨o, role⟩]) k r) :
    Asks L building r request ∨
      (r ∈ building ∧ ∃ args back, role = .call r args request back) := by
  obtain ⟨i, k, hik, hown, hcall, hlater⟩ := h
  have hopen : r ∈ building ∨ ∃ j, k ≤ j ∧ Owns L j r := by
    rcases hlater with hr | ⟨j, hkj, hj⟩
    · exact .inl ((hnew hr).resolve_right fun hno => hno i hown)
    · rcases hj.of_concat with hj | ⟨-, hcur⟩
      · exact .inr ⟨j, hkj, hj⟩
      · exact .inl (ho r hcur)
  rcases hcall.of_concat with hcall | ⟨rfl, hrole⟩
  · rcases hown.of_concat with hown | ⟨rfl, -⟩
    · exact .inl ⟨i, k, hik, hown, hcall, hopen⟩
    · exact absurd hcall.lt (Nat.not_lt.mpr hik)
  · refine .inr ⟨hopen.resolve_right ?_, hrole⟩
    rintro ⟨j, hkj, hj⟩
    exact absurd hj.lt (Nat.not_lt.mpr hkj)

end Growth

/-- The target is in the body of `o`, or the end state if bodies may be left for it. -/
def Lands (escapes : Prop) (L : List (Site ρ)) (cur o : Option InstanceRef) (a : Target Expr) :
    Prop :=
  ∃ j : Nat, a.place? = some (j : Int) ∧ ((escapes ∧ j = 0) ∨ Reaches L cur j o)

/-- Every way of the transition lands in the body of `o`, or in the end state. -/
def Leads (escapes : Prop) (L : List (Site ρ)) (cur o : Option InstanceRef)
    (t : Transition Expr) : Prop :=
  t.target.isSome = true ∧
    ∀ a, t.target = some a ∨ t.otherwise = some a → Lands escapes L cur o a

variable {escapes : Prop}

theorem Leads.jump {L : List (Site ρ)} {a : Target Expr} (ha : Lands escapes L cur o a) :
    Leads escapes L cur o (.jump a) := by
  refine ⟨rfl, fun b hb => ?_⟩
  rcases hb with hb | hb
  · cases hb
    exact ha
  · exact absurd hb (by simp [Transition.jump])

theorem Leads.fork {L : List (Site ρ)} (guard : Option Expr) {a b : Target Expr}
    (ha : Lands escapes L cur o a) (hb : Lands escapes L cur o b) :
    Leads escapes L cur o ⟨guard, some a, some b⟩ := by
  refine ⟨rfl, fun x hx => ?_⟩
  rcases hx with hx | hx
  · cases hx
    exact ha
  · cases hx
    exact hb

/-- State `k` is the call with this return address. -/
def CallsBy (L : List (Site LinkId)) (k : Nat) (link : LinkId) : Prop :=
  ∃ owner callee args request, L[k]? = some ⟨owner, .call callee args request link⟩

/-- What is known of the state of a site. A call in `opens` has not been completed yet. -/
def SiteOk (env : Env) (L : List (Site LinkId)) (cur : Option InstanceRef) (opens : List Nat)
    (fs : Array Function) (g : Symbols) (resumes : List (LinkId × Nat)) (k : Nat)
    (st : Machine.State) : Site LinkId → Prop
  | ⟨owner, .idle⟩ => st.body = [] ∧ st.gotos = [waitFor env.run k] ∧ Reaches L cur (k + 1) owner
  | ⟨owner, .plain⟩ =>
    (∀ i ∈ Stmt.blockDests st.body, env.Clean fs g i) ∧ Reaches L cur (k + 1) owner ∧
      ∀ t ∈ st.gotos, Leads env.escapes L cur owner t
  | ⟨owner, .call r args request link⟩ => ∃ inst, env.Has fs r inst ∧ args.length = inst.args.length ∧
    link < g.links.size ∧ st.body = [inst.push env.code args link] ∧ (k ∈ opens → st.gotos = []) ∧
    (k ∉ opens → ∃ entry skip resume : Nat,
      st.gotos = [.branch inst.roomTest (.state entry) (.state skip)] ∧
      (link, resume) ∈ resumes ∧ Reaches L cur entry (some r) ∧ Reaches L cur skip owner ∧
      Reaches L cur resume owner ∧ ∃ f, fs[r.function]? = some f ∧ env.requests f.name request ∧
        (f.overflow = none → resume = skip) ∧
        (f.overflow ≠ none → ∃ last, resume = last + 1 ∧ skip ≤ last ∧
          L[last]? = some ⟨owner, .plain⟩))
  | ⟨owner, .ret⟩ => ∃ r inst before, owner = some r ∧ env.Has fs r inst ∧
    st.body = before ++ [inst.pop] ∧ (∀ i ∈ Stmt.blockDests before, env.Clean fs g i) ∧
    st.gotos = [inst.leave]

/-- The states that a frame remembers are plain states of the body that it is in. -/
structure FrameOk (env : Env) (L : List (Site LinkId)) (cur : Option InstanceRef)
    (fs : Array Function) (g : Symbols) (owner : Option InstanceRef) (fr : Frame) : Prop where
  closedIf : ∀ y, fr.closedIf = some y → L[y]? = some ⟨owner, .plain⟩
  anchor : ∀ l, fr.loop = some l → Reaches L cur l.anchor owner
  exits : ∀ l, fr.loop = some l → ∀ k ∈ l.continues ++ l.breaks, L[k]? = some ⟨owner, .plain⟩
  advance : ∀ l st, fr.loop = some l → l.advance = some st → ∀ i ∈ st.dests, env.Clean fs g i

/-- Frames along the bodies that are open: the frame of a body is the outermost one in it. -/
def FramesOk (env : Env) (L : List (Site LinkId)) (cur : Option InstanceRef) (fs : Array Function)
    (g : Symbols) : List Frame → List InstanceRef → Prop
  | [], building => building = []
  | fr :: rest, building => FrameOk env L cur fs g building.head? fr ∧
    if fr.isBody then building ≠ [] ∧ FramesOk env L cur fs g rest building.tail
    else FramesOk env L cur fs g rest building

/-- The same machine, with other states, defaults and resets. -/
def Alike (f f' : Machine) : Prop :=
  f' = { f with
    defaults := f'.defaults
    onReset := f'.onReset
    states := f'.states
    built := f'.built
    fault := f'.fault }

theorem Alike.trans {f'' : Machine} (h : Alike f f') (h' : Alike f' f'') : Alike f f'' := by
  unfold Alike at h h' ⊢
  rw [h', h]

theorem Alike.type (h : Alike f f') : f'.type = f.type :=
  (congrArg Machine.type h :)

theorem Alike.current (h : Alike f f') : f'.current = f.current :=
  (congrArg Machine.current h :)

theorem Alike.next (h : Alike f f') : f'.next = f.next :=
  (congrArg Machine.next h :)

theorem Alike.fallback (h : Alike f f') : f'.fallback = f.fallback :=
  (congrArg Machine.fallback h :)

/-- The code of a draft. -/
structure Code (env : Env) (L : List (Site LinkId)) (cur : Option InstanceRef) (opens : List Nat)
    (fs : Array Function) (g : Symbols) (d : Draft) : Prop where
  alike : Alike env.machine d.machine
  run : d.run = env.run
  size : d.machine.states.size = L.length
  first : L[0]? = some ⟨none, .idle⟩
  sites : ∀ (k : Nat) site st, L[k]? = some site → d.machine.states[k]? = some st →
    SiteOk env L cur opens fs g d.resumes k st site
  opens_lt : ∀ k ∈ opens, k < L.length
  links : ∀ k k' l, CallsBy L k l → CallsBy L k' l → k = k'
  resumes : ∀ l j, (l, j) ∈ d.resumes → ∃ k, CallsBy L k l ∧ k ∉ opens
  resumes_unique : ∀ l j j', (l, j) ∈ d.resumes → (l, j') ∈ d.resumes → j = j'
  frames : FramesOk env L cur fs g d.frames d.building
  building : ∀ r ∈ d.building, ∃ inst, env.Has fs r inst
  here : ∀ r, cur = some r → r ∈ d.building
  owners : ∀ k r, Owns L k r → ∃ inst, env.Has fs r inst
  outer : ∀ r ∈ d.building.tail, ∃ k, Owns L k r
  functions : ∀ fn, fn ∈ d.functions ↔ env.base ≤ fn ∧ fn < fs.size

/-- The pending statements assign nothing that was made. -/
structure Pending (env : Env) (fs : Array Function) (g : Symbols) (b : Blocks) : Prop where
  outer : ∀ i ∈ Stmt.blockDests b.outer, env.Clean fs g i
  inner : ∀ block ∈ b.inner, ∀ i ∈ Stmt.blockDests block, env.Clean fs g i

/-- The statement clears a stack pointer, or a signal that was not made. -/
def Clears (env : Env) (fs : Array Function) (g : Symbols) (st : Statement) : Prop :=
  ∃ i t, st = .assign i none (.const 0 t) ∧
    (env.Clean fs g i ∨ ∃ r inst, env.Has fs r inst ∧ i = inst.sp)

/-- A reset clears every stack pointer, and neither it nor a default touches what was made
otherwise. -/
structure Resets (env : Env) (fs : Array Function) (g : Symbols) (f : Machine) : Prop where
  zero : ∀ st ∈ f.onReset, Clears env fs g st
  pointers : ∀ r inst, env.Has fs r inst → ∃ t, .assign inst.sp none (.const 0 t) ∈ f.onReset
  defaults : ∀ i ∈ Stmt.blockDests f.defaults, env.Clean fs g i

/-- What holds throughout the elaboration of a program, also when an instance is new and its body
has no place yet. -/
structure Laid (env : Env) (L : List (Site LinkId)) (opens : List Nat) (c : Context) : Prop where
  world : World env c.session.functions c.session.module c.session.scope
  code : Code env L c.draft.building.head? opens c.session.functions c.session.module.symbols
    c.draft
  pending : Pending env c.session.functions c.session.module.symbols c.draft.blocks
  resets : Resets env c.session.functions c.session.module.symbols c.draft.machine

/-- What holds between the commands of a program: every instance has its body in place. -/
structure Inv (env : Env) (L : List (Site LinkId)) (opens : List Nat) (c : Context) : Prop
    extends Laid env L opens c where
  entries : ∀ r inst, env.Has c.session.functions r inst →
    Reaches L c.draft.building.head? inst.entry (some r)

/-! ## Growing layouts -/

section Transport

variable {env : Env} {L L' : List (Site LinkId)} {cur cur' : Option InstanceRef}
variable {fs fs' : Array Function} {g g' : Symbols}

/-- A layout that goes on: sites stay, and what was reached is still reached. -/
structure Goes (env : Env) (L L' : List (Site LinkId)) (cur cur' : Option InstanceRef)
    (fs fs' : Array Function) (g g' : Symbols) : Prop where
  sites : ∀ (k : Nat) site, L[k]? = some site → L'[k]? = some site
  reaches : ∀ j o, Reaches L cur j o → Reaches L' cur' j o
  widens : Widens env fs fs' g g'

/-- The next state takes the place after the last one; what comes after it may belong to another
body. -/
theorem Goes.snoc (role : Role LinkId) : Goes env L (L ++ [⟨cur, role⟩]) cur cur' fs fs g g where
  sites k site hk := by
    rw [List.getElem?_append_left (List.getElem?_eq_some_iff.mp hk).1, hk]
  reaches j o hj := by
    rcases hj with ⟨site, hs, ho⟩ | ⟨rfl, rfl⟩
    · refine .inl ⟨site, ?_, ho⟩
      rw [List.getElem?_append_left (List.getElem?_eq_some_iff.mp hs).1, hs]
    · exact .inl ⟨⟨cur, role⟩, by simp, rfl⟩
  widens := .refl

theorem Goes.of_widens (h : Widens env fs fs' g g') : Goes env L L cur cur fs fs' g g' :=
  ⟨fun _ _ h => h, fun _ _ h => h, h⟩

theorem Leads.go (h : Goes env L L' cur cur' fs fs' g g') {o : Option InstanceRef}
    {t : Transition Expr} (ht : Leads escapes L cur o t) : Leads escapes L' cur' o t := by
  refine ⟨ht.1, fun a ha => ?_⟩
  obtain ⟨j, hj, hr⟩ := ht.2 a ha
  exact ⟨j, hj, hr.imp_right (h.reaches j o)⟩

theorem SiteOk.go (h : Goes env L L' cur cur' fs fs' g g') {opens opens' : List Nat}
    {resumes resumes' : List (LinkId × Nat)} {k : Nat} {st : Machine.State} {site : Site LinkId}
    (hopens : k ∈ opens' ↔ k ∈ opens) (hresumes : ∀ x ∈ resumes, x ∈ resumes')
    (hs : SiteOk env L cur opens fs g resumes k st site) :
    SiteOk env L' cur' opens' fs' g' resumes' k st site := by
  obtain ⟨owner, role⟩ := site
  cases role with
  | idle =>
    obtain ⟨hbody, hgotos, hnext⟩ := hs
    exact ⟨hbody, hgotos, h.reaches _ _ hnext⟩
  | plain =>
    obtain ⟨hbody, hnext, hgotos⟩ := hs
    exact ⟨fun i hi => h.widens.clean (hbody i hi), h.reaches _ _ hnext,
      fun t ht => (hgotos t ht).go h⟩
  | call r args request link =>
    obtain ⟨inst, hi, hlen, hlink, hbody, hopen, hclosed⟩ := hs
    obtain ⟨inst', hi', hsame⟩ := h.widens.instances r inst hi
    refine ⟨inst', hi', by rw [hsame.args]; exact hlen, hlink.trans_le h.widens.links,
      by rw [hsame.push]; exact hbody, fun hk => hopen (hopens.mp hk), fun hk => ?_⟩
    obtain ⟨entry, skip, resume, hgotos, hmem, hentry, hskip, hresume, f, hf, hreq, hnone,
      hsome⟩ := hclosed fun hx => hk (hopens.mpr hx)
    obtain ⟨f', hf', ho, hname⟩ := h.widens.handlers r.function f hi.1 hf
    refine ⟨entry, skip, resume, by rw [hsame.roomTest]; exact hgotos, hresumes _ hmem,
      h.reaches _ _ hentry, h.reaches _ _ hskip, h.reaches _ _ hresume, f', hf',
      by rw [hname]; exact hreq, by rw [ho]; exact hnone, fun hne => ?_⟩
    obtain ⟨last, hlast, hle, hsite⟩ := hsome (by rwa [ho] at hne)
    exact ⟨last, hlast, hle, h.sites _ _ hsite⟩
  | ret =>
    obtain ⟨r, inst, before, ho, hi, hbody, hbefore, hgotos⟩ := hs
    obtain ⟨inst', hi', hsame⟩ := h.widens.instances r inst hi
    exact ⟨r, inst', before, ho, hi', by rw [hsame.pop]; exact hbody,
      fun i hx => h.widens.clean (hbefore i hx), by rw [hsame.leave]; exact hgotos⟩

theorem FrameOk.go (h : Goes env L L' cur cur' fs fs' g g') {o : Option InstanceRef} {fr : Frame}
    (hf : FrameOk env L cur fs g o fr) : FrameOk env L' cur' fs' g' o fr where
  closedIf y hy := h.sites _ _ (hf.closedIf y hy)
  anchor l hl := h.reaches _ _ (hf.anchor l hl)
  exits l hl k hk := h.sites _ _ (hf.exits l hl k hk)
  advance l st hl hst i hi := h.widens.clean (hf.advance l st hl hst i hi)

theorem FramesOk.go (h : Goes env L L' cur cur' fs fs' g g') {frames : List Frame}
    {building : List InstanceRef} (hf : FramesOk env L cur fs g frames building) :
    FramesOk env L' cur' fs' g' frames building := by
  induction frames generalizing building with
  | nil => exact hf
  | cons fr rest ih =>
    obtain ⟨hfr, hrest⟩ := hf
    refine ⟨hfr.go h, ?_⟩
    split at hrest
    · next hb =>
      rw [if_pos hb]
      exact ⟨hrest.1, ih hrest.2⟩
    · next hb =>
      rw [if_neg hb]
      exact ih hrest

theorem Pending.widen (h : Widens env fs fs' g g') {b : Blocks} (hp : Pending env fs g b) :
    Pending env fs' g' b :=
  ⟨fun i hi => h.clean (hp.outer i hi), fun block hb i hi => h.clean (hp.inner block hb i hi)⟩

theorem Clears.widen (h : Widens env fs fs' g g') {st : Statement} (hst : Clears env fs g st) :
    Clears env fs' g' st := by
  obtain ⟨i, t, rfl, hi | ⟨r, inst, hi, rfl⟩⟩ := hst
  · exact ⟨i, t, rfl, .inl (h.clean hi)⟩
  · obtain ⟨inst', hi', hs⟩ := h.instances r inst hi
    exact ⟨inst.sp, t, rfl, .inr ⟨r, inst', hi', hs.sp.symm⟩⟩

end Transport

end Program

end Lockstep
