import Lockstep.Proofs.Program.Tracking

/-!
# Elaboration accepts the well-nested programs

A program without functions that can be read is elaborated to the end exactly if it breaks none of
the rules of nesting, and it fails for a rule that it breaks. The scan of the rules runs beside the
elaboration of the commands. What is left for the build of the machine is to find the targets that
were named.
-/

namespace Lockstep.Program

variable {lo n : Nat} {inner : Bool} {outer : List (Bool × Bool)} {σ : Scan} {d : Draft}
variable {c r : Context} {P : Context → Prop} {s : Except Rule Scan}

/-! ## Commands -/

mutual

/-- The command calls no function and reaches nothing past the program; labels have names. -/
def Command.isPlain : Command → Bool
  | .when _ thn els => arePlain thn && arePlain els
  | .ifThen _ body | .orElse body | .whileLoop _ body | .loop body | .count _ _ body
  | .times _ _ body | .each _ _ _ body => arePlain body
  | .label name => name != ""
  | .define .. | .call .. | .callDepth .. | .resize .. | .stateBody .. | .stateGoto .. | .newState _
  | .buildMachine => false
  | _ => true

def Command.arePlain : List Command → Bool
  | [] => true
  | x :: rest => x.isPlain && arePlain rest

end

theorem Tracks.declareBound (hb : Beside c r) (h : View lo n inner outer σ c.draft)
    {command name : String} {f : Module → SignalId × Module}
    (hr : Yields (Program.declareBound command name f) r fun _ => P) :
    Tracks (Program.declareBound command name f) c (.ok σ)
      fun _ => Led lo n inner outer P := by
  simp only [Program.declareBound, yields_bind, yields_declare, yields_modifyScope,
    yields_getSymbols, yields_record] at hr
  refine .of_yields ?_
  simp only [Program.declareBound, yields_bind, yields_declare, yields_modifyScope,
    yields_getSymbols, yields_record]
  refine ⟨h, _, ?_, hr⟩
  exact { hb with
    module_eq := congrArg (fun m => (f m).2) hb.module_eq
    scope_eq := by simp only [hb.scope_eq, hb.module_eq] }

theorem Tracks.emit (hb : Beside c r) (h : View lo n inner outer σ c.draft) (hP : P r)
    (st : Statement) : Tracks (Program.emit st) c (.ok (σ.emit (0 < n)))
      fun _ => Led lo n inner outer P :=
  .of_yields (yields_emit.mpr ⟨h.emit st, r, hb.redraft rfl rfl rfl, hP⟩)

theorem Tracks.when {thn els : ElabM Unit} {xs ys : List Shape} (vels : ElabM Unit)
    (hb : Beside c r) (h : View lo n inner outer σ c.draft)
    (hthn : ∀ c, View lo (n + 1) inner outer σ c.draft → Beside c r →
      Tracks thn c (Shape.scanAll (looped inner outer) true σ xs)
        fun _ c' σ' => Led lo (n + 1) inner outer (fun r => Yields vels r fun _ => P) c' σ')
    (hels : ∀ σ c r, View lo (n + 1) inner outer σ c.draft → Beside c r →
      Yields vels r (fun _ => P) →
      Tracks els c (Shape.scanAll (looped inner outer) true σ ys)
        fun _ c' σ' => Led lo (n + 1) inner outer P c' σ') (test : Expr) : Tracks (do
      openBlock
      thn
      let thn ← closeBlock
      openBlock
      els
      let els ← closeBlock
      Program.emit (.cond test thn els)) c ((Shape.when xs ys).scan (looped inner outer) (0 < n) σ)
      fun _ => Led lo n inner outer P := by
  rw [Shape.scan]
  refine .skip (yields_openBlock.mpr (.bind (.mono (hthn _ h.enter (hb.redraft rfl rfl rfl)) ?_)))
  rintro - c₁ σ₁ ⟨hv₁, r₁, hb₁, hP₁⟩
  refine .skip (yields_closeBlock.mpr (.skip (yields_openBlock.mpr ?_)))
  refine .bind (.mono (hels _ _ _ hv₁.leave.enter (hb₁.redraft rfl rfl rfl) hP₁) ?_)
  rintro - c₂ σ₂ ⟨hv₂, r₂, hb₂, hP₂⟩
  refine .skip (yields_closeBlock.mpr ?_)
  refine .emit (hb₂.redraft ?_ ?_ ?_) hv₂.leave hP₂ _
  iterate 3 rfl

/-- The index of an enumerator gets its names before the body is elaborated. -/
theorem Tracks.bound {body vbody : ElabM Unit} {name : Option String} {e : Expr}
    {Q : Unit → Context → Scan → Prop} (hb : Beside c r)
    (hr : Yields (do bindVar name e; vbody) r fun _ => P)
    (hbody : ∀ sc, Beside (c.withScope sc) (r.withScope sc) →
      Yields vbody (r.withScope sc) (fun _ => P) → Tracks body (c.withScope sc) s Q) :
    Tracks (do bindVar name e; body) c s Q := by
  simp only [bindVar, yields_bind, yields_modifyScope] at hr
  refine .skip (yields_modifyScope.mpr ?_)
  rw [hb.scope_eq]
  exact hbody _ (hb.withScope _) hr

theorem Tracks.times {body vbody : Expr → ElabM Unit} {xs : List Shape} {k : UInt64}
    (hb : Beside c r) (h : View lo n inner outer σ c.draft)
    (hr : Yields (do visitCount (← exactNumber k) vbody) r fun _ => P)
    (hbody : ∀ i lo σ c r, View lo n true ((inner, false) :: outer) σ c.draft → Beside c r →
      Yields (vbody i) r (fun _ => P) → Tracks (body i) c (Shape.scanAll true (0 < n) σ xs)
        fun _ c' σ' => Led lo n true ((inner, false) :: outer) P c' σ') :
    Tracks (Program.times k body) c ((Shape.loop xs).scan (looped inner outer) (0 < n) σ)
      fun _ => Led lo n inner outer P := by
  simp only [exactNumber, yields_bind, yields_getSymbols, yields_modifyModule, yields_pure] at hr
  rw [Program.times, exactNumber]
  refine .skip ?_
  simp only [yields_bind, yields_getSymbols, yields_modifyModule, yields_pure, hb.module_eq]
  refine .count ?_ h hr hbody
  exact { hb with module_eq := rfl }

mutual

/-- A command that can be read is elaborated as far as its scan goes. -/
theorem tracks_perform (call : Caller) : ∀ (x : Command), x.isPlain = true →
    ∀ {lo n : Nat} {inner : Bool} {outer : List (Bool × Bool)} {σ : Scan} {c r : Context}
      {P : Context → Prop}, Beside c r → View lo n inner outer σ c.draft →
      Yields (visit x) r (fun _ => P) →
      Tracks (perform call x) c (x.shape.scan (looped inner outer) (0 < n) σ)
        fun _ => Led lo n inner outer P
  | .reg name t, _ => fun hb h hr => .declareBound hb h hr
  | .memory name t depth, _ => fun hb h hr => .declareBound hb h hr
  | .assign dest value, _ => fun hb h hr => by
    rw [perform]
    simp only [visit, yields_bind, yields_pure] at hr
    refine .skip (hb.resolveSignal hr fun i m hr => ?_)
    refine .skip ((hb.withModule m).resolve hr fun e m' hr => ?_)
    exact .emit ((hb.withModule m).withModule m') h hr _
  | .assignAt dest index value, _ => fun hb h hr => by
    rw [perform]
    simp only [visit, yields_bind, yields_pure] at hr
    refine .skip (hb.resolveSignal hr fun i m hr => ?_)
    have hb := hb.withModule m
    refine .skip (hb.resolve hr fun e m hr => ?_)
    refine .skip ((hb.withModule m).resolve hr fun e' m' hr => ?_)
    exact .emit ((hb.withModule m).withModule m') h hr _
  | .when test thn els, hx => fun hb h hr => by
    rw [Command.isPlain, Bool.and_eq_true] at hx
    rw [perform]
    simp only [visit, yields_bind] at hr
    refine .skip (hb.resolve hr fun e m hr => ?_)
    refine .when (visitAll els) (hb.withModule m) h (fun c hv hb => ?_) (fun σ c r hv hb hr => ?_) e
    · simpa using tracks_performAll call thn hx.1 hb hv hr
    · simpa using tracks_performAll call els hx.2 hb hv hr
  | .step, _ => fun hb h hr => by
    rw [perform]
    exact .recordState (.cutOnly hb h hr) "step"
  | .ifThen test body, hx => fun hb h hr => by
    rw [Command.isPlain] at hx
    rw [perform]
    simp only [visit, yields_bind] at hr
    refine .skip (hb.resolve hr fun e m hr => .recordState ?_ "if")
    refine .ifThen (hb.withModule m) h (fun lo c hv hb => ?_) e
    simpa [looped] using tracks_performAll call body hx hb hv hr
  | .orElse body, hx => fun hb h hr => by
    rw [Command.isPlain] at hx
    rw [perform]
    rw [visit] at hr
    refine .recordState (.orElse hb h fun lo c hv hb => ?_) "else"
    simpa [looped] using tracks_performAll call body hx hb hv hr
  | .whileLoop test body, hx => fun hb h hr => by
    rw [Command.isPlain] at hx
    rw [perform]
    simp only [visit, yields_bind] at hr
    refine .skip (hb.resolve hr fun e m hr => .recordState ?_ "while")
    exact .loop (hb.withModule m) h
      (fun lo c hv hb => tracks_performAll call body hx hb hv hr) _ _ _
  | .loop body, hx => fun hb h hr => by
    rw [Command.isPlain] at hx
    rw [perform]
    rw [visit] at hr
    refine .recordState ?_ "loop"
    exact .loop hb h (fun lo c hv hb => tracks_performAll call body hx hb hv hr) _ _ _
  | .breakLoop, _ => fun hb h hr => by
    rw [perform]
    exact .recordState (.breakLoop hb h hr) "break"
  | .nextRound, _ => fun hb h hr => by
    rw [perform]
    exact .recordState (.nextRound hb h hr) "continue"
  | .terminate, _ => fun hb h hr => by
    rw [perform]
    exact .recordState (.terminate hb h hr) "terminate"
  | .label name, hx => fun hb h hr => by
    rw [perform]
    exact .label hb h hr (by simpa [Command.isPlain] using hx)
  | .goto name, _ => fun hb h hr => by
    rw [perform]
    exact .recordState (.goto hb h hr name) "goto"
  | .count limit index body, hx => fun hb h hr => by
    rw [Command.isPlain] at hx
    rw [perform]
    simp only [visit, yields_bind] at hr
    refine .skip (hb.resolve hr fun e m hr => .recordState ?_ "for")
    refine .count (hb.withModule m) h hr fun i lo σ c r hv hb hr => .bound hb hr ?_
    exact fun sc hb hr => tracks_performAll call body hx hb hv hr
  | .times k index body, hx => fun hb h hr => by
    rw [Command.isPlain] at hx
    rw [perform]
    rw [visit] at hr
    refine .recordState (.times hb h hr fun i lo σ c r hv hb hr => .bound hb hr ?_) "times"
    exact fun sc hb hr => tracks_performAll call body hx hb hv hr
  | .each mem word index body, hx => fun hb h hr => by
    rw [Command.isPlain] at hx
    rw [perform]
    rw [visit, yields_bind] at hr
    refine .skip (hb.resolveSignal hr fun i m hr => ?_)
    have hb := hb.withModule m
    refine .skip (yields_getSymbols.mpr (.recordState ?_ "each"))
    rw [yields_bind, yields_getSymbols] at hr
    refine .times hb h hr fun i lo σ c r hv hb hr => .bound hb hr fun sc hb hr => ?_
    exact .bound hb hr fun sc' hb hr => tracks_performAll call body hx hb hv hr
  | .ret value, _ => fun hb h hr => by
    rw [perform]
    simp only [visit, yields_bind, yields_pure] at hr
    refine .skip (hb.resolve hr fun e m hr => ?_)
    rw [recordState, returnFrom]
    simp only [bind_assoc]
    refine .skip (yields_getDraft.mpr ?_)
    rw [show (Context.withModule _ m).draft.building = [] from h.building]
    exact .fail_bind rfl
  | .bind name value, _ => fun hb h hr => by
    rw [perform]
    simp only [visit, yields_bind] at hr
    refine .skip (hb.resolve hr fun e m hr => .of_yields ?_)
    simp only [bindVar, yields_modifyScope] at hr ⊢
    refine ⟨h, _, ?_, hr⟩
    exact { hb.withModule m with scope_eq := congrArg (·.bindVar? (some name) e) hb.scope_eq }
  | .probe value, _ => fun hb h hr => by
    rw [perform]
    simp only [visit, yields_bind, yields_getSymbols, yields_require, yields_pure] at hr
    refine .skip (hb.resolve hr fun e m hr => ?_)
    obtain ⟨shown, hs, hP⟩ := hr
    refine .of_yields ?_
    simp only [yields_bind, yields_getSymbols, yields_require, yields_record]
    exact ⟨shown, hs, h, _, (hb.withModule m).redraft rfl rfl rfl, hP⟩
  | .define .., hx | .call .., hx | .callDepth .., hx | .resize .., hx | .stateBody .., hx
  | .stateGoto .., hx | .newState _, hx | .buildMachine, hx => absurd hx Bool.false_ne_true

theorem tracks_performAll (call : Caller) : ∀ (xs : List Command), Command.arePlain xs = true →
    ∀ {lo n : Nat} {inner : Bool} {outer : List (Bool × Bool)} {σ : Scan} {c r : Context}
      {P : Context → Prop}, Beside c r → View lo n inner outer σ c.draft →
      Yields (visitAll xs) r (fun _ => P) →
      Tracks (performAll call xs) c
        (Shape.scanAll (looped inner outer) (0 < n) σ (Command.shapes xs))
        fun _ => Led lo n inner outer P
  | [], _ => fun hb h hr => .of_yields (yields_pure.mpr ⟨h, _, hb, hr⟩)
  | x :: rest, hx => fun hb h hr => by
    rw [Command.arePlain, Bool.and_eq_true] at hx
    rw [visitAll, yields_bind] at hr
    rw [performAll, Command.shapes, Shape.scanAll]
    refine .bind ((tracks_perform call x hx.1 hb h hr).mono ?_)
    rintro - c₁ σ₁ ⟨h₁, r₁, hb₁, hr₁⟩
    exact tracks_performAll call rest hx.2 hb₁ h₁ hr₁

end

/-! ## The machine -/

section

variable {f : Machine}

/-- Every transition is lowered, or one of them names a state that is not there. -/
theorem lowerFrom_outcome (m : Nat) : ∀ (k : Nat) (ts : List (Transition Expr)),
    (∀ t ∈ ts, (∃ st, f.lower t = .ok st) ∨ ∃ name, f.lower t = .error (.unknown name)) →
    ((∀ t ∈ ts, ∃ st, f.lower t = .ok st) ∧ ∃ sts, f.lowerFrom m k ts = .ok sts) ∨
      ((∃ t ∈ ts, ∃ name, f.lower t = .error (.unknown name)) ∧
        ∃ label j name, f.lowerFrom m k ts = .error (.unknownTarget f.name label j name))
  | _, [], _ => .inl ⟨nofun, [], rfl⟩
  | k, t :: ts, h => by
    rw [Machine.lowerFrom]
    rcases h t List.mem_cons_self with ⟨st, hst⟩ | ⟨name, hname⟩
    · rw [hst]
      rcases lowerFrom_outcome m (k + 1) ts fun t ht => h t (List.mem_cons_of_mem _ ht) with
        ⟨hall, sts, hsts⟩ | ⟨⟨t', ht', hbad⟩, label, j, name, herr⟩
      · exact .inl ⟨List.forall_mem_cons.mpr ⟨⟨st, hst⟩, hall⟩, st :: sts, by rw [hsts]; rfl⟩
      · exact .inr ⟨⟨t', List.mem_cons_of_mem _ ht', hbad⟩, label, j, name, by rw [herr]; rfl⟩
    · rw [hname]
      exact .inr ⟨⟨t, List.mem_cons_self, name, hname⟩, _, _, _, rfl⟩

theorem choiceArms_outcome : ∀ (m : Nat) (ss : List Machine.State), (∀ s ∈ ss, ∀ t ∈ s.gotos,
      (∃ st, f.lower t = .ok st) ∨ ∃ name, f.lower t = .error (.unknown name)) →
    ((∀ s ∈ ss, ∀ t ∈ s.gotos, ∃ st, f.lower t = .ok st) ∧ ∃ arms, f.choiceArms m ss = .ok arms) ∨
      ((∃ s ∈ ss, ∃ t ∈ s.gotos, ∃ name, f.lower t = .error (.unknown name)) ∧
        ∃ label j name, f.choiceArms m ss = .error (.unknownTarget f.name label j name))
  | _, [], _ => .inl ⟨nofun, [], rfl⟩
  | m, s :: ss, h => by
    rw [Machine.choiceArms, Machine.stateChoice]
    rcases lowerFrom_outcome m 0 s.gotos (h s List.mem_cons_self) with
      ⟨hall, sts, hsts⟩ | ⟨⟨t, ht, hbad⟩, label, j, name, herr⟩
    · rw [hsts]
      rcases choiceArms_outcome (m + 1) ss fun s hs => h s (List.mem_cons_of_mem _ hs) with
        ⟨hrest, arms, harms⟩ | ⟨⟨s', hs', hbad⟩, label, j, name, herr⟩
      · exact .inl ⟨List.forall_mem_cons.mpr ⟨hall, hrest⟩, _, by rw [harms]; rfl⟩
      · exact .inr ⟨⟨s', List.mem_cons_of_mem _ hs', hbad⟩, label, j, name, by rw [herr]; rfl⟩
    · rw [herr]
      exact .inr ⟨⟨s, List.mem_cons_self, t, ht, hbad⟩, label, j, name, rfl⟩

theorem Fixed.lower {t : Transition Expr} (h : Fixed t) : ∃ st, f.lower t = .ok st := by
  have hplace : ∀ x, IsPlace x → ∃ st, f.assignTarget (some x) = .ok st := by
    intro x hx
    cases x with
    | state id | after id => exact ⟨_, rfl⟩
    | named name | computed e => exact hx.elim
  obtain ⟨⟨x, hx, hxp⟩, hother⟩ := h
  obtain ⟨st, hst⟩ := hplace x hxp
  rw [Machine.lower, hx, hst]
  cases t.guard with
  | none => exact ⟨_, rfl⟩
  | some e =>
    cases ho : t.otherwise with
    | none => exact ⟨_, rfl⟩
    | some y =>
      obtain ⟨st', hst'⟩ := hplace y (hother y ho)
      refine ⟨.cond e [st] [st'], ?_⟩
      simp only [hst']
      rfl

theorem lower_named (name : String) : f.lower (.jump (.named name)) =
    match f.lookup name with
    | some id => .ok (f.assignNext id)
    | none => .error (.unknown name) := by
  simp only [Machine.lower, Transition.jump, Machine.assignTarget]
  cases f.lookup name <;> rfl

/-- The machine is built, unless one of the names is that of no state. -/
theorem Routed.nextBody {names : List String} (h : Routed names f) :
    ((∀ name ∈ names, (f.lookup name).isSome = true) ∧ ∃ next, f.nextBody = .ok next) ∨
      ((∃ name ∈ names, f.lookup name = none) ∧
        ∃ label j name, f.nextBody = .error (.unknownTarget f.name label j name)) := by
  have hgotos : ∀ s ∈ f.states.toList, ∀ t ∈ s.gotos,
      (∃ st, f.lower t = .ok st) ∨ ∃ name ∈ names, f.lookup name = none ∧
        f.lower t = .error (.unknown name) := by
    intro s hs t ht
    rcases h.gotos s (Array.mem_toList_iff.mp hs) t ht with hfixed | ⟨name, hname, rfl⟩
    · exact .inl hfixed.lower
    · rw [lower_named]
      cases hl : f.lookup name with
      | some id => exact .inl ⟨_, rfl⟩
      | none => exact .inr ⟨name, hname, hl, rfl⟩
  rw [Machine.nextBody]
  rcases choiceArms_outcome 0 f.states.toList fun s hs t ht =>
      (hgotos s hs t ht).imp_right fun hx => hx.imp fun name hx => hx.2.2 with
    ⟨hall, arms, harms⟩ | ⟨⟨s, hs, t, ht, name, hbad⟩, label, j, name', herr⟩
  · refine .inl ⟨fun name hname => ?_, _, by rw [harms]; rfl⟩
    obtain ⟨s, hs, ht⟩ := h.named name hname
    obtain ⟨st, hst⟩ := hall s (Array.mem_toList_iff.mpr hs) _ ht
    rw [lower_named] at hst
    cases hl : f.lookup name with
    | some id => rfl
    | none => simp [hl] at hst
  · refine .inr ⟨?_, label, j, name', by rw [herr]; rfl⟩
    rcases hgotos s hs t ht with ⟨st, hst⟩ | ⟨name, hname, hnone, -⟩
    · rw [hst] at hbad
      cases hbad
    · exact ⟨name, hname, hnone⟩

end

/-! ## Whole programs -/

theorem View.lookup_iff (h : View lo n inner outer σ d) (hn : σ.named = false) (name : String) :
    (d.machine.lookup name).isSome = true ↔ name ∈ σ.labels := by
  have hlabel : d.label = "" := by simpa [hn] using h.named
  rw [← h.names]
  by_cases hne : name = ""
  · simp [Machine.lookup, Draft.names, hne]
  · rw [mem_names hne, hlabel]
    simp [hne]

theorem yields_runDefaults {run : SignalId} {start : Expr} {Q : List Statement → Context → Prop}
    (hQ : ∀ sts m, Q sts (c.withModule m)) : Yields (runDefaults run start) c Q := by
  unfold runDefaults
  split <;> exact hQ _ _

/-- The only state of a program that has just begun. It waits for the run flag. -/
def endState (run : SignalId) : Machine.State :=
  { name := "", gotos := [.branch (.ref run) (.after 0) (.state 0)] }

theorem View.initial {name : String} {f : Machine} {run : SignalId}
    (hstates : f.states = #[endState run]) (hbuilt : f.built = false) (hfault : f.fault = none)
    (hclock : (f.clock.bind ClockEvent.signal).isSome = true) :
    View 0 0 false [] {} { name, machine := f, run } where
  least := Nat.zero_le _
  depth := rfl
  pending := rfl
  frames := rfl
  flat := List.forall_mem_singleton.mpr rfl
  sites := List.forall_mem_singleton.mpr (List.forall_mem_nil _)
  building := rfl
  resumes := rfl
  functions := rfl
  named := (bne_self_eq_false "").symm
  names := by simp [Draft.names, hstates, endState]
  nodup := .nil
  routed := by
    refine ⟨hbuilt, hfault, hclock, fun st hst t ht => ?_, List.forall_mem_nil _⟩
    rw [hstates] at hst
    obtain rfl := Array.mem_singleton.mp hst
    obtain rfl := List.mem_singleton.mp ht
    exact .inl ⟨⟨_, rfl, trivial⟩, by simp [Transition.branch, IsPlace]⟩

theorem yields_beginProgram (session : Session) {name : String} {f : Machine} {run : SignalId}
    (start : Expr) (hstates : f.states = #[]) (hbuilt : f.built = false) (hfault : f.fault = none)
    (hclock : (f.clock.bind ClockEvent.signal).isSome = true) :
    Yields (beginProgram start) ⟨session, { name, machine := f, run }⟩ fun _ c =>
      View 0 0 false [] {} c.draft ∧ c.draft.machine.encoding = f.encoding := by
  have hnew : f.newState "" = .ok (0, { f with states := #[{ name := "" }] }) := by
    simp [Machine.newState, Machine.lookup, Machine.size, hstates, hbuilt]
  have hgoto : ({ f with states := #[{ name := "" }] } : Machine).addGoto 0
      (.branch (.ref run) (.after 0) (.state 0)) = { f with states := #[endState run] } := by
    simp [Machine.addGoto, Machine.modifyState, Machine.state?, endState]
  simp only [beginProgram, Program.newState, yields_bind, yields_getDraft, hnew,
    yields_modifyMachine, yields_note, yields_pure, yields_addGoto, Context.reported, Nat.cast_zero,
    hgoto]
  refine yields_runDefaults fun sts m => ?_
  simp only [yields_getModule, yields_modifyModule]
  exact ⟨.initial rfl hbuilt hfault hclock, rfl⟩

/-- Outside of all branches, what waits can always get its state. -/
theorem Scan.flush_top (σ : Scan) :
    ∃ σ', σ.flush false = .ok σ' ∧ σ'.labels = σ.labels ∧ σ'.targets = σ.targets := by
  unfold Scan.flush
  split
  · exact ⟨σ.fresh, rfl, rfl, rfl⟩
  · exact ⟨σ, rfl, rfl, rfl⟩

theorem yields_buildDraft {Q : Option Machine.Error → Context → Prop} : Yields buildDraft c Q ↔
      Q (c.draft.machine.build c.session.module).1
        { session := { c.session with module := (c.draft.machine.build c.session.module).2.2 },
          draft := { c.draft with machine := (c.draft.machine.build c.session.module).2.1 } } :=
  Iff.rfl

/-- All names are known, or the build fails for one that is not. -/
theorem Tracks.finishProgram (h : View lo n inner outer σ c.draft) (hn : σ.named = false)
    (hb : c.draft.machine.encoding = .binary) (τ : Scan) : Tracks Program.finishProgram c
      (if ∀ name ∈ σ.targets, name ∈ σ.labels then .ok τ else .error .unknownState)
      fun _ _ _ => True := by
  have hobstacle : c.draft.machine.obstacle = none := by
    have hclock := Option.isSome_iff_ne_none.mp h.routed.clocked
    simp [Machine.obstacle, h.routed.unbuilt, h.routed.faultless, hb, hclock]
  rw [Program.finishProgram]
  refine .skip (yields_getDraft.mpr ?_)
  rw [h.resumes]
  refine .skip (yields_pure.mpr (.skip (yields_buildDraft.mpr ?_)))
  rcases h.routed.nextBody with
    ⟨hknown, next, hnext⟩ | ⟨⟨name, hname, hnone⟩, label, j, other, herr⟩
  · have hbuild : (c.draft.machine.build c.session.module).1 = none := by
      simp [Machine.build, hobstacle, hnext]
    rw [hbuild, if_pos fun name hname => (h.lookup_iff hn name).mp (hknown name hname)]
    exact .of_yields trivial
  · have hbuild : (c.draft.machine.build c.session.module).1 =
        some (.unknownTarget c.draft.machine.name label j other) := by
      simp [Machine.build, hobstacle, herr]
    have hunknown : name ∉ σ.labels := by simp [← h.lookup_iff hn, hnone]
    rw [hbuild, if_neg fun hall => hunknown (hall name hname)]
    exact .fail_bind rfl

/-- Elaboration runs to the end, or stops with the rule that the scan stops with. -/
theorem tracks_elaborate {s : Session} {opts : Options} {body : List Command}
    (hplain : Command.arePlain body = true) (hread : isReadable s opts body = true)
    (hclock : ((opts.clock <|> s.module.clock).bind ClockEvent.signal).isSome = true)
    (hbinary : opts.encoding = .binary) :
    Tracks (elaborate opts body) (draft s opts) (Shape.verdict (Command.shapes body))
      fun _ _ _ => True := by
  have hbegin : Yields (beginProgram opts.start) (draft s opts) fun _ c =>
      View 0 0 false [] {} c.draft ∧ c.draft.machine.encoding = opts.encoding :=
    yields_beginProgram _ _ rfl rfl rfl hclock
  have hvisit := yields_of_isReadable hread
  rw [yields_bind] at hvisit
  rw [elaborate, prepare, Shape.verdict]
  simp only [bind_assoc]
  refine .skip ((hbegin.and hvisit).mono ?_)
  rintro - c₀ ⟨⟨hv₀, henc⟩, hr₀⟩
  have hb₀ : Beside c₀ c₀ := ⟨rfl, rfl, rfl, henc.trans hbinary⟩
  have hbody := tracks_performAll (callWithin opts.budget) body hplain hb₀ hv₀ hr₀
  rw [show looped false [] = false from rfl, show decide (0 < 0) = false from rfl] at hbody
  refine .bind (hbody.mono ?_)
  rintro - c₁ σ₁ ⟨hv₁, r₁, hb₁, -⟩
  obtain ⟨σ₂, hflush, hlabels, htargets⟩ := σ₁.flush_top
  have htracks := Tracks.flush hb₁ hv₁
  rw [show decide (0 < 0) = false from rfl, hflush] at htracks
  refine .skip (htracks.yields.mono fun _ c₂ h₂ => ?_)
  obtain ⟨hv₂, hb₂, hn₂, -⟩ := h₂
  have hsettle : Yields settleReturns c₂ fun _ c' => c' = c₂ := by
    rw [settleReturns, yields_bind, yields_getDraft, hv₂.functions]
    rfl
  refine .skip (hsettle.mono ?_)
  rintro - c₂ rfl
  rw [← hlabels, ← htargets]
  exact .finish (.mono (.finishProgram hv₂ hn₂ hb₂.binary σ₁) fun _ _ _ _ => trivial)

/-- A program that can be read is elaborated exactly if it breaks no rule of nesting; otherwise the
error is about a rule that it breaks. -/
theorem accepts_exactly_well_nested (s : Session) (opts : Options) (body : List Command)
    (hplain : Command.arePlain body = true) (hopen : Shape.LabelsOpen (Command.shapes body))
    (hread : isReadable s opts body = true)
    (hclock : ((opts.clock <|> s.module.clock).bind ClockEvent.signal).isSome = true)
    (hbinary : opts.encoding = .binary) :
    ((∃ q, (build s opts body).1 = .ok q) ↔ ∀ r : Rule, ¬ r.BrokenBy (Command.shapes body)) ∧
      ∀ e, (build s opts body).1 = .error e →
        ∃ r, e.rule? = some r ∧ r.BrokenBy (Command.shapes body) := by
  have htracks := tracks_elaborate hplain hread hclock hbinary
  have hjudged := Shape.verdict_judged hopen
  unfold Tracks at htracks
  split at htracks
  · next q c σ hrun hv =>
    have hbuild : (build s opts body).1 = .ok q := by rw [build, hrun]
    rw [hv] at hjudged
    simp only [hbuild]
    exact ⟨⟨fun _ => hjudged, fun _ => ⟨q, rfl⟩⟩, by simp⟩
  · next e c r hrun hv =>
    have hbuild : (build s opts body).1 = .error e := by rw [build, hrun]
    rw [hv] at hjudged
    simp only [hbuild]
    refine ⟨⟨by simp, fun hclean => absurd hjudged (hclean r)⟩, ?_⟩
    rintro _ ⟨⟩
    exact ⟨r, htracks, hjudged⟩
  · exact htracks.elim

def patrolTop : Module :=
  let (clk, m) := ({ name := "top" } : Module).addPort "clk" .input .bit
  let (_, m) := m.addPort "alarm" .input .bit
  let (_, m) := m.addReg "seen" (.unsigned 8)
  { m with clock := some { signal := some clk } }

/-- Looks around four times, jumps forward out of all loops when there is an alarm, and starts over.
`last` is what it does at the end. -/
def patrolBody (last : List Command) : List Command :=
  [.label "start",
   .assign "seen" (.number 0 8),
   .times 4 (some "i")
    [.when (.signal "alarm") [.assign "seen" (.var "i")] [],
     .ifThen (.signal "alarm") [.goto "found"],
     .label "calm",
     .orElse [.ifThen (.relate .eq (.var "i") (.number 2 8)) [.nextRound]],
     .loop [.ifThen (.signal "alarm") [.breakLoop], .orElse [.step]]],
   .goto "start",
   .label "found"] ++ last

/-- The patrol is accepted, with an `orElse` behind a label and a jump forward. With an `orElse` at
its end it is not. -/
theorem patrol_accepted : (∀ last ∈ [[.terminate], [Command.orElse []]],
      Command.arePlain (patrolBody last) = true ∧
      Shape.LabelsOpen (Command.shapes (patrolBody last)) ∧
      isReadable { module := patrolTop } {} (patrolBody last) = true) ∧
    (patrolTop.clock.bind ClockEvent.signal).isSome = true ∧
    (∃ q, (build { module := patrolTop } {} (patrolBody [.terminate])).1 = .ok q) ∧
    ¬ ∃ q, (build { module := patrolTop } {} (patrolBody [.orElse []])).1 = .ok q := by
  have hall : ∀ last ∈ [[.terminate], [Command.orElse []]],
      Command.arePlain (patrolBody last) = true ∧
      Shape.LabelsOpen (Command.shapes (patrolBody last)) ∧
      isReadable { module := patrolTop } {} (patrolBody last) = true := by
    decide +kernel
  have hclock : (patrolTop.clock.bind ClockEvent.signal).isSome = true := rfl
  have hgood : (Shape.verdict (Command.shapes (patrolBody [.terminate]))).isOk = true := by
    decide +kernel
  have hbad : ¬ (Shape.verdict (Command.shapes (patrolBody [.orElse []]))).isOk = true := by
    decide +kernel
  obtain ⟨hplain, hopen, hread⟩ := hall [.terminate] (by simp)
  obtain ⟨hplain', hopen', hread'⟩ := hall [.orElse []] (by simp)
  refine ⟨hall, hclock, ?_, ?_⟩
  · rw [(accepts_exactly_well_nested _ _ _ hplain hopen hread hclock rfl).1]
    exact (Shape.verdict_isOk hopen).mp hgood
  · rw [(accepts_exactly_well_nested _ _ _ hplain' hopen' hread' hclock rfl).1]
    exact fun hclean => hbad ((Shape.verdict_isOk hopen').mpr hclean)

end Lockstep.Program
