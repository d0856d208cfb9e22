import Lockstep.Proofs.Program.Spared

/-!
# The commands that elaboration comes to

A command is elaborated where it stands in the program, or where a function is called in whose body
or handler it stands. `Visits` follows elaboration to a command: past the commands before it, and
into the constructs and calls around it. Whatever comes after the command leaves the states that it
made alone.
-/

namespace Lockstep.Program

open Script (Term)

/-- The command is an enumerator up to `limit`, resolved in `c'`; `names` binds its variables to the
index. -/
inductive Enumerates : Command → Context → Expr → Context → (Expr → ElabM Unit) → List Command →
    Prop
  | count {c c' : Context} {limit : Term} {index : Option String} {body : List Command} {v : Expr}
    (hlimit : (resolve limit).run c = .ok v c') :
    Enumerates (.count limit index body) c v c' (bindVar index) body
  | times {c c' : Context} {n : Int} {index : Option String} {body : List Command} {v : Expr}
    (hlimit : (exactNumber (UInt64.ofInt n)).run c = .ok v c') :
    Enumerates (.times n index body) c v c' (bindVar index) body
  | each {c c₁ c' : Context} {name : String} {word index : Option String} {body : List Command}
    {mem : SignalId} {v : Expr} (hmem : (resolveSignal name).run c = .ok mem c₁)
    (hlimit : (exactNumber (UInt64.ofInt
      ((c₁.session.module.symbols.signals[mem]?.map Signal.depth).getD 0))).run c₁ = .ok v c') :
    Enumerates (.each name word index body) c v c'
      (fun i => do bindVar word (.index mem i); bindVar index i) body

/-- The function that the command calls, the depth that it asks for, and the arguments. -/
def Command.call? : Command → Option (String × Int × List Term)
  | .call name args _ => some (name, 0, args)
  | .callDepth name depth args _ => some (name, depth, args)
  | _ => none

/-- The command calls an instance, whose body is elaborated now if it is `fresh`. -/
structure Invokes (x : Command) (c : Context) (s : InstanceRef) (fresh : Bool) (es : List Expr)
    (c' : Context) : Prop where
  choose : ∃ name depth args fn c₁, x.call? = some (name, depth, args) ∧
    c.session.scope.functions.lookup name = some fn ∧ (args.mapM resolve).run c = .ok es c₁ ∧
    (chooseInstance fn depth es).run c₁ = .ok (s, fresh) c'

/-- The function at a position. -/
def Context.function (c : Context) (fn : Nat) : Function := c.session.functions[fn]?.getD default

/-- Elaborating the command from `c`, with a budget of `n` calls, comes to `body` in `c'`, with a
budget of `m`. -/
inductive Enters : Nat → Command → Context → Nat → List Command → Context → Prop
  | ifThen {n : Nat} {test : Term} {body : List Command} {c c₁ c' : Context} {v : Expr} {st : Nat}
    (htest : (resolve test).run c = .ok v c₁) (hopen : openBranch.run c₁ = .ok st c') :
    Enters n (.ifThen test body) c n body c'
  | orElse {n : Nat} {body : List Command} {c c' : Context} {yes : Nat}
    (hopen : openElse.run c = .ok yes c') : Enters n (.orElse body) c n body c'
  | whileLoop {n : Nat} {test : Term} {body : List Command} {c c₁ c' : Context} {v : Expr} {st : Nat}
    (htest : (resolve test).run c = .ok v c₁) (hopen : (openLoop none).run c₁ = .ok st c') :
    Enters n (.whileLoop test body) c n body c'
  | loop {n : Nat} {body : List Command} {c c' : Context} {st : Nat}
    (hopen : (openLoop none).run c = .ok st c') : Enters n (.loop body) c n body c'
  | count {n : Nat} {x : Command} {body : List Command} {c c₁ c₂ c' : Context} {limit : Expr}
    {names : Expr → ElabM Unit} {counter : Counter} (hcount : Enumerates x c limit c₁ names body)
    (hopen : (openCount limit).run c₁ = .ok counter c₂)
    (hnames : (names (.ref counter.index)).run c₂ = .ok () c') : Enters n x c n body c'
  /-- The body of a function, at its first call. -/
  | body {n : Nat} {x : Command} {c c₁ c' : Context} {s : InstanceRef} {args : List Expr}
    {call : Nat × LinkId} (hcall : Invokes x c s true args c₁)
    (hopen : (openBody s args).run c₁ = .ok call c') :
    Enters (n + 1) x c n (c'.function s.function).body c'
  /-- The handler of a function, after its body. -/
  | firstHandler {n : Nat} {x : Command} {handler : List Command} {c c₁ c₂ c₃ c' : Context}
    {s : InstanceRef} {args : List Expr} {call : Nat × LinkId} {last : Nat}
    (hcall : Invokes x c s true args c₁) (hopen : (openBody s args).run c₁ = .ok call c₂)
    (hbody : (performAll (callWithin n) (c₂.function s.function).body).run c₂ = .ok () c₃)
    (hclose : (closeBody s).run c₃ = .ok last c')
    (hover : (c'.function s.function).overflow = some handler) : Enters (n + 1) x c n handler c'
  /-- The handler of a function, at a later call. -/
  | laterHandler {n : Nat} {x : Command} {handler : List Command} {c c₁ c₂ c' : Context}
    {s : InstanceRef} {args : List Expr} {call : Nat} {link : LinkId}
    (hcall : Invokes x c s false args c₁) (hpush : (pushCall s args).run c₁ = .ok link c₂)
    (hstep : step.run c₂ = .ok call c')
    (hover : (c'.function s.function).overflow = some handler) : Enters (n + 1) x c n handler c'

/-- Elaborating `body` from `c`, with a budget of `n` calls, comes to the command `x` in `a`, with a
budget of `k`. -/
inductive Visits : Nat → List Command → Context → Command → Nat → Context → Prop
  | here {n : Nat} {x : Command} {rest : List Command} {c : Context} : Visits n (x :: rest) c x n c
  | next {n k : Nat} {x y : Command} {rest : List Command} {c c₁ a : Context}
    (h : (perform (callWithin n) y).run c = .ok () c₁) (hv : Visits n rest c₁ x k a) :
    Visits n (y :: rest) c x k a
  | enter {n m k : Nat} {x y : Command} {body rest : List Command} {c c' a : Context}
    (h : Enters n y c m body c') (hv : Visits m body c' x k a) : Visits n (y :: rest) c x k a

section

variable {α : Type} {n m k : Nat} {x : Command} {body rest : List Command} {r c c₁ c' a e : Context}
variable {fresh : Bool} {c₂ : Context} {limit : Expr} {names : Expr → ElabM Unit} {s : InstanceRef}
  {es : List Expr} {hi lo st : Nat}

/-! ## What is found there -/

theorem ensures_of_run {x : ElabM α} {v : α} (h : x.run c = .ok v c') {Q : α → Context → Prop} :
    Ensures x c Q ↔ Q v c' := by
  constructor
  · exact fun hq => hq v c' h
  · intro hq w c'' hw
    obtain ⟨rfl, rfl⟩ := EStateM.Result.ok.inj (h.symm.trans hw)
    exact hq

/-- No range at all is spared. What is left is said of the context alone. -/
abbrev Sound (r c : Context) : Prop := Spared 0 0 r c

theorem Spared.sound (h : Spared lo hi r c) : Sound r c :=
  ⟨Nat.zero_le _, fun _ _ hk => absurd hk (Nat.not_lt_zero _), h.fixed,
    fun f hf k hk => ⟨(h.marks f hf k hk).1, .inr (Nat.zero_le _)⟩, h.module, h.functions, h.clears⟩

/-- An empty range at the end of the machine. -/
theorem Spared.atEnd (h : Sound r c) : Spared c.draft.machine.size c.draft.machine.size r c :=
  ⟨le_refl _, fun _ hlo hhi => absurd hhi (Nat.not_lt.mpr hlo), h.fixed,
    fun f hf k hk => ⟨(h.marks f hf k hk).1, .inl (h.marks f hf k hk).1⟩, h.module, h.functions,
      h.clears⟩

/-- A step that spares every range keeps what is sound, and takes no state away. -/
theorem Spared.of_run {x : ElabM α} {v : α} (h : Sound r c) (hx : ∀ lo hi, Spares lo hi r x)
    (hrun : x.run c = .ok v c') : Sound r c' ∧ c.draft.machine.size ≤ c'.draft.machine.size :=
  ⟨hx 0 0 c h v c' hrun, (hx _ _ c h.atEnd v c' hrun).size⟩

/-- A state that the step gives is there. -/
theorem Spared.of_gives {x : ElabM α} {v : α} {Q : α → Hand → Hand} (h : Sound r c)
    (hx : ∀ lo hi, Hands (Spared.Apart lo hi r) id x Q) (hrun : x.run c = .ok v c')
    (hk : k ∈ (Q v ⟨[], []⟩).states) :
    Sound r c' ∧ c.draft.machine.size ≤ c'.draft.machine.size ∧ k < c'.draft.machine.size := by
  obtain ⟨⟨h', hheld⟩, hsize⟩ := hx 0 0 ⟨[], []⟩ c ⟨h, by simp⟩ v c' hrun
  exact ⟨h', hsize, (hheld k hk).1⟩

theorem perform_spares (h : Regular [x]) : Spares lo hi r (perform (callWithin n) x) :=
  .of_heeds (((Spared.custody lo hi r).walk ((Spared.custody lo hi r).callWithin
    (fun _ => Spared.raw) n)
    Spared.raw).perform () x h)

theorem performAll_spares (body : List Command) (h : Regular body) :
    Spares lo hi r (performAll (callWithin n) body) := .of_heeds (performAll_heeds body h)

/-- What is found in a body that a command comes to: the rest of the command leaves alone what is
made from there on. -/
structure Inner (r c : Context) (n m : Nat) (x : Command) (body : List Command) (c' : Context) :
    Prop where
  regular : Regular body
  sound : Sound r c'
  size : c.draft.machine.size ≤ c'.draft.machine.size
  rest : Ensures (perform (callWithin n) x) c fun _ c₁ => ∃ c₂,
    (performAll (callWithin m) body).run c' = .ok () c₂ ∧
      ∀ lo hi r', c'.draft.machine.size ≤ lo → Spared lo hi r' c₂ → Spared lo hi r' c₁

/-- The command elaborates the body and then `close`, which spares what was made in it. -/
theorem Inner.of_close (close : ElabM Unit) (hbody : Regular body) (hsound : Sound r c')
    (hsize : c.draft.machine.size ≤ c'.draft.machine.size)
    (hperform : ∀ Q, Ensures (do performAll (callWithin m) body; close) c' Q →
      Ensures (perform (callWithin n) x) c Q)
    (hclose : ∀ lo hi r' c₂, c'.draft.machine.size ≤ lo →
      c'.draft.machine.size ≤ c₂.draft.machine.size → Spared lo hi r' c₂ →
      Ensures close c₂ fun _ c₁ => Spared lo hi r' c₁) :
    Inner r c n m x body c' := by
  refine ⟨hbody, hsound, hsize, hperform _ ?_⟩
  rw [ensures_bind]
  intro _ c₂ hrun _ c₁ hrun'
  have hgrow := (hsound.of_run (fun _ _ => performAll_spares body hbody) hrun).2
  exact ⟨c₂, hrun, fun lo hi r' hlo h => hclose lo hi r' c₂ hlo hgrow h _ c₁ hrun'⟩

/-! ## Constructs -/

/-- A construct that is opened in a state of its own. -/
theorem Inner.of_construct (command : String) {opens : ElabM Nat} (closes : Nat → ElabM Nat)
    (hbody : Regular body) (h₁ : Sound r c₁) (hsize : c.draft.machine.size ≤ c₁.draft.machine.size)
    (hopens : ∀ lo hi, Hands (Spared.Apart lo hi r) id opens fun st H => H.hold st)
    (hopen : opens.run c₁ = .ok st c')
    (hcloses : ∀ lo hi r, Hands (Spared.Apart lo hi r) (·.hold st) (closes st) fun _ => id)
    (hperform : ∀ Q, Ensures (recordState command (do
        let st ← opens
        performAll (callWithin n) body
        closes st)) c₁ Q → Ensures (perform (callWithin n) x) c Q) : Inner r c n n x body c' := by
  obtain ⟨h', hsize', hst⟩ := h₁.of_gives hopens hopen List.mem_cons_self
  refine .of_close (recordState command (closes st)) hbody h' (hsize.trans hsize')
    (fun Q hQ => hperform Q ?_) ?_
  · rw [recordState, ensures_bind, ensures_bind, ensures_of_run hopen, ← ensures_bind]
    simpa only [recordState, bind_assoc] using hQ
  · exact fun lo hi r' _ hlo hgrow h₂ => h₂.of_takes rfl ((Spared.custody lo hi r').recordState
      (hcloses lo hi r') command) (hst.trans_le hlo) (hst.trans_le hgrow)

/-! ## Enumerators -/

theorem Enumerates.regular (h : Enumerates x c limit c' names body) (hx : Regular [x]) :
    Regular body := by
  cases h <;> exact hx.within fun y hy => by simp [Command.within, hy]

theorem Enumerates.sound (h : Enumerates x c limit c' names body) (hc : Sound r c) :
    Sound r c' ∧ c.draft.machine.size ≤ c'.draft.machine.size := by
  cases h with
  | count hlimit => exact hc.of_run (fun _ _ => .passive (.resolve _)) hlimit
  | times hlimit => exact hc.of_run (fun _ _ => .passive (.exactNumber _)) hlimit
  | each hmem hlimit =>
    obtain ⟨h₁, hsize₁⟩ := hc.of_run (fun _ _ => .passive (.resolveSignal _)) hmem
    obtain ⟨h₂, hsize₂⟩ := h₁.of_run (fun _ _ => .passive (.exactNumber _)) hlimit
    exact ⟨h₂, hsize₁.trans hsize₂⟩

theorem Enumerates.names_passive (h : Enumerates x c limit c' names body) (i : Expr) :
    Passive (names i) := by
  cases h with
  | count | times => exact .bindVar _ i
  | each => exact .bind (.bindVar _ _) fun _ => .bindVar _ i

/-- Elaborating an enumerator counts up to its limit. -/
theorem Enumerates.perform (h : Enumerates x c limit c' names body) (call : Caller) :
    ∃ command, ∀ Q,
      Ensures (perform call x) c Q ↔ Ensures (recordState command (Program.count limit fun i => do
        names i
        performAll call body)) c' Q := by
  cases h with
  | count hlimit =>
    refine ⟨"for", fun Q => ?_⟩
    rw [Program.perform, ensures_bind, ensures_of_run hlimit]
  | times hlimit =>
    refine ⟨"times", fun Q => ?_⟩
    rw [Program.perform, recordState, Program.times, ensures_bind, ensures_bind, ensures_of_run hlimit,
      recordState, ensures_bind]
  | each hmem hlimit =>
    refine ⟨"each", fun Q => ?_⟩
    rw [Program.perform, ensures_bind, ensures_of_run hmem, ensures_bind, ensures_getSymbols,
      recordState, Program.times, ensures_bind, ensures_bind, ensures_of_run hlimit, recordState,
      ensures_bind]
    simp only [bind_assoc]

theorem Inner.count {counter : Counter} (h : Sound r c) (hx : Regular [x])
    (hcount : Enumerates x c limit c₁ names body)
    (hopen : (openCount limit).run c₁ = .ok counter c₂)
    (hnames : (names (.ref counter.index)).run c₂ = .ok () c') : Inner r c n n x body c' := by
  obtain ⟨h₁, hsize₁⟩ := hcount.sound h
  obtain ⟨h₂, hsize₂, hst⟩ := h₁.of_gives (fun lo hi => (Spared.custody lo hi r).openCount limit) hopen
    List.mem_cons_self
  obtain ⟨h', hsize'⟩ := h₂.of_run (fun _ _ => .passive (hcount.names_passive _)) hnames
  obtain ⟨command, hperform⟩ := hcount.perform (callWithin n)
  refine .of_close (recordState command (closeCount counter)) (hcount.regular hx) h'
    ((hsize₁.trans hsize₂).trans hsize') (fun Q hQ => ?_) ?_
  · rw [hperform, recordState, count_eq, ensures_bind, ensures_bind, ensures_of_run hopen,
      ensures_bind, ensures_bind, ensures_of_run hnames, ← ensures_bind]
    simpa only [recordState, bind_assoc, ensures_bind] using hQ
  · exact fun lo hi r' _ hlo hgrow h₂ => h₂.of_takes rfl ((Spared.custody lo hi r').recordState
      ((Spared.custody lo hi r').closeLoop _ _ _ _) _) (hst.trans_le (hsize'.trans hlo))
      (hst.trans_le (hsize'.trans hgrow))

/-! ## Calls -/

/-- What is left of a call when its body and handler have been elaborated. -/
def answerCall (command : String) (result : Option String) (s : InstanceRef) : ElabM Unit := do
  let v := Expr.ref (← getInstance s).ret
  bindVar result v
  record command (.expr ((← getSymbols).exprText v))

theorem Passive.answerCall (command : String) (result : Option String) (s : InstanceRef) :
    Passive (answerCall command result s) :=
  .bind (.getInstance s) fun _ => .bind (.bindVar result _) fun _ =>
    .bind .getSymbols fun _ => .record _ _

theorem ensures_callNamed {command name : String} {depth : Int} {args : List Term}
    {result : Option String} {fn : Nat} (hname : c.session.scope.functions.lookup name = some fn)
    (hargs : (args.mapM resolve).run c = .ok es c₁)
    (hchoose : (chooseInstance fn depth es).run c₁ = .ok (s, fresh) c')
    (Q : Unit → Context → Prop) :
    Ensures (callNamed (callWithin (n + 1)) command name depth args result) c Q ↔
      Ensures (do
        if fresh then callFirst (performAll (callWithin n)) s es
        else callExisting (performAll (callWithin n)) s es
        answerCall command result s) c' Q := by
  rw [callNamed, ensures_bind, ensures_get, hname]
  dsimp only
  rw [ensures_bind, ensures_of_run hargs, callWithin]
  dsimp only
  rw [callFunction_eq, ensures_bind, ensures_bind, ensures_of_run hchoose]
  cases fresh <;> simp only [answerCall, ensures_ops, if_true, Bool.false_eq_true, if_false]

theorem Invokes.perform (h : Invokes x c s fresh es c') : ∃ command result, ∀ Q,
      Ensures (perform (callWithin (n + 1)) x) c Q ↔ Ensures (do
        if fresh then callFirst (performAll (callWithin n)) s es
        else callExisting (performAll (callWithin n)) s es
        answerCall command result s) c' Q := by
  obtain ⟨name, depth, args, fn, c₁, hx, hname, hargs, hchoose⟩ := h.choose
  unfold Command.call? at hx
  split at hx
  · obtain ⟨rfl, rfl, rfl⟩ : _ ∧ _ ∧ _ := by simpa using hx
    exact ⟨"call", _, fun Q => by rw [Program.perform]; exact ensures_callNamed hname hargs hchoose Q⟩
  · obtain ⟨rfl, rfl, rfl⟩ : _ ∧ _ ∧ _ := by simpa using hx
    exact ⟨"calld", _, fun Q => by rw [Program.perform]; exact ensures_callNamed hname hargs hchoose Q⟩
  · simp at hx

theorem Invokes.sound (h : Invokes x c s fresh es c') (hc : Sound r c) :
    Sound r c' ∧ c.draft.machine.size ≤ c'.draft.machine.size := by
  obtain ⟨name, depth, args, fn, c₁, -, -, hargs, hchoose⟩ := h.choose
  obtain ⟨h₁, hsize₁⟩ := hc.of_run (fun _ _ => .passive (.mapM (fun t => .resolve t) args)) hargs
  obtain ⟨h₂, hsize₂⟩ := h₁.of_run (fun _ _ => .passive (.chooseInstance _ _ _)) hchoose
  exact ⟨h₂, hsize₁.trans hsize₂⟩

theorem ensures_getFunction' {fn : Nat} {Q : Function → Context → Prop} :
    Ensures (getFunction fn) c Q ↔ Q (c.function fn) c := by
  simp [getFunction, Context.function]

theorem Spared.function (h : Sound r c) (fn : Nat) : (c.function fn).Avoids Command.isRaw :=
  (ensures_getFunction'.mp
    ((Spared.custody 0 0 r).getFunction (H := ⟨[], []⟩) ⟨h, by simp⟩ fn)).1

theorem Inner.function {call : Nat × LinkId} (h : Sound r c) (hcall : Invokes x c s true es c₁)
    (hopen : (openBody s es).run c₁ = .ok call c') :
    Inner r c (n + 1) n x (c'.function s.function).body c' := by
  obtain ⟨h₁, hsize₁⟩ := hcall.sound h
  obtain ⟨h', hsize', hst⟩ := h₁.of_gives (fun lo hi => (Spared.custody lo hi r).openBody s es) hopen
    List.mem_cons_self
  obtain ⟨command, result, hperform⟩ := hcall.perform (n := n)
  refine .of_close (do
      let last ← closeBody s
      finishCall (performAll (callWithin n)) s call.1 call.2 (last + 1)
      answerCall command result s) (h'.function _).body h' (hsize₁.trans hsize') ?_ ?_
  · intro Q hQ
    rw [hperform]
    simp only [if_true, ensures_bind, callFirst_eq]
    rw [ensures_of_run hopen]
    simp only [ensures_getFunction']
    simpa only [ensures_bind] using hQ
  · intro lo hi r' c₂ hlo hgrow h₂
    have hend := ((Spared.custody lo hi r').endBody
      (fun body hbody => performAll_heeds (n := n) body hbody) s call.1 call.2).bind fun _ =>
        (Spared.custody lo hi r').passive (.answerCall command result s)
    simpa only [bind_assoc] using h₂.of_takes rfl hend (hst.trans_le hlo) (hst.trans_le hgrow)

theorem Inner.of_handler {call skip : Nat} {handler : List Command} (link : LinkId) (command : String)
    (result : Option String) (h : Sound r c') (hsize : c.draft.machine.size ≤ c'.draft.machine.size)
    (hcall : call < c'.draft.machine.size) (hskip : skip ≤ c'.draft.machine.size)
    (hover : (c'.function s.function).overflow = some handler)
    (hperform : ∀ Q, Ensures (do
        finishCall (performAll (callWithin n)) s call link skip
        answerCall command result s) c' Q → Ensures (perform (callWithin (n + 1)) x) c Q) :
    Inner r c (n + 1) n x handler c' := by
  refine .of_close (do
      let last ← step
      wireCall s call link skip (last + 1)
      answerCall command result s) ((h.function _).overflow handler hover) h hsize
    (fun Q hQ => hperform Q ?_) fun lo hi r' c₂ hlo hgrow h₂ => ?_
  · rw [finishCall_eq, ensures_bind, ensures_bind, ensures_getFunction', hover]
    simpa only [ensures_bind] using hQ
  · have hheld : Spared.Apart lo hi r' ⟨[call], [link]⟩ c₂ :=
      ⟨h₂, by simp [hcall.trans_le hlo, hcall.trans_le hgrow]⟩
    have hend := (Spared.custody lo hi r').endHandler (H := ⟨[], []⟩) s hheld (hskip.trans hgrow)
    rw [← bind_assoc, ensures_bind]
    exact hend.mono fun _ c₁ h₁ => Spares.passive (.answerCall command result s) c₁ h₁.1.1

theorem Inner.firstHandler {call : Nat × LinkId} {last : Nat} {handler : List Command}
    {c₃ : Context} (h : Sound r c) (hcall : Invokes x c s true es c₁)
    (hopen : (openBody s es).run c₁ = .ok call c₂)
    (hbody : (performAll (callWithin n) (c₂.function s.function).body).run c₂ = .ok () c₃)
    (hclose : (closeBody s).run c₃ = .ok last c')
    (hover : (c'.function s.function).overflow = some handler) :
    Inner r c (n + 1) n x handler c' := by
  obtain ⟨h₁, hsize₁⟩ := hcall.sound h
  obtain ⟨h₂, hsize₂, hst⟩ := h₁.of_gives (fun lo hi => (Spared.custody lo hi r).openBody s es) hopen
    List.mem_cons_self
  obtain ⟨h₃, hsize₃⟩ := h₂.of_run (fun _ _ => performAll_spares _ (h₂.function _).body) hbody
  obtain ⟨⟨h', -⟩, hsize', hlast⟩ := (Spared.custody 0 0 r).closeBody (H := ⟨[], []⟩) s
    ⟨h₃, by simp⟩ last c' hclose
  obtain ⟨command, result, hperform⟩ := hcall.perform (n := n)
  refine .of_handler call.2 command result h' (by omega) (hst.trans_le (hsize₃.trans hsize'))
    hlast hover
    fun Q hQ => ?_
  rw [hperform]
  simp only [if_true, ensures_bind, callFirst_eq]
  rw [ensures_of_run hopen]
  simp only [ensures_getFunction']
  rw [ensures_of_run hbody, ensures_of_run hclose]
  exact ensures_bind.mp hQ

theorem Inner.laterHandler {call : Nat} {link : LinkId} {handler : List Command} (h : Sound r c)
    (hcall : Invokes x c s false es c₁) (hpush : (pushCall s es).run c₁ = .ok link c₂)
    (hstep : step.run c₂ = .ok call c') (hover : (c'.function s.function).overflow = some handler) :
    Inner r c (n + 1) n x handler c' := by
  obtain ⟨h₁, hsize₁⟩ := hcall.sound h
  obtain ⟨⟨h₂, -⟩, hsize₂⟩ := (Spared.custody 0 0 r).pushCall s es ⟨[], []⟩ c₁ ⟨h₁, by simp⟩ _ c₂ hpush
  obtain ⟨h', hsize', hst⟩ := h₂.of_gives (fun lo hi => (Spared.custody lo hi r).step) hstep
    List.mem_cons_self
  obtain ⟨command, result, hperform⟩ := hcall.perform (n := n)
  refine .of_handler link command result h' (by omega) hst hst hover fun Q hQ => ?_
  rw [hperform]
  simp only [Bool.false_eq_true, if_false, ensures_bind, callExisting]
  rw [ensures_of_run hpush, ensures_of_run hstep]
  exact ensures_bind.mp hQ

/-! ## Visits -/

theorem Enters.inner (h : Enters n x c m body c') (hc : Sound r c) (hx : Regular [x]) :
    Inner r c n m x body c' := by
  cases h with
  | @ifThen _ _ _ _ _ _ v _ htest hopen =>
    obtain ⟨h₁, hsize₁⟩ := hc.of_run (fun _ _ => .passive (.resolve _)) htest
    refine .of_construct "if" (closeBranch v) (hx.within fun y hy => by simp [Command.within, hy]) h₁
      hsize₁ (fun lo hi => (Spared.custody lo hi r).openBranch) hopen
      (fun lo hi r' => (Spared.custody lo hi r').closeBranch _ _) fun Q hQ => ?_
    rwa [perform, ensures_bind, ensures_of_run htest, ifThen_eq]
  | orElse hopen =>
    refine .of_construct "else" closeElse (hx.within fun y hy => by simp [Command.within, hy]) hc
      (le_refl _) (fun lo hi => (Spared.custody lo hi r).openElse) hopen
      (fun lo hi r' => (Spared.custody lo hi r').closeElse _) fun Q hQ => ?_
    rwa [perform, orElse_eq]
  | @whileLoop _ _ _ _ _ _ v _ htest hopen =>
    obtain ⟨h₁, hsize₁⟩ := hc.of_run (fun _ _ => .passive (.resolve _)) htest
    refine .of_construct "while" (closeLoop v.toOption v.toOption none)
      (hx.within fun y hy => by simp [Command.within, hy]) h₁ hsize₁
      (fun lo hi => (Spared.custody lo hi r).openLoop none) hopen
      (fun lo hi r' => (Spared.custody lo hi r').closeLoop _ _ none _) fun Q hQ => ?_
    rwa [perform, ensures_bind, ensures_of_run htest, loop_eq]
  | loop hopen =>
    refine .of_construct "loop" (closeLoop none none none)
      (hx.within fun y hy => by simp [Command.within, hy]) hc (le_refl _)
      (fun lo hi => (Spared.custody lo hi r).openLoop none) hopen
      (fun lo hi r' => (Spared.custody lo hi r').closeLoop _ _ none _) fun Q hQ => ?_
    rwa [perform, loop_eq]
  | count hcount hopen hnames => exact .count hc hx hcount hopen hnames
  | body hcall hopen => exact .function hc hcall hopen
  | firstHandler hcall hopen hbody hclose hover => exact .firstHandler hc hcall hopen hbody hclose hover
  | laterHandler hcall hpush hstep hover => exact .laterHandler hc hcall hpush hstep hover

/-- A command that is come to is elaborated, and what it made is still there in the end. -/
structure Visited (r e : Context) (k : Nat) (x : Command) (a b : Context) : Prop where
  run : (perform (callWithin k) x).run a = .ok () b
  sound : Sound r a
  regular : Regular [x]
  kept : ∀ lo hi r', a.draft.machine.size ≤ lo → Spared lo hi r' b → Spared lo hi r' e

theorem Visits.visited (h : Visits n body c x k a) (hc : Sound r c) (hbody : Regular body) :
    Ensures (performAll (callWithin n) body) c fun _ e =>
      ∃ b, Visited r e k x a b ∧ c.draft.machine.size ≤ a.draft.machine.size := by
  induction h with
  | here =>
    rw [performAll, ensures_bind]
    intro _ b hrun _ e hrest
    refine ⟨b, ⟨hrun, hc, hbody.head, fun lo hi r' hlo h => ?_⟩, le_refl _⟩
    exact performAll_spares _ hbody.tail b h _ e hrest
  | next hrun hv ih =>
    obtain ⟨h₁, hsize₁⟩ := hc.of_run (fun _ _ => perform_spares hbody.head) hrun
    rw [performAll, ensures_bind, ensures_of_run hrun]
    refine (ih h₁ hbody.tail).mono ?_
    rintro _ e ⟨b, hvisited, hsize⟩
    exact ⟨b, hvisited, hsize₁.trans hsize⟩
  | enter hin hv ih =>
    have hinner := hin.inner hc hbody.head
    rw [performAll, ensures_bind]
    refine hinner.rest.mono ?_
    rintro _ c₁ ⟨c₂, hrun, hkept⟩ _ e hrest
    obtain ⟨b, hvisited, hsize⟩ := ih hinner.sound hinner.regular _ c₂ hrun
    refine ⟨b, ⟨hvisited.run, hvisited.sound, hvisited.regular, fun lo hi r' hlo h => ?_⟩,
      hinner.size.trans hsize⟩
    have h₁ := hkept lo hi r' (hsize.trans hlo) (hvisited.kept lo hi r' hlo h)
    exact performAll_spares _ hbody.tail c₁ h₁ _ e hrest

end

end Lockstep.Program
