import Lockstep.Proofs.Program.Plan

/-!
# Stacks in a simulation

What the statements of calls, returns and resets do to the stack of an instance. A stack holds a
list of activations, the oldest first: the pointer counts them, and the words of the memories below
the pointer are their return addresses and arguments.
-/

namespace Lockstep.Program

open Sim

/-- A call that was made and has not returned. -/
structure Activation where
  callee : InstanceRef
  /-- The state that it comes back to. -/
  resume : Nat
  /-- The values passed, as the argument memories hold them. -/
  args : List Word
deriving DecidableEq, Repr

/-- The stack of an instance has its shape: the depth holds its constant, and every memory a word
for each call. -/
structure Shaped (g : Symbols) (inst : Instance) (s : Sim.State) : Prop where
  depth : (s.read inst.depth).toNat = inst.room g
  words : ∀ d ∈ inst.returnAddr :: inst.args, inst.room g ≤ (s.words d).size
  pointer : inst.sp < s.scalars.size

/-- The stack of an instance holds the activations `as`. -/
structure StackHolds (f : Machine) (g : Symbols) (inst : Instance) (as : List Activation)
    (s : Sim.State) : Prop where
  pointer : (s.read inst.sp).toNat = as.length
  bounded : as.length ≤ inst.room g
  addresses : ∀ (k : Nat) a, as[k]? = some a →
    s.word inst.returnAddr k = Word.ofUInt64 (f.code a.resume)
  arguments : ∀ (k : Nat) a, as[k]? = some a → ∀ (i : Nat) mem, inst.args[i]? = some mem →
    a.args[i]? = some (s.word mem k) ∧ (s.word mem k).toNat < 2 ^ (g.signalType mem).bits

/-- The values that a call passes, converted to the types of the argument memories. -/
def passed (g : Symbols) (s : Sim.State) (inst : Instance) (args : List Expr) : List Word :=
  (inst.args.zip args).map fun (mem, a) =>
    Word.fit (g.typeOf a) (g.signalType mem).bits (eval g s a)

section Same

variable {f : Machine} {g : Symbols} {inst : Instance} {as : List Activation} {s t : Sim.State}

theorem Shaped.same (h : Shaped g inst s) (hst : ∀ d ∈ inst.stack, State.SameAt t s d) :
    Shaped g inst t where
  depth := by rw [(hst inst.depth (by simp [Instance.stack])).read, h.depth]
  words d hd := by
    rw [(hst d (List.mem_cons_of_mem _ (List.mem_cons_of_mem _ hd))).words]
    exact h.words d hd
  pointer := by
    rw [(hst inst.sp (by simp [Instance.stack])).size]
    exact h.pointer

theorem StackHolds.same (h : StackHolds f g inst as s)
    (hst : ∀ d ∈ inst.stack, State.SameAt t s d) : StackHolds f g inst as t where
  pointer := by rw [(hst inst.sp (by simp [Instance.stack])).read, h.pointer]
  bounded := h.bounded
  addresses k a hk := by
    rw [(hst inst.returnAddr (by simp [Instance.stack])).word, h.addresses k a hk]
  arguments k a hk i mem hi := by
    have hmem : mem ∈ inst.stack := by simp [Instance.stack, List.mem_of_getElem? hi]
    rw [(hst mem hmem).word]
    exact h.arguments k a hk i mem hi

end Same

/-! ## The words of a stack -/

namespace Stacked

variable {g : Symbols} {code : TypeId} {inst : Instance} (h : Stacked g code inst)
variable {s : Sim.State}
include h

theorem sp_type : g.signalType inst.sp = some (.unsigned (bitsFor (inst.room g))) := by
  obtain ⟨x, hx, -, -, ht⟩ := h.sp
  rw [Symbols.signalType, hx, Option.bind_some, ht]
  exact h.width

theorem depth_type : g.signalType inst.depth = some (.unsigned (bitsFor (inst.room g))) := by
  obtain ⟨x, hx, -, -, ht⟩ := h.depth
  rw [Symbols.signalType, hx, Option.bind_some, ht]
  exact h.width

omit h in
theorem pointer_bits (g : Symbols) (inst : Instance) :
    TypeSlot.bits (some (.unsigned (bitsFor (inst.room g)))) = bitsFor (inst.room g) := by
  refine bits_unsigned ((bitsFor_le (by decide) (room_lt inst g)).trans (by decide))

omit h in
theorem pointer_lt {n : Nat} (hn : n ≤ inst.room g) : n < 2 ^ bitsFor (inst.room g) :=
  hn.trans_lt (lt_two_pow_bitsFor _)

theorem eval_sp (hs : (s.read inst.sp).toNat ≤ inst.room g) :
    eval g s (.ref inst.sp) = s.read inst.sp := by
  rw [eval, h.sp_type, pointer_bits, Word.truncate_of_lt (pointer_lt hs)]

theorem eval_depth (hs : (s.read inst.depth).toNat = inst.room g) :
    eval g s (.ref inst.depth) = s.read inst.depth := by
  rw [eval, h.depth_type, pointer_bits, Word.truncate_of_lt (pointer_lt hs.le)]

theorem eval_one (s : Sim.State) :
    eval g s (.const 1 (some inst.spType)) = 1 := by
  have hlit : g.type? (some inst.spType) = some (.unsigned (bitsFor (inst.room g))) := h.width
  have hone : (1 : Nat) < 2 ^ bitsFor (inst.room g) := Nat.one_lt_two_pow (bitsFor_pos _).ne'
  rw [Expr.const, eval, hlit, pointer_bits]
  exact Word.truncate_of_lt (by simpa [Symbols.literal] using hone)

/-- The test for room compares the pointer with the depth. -/
theorem roomTest_iff (hsp : (s.read inst.sp).toNat ≤ inst.room g)
    (hdepth : (s.read inst.depth).toNat = inst.room g) :
    (eval g s inst.roomTest != 0) = decide ((s.read inst.sp).toNat < inst.room g) := by
  have hfit : ∀ v : Word, v.toNat ≤ inst.room g →
      Word.fit (some (.unsigned (bitsFor (inst.room g)))) (bitsFor (inst.room g)) v = v :=
    fun v hv => by rw [Word.fit_unsigned rfl, Word.truncate_of_lt (pointer_lt hv)]
  rw [Instance.roomTest, eval, h.eval_sp hsp, h.eval_depth hdepth]
  simp only [Symbols.typeOf, h.sp_type, h.depth_type, Word.holds, Predicate.isSigned,
    Bool.false_eq_true, if_false, pointer_bits, max_self, hfit _ hsp, hfit _ hdepth.le,
    BitVec.ult, hdepth]
  by_cases hlt : (s.read inst.sp).toNat < inst.room g
  · simp only [hlt, decide_true, if_true]
    decide
  · simp [hlt]

theorem typeOf_pointer_bin (op : BinOp) (hop : op.isShift = false) :
    g.typeOf (.bin op (.ref inst.sp) (.const 1 (some inst.spType))) =
      some (.unsigned (bitsFor (inst.room g))) := by
  have hlit : g.type? (some inst.spType) = some (.unsigned (bitsFor (inst.room g))) := h.width
  simp [Symbols.typeOf, h.sp_type, Expr.const, hlit, SignalType.resultFor, hop,
    SignalType.unsigned]

/-- Numbers of the type of the pointer are added and subtracted at its width. -/
theorem eval_pointer_bin (op : BinOp) (hop : op.isShift = false)
    (hsp : (s.read inst.sp).toNat ≤ inst.room g) :
    eval g s (.bin op (.ref inst.sp) (.const 1 (some inst.spType))) =
      Word.arith op (bitsFor (inst.room g)) (s.read inst.sp) 1 := by
  have hlit : g.type? (some inst.spType) = some (.unsigned (bitsFor (inst.room g))) := h.width
  have hone : (1 : Word).toNat < 2 ^ bitsFor (inst.room g) :=
    Nat.one_lt_two_pow (bitsFor_pos _).ne'
  rw [eval, h.eval_sp hsp, h.eval_one, h.typeOf_pointer_bin op hop, pointer_bits]
  simp only [Word.binary, hop, Bool.false_eq_true, if_false, Symbols.typeOf, h.sp_type,
    Expr.const, hlit]
  rw [Word.fit_unsigned rfl, Word.fit_unsigned rfl, Word.truncate_of_lt (pointer_lt hsp),
    Word.truncate_of_lt hone]

/-- The top of a stack that is not empty is the word below the pointer. -/
theorem eval_stackTop {n : Nat} (hsp : (s.read inst.sp).toNat = n + 1) (hn : n + 1 ≤ inst.room g) :
    (eval g s (stackTop inst)).toNat = n := by
  have hlt : n + 1 < 2 ^ bitsFor (inst.room g) := pointer_lt hn
  have hword : (s.read inst.sp - 1).toNat = n := by
    have hone : (1 : Word).toNat = 1 := rfl
    rw [BitVec.toNat_sub_of_le (by rw [BitVec.le_def, hsp, hone]; omega), hsp, hone]
    omega
  rw [stackTop, Expr.minus, h.eval_pointer_bin .sub rfl (by omega), Word.arith,
    Word.toNat_truncate, hword, Nat.mod_eq_of_lt (by omega)]

theorem eval_push (hsp : (s.read inst.sp).toNat < inst.room g) :
    (eval g s (.plus (.ref inst.sp) (.const 1 (some inst.spType)))).toNat =
      (s.read inst.sp).toNat + 1 := by
  have hlt : (s.read inst.sp).toNat + 1 < 2 ^ bitsFor (inst.room g) :=
    pointer_lt (Nat.succ_le_of_lt hsp)
  have hword : (s.read inst.sp + 1).toNat = (s.read inst.sp).toNat + 1 := by
    have hone : (1 : Word).toNat = 1 := rfl
    have hroom := room_lt inst g
    have hmax : (2 : Nat) ^ 64 < 2 ^ maxWidth := Nat.pow_lt_pow_right (by decide) (by decide)
    rw [BitVec.toNat_add, hone, Nat.mod_eq_of_lt (by omega)]
  rw [Expr.plus, h.eval_pointer_bin .add rfl hsp.le, Word.arith, Word.toNat_truncate, hword,
    Nat.mod_eq_of_lt hlt]

/-- An assignment to the pointer of a number that fits. -/
theorem exec_pointer (op : BinOp) (hop : op.isShift = false)
    (hv : (eval g s (.bin op (.ref inst.sp) (.const 1 (some inst.spType)))).toNat ≤ inst.room g) :
    exec g s (.assign inst.sp none (.bin op (.ref inst.sp) (.const 1 (some inst.spType)))) =
      [⟨inst.sp, none, eval g s (.bin op (.ref inst.sp) (.const 1 (some inst.spType)))⟩] := by
  rw [exec, assignment, h.typeOf_pointer_bin op hop, h.sp_type, pointer_bits,
    Word.fit_unsigned rfl, Word.truncate_of_lt (pointer_lt hv)]
  rfl

end Stacked

/-! ## Calls, returns and resets -/

/-- At the start the depth holds its constant, and the memories have their words. -/
theorem Shaped.initial {g : Symbols} {code : TypeId} {inst : Instance} (h : Stacked g code inst) :
    Shaped g inst (.initial g) where
  depth := by
    obtain ⟨x, hx, hdecl, hkind, ht⟩ := h.depth
    have hroom : inst.room g = x.value.toNat := by rw [Instance.room, hx]; rfl
    have htype : g.type? x.type = some (.unsigned (bitsFor (inst.room g))) := by
      rw [ht]
      exact h.width
    have hfits : (Word.ofUInt64 x.value).toNat < 2 ^ bitsFor (inst.room g) := by
      rw [Word.toNat_ofUInt64, ← hroom]
      exact lt_two_pow_bitsFor _
    have hscalar : (State.initial g).scalar inst.depth = some (Word.ofUInt64 x.value) := by
      simp [State.scalar, State.initial, hx, hdecl, hkind, htype, Stacked.pointer_bits,
        Word.truncate_of_lt hfits]
    rw [State.read, hscalar, Option.getD_some, Word.toNat_ofUInt64, hroom]
  words d hd := by
    obtain ⟨x, hx, hdecl, hkind, hle⟩ := h.memories d hd
    have hwords : (State.initial g).words d = Array.replicate x.depth.toNat 0 := by
      simp [State.words, State.initial, hx, hdecl, hkind]
    rw [hwords, Array.size_replicate]
    omega
  pointer := by
    obtain ⟨x, hx, -⟩ := h.sp
    rw [State.initial, Array.size_map]
    exact (Array.getElem?_eq_some_iff.mp hx).1

section Effects

variable {f : Machine} {g : Symbols} {inst : Instance} {as : List Activation} {s t : Sim.State}
variable {a : Activation} {args : List Expr} {code : TypeId}

/-- The writes of a call that finds room: a word of each memory, and the pointer. -/
def pushWrites (g : Symbols) (s : Sim.State) (inst : Instance) (args : List Expr) (address : Word) :
    List Write :=
  ((inst.args.zip args).map fun (mem, a) =>
    ⟨mem, some (s.read inst.sp).toNat, Word.fit (g.typeOf a) (g.signalType mem).bits (eval g s a)⟩) ++
  [⟨inst.returnAddr, some (s.read inst.sp).toNat, address⟩,
   ⟨inst.sp, none, eval g s (.plus (.ref inst.sp) (.const 1 (some inst.spType)))⟩]

theorem Stacked.address_type (h : Stacked g code inst) :
    g.signalType inst.returnAddr = g.type? (some code) := by
  obtain ⟨x, hx, ht⟩ := h.address
  rw [Symbols.signalType, hx, Option.bind_some, ht]

/-- A call without room writes nothing. -/
theorem Stacked.execBlock_push_full (h : Stacked g code inst) (hs : Shaped g inst s)
    (hsp : (s.read inst.sp).toNat = inst.room g) (args : List Expr) (link : LinkId) :
    execBlock g s [inst.push code args link] = [] := by
  have htest := h.roomTest_iff hsp.le hs.depth
  rw [hsp, decide_eq_false (lt_irrefl _)] at htest
  rw [Instance.push, execBlock, exec, htest]
  rfl

theorem Stacked.execBlock_push (h : Stacked g f.type inst) (hs : Shaped g inst s)
    (hsp : (s.read inst.sp).toNat < inst.room g) (hsize : f.Sized g) {v : UInt64} {link : LinkId}
    (hlink : g.links[link]? = some v) (hv : v.toNat < 2 ^ f.registerWidth) (args : List Expr) :
    execBlock g s [inst.push f.type args link] =
      pushWrites g s inst args (Word.ofUInt64 v) := by
  have htest := h.roomTest_iff hsp.le hs.depth
  rw [decide_eq_true hsp] at htest
  have hword : ∀ mem ∈ inst.returnAddr :: inst.args, ∀ e,
      exec g s (.assign mem (some (.ref inst.sp)) e) = [⟨mem, some (s.read inst.sp).toNat,
        Word.fit (g.typeOf e) (g.signalType mem).bits (eval g s e)⟩] := by
    intro mem hmem e
    have hlt : (s.read inst.sp).toNat < (s.words mem).size := hsp.trans_le (hs.words mem hmem)
    simp only [exec, assignment, h.eval_sp hsp.le, hlt, if_true, Option.toList_some]
  have haddr : Word.fit (g.typeOf (.lit (.link link) (some f.type)))
      (g.signalType inst.returnAddr).bits (eval g s (.lit (.link link) (some f.type))) =
        Word.ofUInt64 v := by
    rw [h.address_type, Symbols.typeOf, eval, hsize.type, hsize.registerBits, Symbols.literal,
      hlink, Option.getD_some, Word.fit_unsigned rfl, Word.truncate_truncate,
      Word.truncate_of_lt (by simpa using hv)]
  have hpointer := h.exec_pointer .add rfl ((h.eval_push hsp).trans_le hsp)
  have hargs : execBlock g s ((inst.args.zip args).map fun (mem, a) =>
      Stmt.assign mem (some (.ref inst.sp)) a) = (inst.args.zip args).map fun (mem, a) =>
        ⟨mem, some (s.read inst.sp).toNat,
          Word.fit (g.typeOf a) (g.signalType mem).bits (eval g s a)⟩ := by
    rw [execBlock_eq_flatMap, List.flatMap_map, List.map_eq_flatMap]
    refine List.flatMap_congr fun x hx => ?_
    exact hword x.1 (List.mem_cons_of_mem _ (List.of_mem_zip hx).1) x.2
  rw [Instance.push, execBlock, exec, htest, if_pos rfl, execBlock_append, hargs, execBlock,
    execBlock, execBlock, execBlock, hword _ List.mem_cons_self, haddr, Expr.plus, hpointer]
  simp [pushWrites, Expr.plus]

theorem pushWrites_nodup (h : Stacked g code inst) (hlen : args.length = inst.args.length)
    (v : Word) : ((pushWrites g s inst args v).map Write.dest).Nodup := by
  have hdests : (pushWrites g s inst args v).map Write.dest =
      inst.args ++ [inst.returnAddr, inst.sp] := by
    rw [pushWrites, List.map_append, List.map_map]
    exact congrArg (· ++ _) (List.map_fst_zip hlen.ge)
  have hn := h.nodup
  rw [Instance.stack] at hn
  rw [hdests, List.nodup_append_comm]
  simp only [List.nodup_cons, List.mem_cons, not_or, List.cons_append, List.nil_append] at hn ⊢
  exact ⟨⟨Ne.symm hn.1.2.1, hn.2.2.1⟩, hn.1.2.2, hn.2.2.2⟩

theorem depth_not_mem_pushWrites (h : Stacked g code inst) {v : Word} :
    ∀ w ∈ pushWrites g s inst args v, w.dest ≠ inst.depth := by
  have hn := h.nodup
  simp only [Instance.stack, List.nodup_cons, List.mem_cons, not_or] at hn
  intro w hw
  rcases List.mem_append.mp hw with hw | hw
  · obtain ⟨x, hx, rfl⟩ := List.mem_map.mp hw
    exact fun he => hn.2.1.2 (he ▸ (List.of_mem_zip hx).1)
  · simp only [List.mem_cons, List.not_mem_nil, or_false] at hw
    rcases hw with rfl | rfl
    · exact fun he => hn.2.1.1 he.symm
    · exact hn.1.1

/-- Writes that leave the depth alone keep the shape of the stack. -/
theorem Shaped.storeAll (h : Shaped g inst s) {ws : List Write}
    (hw : ∀ w ∈ ws, w.dest ≠ inst.depth)
    (ht : ∀ d ∈ inst.stack, State.SameAt t (s.storeAll ws) d) : Shaped g inst t where
  depth := by
    rw [(ht inst.depth (by simp [Instance.stack])).read, (State.storeAll_other hw).read, h.depth]
  words d hd := by
    rw [(ht d (List.mem_cons_of_mem _ (List.mem_cons_of_mem _ hd))).words,
      State.size_words_storeAll]
    exact h.words d hd
  pointer := by
    rw [(ht inst.sp (by simp [Instance.stack])).size, State.size_storeAll]
    exact h.pointer

/-- A call puts an activation on top of the stack. -/
theorem StackHolds.push (h : StackHolds f g inst as s) (hstk : Stacked g code inst)
    (hs : Shaped g inst s) (hroom : as.length < inst.room g)
    (hlen : args.length = inst.args.length) (callee : InstanceRef) (resume : Nat)
    (ht : ∀ d ∈ inst.stack, State.SameAt t
      (s.storeAll (pushWrites g s inst args (Word.ofUInt64 (f.code resume)))) d) :
    StackHolds f g inst (as ++ [⟨callee, resume, passed g s inst args⟩]) t := by
  have hn := pushWrites_nodup (s := s) hstk hlen (Word.ofUInt64 (f.code resume))
  have hsp : (s.read inst.sp).toNat < inst.room g := h.pointer.trans_lt hroom
  -- a word of a memory that the call writes: the new one on top, the others as they were
  have hword : ∀ mem ∈ inst.returnAddr :: inst.args, ∀ v,
      ⟨mem, some (s.read inst.sp).toNat, v⟩ ∈
        pushWrites g s inst args (Word.ofUInt64 (f.code resume)) →
      ∀ k, t.word mem k = if k = as.length then v else s.word mem k := by
    intro mem hmem v hv k
    have hlt : as.length < (s.words mem).size := hroom.trans_le (hs.words mem hmem)
    rw [(ht mem (List.mem_cons_of_mem _ (List.mem_cons_of_mem _ hmem))).word, State.word,
      State.words_storeAll_once s hn hv, h.pointer, Array.getElem?_setIfInBounds]
    by_cases hk : k = as.length
    · rw [if_pos hk.symm, if_pos hlt, if_pos hk, Option.getD_some]
    · rw [if_neg (Ne.symm hk), if_neg hk, State.word]
  have hra : ⟨inst.returnAddr, some (s.read inst.sp).toNat, Word.ofUInt64 (f.code resume)⟩ ∈
      pushWrites g s inst args (Word.ofUInt64 (f.code resume)) := by simp [pushWrites]
  have hpointer : ⟨inst.sp, none, eval g s (.plus (.ref inst.sp) (.const 1 (some inst.spType)))⟩ ∈
      pushWrites g s inst args (Word.ofUInt64 (f.code resume)) := by simp [pushWrites]
  refine ⟨?_, by simpa using hroom, fun k a hk => ?_, fun k a hk i mem hi => ?_⟩
  · rw [(ht inst.sp (by simp [Instance.stack])).read,
      State.read_storeAll_once s hn hpointer hs.pointer, hstk.eval_push hsp, h.pointer,
      List.length_append, List.length_singleton]
  · rw [hword inst.returnAddr List.mem_cons_self _ hra k]
    rcases getElem?_concat hk with ⟨hlt, hk⟩ | ⟨rfl, rfl⟩
    · rw [if_neg hlt.ne, h.addresses k a hk]
    · rw [if_pos rfl]
  · have hmem : mem ∈ inst.returnAddr :: inst.args :=
      List.mem_cons_of_mem _ (List.mem_of_getElem? hi)
    obtain ⟨e, he⟩ : ∃ e, args[i]? = some e :=
      ⟨_, List.getElem?_eq_getElem (hlen ▸ (List.getElem?_eq_some_iff.mp hi).1)⟩
    have hzip : (inst.args.zip args)[i]? = some (mem, e) :=
      List.getElem?_zip_eq_some.mpr ⟨hi, he⟩
    rw [hword mem hmem (Word.fit (g.typeOf e) (g.signalType mem).bits (eval g s e)) ?_ k]
    · rcases getElem?_concat hk with ⟨hlt, hk⟩ | ⟨rfl, rfl⟩
      · rw [if_neg hlt.ne]
        exact h.arguments k a hk i mem hi
      · rw [if_pos rfl, passed, List.getElem?_map, hzip, Option.map_some]
        exact ⟨rfl, Word.fit_lt ..⟩
    · exact List.mem_append_left _ (List.mem_map.mpr ⟨_, List.mem_of_getElem? hzip, rfl⟩)

/-- A return takes the activation on top off the stack. -/
theorem StackHolds.pop (h : StackHolds f g inst (as ++ [a]) s) (hstk : Stacked g code inst)
    (hs : Shaped g inst s)
    (ht : ∀ d ∈ inst.stack, State.SameAt t (s.storeAll (exec g s inst.pop)) d) :
    StackHolds f g inst as t := by
  have hlen : as.length + 1 ≤ inst.room g := by simpa using h.bounded
  have hsp : (s.read inst.sp).toNat = as.length + 1 := by simpa using h.pointer
  have htop := hstk.eval_stackTop hsp hlen
  have hwrite : exec g s inst.pop = [⟨inst.sp, none, eval g s (stackTop inst)⟩] :=
    hstk.exec_pointer .sub rfl (by rw [← Expr.minus, ← stackTop, htop]; omega)
  have hother : ∀ d ∈ inst.returnAddr :: inst.args, State.SameAt t s d := by
    intro d hd
    refine (ht d (List.mem_cons_of_mem _ (List.mem_cons_of_mem _ hd))).trans
      (State.storeAll_other fun w hw => ?_)
    rw [hwrite] at hw
    obtain rfl := List.mem_singleton.mp hw
    rintro rfl
    exact (List.nodup_cons.mp hstk.nodup).1 (List.mem_cons_of_mem _ hd)
  refine ⟨?_, by omega, fun k b hk => ?_, fun k b hk i mem hi => ?_⟩
  · rw [(ht inst.sp (by simp [Instance.stack])).read, hwrite,
      State.read_storeAll_once s (by simp) List.mem_cons_self hs.pointer, htop]
  · rw [(hother inst.returnAddr List.mem_cons_self).word]
    exact h.addresses k b (List.getElem?_append_left (List.getElem?_eq_some_iff.mp hk).1 ▸ hk)
  · rw [(hother mem (List.mem_cons_of_mem _ (List.mem_of_getElem? hi))).word]
    exact h.arguments k b (List.getElem?_append_left (List.getElem?_eq_some_iff.mp hk).1 ▸ hk) i
      mem hi

/-- A cleared pointer stands for an empty stack, whatever the memories hold. -/
theorem StackHolds.empty (hsp : s.read inst.sp = 0) : StackHolds f g inst [] s :=
  ⟨by rw [hsp]; rfl, Nat.zero_le _, by simp, by simp⟩

/-- The address on top of a stack is the code of the state that the newest activation comes back
to. -/
theorem StackHolds.eval_leave (h : StackHolds f g inst (as ++ [a]) s)
    (hstk : Stacked g f.type inst) (hsize : f.Sized g)
    (hcode : (f.code a.resume).toNat < 2 ^ f.registerWidth) :
    eval g s (.index inst.returnAddr (stackTop inst)) = Word.ofUInt64 (f.code a.resume) := by
  have hlen : as.length + 1 ≤ inst.room g := by simpa using h.bounded
  have hsp : (s.read inst.sp).toNat = as.length + 1 := by simpa using h.pointer
  rw [eval, hstk.eval_stackTop hsp hlen, h.addresses _ a (by simp), hstk.address_type, hsize.type,
    hsize.registerBits, Word.truncate_of_lt (by simpa using hcode)]

/-- The formals of a body are the arguments of the newest activation. -/
theorem StackHolds.eval_formal (h : StackHolds f g inst (as ++ [a]) s)
    (hstk : Stacked g code inst) {i : Nat} {mem : SignalId} (hi : inst.args[i]? = some mem) :
    a.args[i]? = some (eval g s (.index mem (stackTop inst))) := by
  have hlen : as.length + 1 ≤ inst.room g := by simpa using h.bounded
  have hsp : (s.read inst.sp).toNat = as.length + 1 := by simpa using h.pointer
  obtain ⟨harg, hfit⟩ := h.arguments as.length a (by simp) i mem hi
  rw [eval, hstk.eval_stackTop hsp hlen, Word.truncate_of_lt hfit, harg]

end Effects

end Lockstep.Program
