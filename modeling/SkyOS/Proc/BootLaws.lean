import SkyOS.Proc.Boot

/-!
# What interrupts do to the boot

An interrupt before the `sret` of `trap_return` puts the kernel's own stack
pointer into the context of the first process, or stops the boot.
-/

namespace SkyOS

open ByteMem

-- ---------------------------------------------------------------------------
-- The context of a process that has not run
-- ---------------------------------------------------------------------------

/-- The context that `execve` makes for a process whose slot was not used. -/
def firstContext (e : ℕ) : Context := ⟨Function.update (fun _ => 0) .sp sv39UserSpAddr, e⟩

def Unused (c : Context) : Prop := c.reg = (fun _ => 0) ∨ c.reg = (firstContext 0).reg

section
variable {L : Layout} {k k' : Kernel}

theorem Unused.set_sp {c : Context} (h : Unused c) : Unused (c.set .sp sv39UserSpAddr) := by
  right
  rcases h with h | h <;> simp [Context.set, h, firstContext]

theorem Unused.first {c : Context} (h : Unused c) (hs : c.reg .sp = sv39UserSpAddr) :
    c = firstContext c.sepc := by
  obtain ⟨reg, sepc⟩ := c
  rcases h with h | h
  · have h0 : reg .sp = 0 := congrFun h .sp
    exact absurd (hs.symm.trans h0) (by decide)
  · simp only at h
    rw [h]
    rfl

theorem setTask_reg (k : Kernel) (h : t.context.reg = (k.task p).context.reg) (q : ℕ) :
    ((k.setTask p t).task q).context.reg = (k.task q).context.reg := by
  by_cases hq : q = p
  · subst hq
    simpa [Kernel.setTask] using h
  · simp [Kernel.setTask, hq]

/-- A step of `execve` leaves the registers of a process alone, or gives it its
stack. -/
theorem ExecOp.frame (h : ExecOp L k k') : k'.currentTask = k.currentTask ∧ k'.csr = k.csr ∧
    ∀ q, (k'.task q).context.reg = (k.task q).context.reg ∨
      (k'.task q).context.reg = ((k.task q).context.set .sp sv39UserSpAddr).reg := by
  cases h with
  | process ha =>
    obtain ⟨-, t, heap, -, -, rfl⟩ := allocProcess_ok.mp ha
    rename_i p
    refine ⟨by rw [withProcess], by rw [withProcess], fun q => ?_⟩
    by_cases hq : q = p
    · subst hq
      exact .inr (by simp [withProcess])
    · exact .inl (by simp [withProcess, hq])
  | name => exact ⟨rfl, rfl, fun q => .inl (setTask_reg k (by rfl) q)⟩
  | load hl =>
    cases hl with
    | alloc ha =>
      obtain ⟨heap, -, rfl⟩ := alloc_ok.mp ha
      exact ⟨rfl, rfl, fun _ => .inl rfl⟩
    | store => exact ⟨rfl, rfl, fun _ => .inl rfl⟩
    | umap hu => exact ⟨(SameSlices.umap hu).current, umap_csr hu,
        fun q => .inl (by rw [umap_context hu])⟩
  | entry => exact ⟨rfl, rfl, fun q => .inl (setTask_reg k (by rfl) q)⟩

theorem ExecOp.unused (h : ExecOp L k k') (hb : ∀ q, Unused (k.task q).context) :
    ∀ q, Unused (k'.task q).context := by
  intro q
  rcases h.frame.2.2 q with hq | hq
  · simpa only [Unused, hq] using hb q
  · simpa only [Unused, hq] using (hb q).set_sp

theorem ExecOps.sp (h : ExecOps L k k') (hs : (k.task q).context.reg .sp = sv39UserSpAddr) :
    (k'.task q).context.reg .sp = sv39UserSpAddr := by
  induction h with
  | refl => exact hs
  | tail _ h1 ih =>
    rcases h1.frame.2.2 q with hq | hq
    · rw [hq, ih]
    · rw [hq, Context.set_self]

theorem execve_sp (h : execve L junk filename file k = .ok (entered p a s k')) :
    (k'.task p).context.reg .sp = sv39UserSpAddr := by
  obtain ⟨p', a', s', k₁, k₅, h1, h2, h3⟩ := execve_ops h
  obtain ⟨-, t, heap, -, -, rfl⟩ := allocProcess_ok.mp h1
  have hsp := h2.sp (q := p') (by simp [withProcess])
  obtain rfl : p = p' := Option.some.inj (congrArg Kernel.currentTask h3)
  have hreg := congrArg (fun k : Kernel => (k.task p).context.reg .sp) h3
  simpa [entered, Kernel.setTask, hsp] using hreg

end

-- ---------------------------------------------------------------------------
-- One instruction of trap_return
-- ---------------------------------------------------------------------------

def Instr.dest : Instr → Option Reg
  | .csrrwA0Sscratch => some .a0
  | .ld rd _ | .csrr rd _ => some rd
  | .laSpKernelStackTop => some .sp
  | .sd _ _ | .csrw _ _ => none

def Instr.swaps : Instr → Bool
  | .csrrwA0Sscratch | .csrw .sscratch _ => true
  | _ => false

def Instr.stores : Instr → Bool
  | .sd _ _ => true
  | _ => false

structure InstrFrame (ins : Instr) (m m' : Machine) : Prop where
  mode : m'.mode = m.mode
  current : m'.kernel.currentTask = m.kernel.currentTask
  sstatus : m'.csr.sstatus = m.csr.sstatus
  reg : ∀ r, ins.dest ≠ some r → m'.reg r = m.reg r
  sscratch : ins.swaps = false → m'.csr.sscratch = m.csr.sscratch
  word : ins.stores = false → m'.word = m.word

section
variable {I : Image} {m m' : Machine} {ins : Instr}

theorem exec_frame (h : ins.exec I m = .ok m') : InstrFrame ins m m' := by
  have hne : ∀ {a r : Reg}, some a ≠ some r → r ≠ a := fun h he => h (congrArg some he.symm)
  have htrue : ∀ {p : Prop}, true = false → p := fun h => absurd h (by decide)
  cases ins with
  | sd rs o =>
    simp only [Instr.exec, bind_ok, pure_ok] at h
    obtain ⟨-, -, rfl⟩ := h
    exact ⟨rfl, rfl, rfl, fun _ _ => rfl, fun _ => rfl, htrue⟩
  | ld rd o =>
    simp only [Instr.exec, bind_ok, pure_ok] at h
    obtain ⟨-, -, rfl⟩ := h
    exact ⟨rfl, rfl, rfl, fun r hr => Function.update_of_ne (hne hr) _ _, fun _ => rfl,
      fun _ => rfl⟩
  | csrw c rs =>
    cases c <;> cases h
    · exact ⟨rfl, rfl, rfl, fun _ _ => rfl, fun _ => rfl, fun _ => rfl⟩
    · exact ⟨rfl, rfl, rfl, fun _ _ => rfl, htrue, fun _ => rfl⟩
  | csrrwA0Sscratch =>
    cases h
    exact ⟨rfl, rfl, rfl, fun r hr => Function.update_of_ne (hne hr) _ _, htrue, fun _ => rfl⟩
  | _ =>
    cases h
    exact ⟨rfl, rfl, rfl, fun r hr => Function.update_of_ne (hne hr) _ _, fun _ => rfl,
      fun _ => rfl⟩

theorem exec_pc (h : ins.exec I m = .ok m') (v : ℕ) : ins.exec I { m with pc := v } =
    .ok { m' with pc := v } := by
  cases ins with
  | sd | ld =>
    simp only [Instr.exec, bind_ok, pure_ok] at h ⊢
    obtain ⟨u, hu, rfl⟩ := h
    exact ⟨u, hu, rfl⟩
  | _ => cases h; rfl

theorem runInstrs_pc (h : runInstrs I m l = .ok m') (v : ℕ) :
    runInstrs I { m with pc := v } l = .ok { m' with pc := v } := by
  induction l generalizing m with
  | nil => cases h; rfl
  | cons ins l ih =>
    rw [runInstrs_cons, bind_ok] at h
    obtain ⟨m₁, h1, h2⟩ := h
    rw [runInstrs_cons, exec_pc h1 v, ok_bind]
    exact ih h2

theorem trapReturn_get : ∀ i : Fin trapReturn.length, (trapReturn.get i).stores = false ∧
    (i.val ≠ 34 → (trapReturn.get i).dest ≠ some .a0) ∧
    (i.val ≠ 5 → (trapReturn.get i).dest ≠ some .sp) ∧
    (i.val ≠ 1 → i.val ≠ 34 → (trapReturn.get i).swaps = false) ∧
    (i.val = 0 → trapReturn.get i = .ld .t0 72) ∧
    (i.val = 1 → trapReturn.get i = .csrw .sscratch .t0) ∧
    (i.val = 5 → trapReturn.get i = .ld .sp 8) := by decide

theorem trapReturn_at (h : trapReturn[i]? = some ins) : i < 35 ∧ ins.stores = false ∧
    (i ≠ 34 → ins.dest ≠ some .a0) ∧ (i ≠ 5 → ins.dest ≠ some .sp) ∧
    (i ≠ 1 → i ≠ 34 → ins.swaps = false) ∧
    (i = 0 → ins = .ld .t0 72) ∧ (i = 1 → ins = .csrw .sscratch .t0) ∧
    (i = 5 → ins = .ld .sp 8) := by
  obtain ⟨hi, rfl⟩ := List.getElem?_eq_some_iff.mp h
  exact ⟨hi, trapReturn_get ⟨i, hi⟩⟩

end

-- ---------------------------------------------------------------------------
-- A boot without interrupts, or with those at the sret
-- ---------------------------------------------------------------------------

structure Booting (I : Image) (m : Machine) : Prop where
  mode : m.mode = .supervisor
  stack : OnStack I m.reg
  sscratch : m.csr.sscratch = I.sscratchStack
  current : m.kernel.currentTask = none
  unused : ∀ q, Unused (m.kernel.task q).context
  word : ∀ a, m.word a < 256 ^ 8

structure Switching (I : Image) (e : ℕ) (m : Machine) : Prop where
  mode : m.mode = .supervisor
  stack : OnStack I m.reg
  sscratch : m.csr.sscratch = I.sscratchStack
  current : ∃ p, m.kernel.currentTask = some p ∧ (m.kernel.task p).context = firstContext e
  word : ∀ a, m.word a < 256 ^ 8
  entry : e < 256 ^ 8

def Copied (c : Context) (a i : ℕ) (w : ℕ → ℕ) : Prop := ∀ j < 32,
  w (a + 8 * j) % 256 ^ min 8 (i - 8 * j) = c.store a w (a + 8 * j) % 256 ^ min 8 (i - 8 * j)

/-- In `trap_return` with the context of a process that has not run. `v` is what
ends up in `sepc`. -/
structure Returning (I : Image) (e v i : ℕ) (m : Machine) : Prop where
  bound : i ≤ 35
  mode : m.mode = .supervisor
  current : ∃ p, m.kernel.currentTask = some p
  pc : m.pc = I.trapReturn i
  a0 : i < 35 → m.reg .a0 = I.sscratchStack
  stack : i ≤ 5 → OnStack I m.reg
  load : i < 35 → Context.load m.word I.sscratchStack = firstContext e
  saved : i < 2 → m.csr.sscratch = I.sscratchStack
  t0 : i = 1 → m.reg .t0 = 0
  lost : 2 ≤ i → i < 35 → m.csr.sscratch = 0
  spp : m.csr.sstatus.testBit 8 = false
  rest : ∃ m', runInstrs I m (trapReturn.drop i) = .ok m' ∧ m'.reg = (firstContext e).reg ∧
    m'.csr.sepc = v ∧ m'.csr.sscratch = I.sscratchStack

def Clean (I : Image) (e : ℕ) (t : List Interrupt) : BootPoint → Machine → Prop
  | .booting, m => t = [] ∧ Booting I m
  | .switching i, m => t = [] ∧ Switching I e m ∧ (1 ≤ i → m.csr.sstatus.testBit 8 = false)
  | .copying i, m => t = [] ∧ Switching I e m ∧ m.csr.sstatus.testBit 8 = false ∧
      Copied (firstContext e) I.sscratchStack i m.word
  | .returning i, m => (i < 35 → t = []) ∧ Returning I e (if t = [] then e else I.trapReturn 35) i m
  | .started, m => m.mode = .user ∧ m.pc = (if t = [] then e else I.trapReturn 35) ∧
      m.reg .sp = sv39UserSpAddr
  | .stuck, _ => False

-- ---------------------------------------------------------------------------
-- A boot with another interrupt
-- ---------------------------------------------------------------------------

/-- The kernel's stack pointer is in the context of the first process. -/
structure Overwritten (I : Image) (m : Machine) : Prop where
  mode : m.mode = .supervisor
  stack : OnStack I m.reg
  sscratch : m.csr.sscratch = I.sscratchStack
  context : ∃ p, m.kernel.currentTask = some p ∧ (m.kernel.task p).context.reg .sp ≠
      sv39UserSpAddr ∧
    Context.load m.word I.sscratchStack = (m.kernel.task p).context

def Spoiled (I : Image) : BootPoint → Machine → Prop
  | .booting, _ => False
  | .switching _, m | .copying _, m => Overwritten I m
  | .returning i, m => m.mode = .supervisor ∧ (i < 35 → m.reg .a0 = I.sscratchStack) ∧
      m.reg .sp ≠ sv39UserSpAddr ∧ (i ≤ 5 → m.word (I.sscratchStack + 8) ≠ sv39UserSpAddr)
  | .started, m => m.reg .sp ≠ sv39UserSpAddr
  | .stuck, _ => True

-- ---------------------------------------------------------------------------
-- The bytes of a context
-- ---------------------------------------------------------------------------

theorem contextOffsets_dense : ∀ j : Fin 31, 8 * j.val ∈ contextOffsets.map Prod.snd := by decide

theorem contextOffsets_dvd : ∀ x ∈ contextOffsets, 8 ∣ x.2 := by decide

theorem Context.store_cases (c : Context) (a : ℕ) (hj : j < 32) :
    (∃ r, ∀ w, c.store a w (a + 8 * j) = c.reg r) ∨
    ∀ w, c.store a w (a + 8 * j) = c.sepc := by
  by_cases h31 : j = 31
  · subst h31
    exact .inr fun w => Function.update_self _ _ _
  · have hne : a + 8 * j ≠ a + contextSepc := by simp only [contextSepc]; omega
    obtain ⟨y, hy, hj⟩ := List.mem_map.mp (contextOffsets_dense ⟨j, by omega⟩)
    refine .inl ⟨y.1, fun w => ?_⟩
    rw [Context.store, Function.update_of_ne hne, ← hj,
      Spill.store_inside w contextOffsets_nodup hy]

theorem Context.store_at (c : Context) (a : ℕ) (w w' : ℕ → ℕ) (hj : j < 32) :
    c.store a w (a + 8 * j) = c.store a w' (a + 8 * j) := by
  rcases c.store_cases a hj with ⟨r, hr⟩ | hs
  · rw [hr w, hr w']
  · rw [hs w, hs w']

theorem Context.load_congr (h : ∀ j < 32, w (a + 8 * j) = w' (a + 8 * j)) :
    Context.load w a = Context.load w' a := by
  refine Context.eq_of (fun r => ?_) (h 31 (by decide))
  obtain ⟨o, ho⟩ := contextOffsets_all r
  have hlt := contextOffsets_lt _ ho
  obtain ⟨j, rfl⟩ := contextOffsets_dvd _ ho
  rw [Context.load_reg w a ho, Context.load_reg w' a ho]
  exact h j (by simp only [contextSepc] at hlt; omega)

theorem copied_zero (c : Context) (a : ℕ) (w : ℕ → ℕ) : Copied c a 0 w :=
  fun j _ => by simp [Nat.mod_one]

theorem Copied.byte {c : Context} (h : Copied c a i w) :
    Copied c a (i + 1) (c.storeByte a i w) := by
  intro j hj
  rw [c.store_at a _ w hj]
  by_cases hd : j = i / 8
  · have hmin : min 8 (i - 8 * (i / 8)) = i % 8 := by omega
    have hmin' : min 8 (i + 1 - 8 * (i / 8)) = i % 8 + 1 := by omega
    have hb := h j hj
    subst hd
    rw [hmin] at hb
    rw [hmin', Context.storeByte, Function.update_self]
    exact Spill.putByte_mod hb
  · rw [Context.storeByte, Function.update_of_ne (by omega),
        show min 8 (i + 1 - 8 * j) = min 8 (i - 8 * j) by omega]
    exact h j hj

theorem Copied.load {c : Context} (h : Copied c a contextSize w) (hw : ∀ x, w x < 256 ^ 8)
    (hr : ∀ r, c.reg r < 256 ^ 8) (hs : c.sepc < 256 ^ 8) : Context.load w a = c := by
  have hst : ∀ j < 32, c.store a w (a + 8 * j) < 256 ^ 8 := fun j hj => by
    rcases c.store_cases a hj with ⟨r, h⟩ | h
    · exact h w ▸ hr r
    · exact h w ▸ hs
  rw [← c.load_store a w]
  refine Context.load_congr fun j hj => ?_
  have hb := h j hj
  rw [show min 8 (contextSize - 8 * j) = 8 by simp only [contextSize]; omega,
      Nat.mod_eq_of_lt (hw _),
    Nat.mod_eq_of_lt (hst j hj)] at hb
  rw [hb]

section
variable {I : Image} {m m' : Machine}

theorem OnStack.not_user {reg : Reg → ℕ} (h : OnStack I reg) : reg .sp ≠ sv39UserSpAddr := by
  have h1 := I.small
  have h2 := h.2
  simp only [kernelStart, sv39UserSpAddr] at *
  omega

theorem Context.storeByte_load (h : Context.load w a = c) (i : ℕ) : c.storeByte a i w = w := by
  rw [Context.storeByte, Context.store_load h, Spill.putByte_self, Function.update_eq_self]

theorem trap_lost (h : m.csr.sscratch = 0) : trap I cause m ≠ .ok r := by
  cases he : runInstrs I (m.take cause) trapEntry with
  | error e => rw [trap_fails he]; nofun
  | ok m₁ =>
    obtain ⟨harea, -⟩ := trapEntry_inv he
    have harea : saveArea I m.csr.sscratch = .ok () := harea
    have h1 := I.stack_ge
    rw [h, saveArea_ok] at harea
    simp only [kernelStart] at *
    omega

theorem Continues.overwritten (h : Continues I p m m') (hs : OnStack I m.reg) :
    Overwritten I m' where
  mode := h.mode
  stack := h.reg ▸ hs
  sscratch := h.sscratch
  context := ⟨p, h.current, by rw [h.context]; exact hs.not_user, by rw [h.load, h.context]⟩

theorem Continues.word (h : Continues I p m m') : m'.word (I.sscratchStack + 8) = m.reg .sp := by
  have h1 := Context.load_reg m'.word I.sscratchStack (r := .sp) (o := 8) (by decide)
  rw [← h1, h.load]

-- ---------------------------------------------------------------------------
-- Spoiled boots
-- ---------------------------------------------------------------------------

theorem Spoiled.timer (h : Spoiled I o m) (ho : ¬ o.final) (hc : Continues I p m m') :
    Spoiled I o m' := by
  match o, h with
  | .switching _, h | .copying _, h => exact hc.overwritten h.stack
  | .returning i, ⟨_, ha, hsp, _⟩ =>
    exact ⟨hc.mode, fun hi => hc.reg ▸ ha hi, hc.reg ▸ hsp, fun _ => hc.word ▸ hsp⟩
  | .started, _ => exact absurd (.inl rfl) ho
  | .stuck, _ => exact trivial

theorem Spoiled.code (h : Spoiled I o m) (ho : o.compiled) (hs : OnStack I reg) :
    Spoiled I o { m with reg, pc } := by
  match o, h with
  | .switching _, h | .copying _, h => exact ⟨h.mode, hs, h.sscratch, h.context⟩

theorem Overwritten.setCsr (h : Overwritten I m) {c : Csr} (hc : c.sscratch = m.csr.sscratch) :
    Overwritten I (m.setCsr c) := ⟨h.mode, h.stack, hc.trans h.sscratch, h.context⟩

theorem Overwritten.byte (h : Overwritten I m) (hp : m.kernel.currentTask = some p) (i : ℕ) :
    Overwritten I { m with word :=
      (m.kernel.task p).context.storeByte I.sscratchStack i m.word } := by
  obtain ⟨q, hq, -, hload⟩ := h.context
  obtain rfl : p = q := Option.some.inj (hp.symm.trans hq)
  rw [Context.storeByte_load hload]
  exact h

theorem Overwritten.call (h : Overwritten I m) : Spoiled I (.returning 0)
    { m with reg := Function.update m.reg .a0 I.sscratchStack, pc := pc } := by
  obtain ⟨p, -, hsp, hload⟩ := h.context
  refine ⟨h.mode, fun _ => by simp, by simpa using h.stack.not_user, fun _ => ?_⟩
  have h1 := Context.load_reg m.word I.sscratchStack (r := .sp) (o := 8) (by decide)
  rw [← h1, hload]
  exact hsp

theorem Spoiled.instr (h : Spoiled I (.returning i) m) (hi : trapReturn[i]? = some ins)
    (he : ins.exec I m = .ok m') :
    Spoiled I (.returning (i + 1)) { m' with pc := pc } := by
  obtain ⟨hmode, ha, hsp, hword⟩ := h
  obtain ⟨hlt, hst, hda, hds, -, -, -, h5⟩ := trapReturn_at hi
  have hf := exec_frame he
  refine ⟨hf.mode.trans hmode, fun _ => (hf.reg _ (hda (by omega))).trans (ha hlt), ?_, fun _ => ?_⟩
  · by_cases hi5 : i = 5
    · obtain rfl := h5 hi5
      rw [exec_ld (ha hlt) (by decide) (by decide), Except.ok.injEq] at he
      rw [← he]
      simpa using hword hi5.le
    · exact (hf.reg _ (hds hi5)).trans_ne hsp
  · rw [hf.word hst]
    exact hword (by omega)

-- ---------------------------------------------------------------------------
-- Clean boots
-- ---------------------------------------------------------------------------

theorem Booting.op (h : Booting I m) (ho : ExecOp I.toLayout m.kernel k) :
    Booting I { m with kernel := k } := by
  obtain ⟨hcur, hcsr, -⟩ := ho.frame
  exact ⟨h.mode, h.stack, (congrArg Csr.sscratch hcsr).trans h.sscratch, hcur.trans h.current,
    ho.unused h.unused, h.word⟩

theorem Booting.switching (h : Booting I m) (he : e < 256 ^ 8)
    (hx : execve I.toLayout junk name file k₀ = .ok (entered p a s k))
    (hk : m.kernel = k.setTask p { k.task p with context :=
      { (k.task p).context with sepc := e } }) :
    Switching I e { m with kernel := { m.kernel with currentTask := some p } } := by
  refine ⟨h.mode, h.stack, h.sscratch, ⟨p, rfl, ?_⟩, h.word, he⟩
  have hctx : (m.kernel.task p).context = { (k.task p).context with sepc := e } := by
    simp [hk, Kernel.setTask]
  have hsp : (m.kernel.task p).context.reg .sp = sv39UserSpAddr := by
    rw [hctx]
    exact execve_sp hx
  show (m.kernel.task p).context = firstContext e
  rw [(h.unused p).first hsp, hctx]

theorem Switching.setCsr (h : Switching I e m) {c : Csr} (hc : c.sscratch = m.csr.sscratch) :
    Switching I e (m.setCsr c) := ⟨h.mode, h.stack, hc.trans h.sscratch, h.current, h.word, h.entry⟩

theorem Switching.byte (h : Switching I e m) (c : Context) (i : ℕ) :
    Switching I e { m with word := c.storeByte I.sscratchStack i m.word } := by
  refine ⟨h.mode, h.stack, h.sscratch, h.current, fun x => ?_, h.entry⟩
  by_cases hx : x = I.sscratchStack + 8 * (i / 8)
  · subst hx
    simp only [Context.storeByte, Function.update_self]
    exact Spill.putByte_lt (h.word _) (Nat.mod_lt _ (by decide))
  · simpa only [Context.storeByte, Function.update_of_ne hx] using h.word x

theorem firstContext_lt (he : e < 256 ^ 8) :
    (∀ r, (firstContext e).reg r < 256 ^ 8) ∧ (firstContext e).sepc < 256 ^ 8 :=
  ⟨fun r => by show (firstContext 0).reg r < _; cases r <;> decide, he⟩

theorem Switching.call (h : Switching I e m) (hspp : m.csr.sstatus.testBit 8 = false)
    (hc : Copied (firstContext e) I.sscratchStack contextSize m.word) : Returning I e e 0
      { m with reg := Function.update m.reg .a0 I.sscratchStack, pc := I.trapReturn 0 } := by
  obtain ⟨p, hp, -⟩ := h.current
  have hload := hc.load h.word (firstContext_lt h.entry).1 (firstContext_lt h.entry).2
  exact {
    bound := by decide
    mode := h.mode
    current := ⟨p, hp⟩
    pc := rfl
    a0 := fun _ => by simp
    stack := fun _ => by simpa [OnStack] using h.stack
    load := fun _ => hload
    saved := fun _ => h.sscratch
    t0 := fun h0 => absurd h0 (by decide)
    lost := fun h0 => absurd h0 (by decide)
    spp := hspp
    rest := ⟨_, trapReturn_ok (by simp) hload, rfl, rfl, rfl⟩ }

theorem trapReturn_drop (hi : trapReturn[i]? = some ins) :
    trapReturn.drop i = ins :: trapReturn.drop (i + 1) := by
  obtain ⟨h, rfl⟩ := List.getElem?_eq_some_iff.mp hi
  exact List.drop_eq_getElem_cons h

theorem Returning.runs (h : Returning I e v i m) (hi : trapReturn[i]? = some ins) :
    ∃ m', ins.exec I m = .ok m' := by
  obtain ⟨m₁, hrest, -⟩ := h.rest
  rw [trapReturn_drop hi, runInstrs_cons, bind_ok] at hrest
  obtain ⟨m', h', -⟩ := hrest
  exact ⟨m', h'⟩

theorem Returning.instr (h : Returning I e v i m) (hi : trapReturn[i]? = some ins)
    (he : ins.exec I m = .ok m') :
    Returning I e v (i + 1) { m' with pc := I.trapReturn (i + 1) } := by
  obtain ⟨hlt, hst, hda, hds, hsw, h0, h1, -⟩ := trapReturn_at hi
  have hf := exec_frame he
  obtain ⟨m₁, hrest, hreg, hsepc, hscr⟩ := h.rest
  rw [trapReturn_drop hi, runInstrs_cons, he, ok_bind] at hrest
  have hload := h.load hlt
  exact {
    bound := hlt
    mode := hf.mode.trans h.mode
    current := hf.current ▸ h.current
    pc := rfl
    a0 := fun _ => (hf.reg _ (hda (by omega))).trans (h.a0 hlt)
    stack := fun hi5 => by
      have hsp : m'.reg .sp = m.reg .sp := hf.reg _ (hds (by omega))
      simpa only [OnStack, hsp] using h.stack (by omega)
    load := fun _ => (congrArg (Context.load · _) (hf.word hst)).trans hload
    saved := fun hi2 => (hf.sscratch (hsw (by omega) (by omega))).trans (h.saved (by omega))
    t0 := fun hi1 => by
      obtain rfl := h0 (by omega)
      rw [exec_ld (h.a0 hlt) (by decide) (by decide), Except.ok.injEq] at he
      have h72 := Context.load_reg m.word I.sscratchStack (r := .a0) (o := 72) (by decide)
      rw [← he]
      simpa [hload, firstContext] using h72.symm
    lost := fun h2 hi35 => by
      by_cases hi1 : i = 1
      · obtain rfl := h1 hi1
        cases he
        exact h.t0 hi1
      · exact (hf.sscratch (hsw hi1 (by omega))).trans (h.lost (by omega) hlt)
    spp := (congrArg (Nat.testBit · 8) hf.sstatus).trans h.spp
    rest := ⟨_, runInstrs_pc hrest _, hreg, hsepc, hscr⟩ }

theorem Returning.loaded (h : Returning I e v 35 m) : m.reg = (firstContext e).reg ∧
    m.csr.sepc = v ∧
    m.csr.sscratch = I.sscratchStack := by
  obtain ⟨m₁, hrest, hm⟩ := h.rest
  cases hrest
  exact hm

theorem Returning.sret (h : Returning I e v 35 m) : m.sret.mode = .user ∧ m.sret.pc = v ∧
    m.sret.reg .sp = sv39UserSpAddr := by
  obtain ⟨hreg, hsepc, -⟩ := h.loaded
  refine ⟨?_, hsepc, ?_⟩
  · simp [Machine.sret, and_bit, h.spp]
  · exact (congrFun hreg .sp).trans (by simp [firstContext])

theorem Returning.timer (h : Returning I e v 35 m) (hc : Continues I p m m') :
    Returning I e (I.trapReturn 35) 35 m' where
  bound := le_rfl
  mode := hc.mode
  current := ⟨p, hc.current⟩
  pc := hc.pc.trans h.pc
  a0 h35 := absurd h35 (by decide)
  stack h5 := absurd h5 (by decide)
  load h35 := absurd h35 (by decide)
  saved h2 := absurd h2 (by decide)
  t0 h1 := absurd h1 (by decide)
  lost _ h35 := absurd h35 (by decide)
  spp := hc.spp
  rest := ⟨m', rfl, hc.reg.trans h.loaded.1, hc.sepc.trans h.pc, hc.sscratch⟩

-- ---------------------------------------------------------------------------
-- Runs
-- ---------------------------------------------------------------------------

def AtSret (t : List Interrupt) : Prop := ∀ x ∈ t, x.point = atSret

theorem AtSret.cons : AtSret (x :: t) ↔ x.point = atSret ∧ AtSret t := List.forall_mem_cons

theorem Clean.code (h : Clean I e t o m) (ho : o.compiled) (hs : OnStack I reg) :
    Clean I e t o { m with reg, pc } := by
  match o, h with
  | .booting, ⟨ht, h⟩ => exact ⟨ht, h.mode, hs, h.sscratch, h.current, h.unused, h.word⟩
  | .switching _, ⟨ht, h, hspp⟩ =>
      exact ⟨ht, ⟨h.mode, hs, h.sscratch, h.current, h.word, h.entry⟩, hspp⟩
  | .copying _, ⟨ht, h, hspp, hc⟩ =>
      exact ⟨ht, ⟨h.mode, hs, h.sscratch, h.current, h.word, h.entry⟩, hspp, hc⟩

theorem Clean.byte (h : Clean I e t (.copying i) m) (hp : m.kernel.currentTask = some p) :
    Clean I e t (.copying (i + 1))
    { m with word := (m.kernel.task p).context.storeByte I.sscratchStack i m.word } := by
  obtain ⟨ht, h, hspp, hc⟩ := h
  obtain ⟨q, hq, hctx⟩ := h.current
  obtain rfl := Option.some.inj (hp.symm.trans hq)
  rw [hctx]
  exact ⟨ht, h.byte _ _, hspp, hc.byte⟩

/-- The frame of an interrupt that is not at the `sret` has the kernel's stack
pointer. -/
theorem Clean.timer (h : Clean I e t o m) (ho : ¬ o.final) (hs : o ≠ atSret)
    (ht : trap I timerCause m = .ok (out, m'))
    (hc : Continues I p m m') : Spoiled I o m' := by
  match o, h with
  | .booting, ⟨_, h⟩ =>
    obtain ⟨e, he⟩ := timer_early (I := I) h.current
    rw [he] at ht
    cases ht
  | .switching _, ⟨_, h, _⟩ | .copying _, ⟨_, h, _⟩ => exact hc.overwritten h.stack
  | .returning i, ⟨_, h⟩ =>
    have hlt : i < 35 := lt_of_le_of_ne h.bound fun hi => hs (congrArg BootPoint.returning hi)
    by_cases hi : i < 2
    · have hsp := (h.stack (by omega)).not_user
      exact ⟨hc.mode, fun _ => hc.reg ▸ h.a0 hlt, hc.reg ▸ hsp, fun _ => hc.word ▸ hsp⟩
    · exact absurd ht (trap_lost (h.lost (by omega) hlt))
  | .started, _ => exact absurd (.inl rfl) ho

theorem Clean.mode (h : Clean I e t o m) (ho : ¬ o.final) : m.mode = .supervisor := by
  match o, h with
  | .booting, ⟨_, h⟩ | .switching _, ⟨_, h, _⟩ | .copying _, ⟨_, h, _⟩ | .returning _, ⟨_, h⟩ =>
      exact h.mode
  | .started, _ => exact absurd (.inl rfl) ho

theorem Spoiled.mode (h : Spoiled I o m) (ho : ¬ o.final) : m.mode = .supervisor := by
  match o, h with
  | .switching _, h | .copying _, h => exact Overwritten.mode h
  | .returning _, ⟨h, _⟩ => exact h
  | .started, _ => exact absurd (.inl rfl) ho
  | .stuck, _ => exact absurd (.inr rfl) ho

/-- Interrupts at the `sret` leave the boot clean, all others spoil it. -/
theorem bootRun_inv (hr : BootRun I e t o m) :
    (AtSret t ∧ Clean I e t o m) ∨ (¬ AtSret t ∧ Spoiled I o m) := by
  induction hr with
  | init hst hs hc hctx hw =>
    exact .inl ⟨by simp [AtSret], rfl, rfl, hst, hs, hc,
      fun q => .inl (congrArg Context.reg (hctx q)), hw⟩
  | code hr ho hst ih => exact ih.imp (fun h => ⟨h.1, h.2.code ho hst⟩) fun h =>
      ⟨h.1, h.2.code ho hst⟩
  | op hr ho ih =>
    rcases ih with ⟨ha, ht, h⟩ | ⟨-, h⟩
    · exact .inl ⟨ha, ht, h.op ho⟩
    · exact h.elim
  | store hr ih =>
    rcases ih with ⟨ha, ht, h⟩ | ⟨-, h⟩
    · exact .inl ⟨ha, ht, h.op (.load .store)⟩
    · exact h.elim
  | current hr hx he hk ih =>
    rcases ih with ⟨ha, ht, h⟩ | ⟨-, h⟩
    · exact .inl ⟨ha, ht, h.switching (he ▸ u64_lt _) hx hk, fun h0 => absurd h0 (by decide)⟩
    · exact h.elim
  | user hr ih =>
    rcases ih with ⟨ha, ht, h, -⟩ | ⟨ha, h⟩
    · refine .inl ⟨ha, ht, h.setCsr rfl, fun _ => ?_⟩
      simp [Csr.sstatusSet, clearBit_testBit]
    · exact .inr ⟨ha, h.setCsr rfl⟩
  | satp hr hp ih =>
    rcases ih with ⟨ha, ht, h, hspp⟩ | ⟨ha, h⟩
    · exact .inl ⟨ha, ht, h.setCsr rfl, fun _ => hspp (by decide)⟩
    · exact .inr ⟨ha, h.setCsr rfl⟩
  | memcpy hr ih =>
    rcases ih with ⟨ha, ht, h, hspp⟩ | ⟨ha, h⟩
    · exact .inl ⟨ha, ht, h, hspp (by decide), copied_zero _ _ _⟩
    · exact .inr ⟨ha, h⟩
  | byte hr hi hp ih => exact ih.imp (fun h => ⟨h.1, h.2.byte hp⟩) fun h =>
      ⟨h.1, Overwritten.byte h.2 hp _⟩
  | call hr ih =>
    rcases ih with ⟨ha, ht, h, hspp, hc⟩ | ⟨ha, h⟩
    · refine .inl ⟨ha, fun _ => ht, ?_⟩
      rw [if_pos ht]
      exact h.call hspp hc
    · exact .inr ⟨ha, Overwritten.call h⟩
  | instr hr hi hx ih =>
    rcases ih with ⟨ha, ht, h⟩ | ⟨ha, h⟩
    · exact .inl ⟨ha, fun _ => ht (trapReturn_at hi).1, h.instr hi hx⟩
    · exact .inr ⟨ha, h.instr hi hx⟩
  | fault hr hi hx ih =>
    rcases ih with ⟨ha, ht, h⟩ | ⟨ha, -⟩
    · obtain ⟨m', hm⟩ := h.runs hi
      rw [hm] at hx
      cases hx
    · exact .inr ⟨ha, trivial⟩
  | sret hr ih =>
    rcases ih with ⟨ha, -, h⟩ | ⟨ha, -, -, hsp, -⟩
    · exact .inl ⟨ha, h.sret⟩
    · exact .inr ⟨ha, hsp⟩
  | @timer t o m out m' hr ho ht ih =>
    rcases ih with ⟨ha, h⟩ | ⟨ha, h⟩
    · obtain ⟨p, hc⟩ := timer_ok (h.mode ho) ht
      by_cases hs : o = atSret
      · subst hs
        obtain ⟨-, h⟩ := h
        refine .inl ⟨AtSret.cons.mpr ⟨rfl, ha⟩, fun h35 => absurd h35 (by decide), ?_⟩
        rw [if_neg (by simp)]
        exact h.timer hc
      · exact .inr ⟨fun h' => hs (AtSret.cons.mp h').1, h.timer ho hs ht hc⟩
    · obtain ⟨p, hc⟩ := timer_ok (h.mode ho) ht
      exact .inr ⟨fun h' => ha (AtSret.cons.mp h').2, h.timer ho hc⟩
  | @timerFault t o m e hr ho ht ih =>
    rcases ih with ⟨ha, h⟩ | ⟨ha, -⟩
    · by_cases hs : o = atSret
      · subst hs
        obtain ⟨-, h⟩ := h
        obtain ⟨p, hp⟩ := h.current
        obtain ⟨m', hm, -⟩ := timer_returns h.mode h.loaded.2.2 hp
        rw [hm] at ht
        cases ht
      · exact .inr ⟨fun h' => hs (AtSret.cons.mp h').1, trivial⟩
    · exact .inr ⟨fun h' => ha (AtSret.cons.mp h').2, trivial⟩

theorem bootRun_mode (hr : BootRun I e t o m) (ho : ¬ o.final) : m.mode = .supervisor := by
  rcases bootRun_inv hr with ⟨-, h⟩ | ⟨-, h⟩
  · exact h.mode ho
  · exact h.mode ho

/-- Code that was interrupted goes on as it was, unless the interrupt faults. -/
theorem bootRun_resumed (hr : BootRun I e t o m) (ho : o ≠ .stuck) : ∀ x ∈ t, x.resumed := by
  induction hr with
  | init => simp
  | @timer t o m out m' hr hf ht ih =>
    have hm := bootRun_mode hr hf
    obtain ⟨p, hc⟩ := timer_ok hm ht
    intro x hx
    rcases List.mem_cons.mp hx with rfl | hx
    · exact ⟨m', rfl, hc.reg, hc.pc, hc.mode.trans hm.symm⟩
    · exact ih ho x hx
  | timerFault => exact absurd rfl ho
  | fault => exact absurd rfl ho
  | code _ _ _ ih => exact ih ho
  | store _ ih | user _ ih | memcpy _ ih | call _ ih | sret _ ih => exact ih (by simp)
  | op _ _ ih | satp _ _ ih => exact ih (by simp)
  | byte _ _ _ ih | instr _ _ _ ih => exact ih (by simp)
  | current _ _ _ _ ih => exact ih (by simp)

end

/-- Timer interrupts before the first process runs do no harm if and only if
each one is taken at the very `sret` that starts it, and the entry of the program
is the address of that `sret`. -/
theorem boot_interrupts (hr : BootRun I e t o m) (ho : o.final) :
    Harmless e t o m ↔ ∀ x ∈ t, x.point = atSret ∧ I.trapReturn trapReturn.length = e := by
  constructor
  · rintro ⟨-, rfl, -, he, hsp⟩ x hx
    rcases bootRun_inv hr with ⟨ha, -, hpc, -⟩ | ⟨-, h⟩
    · rw [if_neg (List.ne_nil_of_mem hx)] at hpc
      exact ⟨ha x hx, hpc.symm.trans he⟩
    · exact absurd hsp h
  · intro h
    rcases bootRun_inv hr with ⟨-, hc⟩ | ⟨ha, -⟩
    · rcases ho with rfl | rfl
      · obtain ⟨hmode, hpc, hsp⟩ := hc
        refine ⟨bootRun_resumed hr (by simp), rfl, hmode, ?_, hsp⟩
        rw [hpc]
        split
        · rfl
        · obtain ⟨x, hx⟩ := List.exists_mem_of_ne_nil t ‹_›
          exact (h x hx).2
      · exact hc.elim
    · exact absurd (fun x hx => (h x hx).1) ha

-- ---------------------------------------------------------------------------
-- Runs to the first process
-- ---------------------------------------------------------------------------

section
variable {I : Image} {m : Machine}

theorem BootRun.ops (hr : BootRun I e t .booting m) (h : ExecOps I.toLayout m.kernel k) :
    BootRun I e t .booting { m with kernel := k } := by
  induction h with
  | refl => exact hr
  | tail _ h1 ih => exact ih.op h1

theorem BootRun.exec (hr : ∀ e, BootRun I e [] .booting m)
    (hx : execve I.toLayout junk name file m.kernel = .ok k) :
    ∃ e m', BootRun I e [] (.switching 0) m' ∧ m'.kernel.currentTask = k.currentTask := by
  obtain ⟨p, a, s, k₁, k₅, h1, h2, rfl⟩ := execve_ops hx
  have hops : ExecOps I.toLayout m.kernel k₅ := .trans (.single (.process h1)) h2
  generalize he : u64 ((readElfhdr k₅.phys.mem a).entry + s) = e
  have hentry := ((hr e).ops hops).op (.entry (p := p) (v := e))
  exact ⟨e, _, hentry.current hx he.symm rfl, rfl⟩

theorem BootRun.bytes (hr : BootRun I e t (.copying 0) m) (hp : m.kernel.currentTask = some p)
    (hi : i ≤ contextSize) :
    ∃ w, BootRun I e t (.copying i) { m with word := w } := by
  induction i with
  | zero => exact ⟨m.word, hr⟩
  | succ i ih =>
    obtain ⟨w, hw⟩ := ih (by omega)
    exact ⟨_, hw.byte hi hp⟩

theorem BootRun.instrs (hr : BootRun I e t (.returning i) m)
    (h : runInstrs I m (trapReturn.drop i) = .ok m₁)
    (hi : i + n = trapReturn.length) : ∃ m', BootRun I e t atSret m' := by
  induction n generalizing i m m₁ with
  | zero =>
    obtain rfl : i = trapReturn.length := hi
    exact ⟨m, hr⟩
  | succ n ih =>
    have hlt : i < trapReturn.length := by omega
    have hins : trapReturn[i]? = some trapReturn[i] := List.getElem?_eq_getElem hlt
    rw [trapReturn_drop hins, runInstrs_cons, bind_ok] at h
    obtain ⟨m₂, h1, h2⟩ := h
    exact ih (hr.instr hins h1) (runInstrs_pc h2 _) (by omega)

theorem BootRun.finish (hr : BootRun I e t (.switching 0) m) (hp : m.kernel.currentTask = some p) :
    ∃ m', BootRun I e t atSret m' := by
  obtain ⟨w, hw⟩ := (hr.user.satp hp).memcpy.bytes hp le_rfl
  exact hw.call.instrs (n := 35) (trapReturn_ok (by simp) rfl) rfl

end

-- ---------------------------------------------------------------------------
-- Three boots
-- ---------------------------------------------------------------------------

def sampleImage : Image where
  toLayout := sampleLayout
  sscratchStack := 0x802ff000
  trapReturn i := 0x80200000 + 4 * min i 64
  stack_ge := by decide
  stack_le := by decide
  stack_dvd := by decide
  text_ge i := by simp only [kernelStart]; omega
  text_lt i := by simp only [sampleLayout]; omega

theorem boots_to_execve : ∃ m k, (∀ e, BootRun sampleImage e [] .booting m) ∧
    m.kernel.currentTask = none ∧
    execve sampleLayout 0 (fun _ => 0) emptyElf m.kernel = .ok k ∧ k.currentTask = some 0 := by
  obtain ⟨k, k₅, a, D, -, -, hcur, hcsr, hctx, hx, -⟩ := starts sampleLayout zeroed 0 (fun _ => 0)
    ⟨sstatusSie, 0, 0, 0x802ff000, 0, 0, 0, 0⟩
  refine ⟨⟨.supervisor, fun _ => 0x80280000, 0x80200000, fun _ => 0, k⟩, _, fun e => ?_, hcur,
    hx, rfl⟩
  exact .init ⟨by decide, by decide⟩ (by rw [hcsr]; rfl) hcur hctx fun _ => by decide

theorem boots_to_switch : ∃ e m, BootRun sampleImage e [] (.switching 0) m ∧
    m.kernel.currentTask = some 0 := by
  obtain ⟨m, k, hr, -, hx, hk⟩ := boots_to_execve
  obtain ⟨e, m₁, h1, hp⟩ := BootRun.exec hr hx
  exact ⟨e, m₁, h1, hp.trans hk⟩

theorem interrupted_switch : ∃ e x m, BootRun sampleImage e [x] .started m ∧
    x.point = .switching 0 := by
  obtain ⟨e, m₁, h1, hp⟩ := boots_to_switch
  rcases bootRun_inv h1 with ⟨-, -, hc, -⟩ | ⟨h, -⟩
  · obtain ⟨m₂, ht, hcont⟩ := timer_returns hc.mode hc.sscratch hp
    obtain ⟨m₃, h3⟩ := (h1.timer (by simp [BootPoint.final]) ht).finish hcont.current
    exact ⟨e, _, _, h3.sret, rfl⟩
  · exact absurd (by simp [AtSret]) h

theorem interrupted_sret : ∃ e x m, BootRun sampleImage e [x] .started m ∧ x.point = atSret := by
  obtain ⟨e, m₁, h1, hp⟩ := boots_to_switch
  obtain ⟨m₂, h2⟩ := h1.finish hp
  rcases bootRun_inv h2 with ⟨-, -, hc⟩ | ⟨h, -⟩
  · obtain ⟨p, hp⟩ := hc.current
    obtain ⟨m₃, ht, -⟩ := timer_returns hc.mode hc.loaded.2.2 hp
    exact ⟨e, _, _, (h2.timer (by simp [BootPoint.final]) ht).sret, rfl⟩
  · exact absurd (by simp [AtSret]) h

/-- One interrupt before the context is copied, and one at the `sret`. -/
theorem boot_interrupts_sampleImage : (∃ e x m, BootRun sampleImage e [x] .started m ∧
      x.point = .switching 0 ∧ ¬ Harmless e [x] .started m) ∧
    ∃ e x m, BootRun sampleImage e [x] .started m ∧ x.point = atSret ∧
      (Harmless e [x] .started m ↔ sampleImage.trapReturn trapReturn.length = e) := by
  constructor
  · obtain ⟨e, x, m, hr, hx⟩ := interrupted_switch
    refine ⟨e, x, m, hr, hx, fun h => ?_⟩
    have := ((boot_interrupts hr (.inl rfl)).mp h x (List.mem_singleton.mpr rfl)).1
    rw [hx] at this
    cases this
  · obtain ⟨e, x, m, hr, hx⟩ := interrupted_sret
    refine ⟨e, x, m, hr, hx, (boot_interrupts hr (.inl rfl)).trans ?_⟩
    simp [hx]

/-- An interrupt before `current_task` is set stops the boot, and one after it
gives the process the kernel's stack pointer. -/
theorem boot_interrupt_harms :
    (∃ e x m, BootRun sampleImage e [x] .stuck m ∧ x.point = .booting ∧ ¬ x.resumed) ∧
    ∃ e x m, BootRun sampleImage e [x] .started m ∧ x.point = .switching 0 ∧
      m.reg .sp ≠ sv39UserSpAddr := by
  obtain ⟨m, k, hr, hcur, hx, hk⟩ := boots_to_execve
  refine ⟨?_, ?_⟩
  · obtain ⟨e, he⟩ := timer_early (I := sampleImage) hcur
    exact ⟨0, _, m, (hr 0).timerFault (by simp [BootPoint.final]) he, rfl,
      by simp [Interrupt.resumed]⟩
  · obtain ⟨e, x, m, hr, hx⟩ := interrupted_switch
    rcases bootRun_inv hr with ⟨h, -⟩ | ⟨-, h⟩
    · have := h x (List.mem_singleton.mpr rfl)
      rw [hx] at this
      cases this
    · exact ⟨e, x, m, hr, hx, h⟩

end SkyOS
