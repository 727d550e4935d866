import SkyOS.Proc.Slices
import SkyOS.Proc.Trap

/-!
# What a trap does

When `sscratch` points to `sscratch_stack`, `trap_entry` leaves the registers
there as a context, and `trap_return` loads the context that is there.
-/

namespace SkyOS

-- ---------------------------------------------------------------------------
-- struct context
-- ---------------------------------------------------------------------------

theorem contextOffsets_regs : (contextOffsets.map Prod.fst).Nodup := by decide

theorem contextOffsets_nodup : (contextOffsets.map Prod.snd).Nodup := by decide

theorem contextOffsets_lt : ∀ x ∈ contextOffsets, x.2 < contextSepc := by decide

theorem contextOffsets_all (r : Reg) : ∃ o, (r, o) ∈ contextOffsets := by
  cases r <;> simp [contextOffsets]

theorem Context.eq_of {c d : Context} (h : ∀ r, c.reg r = d.reg r) (hs : c.sepc = d.sepc) :
    c = d := by
  obtain ⟨reg, sepc⟩ := c
  obtain rfl : reg = d.reg := funext h
  obtain rfl : sepc = d.sepc := hs
  rfl

theorem Context.load_reg (w : ℕ → ℕ) (a : ℕ) (h : (r, o) ∈ contextOffsets) :
    (Context.load w a).reg r = w (a + o) :=
  Spill.load_inside _ contextOffsets_regs h

theorem Context.load_store (c : Context) (a : ℕ) (w : ℕ → ℕ) :
    Context.load (c.store a w) a = c := by
  refine Context.eq_of (fun r => ?_) ?_
  · obtain ⟨o, ho⟩ := contextOffsets_all r
    have hlt := contextOffsets_lt _ ho
    rw [Context.load_reg _ _ ho, Context.store, Function.update_of_ne (by simp only at hlt; omega)]
    exact Spill.store_inside w contextOffsets_nodup ho
  · rw [Context.load, Context.store, Function.update_self]

theorem Context.store_load (h : Context.load w a = c) : c.store a w = w := by
  subst h
  funext x
  rw [Context.store]
  by_cases hs : x = a + contextSepc
  · rw [hs, Function.update_self]
    rfl
  · rw [Function.update_of_ne hs]
    by_cases hx : ∃ y ∈ contextOffsets, x = a + y.2
    · obtain ⟨⟨r, o⟩, hy, rfl⟩ := hx
      exact (Spill.store_inside w contextOffsets_nodup hy).trans (Context.load_reg w a hy)
    · exact Spill.store_outside fun y hy he => hx ⟨y, hy, he⟩

-- ---------------------------------------------------------------------------
-- Stores and loads
-- ---------------------------------------------------------------------------

section
variable {I : Image} {m : Machine}

@[simp] theorem Machine.setReg_reg (m : Machine) (r : Reg) (v : ℕ) :
    (m.setReg r v).reg = Function.update m.reg r v := rfl
@[simp] theorem Machine.setReg_csr (m : Machine) (r : Reg) (v : ℕ) :
    (m.setReg r v).csr = m.csr := rfl
@[simp] theorem Machine.setCsr_reg (m : Machine) (c : Csr) : (m.setCsr c).reg = m.reg := rfl
@[simp] theorem Machine.setCsr_csr (m : Machine) (c : Csr) : (m.setCsr c).csr = c := rfl

theorem saveArea_ok : saveArea I a = .ok () ↔
    I.sscratchStack ≤ a ∧ a + 8 ≤ I.sscratchStack + 4096 ∧ 8 ∣ a := by
  unfold saveArea
  split
  · simp_all
  · split <;> simp_all

theorem saveArea_at (ho : o + 8 ≤ 4096) (h8 : 8 ∣ o) : saveArea I (I.sscratchStack + o) =
    .ok () := by
  have h3 := I.stack_dvd
  exact saveArea_ok.mpr (by omega)

theorem exec_sd (ha : m.reg .a0 = I.sscratchStack) (ho : o + 8 ≤ 4096) (h8 : 8 ∣ o) :
    Instr.exec I m (.sd r o) =
      .ok { m with word := Function.update m.word (I.sscratchStack + o) (m.reg r) } := by
  rw [Instr.exec, ha, saveArea_at ho h8]
  rfl

theorem exec_ld (ha : m.reg .a0 = I.sscratchStack) (ho : o + 8 ≤ 4096) (h8 : 8 ∣ o) :
    Instr.exec I m (.ld r o) = .ok (m.setReg r (m.word (I.sscratchStack + o))) := by
  rw [Instr.exec, ha, saveArea_at ho h8]
  rfl

theorem exec_sd_ok (h : Instr.exec I m (.sd r o) = .ok m') : saveArea I (m.reg .a0 + o) = .ok () ∧
    m' = { m with word := Function.update m.word (m.reg .a0 + o) (m.reg r) } := by
  simp only [Instr.exec, bind_ok, pure_ok] at h
  obtain ⟨⟨⟩, h, rfl⟩ := h
  exact ⟨h, rfl⟩

theorem runInstrs_cons (i : Instr) (l : List Instr) : runInstrs I m (i :: l) =
    Instr.exec I m i >>= fun m => runInstrs I m l := rfl

theorem runInstrs_append (l l' : List Instr) : runInstrs I m (l ++ l') =
    runInstrs I m l >>= fun m => runInstrs I m l' := List.foldlM_append

theorem runInstrs_sd (ha : m.reg .a0 = I.sscratchStack) (hl : ∀ x ∈ l, x.2 + 8 ≤ 4096 ∧ 8 ∣ x.2) :
    runInstrs I m (l.map fun x => .sd x.1 x.2) =
      .ok { m with word := Spill.store m.reg I.sscratchStack l m.word } := by
  induction l generalizing m with
  | nil => rfl
  | cons x l ih =>
    obtain ⟨h1, h2⟩ := hl x (by simp)
    rw [List.map_cons, runInstrs_cons, exec_sd ha h1 h2, ok_bind, ih]
    · rfl
    · exact ha
    · exact fun y hy => hl y (List.mem_cons_of_mem x hy)

theorem runInstrs_ld (ha : m.reg .a0 = I.sscratchStack)
    (hl : ∀ x ∈ l, x.1 ≠ .a0 ∧ x.2 + 8 ≤ 4096 ∧ 8 ∣ x.2) :
    runInstrs I m (l.map fun x => .ld x.1 x.2) =
      .ok { m with reg := Spill.load m.word I.sscratchStack l m.reg } := by
  induction l generalizing m with
  | nil => rfl
  | cons x l ih =>
    obtain ⟨h0, h1, h2⟩ := hl x (by simp)
    rw [List.map_cons, runInstrs_cons, exec_ld ha h1 h2, ok_bind, ih]
    · rfl
    · simpa [Machine.setReg, Function.update_of_ne h0.symm] using ha
    · exact fun y hy => hl y (List.mem_cons_of_mem x hy)

-- ---------------------------------------------------------------------------
-- trap_entry and trap_return
-- ---------------------------------------------------------------------------

/-- The registers that are stored and loaded in a row: all but `a0`. -/
def rowOffsets : List (Reg × ℕ) := contextOffsets.filter fun x => x.1 != .a0

theorem trapEntry_eq : trapEntry = .csrrwA0Sscratch :: ((rowOffsets.map fun x => .sd x.1 x.2) ++
    [.csrr .t0 .sepc, .sd .t0 248, .csrr .t0 .sscratch, .sd .t0 72,
      .laSpKernelStackTop]) := by decide

theorem trapReturn_eq :
    trapReturn = [.ld .t0 72, .csrw .sscratch .t0, .ld .t0 248, .csrw .sepc .t0] ++
    ((rowOffsets.map fun x => .ld x.1 x.2) ++ [.csrrwA0Sscratch]) := by decide

theorem rowOffsets_ok : ∀ x ∈ rowOffsets, x.1 ≠ .a0 ∧ x.2 + 8 ≤ 4096 ∧ 8 ∣ x.2 ∧ x.2 ≠ 72 ∧
    x.2 ≠ 248 := by decide

theorem rowOffsets_cons : rowOffsets = (.ra, 0) :: rowOffsets.tail := by decide

theorem mem_rowOffsets (h : (r, o) ∈ contextOffsets) (hr : r ≠ .a0) : (r, o) ∈ rowOffsets := by
  simp [rowOffsets, h, hr]

theorem rowOffsets_nodup : (rowOffsets.map Prod.snd).Nodup := by decide

theorem rowOffsets_regs : (rowOffsets.map Prod.fst).Nodup := by decide

theorem runInstrs_sd_ok (h : runInstrs I m (l.map fun y => .sd y.1 y.2) = .ok m') :
    m' = { m with word := Spill.store m.reg (m.reg .a0) l m.word } := by
  induction l generalizing m with
  | nil => cases h; rfl
  | cons y l ih =>
    rw [List.map_cons, runInstrs_cons, bind_ok] at h
    obtain ⟨m₁, h1, h2⟩ := h
    obtain ⟨-, rfl⟩ := exec_sd_ok h1
    exact ih h2

theorem trapEntry_word (reg : Reg → ℕ) (w : ℕ → ℕ) (x sepc : ℕ) (ha : ∀ r ≠ .a0, reg r = reg' r) :
    Context.load (Function.update (Function.update (Spill.store reg x rowOffsets w) (x + 248) sepc)
      (x + 72) (reg' .a0)) x =
      ⟨reg', sepc⟩ := by
  refine Context.eq_of (fun r => ?_) ?_
  · obtain ⟨o, ho⟩ := contextOffsets_all r
    rw [Context.load_reg _ _ ho]
    by_cases hr : r = .a0
    · subst hr
      obtain rfl : o = 72 := by simpa [contextOffsets] using ho
      exact Function.update_self _ _ _
    · have hmem := mem_rowOffsets ho hr
      obtain ⟨-, -, -, h72, h248⟩ := rowOffsets_ok _ hmem
      rw [Function.update_of_ne (by simp only at h72; omega),
        Function.update_of_ne (by simp only at h248; omega)]
      exact (Spill.store_inside w rowOffsets_nodup hmem).trans (ha r hr)
  · rw [Context.load, Function.update_of_ne (by simp), Function.update_self]

theorem trapEntry_ok (h : m.csr.sscratch = I.sscratchStack) : ∃ m', runInstrs I m trapEntry =
    .ok m' := by
  rw [trapEntry_eq, runInstrs_cons, Instr.exec, ok_bind, runInstrs_append,
    runInstrs_sd (by simp [h]) fun y hy => ⟨(rowOffsets_ok y hy).2.1, (rowOffsets_ok y hy).2.2.1⟩,
      ok_bind,
    runInstrs_cons, Instr.exec, ok_bind, runInstrs_cons,
      exec_sd (by simp [h]) (by decide) (by decide), ok_bind,
    runInstrs_cons, Instr.exec, ok_bind, runInstrs_cons,
      exec_sd (by simp [h]) (by decide) (by decide), ok_bind]
  exact ⟨_, rfl⟩

/-- `trap_entry` leaves the interrupted registers where `sscratch` points. -/
theorem trapEntry_inv (h : runInstrs I m trapEntry = .ok m') :
    saveArea I m.csr.sscratch = .ok () ∧ m'.mode = m.mode ∧ m'.reg .a0 = m.csr.sscratch ∧
      Context.load m'.word m.csr.sscratch = ⟨m.reg, m.csr.sepc⟩ ∧
      m'.kernel = { m.kernel with csr := { m.csr with sscratch := m.reg .a0 } } := by
  rw [trapEntry_eq, runInstrs_cons, Instr.exec, ok_bind, runInstrs_append, bind_ok] at h
  obtain ⟨m₁, h1, h⟩ := h
  -- the first store is at the address itself
  have harea : saveArea I m.csr.sscratch = .ok () := by
    rw [rowOffsets_cons, List.map_cons, runInstrs_cons, bind_ok] at h1
    obtain ⟨m₂, h2, -⟩ := h1
    simpa using (exec_sd_ok h2).1
  obtain rfl := runInstrs_sd_ok h1
  simp only [runInstrs_cons, bind_ok] at h
  obtain ⟨m₂, h2, m₃, h3, m₄, h4, m₅, h5, m₆, h6, h7⟩ := h
  cases h2
  obtain ⟨-, rfl⟩ := exec_sd_ok h3
  cases h4
  obtain ⟨-, rfl⟩ := exec_sd_ok h5
  cases h6
  cases h7
  refine ⟨harea, rfl, by simp, ?_, rfl⟩
  simp only [Machine.setReg_reg, Machine.setCsr_reg, ne_eq, reduceCtorEq, not_false_eq_true,
      Function.update_of_ne,
    Function.update_self]
  exact trapEntry_word _ _ _ _ fun r hr => Function.update_of_ne hr _ _

theorem trapReturn_csrs (ha : m.reg .a0 = I.sscratchStack) :
    runInstrs I m [.ld .t0 72, .csrw .sscratch .t0, .ld .t0 248, .csrw .sepc .t0] = .ok { m with
      reg := Function.update m.reg .t0 (m.word (I.sscratchStack + 248))
      kernel := { m.kernel with csr := { m.csr with
        sepc := m.word (I.sscratchStack + 248), sscratch :=
            m.word (I.sscratchStack + 72) } } } := by
  rw [runInstrs_cons, exec_ld ha (by decide) (by decide), ok_bind, runInstrs_cons, Instr.exec,
      ok_bind,
    runInstrs_cons, exec_ld (by simpa using ha) (by decide) (by decide), ok_bind, runInstrs_cons,
      Instr.exec, ok_bind]
  simp [runInstrs, Machine.setReg, Machine.setCsr, Machine.csr, TrapCsr.set, pure, Except.pure]

theorem trapReturn_ok (ha : m.reg .a0 = I.sscratchStack)
    (hc : Context.load m.word I.sscratchStack = c) :
    runInstrs I m trapReturn = .ok { m with
      reg := c.reg
      kernel :=
          { m.kernel with csr :=
          { m.csr with sepc := c.sepc, sscratch := I.sscratchStack } } } := by
  subst hc
  rw [trapReturn_eq, runInstrs_append, trapReturn_csrs ha, ok_bind, runInstrs_append,
    runInstrs_ld (by simpa using ha) fun y hy => ⟨(rowOffsets_ok y hy).1, (rowOffsets_ok y hy).2.1,
      (rowOffsets_ok y hy).2.2.1⟩,
    ok_bind, runInstrs_cons, Instr.exec, ok_bind]
  have h0 : ∀ reg, Spill.load m.word I.sscratchStack rowOffsets reg .a0 = reg .a0 := fun reg =>
    Spill.load_outside fun y hy => (rowOffsets_ok y hy).1.symm
  have hreg : Function.update (Spill.load m.word I.sscratchStack rowOffsets
      (Function.update m.reg .t0 (m.word (I.sscratchStack + 248)))) .a0 (m.word
        (I.sscratchStack + 72)) =
      (Context.load m.word I.sscratchStack).reg := by
    funext r
    obtain ⟨o, ho⟩ := contextOffsets_all r
    rw [Context.load_reg _ _ ho]
    by_cases hr : r = .a0
    · subst hr
      obtain rfl : o = 72 := by simpa [contextOffsets] using ho
      exact Function.update_self _ _ _
    · rw [Function.update_of_ne hr]
      exact Spill.load_inside _ rowOffsets_regs (mem_rowOffsets ho hr)
  simp only [Machine.setReg, Machine.setCsr, Machine.csr, hreg, h0]
  simp [runInstrs, pure, Except.pure, ha, Context.load]

-- ---------------------------------------------------------------------------
-- A whole trap
-- ---------------------------------------------------------------------------

def Machine.trapped (cause : ℕ) (m : Machine) : Kernel :=
  { m.kernel with csr := { (m.take cause).csr with sscratch := m.reg .a0 } }

def Machine.resumed (I : Image) (w : ℕ → ℕ) (k : Kernel) (p : ℕ) : Machine :=
  let c := (k.task p).context
  Machine.sret {
    mode := .supervisor
    reg := c.reg
    pc := 0
    word := c.store I.sscratchStack w
    kernel := { k with csr := { k.csr with sepc := c.sepc, sscratch := I.sscratchStack } } }

theorem resumed_mode (I : Image) (w : ℕ → ℕ) (p : ℕ) : (Machine.resumed I w k p).mode =
    if k.csr.sstatus.testBit 8 then .supervisor else .user := by
  simp only [Machine.resumed, Machine.sret, Machine.csr, Machine.setCsr, and_bit]
  cases k.csr.sstatus.testBit 8 <;> rfl

theorem resumed_spp (I : Image) (w : ℕ → ℕ) (k : Kernel) (p : ℕ) :
    (Machine.resumed I w k p).csr.sstatus.testBit 8 = false := by
  simp only [Machine.resumed, Machine.sret, Machine.csr, Machine.setCsr]
  rw [clearBit_testBit]
  simp

theorem trap_entered (h : runInstrs I (m.take cause) trapEntry = .ok m₁) :
    Context.load m₁.word m.csr.sscratch = ⟨m.reg, m.pc⟩ ∧
      trap I cause m = do
        let (out, k) ← trapStart I.toLayout m.csr.sscratch m₁.word (m.trapped cause)
        let p ← k.current
        return (out, Machine.resumed I m₁.word k p) := by
  obtain ⟨-, hmode, ha, hload, hk⟩ := trapEntry_inv (m := m.take cause) h
  refine ⟨hload, ?_⟩
  have hk : m₁.kernel = m.trapped cause := hk
  have ha : m₁.reg .a0 = m.csr.sscratch := ha
  rw [trap, h, ok_bind, ha, hk]
  refine congrArg _ (funext fun x => ?_)
  obtain ⟨out, k⟩ := x
  simp only [trapReturn2, bind_assoc]
  refine congrArg _ (funext fun p => ?_)
  have hret := trapReturn_ok (I := I) (c := (k.task p).context) (m :=
      ⟨m₁.mode, Function.update m₁.reg .a0 I.sscratchStack, m₁.pc,
    (k.task p).context.store I.sscratchStack m₁.word, k⟩) (by simp)
    (by simp only [Context.load_store])
  simp only [pure_bind, hret, ok_bind]
  rfl

theorem trap_fails (h : runInstrs I (m.take cause) trapEntry = .error e) :
    trap I cause m = .error e := by
  rw [trap, h]
  rfl

-- ---------------------------------------------------------------------------
-- A timer interrupt of the kernel
-- ---------------------------------------------------------------------------

theorem doTimer_kernel (hc : k.currentTask = some p) (hs : k.csr.sstatus.testBit 8 = true) :
    doTimer k = .ok (ticked p k) := by
  obtain ⟨phys, kPgtable, task, pidmap, currentTask, jiffies, csr⟩ := k
  obtain rfl : currentTask = some p := hc
  have hs : csr.sstatus.testBit 8 = true := hs
  have hspp : (csr.sstatus &&& sstatusSpp) >>> 8 ≠ 0 := fun h0 => by
    have h1 := congrArg (Nat.testBit · 0) h0
    simp [Nat.testBit_and, hs] at h1
  unfold doTimer
  simp only [Kernel.current, ok_bind]
  rw [if_neg hspp]
  rfl

theorem trapStart_timer (L : Layout) (x : ℕ) (w : ℕ → ℕ) (hk : k.csr.scause = timerCause)
    (hc : k.currentTask = some p)
    (hs : k.csr.sstatus.testBit 8 = true) : trapStart L x w k =
      .ok ([], ticked p (k.setTask p { k.task p with context := Context.load w x })) := by
  have h1 : timerCause &&& 0xff = sTimerInt := by decide
  have h2 : (timerCause &&& 1 <<< 63 != 0) = true := by decide
  unfold trapStart
  rw [hk, h1, h2, show k.current = .ok p by rw [Kernel.current, hc]]
  simp only [ok_bind, handleInterrupt, if_true]
  rw [doTimer_kernel (k := k.setTask p { k.task p with context := Context.load w x }) hc hs]
  rfl

theorem trapStart_early (hc : k.currentTask = none) :
    trapStart L x w k = .error (.pageFault 0) := by
  unfold trapStart
  rw [show k.current = .error (.pageFault 0) by rw [Kernel.current, hc]]
  rfl

/-- The hart goes on after an interrupt where it was, with `p` charged for it. -/
structure Continues (I : Image) (p : ℕ) (m m' : Machine) : Prop where
  reg : m'.reg = m.reg
  pc : m'.pc = m.pc
  mode : m'.mode = .supervisor
  load : Context.load m'.word I.sscratchStack = ⟨m.reg, m.pc⟩
  current : m'.kernel.currentTask = some p
  context : (m'.kernel.task p).context = ⟨m.reg, m.pc⟩
  sscratch : m'.csr.sscratch = I.sscratchStack
  sepc : m'.csr.sepc = m.pc
  spp : m'.csr.sstatus.testBit 8 = false

theorem take_spp (cause : ℕ) (hm : m.mode = .supervisor) :
    (m.take cause).csr.sstatus.testBit 8 = true := by
  simp only [Machine.take, hm, Machine.setCsr, Machine.csr, reduceCtorEq, if_false]
  rw [clearBit_testBit]
  split <;> simp [clearBit_testBit, setBit_testBit]

theorem timer_entered (hm : m.mode = .supervisor)
    (h : runInstrs I (m.take timerCause) trapEntry = .ok m₁)
    (hc : m.kernel.currentTask = some p) : ∃ m', trap I timerCause m = .ok ([], m') ∧
      Continues I p m m' := by
  obtain ⟨hload, htrap⟩ := trap_entered h
  have hc' : (m.trapped timerCause).currentTask = some p := hc
  rw [trapStart_timer _ _ _ rfl hc' (take_spp timerCause hm), ok_bind, hload] at htrap
  generalize hk : ticked p ((m.trapped timerCause).setTask p
    { (m.trapped timerCause).task p with context := ⟨m.reg, m.pc⟩ }) = k at htrap
  have hcur : k.currentTask = some p := by
    rw [← hk]
    exact hc
  have hctx : (k.task p).context = ⟨m.reg, m.pc⟩ := by
    rw [← hk, ticked_task, if_pos rfl]
    simp [Kernel.setTask]
  have hspp : k.csr.sstatus.testBit 8 = true := by
    rw [← hk]
    exact take_spp timerCause hm
  simp only [show k.current = .ok p by rw [Kernel.current, hcur], ok_bind] at htrap
  refine ⟨_, htrap, ?_⟩
  exact {
    reg := congrArg Context.reg hctx
    pc := congrArg Context.sepc hctx
    mode := (resumed_mode I _ p).trans (by simp [hspp])
    load := (Context.load_store _ _ _).trans hctx
    current := hcur
    context := hctx
    sscratch := rfl
    sepc := congrArg Context.sepc hctx
    spp := resumed_spp I _ k p }

theorem timer_early (h : m.kernel.currentTask = none) : ∃ e, trap I timerCause m = .error e := by
  cases he : runInstrs I (m.take timerCause) trapEntry with
  | error e => exact ⟨e, trap_fails he⟩
  | ok m₁ =>
    have htrap := (trap_entered he).2
    rw [trapStart_early (k := m.trapped timerCause) h] at htrap
    exact ⟨_, htrap⟩

theorem timer_ok (hm : m.mode = .supervisor) (h : trap I timerCause m = .ok (out, m')) :
    ∃ p, Continues I p m m' := by
  cases he : runInstrs I (m.take timerCause) trapEntry with
  | error e => rw [trap_fails he] at h; cases h
  | ok m₁ =>
    cases hc : m.kernel.currentTask with
    | none =>
      obtain ⟨e, h'⟩ := timer_early (I := I) hc
      rw [h'] at h
      cases h
    | some p =>
      obtain ⟨m₂, h2, hcont⟩ := timer_entered hm he hc
      rw [h2] at h
      cases h
      exact ⟨p, hcont⟩

/-- With the save area in `sscratch` and a current process it does come back. -/
theorem timer_returns (hm : m.mode = .supervisor) (hs : m.csr.sscratch = I.sscratchStack)
    (hc : m.kernel.currentTask = some p) : ∃ m', trap I timerCause m = .ok ([], m') ∧
      Continues I p m m' := by
  obtain ⟨m₁, he⟩ := trapEntry_ok (m := m.take timerCause) hs
  exact timer_entered hm he hc

end

end SkyOS
