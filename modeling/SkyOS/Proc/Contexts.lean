import SkyOS.Proc.Write
import SkyOS.Proc.Rotation

/-!
# Context switches

The registers of a process go from the hart to `sscratch_stack`, to its `context`, and one
day back, perhaps after other processes have run. `Machine.expect` says what each process
is to go on with after a trap. A `write` of 256 bytes or more overruns the kernel's stack,
and then nothing is known.
-/

namespace SkyOS

open ByteMem

-- ---------------------------------------------------------------------------
-- What processes go on with
-- ---------------------------------------------------------------------------

inductive TrapKind
  | timer
  | getpid
  | fork
  | write

namespace TrapKind

def cause : TrapKind → ℕ
  | timer => timerCause
  | _ => syscallFromUMode

def number : TrapKind → Option ℕ
  | timer => none
  | getpid => some syscallGetpid
  | fork => some syscallFork
  | write => some syscallWrite

def asked (kind : TrapKind) (m : Machine) : Prop := ∀ n, kind.number = some n → m.reg .a7 = n

/-- What `write` prints fits `internal_buffer`, with a NUL behind it. -/
def Fits (kind : TrapKind) (m : Machine) : Prop := kind = write → m.reg .a0 = 0 → m.reg .a2 < 256

end TrapKind

namespace Machine

/-- The registers that a system call leaves alone, and the instruction behind it. -/
def behind (m : Machine) : Context := ⟨m.reg, u64 (m.pc + 4)⟩

/-- What each process goes on with after a trap of `p`, where it was `s` before. -/
def expect (m : Machine) (p : ℕ) (s : ℕ → Context) : TrapKind → ℕ → Context
  | .timer => Function.update s p ⟨m.reg, m.pc⟩
  | .getpid => Function.update s p (m.behind.set .a0 (m.kernel.task p).pid)
  | .write => Function.update s p m.behind
  | .fork =>
    match freePid m.kernel with
    | some c => Function.update (Function.update s p (m.behind.set .a0 c)) c (m.behind.set .a0 0)
    | none => Function.update s p m.behind

end Machine

def Kernel.Tabled (k : Kernel) : Prop := ∀ q, (k.task q).pgtable ≠ 0 → k.pidmap q ≠ 0

/-- Runs of processes and of the traps they take, from the start of the first one by
`execve` on, with what each process is to go on with. -/
inductive SwitchRun (I : Image) : (ℕ → Context) → Machine → Prop
  | start : k.Tabled → execve I.toLayout junk name file k = .ok k' → k'.currentTask = some p →
      SwitchRun I (fun q => (k'.task q).context) (Machine.resumed I w k' p)
  | user : SwitchRun I s m → SwitchRun I s { m with reg, pc, kernel := m.kernel.setMem mem }
  | trap : SwitchRun I s m → kind.asked m → kind.Fits m → m.kernel.currentTask = some p →
      trap I kind.cause m = .ok (out, m') → SwitchRun I (m.expect p s kind) m'

/-- A process is back in user mode, with its registers and its page table. -/
structure Returned (I : Image) (s : ℕ → Context) (m : Machine) (t : ℕ) : Prop where
  mode : m.mode = .user
  current : m.kernel.currentTask = some t
  reg : m.reg = (s t).reg
  pc : m.pc = (s t).sepc
  satp : m.csr.satp = satpOf (m.kernel.task t).pgtable
  sscratch : m.csr.sscratch = I.sscratchStack

-- ---------------------------------------------------------------------------
-- The handler
-- ---------------------------------------------------------------------------

structure Kernel.Ready (k : Kernel) : Prop where
  spp : k.csr.sstatus.testBit 8 = false
  tabled : k.Tabled
  current : ∃ t, k.currentTask = some t ∧ k.pidmap t ≠ 0 ∧ k.csr.satp = satpOf (k.task t).pgtable

structure SameFrame (k k' : Kernel) : Prop where
  slices : SameSlices k k'
  context : ∀ q, (k'.task q).context = (k.task q).context
  csr : k'.csr = k.csr

section
variable {L : Layout} {k k' k₁ : Kernel}

theorem SameFrame.refl (k : Kernel) : SameFrame k k := ⟨.refl k, fun _ => rfl, rfl⟩

theorem SameFrame.trans (h : SameFrame k k₁) (h' : SameFrame k₁ k') : SameFrame k k' :=
  ⟨h.slices.trans h'.slices, fun q => (h'.context q).trans (h.context q), h'.csr.trans h.csr⟩

theorem SameFrame.umap (h : umap L p va pa size k = .ok k') : SameFrame k k' :=
  ⟨.umap h, umap_context h, umap_csr h⟩

theorem SameFrame.alloc (h : k.alloc L size = .ok (a, k')) : SameFrame k k' := by
  obtain ⟨heap, -, rfl⟩ := alloc_ok.mp h
  exact ⟨.phys k _, fun _ => rfl, rfl⟩

theorem SameFrame.copyVma (h : copyVma L p q i k = .ok k') : SameFrame k k' := by
  by_cases hv : ((k.task q).memMap i).memRange = 0
  · rw [copyVma_skip hv, Except.ok.injEq] at h
    exact h ▸ .refl k
  · obtain ⟨pa, k₁, m, ha, -, hu⟩ := copyVma_inv h hv
    have hset : SameFrame k₁ (k₁.setMem m) := ⟨.phys k₁ _, fun _ => rfl, rfl⟩
    exact (SameFrame.alloc ha).trans (hset.trans (.umap hu))

theorem SameFrame.copyVmas (h : copyVmas L p q n k = .ok k') : SameFrame k k' := by
  induction n generalizing k' with
  | zero =>
    rw [SkyOS.copyVmas, List.range_zero, List.foldlM_nil, pure_ok] at h
    exact h ▸ .refl k
  | succ n ih =>
    rw [copyVmas_succ, bind_ok] at h
    obtain ⟨k₁, h1, h2⟩ := h
    exact (ih h1).trans (.copyVma h2)

theorem Kernel.Tabled.same (h : k.Tabled) (hs : SameSlices k k') : k'.Tabled := fun q hq => by
  rw [hs.pidmap]
  exact h q (hs.pgtable q ▸ hq)

theorem Kernel.Tabled.process (h : k.Tabled) (ha : allocProcess L k = .ok (p, k')) : k'.Tabled ∧
    k'.pidmap p ≠ 0 := by
  obtain ⟨-, t, heap, -, -, rfl⟩ := allocProcess_ok.mp ha
  refine ⟨fun q hq => ?_, by simp [withProcess]⟩
  by_cases hqp : q = p
  · subst hqp
    simp [withProcess]
  · simp only [withProcess, Function.update_of_ne hqp] at hq ⊢
    exact h q hq

theorem doTimer_ticked (h : doTimer k = .ok k') (hc : k.currentTask = some p) : k' = ticked p k ∨
    ∃ q, (k.task q).pgtable ≠ 0 ∧ k' = { ticked p k with
      currentTask := some q
      csr := (k.csr.sstatusSet (clearBit k.csr.sstatus sstatusSpp)).satpSet
          (satpOf (k.task q).pgtable) } := by
  obtain ⟨phys, kPgtable, task, pidmap, currentTask, jiffies, csr⟩ := k
  obtain rfl : currentTask = some p := hc
  unfold doTimer at h
  simp only [Kernel.current, ok_bind] at h
  split at h
  · rw [bind_ok] at h
    obtain ⟨⟨r, k₁⟩, h1, h2⟩ := h
    have h1 : schedule (ticked p ⟨phys, kPgtable, task, pidmap, some p, jiffies, csr⟩) =
      .ok (r, k₁) := h1
    rcases schedule_cases h1 rfl with ⟨rfl, rfl, -⟩ | ⟨q, -, rfl, rfl, hrun, -⟩
    · simp only [Bool.false_eq_true, if_false, pure_ok] at h2
      exact .inl h2.symm
    · simp only [if_true, switchTo, bind_ok, pure_ok, Kernel.current, Except.ok.injEq,
          exists_eq_left'] at h2
      have hq : ((ticked p ⟨phys, kPgtable, task, pidmap, some p, jiffies, csr⟩).task q).pgtable =
          (task q).pgtable := by
        rw [ticked_task]
        split
        · rename_i hqp
          rw [hqp]
        · rfl
      simp only [Task.runnable, Bool.and_eq_true, bne_iff_ne, hq] at hrun
      refine .inr ⟨q, hrun.1, ?_⟩
      rw [← h2, hq]
      rfl
  · rw [pure_ok] at h
    exact .inl h.symm

structure Running (m : Machine) (p : ℕ) : Prop where
  mode : m.mode = .user
  current : m.kernel.currentTask = some p
  pid : m.kernel.pidmap p ≠ 0
  satp : m.csr.satp = satpOf (m.kernel.task p).pgtable
  tabled : m.kernel.Tabled

def Machine.stored (m : Machine) (cause p : ℕ) (c : Context) : Kernel :=
  (m.trapped cause).setTask p { (m.trapped cause).task p with context := c }

/-- The trap has been handled, up to `trap_return_2`. -/
structure Handled (m : Machine) (p : ℕ) (kind : TrapKind) (k : Kernel) : Prop where
  ready : k.Ready
  context : ∀ q, (k.task q).context = m.expect p (fun q => (m.kernel.task q).context) kind q

end

section
variable {L : Layout} {m : Machine} {k : Kernel}

theorem take_user (cause : ℕ) (hm : m.mode = .user) :
    (m.take cause).csr.sstatus.testBit 8 = false := by
  simp only [Machine.take, hm, Machine.setCsr, Machine.csr, if_true]
  rw [clearBit_testBit]
  split <;> simp [clearBit_testBit, setBit_testBit]

theorem Machine.stored_context (m : Machine) (cause p : ℕ) (c : Context) (q : ℕ) :
    ((m.stored cause p c).task q).context = Function.update (fun q => (m.kernel.task q).context) p
      c q := by
  by_cases hq : q = p
  · subst hq
    simp [Machine.stored, Kernel.setTask]
  · simp [Machine.stored, Kernel.setTask, hq, Machine.trapped]

theorem Machine.stored_slices (m : Machine) (cause p : ℕ) (c : Context) :
    SameSlices (m.trapped cause) (m.stored cause p c) :=
  .setTask _ rfl rfl rfl rfl

theorem Running.stored (h : Running m p) (cause : ℕ) (c : Context) :
    (m.stored cause p c).Ready where
  spp := take_user cause h.mode
  tabled := Kernel.Tabled.same (k := m.trapped cause) h.tabled (m.stored_slices cause p c)
  current := ⟨p, h.current, h.pid, by rw [(m.stored_slices cause p c).pgtable]; exact h.satp⟩

theorem Kernel.Ready.same (h : k.Ready) (hs : SameSlices k k') (hcsr : k'.csr = k.csr) :
    k'.Ready := by
  obtain ⟨t, ht, hpid, hsatp⟩ := h.current
  exact ⟨hcsr ▸ h.spp, h.tabled.same hs, t, hs.current.trans ht, hs.pidmap ▸ hpid,
    by rw [hcsr, hs.pgtable]; exact hsatp⟩

theorem ticked_context (p : ℕ) (k : Kernel) (q : ℕ) :
    ((ticked p k).task q).context = (k.task q).context := by
  rw [ticked_task]
  split
  · rename_i hq
    rw [hq]
  · rfl

theorem ticked_pgtable (p : ℕ) (k : Kernel) (q : ℕ) :
    ((ticked p k).task q).pgtable = (k.task q).pgtable := by
  rw [ticked_task]
  split
  · rename_i hq
    rw [hq]
  · rfl

theorem Running.timer_start (h : Running m p) (hw : Context.load w x = ⟨m.reg, m.pc⟩) :
    trapStart L x w (m.trapped timerCause) =
      doTimer (m.stored timerCause p ⟨m.reg, m.pc⟩) >>= fun k => pure ([], k) := by
  have hcode : timerCause &&& 0xff = sTimerInt := by decide
  have hinter : (timerCause &&& 1 <<< 63 != 0) = true := by decide
  have hcur : (m.trapped timerCause).current = .ok p := by
    rw [Kernel.current, show (m.trapped timerCause).currentTask = some p from h.current]
  unfold trapStart
  rw [show (m.trapped timerCause).csr.scause = timerCause from rfl, hcode, hinter, hcur, hw]
  rfl

theorem Running.timer (h : Running m p) (hw : Context.load w x = ⟨m.reg, m.pc⟩)
    (hk : trapStart L x w (m.trapped timerCause) = .ok (out, k)) : Handled m p .timer k := by
  rw [h.timer_start hw, bind_ok] at hk
  obtain ⟨k₁, hk, hout⟩ := hk
  rw [pure_ok, Prod.mk.injEq] at hout
  obtain ⟨-, rfl⟩ := hout
  have hready := h.stored timerCause ⟨m.reg, m.pc⟩
  have htabled (q : ℕ)
      (hq : ((ticked p (m.stored timerCause p ⟨m.reg, m.pc⟩)).task q).pgtable ≠ 0) :
      (m.stored timerCause p ⟨m.reg, m.pc⟩).pidmap q ≠ 0 :=
        hready.tabled q (ticked_pgtable p _ q ▸ hq)
  rcases doTimer_ticked hk h.current with rfl | ⟨q, hq, rfl⟩
  · refine ⟨⟨hready.spp, htabled, p, h.current, h.pid, ?_⟩, fun r => ?_⟩
    · rw [ticked_pgtable, (m.stored_slices timerCause p _).pgtable]
      exact h.satp
    · rw [ticked_context]
      exact m.stored_context _ _ _ _
  · refine ⟨⟨?_, htabled, q, rfl, hready.tabled q hq, ?_⟩, fun r => ?_⟩
    · simp [Csr.sstatusSet, Csr.satpSet, clearBit_testBit]
    · exact congrArg satpOf (ticked_pgtable p _ q).symm
    · exact (ticked_context p _ r).trans (m.stored_context _ _ _ _)

/-- A system call is made with the `pc` behind the `ecall` in the context. -/
theorem trapStart_call (hc : m.kernel.currentTask = some p)
    (hw : Context.load w x = ⟨m.reg, m.pc⟩) :
    trapStart L x w (m.trapped syscallFromUMode) =
      syscall L (m.stored syscallFromUMode p m.behind) := by
  have hcode : syscallFromUMode &&& 0xff = syscallFromUMode := by decide
  have hinter : (syscallFromUMode &&& 1 <<< 63 != 0) = false := by decide
  have hcur : (m.trapped syscallFromUMode).current = .ok p := by
    rw [Kernel.current, show (m.trapped syscallFromUMode).currentTask = some p from hc]
  have htwice : (m.stored syscallFromUMode p ⟨m.reg, m.pc⟩).setTask p
      { (m.stored syscallFromUMode p ⟨m.reg, m.pc⟩).task p with
        context := { ((m.stored syscallFromUMode p ⟨m.reg, m.pc⟩).task p).context with
          sepc := u64 (((m.stored syscallFromUMode p ⟨m.reg, m.pc⟩).task p).context.sepc + 4) } } =
      m.stored syscallFromUMode p m.behind := by
    simp [Machine.stored, Kernel.setTask, Machine.behind]
  unfold trapStart
  rw [show (m.trapped syscallFromUMode).csr.scause = syscallFromUMode from rfl, hcode, hinter, hcur,
    hw, ← htwice]
  rfl

theorem stored_reg (m : Machine) (cause p : ℕ) (c : Context) :
    ((m.stored cause p c).task p).context = c :=
  (m.stored_context cause p c p).trans (Function.update_self _ _ _)

theorem Running.getpid (h : Running m p) (ha : TrapKind.getpid.asked m)
    (hk : syscall L (m.stored syscallFromUMode p m.behind) = .ok (out, k)) :
    Handled m p .getpid k := by
  have hcur : (m.stored syscallFromUMode p m.behind).current = .ok p := by
    rw [Kernel.current, show (m.stored syscallFromUMode p m.behind).currentTask = some p from
      h.current]
  have hnum : ((m.stored syscallFromUMode p m.behind).task p).context.reg .a7 = syscallGetpid := by
    rw [stored_reg]
    exact ha _ rfl
  unfold syscall at hk
  rw [hcur, ok_bind] at hk
  simp only [hnum] at hk
  rw [if_neg (by decide), if_pos trivial, sysGetpid, hcur, ok_bind, bind_ok] at hk
  obtain ⟨k₁, hk, hout⟩ := hk
  rw [pure_ok] at hk
  rw [pure_ok, Prod.mk.injEq] at hout
  obtain ⟨-, rfl⟩ := hout
  subst hk
  refine ⟨(h.stored _ _).same (.setTask _ rfl rfl rfl rfl) rfl, fun q => ?_⟩
  have hpid : ((m.stored syscallFromUMode p m.behind).task p).pid = (m.kernel.task p).pid :=
    (m.stored_slices syscallFromUMode p _).pid p
  by_cases hq : q = p
  · subst hq
    simp only [Kernel.setTask, Machine.expect, Function.update_self, stored_reg, hpid]
  · simp only [Kernel.setTask, Machine.expect, Function.update_of_ne hq]
    exact (m.stored_context _ _ _ _).trans (Function.update_of_ne hq _ _)

theorem sysWrite_csr (h : sysWrite fd buf len k = .ok (out, k')) : ∃ c, k' = { k with csr := c } ∧
    c.satp = k.csr.satp ∧
    c.sstatus.testBit 8 = k.csr.sstatus.testBit 8 := by
  unfold sysWrite at h
  split at h
  · rw [bind_ok] at h
    obtain ⟨l, -, h⟩ := h
    dsimp only at h
    split at h
    · cases h
    · simp only [pure_ok, Prod.mk.injEq] at h
      refine ⟨_, h.2.symm, rfl, ?_⟩
      simp [Csr.sstatusSet, clearBit_testBit, setBit_testBit]
  · rw [pure_ok, Prod.mk.injEq] at h
    exact ⟨k.csr, h.2.symm, rfl, rfl⟩

theorem Running.write (h : Running m p) (ha : TrapKind.write.asked m)
    (hk : syscall L (m.stored syscallFromUMode p m.behind) = .ok (out, k)) :
    Handled m p .write k := by
  have hready := h.stored syscallFromUMode m.behind
  have hnum : ((m.stored syscallFromUMode p m.behind).task p).context.reg .a7 = syscallWrite := by
    rw [stored_reg]
    exact ha _ rfl
  rw [syscall_write (k := m.stored syscallFromUMode p m.behind) h.current hnum] at hk
  obtain ⟨c, rfl, hsatp, hspp⟩ := sysWrite_csr hk
  obtain ⟨t, ht, hpid, hs⟩ := hready.current
  exact ⟨⟨hspp.trans hready.spp, hready.tabled, t, ht, hpid, hsatp.trans hs⟩,
    fun q => m.stored_context _ _ _ _⟩

theorem forkTasks_context (hne : c ≠ p) (hpid : (k.task c).pid = c) (q : ℕ) :
    ((withSum (forkTasks c p k)).task q).context =
    Function.update
    (Function.update (fun q => (k.task q).context) p ((k.task p).context.set .a0 c)) c
      ((k.task p).context.set .a0 0) q := by
  by_cases hqc : q = c
  · subst hqc
    simp [withSum, forkTasks, Kernel.setTask, Function.update_of_ne hne]
  · by_cases hqp : q = p
    · subst hqp
      simp [withSum, forkTasks, Kernel.setTask, Function.update_of_ne hne.symm, hpid]
    · simp [withSum, forkTasks, Kernel.setTask, Function.update_of_ne hqp,
        Function.update_of_ne hqc]

theorem Running.fork (h : Running m p) (ha : TrapKind.fork.asked m)
    (hk : syscall L (m.stored syscallFromUMode p m.behind) = .ok (out, k)) :
    Handled m p .fork k := by
  have hready := h.stored syscallFromUMode m.behind
  have hcur : (m.stored syscallFromUMode p m.behind).current = .ok p := by
    rw [Kernel.current, show (m.stored syscallFromUMode p m.behind).currentTask = some p from
      h.current]
  have hnum : ((m.stored syscallFromUMode p m.behind).task p).context.reg .a7 = syscallFork := by
    rw [stored_reg]
    exact ha _ rfl
  unfold syscall at hk
  rw [hcur, ok_bind] at hk
  simp only [hnum] at hk
  rw [if_neg (by decide), if_neg (by decide), if_pos trivial, bind_ok] at hk
  obtain ⟨⟨n, k'⟩, hf, hout⟩ := hk
  rw [pure_ok, Prod.mk.injEq] at hout
  obtain ⟨-, rfl⟩ := hout
  obtain ⟨c, k₁, q, k₂, halloc, hq, hcopy, -, rfl⟩ := sysFork_inv hf
  obtain ⟨htabled₁, hpid₁⟩ := hready.tabled.process halloc
  obtain ⟨hfree, t, heap, -, -, rfl⟩ := allocProcess_ok.mp halloc
  have hq : (m.stored syscallFromUMode p m.behind).currentTask = some q := by
    simpa only [withProcess] using hq
  obtain rfl : p = q := Option.some.inj (h.current.symm.trans hq)
  have hfree' : freePid m.kernel = some c := hfree
  have hne : c ≠ p := by
    rintro rfl
    exact h.pid (freePid_iff.mp hfree').1
  have htasks := forkTasks_slices c p (withProcess (m.stored syscallFromUMode p m.behind) c t heap)
    (by simp [withProcess])
  have hslices := htasks.trans (.copyVmas hcopy)
  have hsame : SameFrame _ k₂ := .copyVmas hcopy
  have hcsr : k₂.csr.satp = m.csr.satp ∧ k₂.csr.sstatus.testBit 8 = false := by
    rw [hsame.csr]
    refine ⟨rfl, ?_⟩
    have hspp : (m.stored syscallFromUMode p m.behind).csr.sstatus.testBit 8 = false := hready.spp
    change (setBit (m.stored syscallFromUMode p m.behind).csr.sstatus sstatusSum).testBit 8 = false
    rw [setBit_testBit, hspp]
    rfl
  have hold : (withProcess (m.stored syscallFromUMode p m.behind) c t heap).task p =
      (m.stored syscallFromUMode p m.behind).task p := by
    simp [withProcess, Function.update_of_ne hne.symm]
  have htabled : k₂.Tabled := htabled₁.same hslices
  have hcurrent : k₂.currentTask = some p :=
    hslices.current.trans (by rw [withProcess]; exact h.current)
  refine ⟨⟨?_, htabled, p, hcurrent, ?_, ?_⟩, fun q => ?_⟩
  · have hspp : (clearBit k₂.csr.sstatus sstatusSum).testBit 8 = false := by
        rw [clearBit_testBit, hcsr.2]; rfl
    exact hspp
  · rw [show (k₂.pidmap p ≠ 0) = (k₂.pidmap p ≠ 0) from rfl, hslices.pidmap]
    simp only [withProcess, Function.update_of_ne hne.symm]
    exact h.pid
  · have hpg : (k₂.task p).pgtable = (m.kernel.task p).pgtable := by
      rw [hslices.pgtable, hold]
      exact (m.stored_slices syscallFromUMode p _).pgtable p
    exact (hcsr.1.trans h.satp).trans (congrArg satpOf hpg.symm)
  · refine (hsame.context q).trans ((forkTasks_context hne (by simp [withProcess]) q).trans ?_)
    rw [Machine.expect, hfree', hold, stored_reg]
    dsimp only
    by_cases hqc : q = c
    · rw [hqc, Function.update_self, Function.update_self]
    · rw [Function.update_of_ne hqc, Function.update_of_ne hqc]
      by_cases hqp : q = p
      · rw [hqp, Function.update_self, Function.update_self]
      · rw [Function.update_of_ne hqp, Function.update_of_ne hqp]
        simp only [withProcess, Function.update_of_ne hqc]
        exact (m.stored_context _ _ _ _).trans (Function.update_of_ne hqp _ _)

theorem Running.handled (h : Running m p) (ha : kind.asked m)
    (hw : Context.load w x = ⟨m.reg, m.pc⟩)
    (hk : trapStart L x w (m.trapped kind.cause) = .ok (out, k)) : Handled m p kind k := by
  cases kind with
  | timer => exact h.timer hw hk
  | getpid => exact h.getpid ha (trapStart_call h.current hw ▸ hk)
  | fork => exact h.fork ha (trapStart_call h.current hw ▸ hk)
  | write => exact h.write ha (trapStart_call h.current hw ▸ hk)

end

-- ---------------------------------------------------------------------------
-- Runs
-- ---------------------------------------------------------------------------

section
variable {I : Image} {m m' : Machine} {s s' : ℕ → Context}

theorem Machine.expect_congr (m : Machine) (h : ∀ q ≠ p, s q = s' q) (kind : TrapKind) :
    m.expect p s kind = m.expect p s' kind := by
  have hset (c : Context) : Function.update s p c = Function.update s' p c := by
    funext q
    by_cases hq : q = p
    · rw [hq, Function.update_self, Function.update_self]
    · rw [Function.update_of_ne hq, Function.update_of_ne hq, h q hq]
  cases kind with
  | timer | getpid | write => exact hset _
  | fork =>
    unfold Machine.expect
    dsimp only
    split
    · rw [hset]
    · exact hset _

/-- The process `p` runs, and the others go on with `s`. -/
structure Tracked (I : Image) (s : ℕ → Context) (m : Machine) (p : ℕ) : Prop where
  running : Running m p
  sscratch : m.csr.sscratch = I.sscratchStack
  others : ∀ q ≠ p, (m.kernel.task q).context = s q

theorem Kernel.Ready.resumed (h : k.Ready) (ht : k.currentTask = some t) (w : ℕ → ℕ) :
    Running (Machine.resumed I w k t) t := by
  obtain ⟨t', ht', hpid, hsatp⟩ := h.current
  obtain rfl : t = t' := Option.some.inj (ht.symm.trans ht')
  exact ⟨(resumed_mode I w t).trans (by rw [h.spp]; rfl), ht, hpid, hsatp, h.tabled⟩

theorem Tracked.trap (h : Tracked I s m p) (ha : kind.asked m)
    (ht : SkyOS.trap I kind.cause m = .ok (out, m')) :
    ∃ t, Tracked I (m.expect p s kind) m' t ∧ Returned I (m.expect p s kind) m' t ∧
      ∀ q, (m'.kernel.task q).context = m.expect p (fun q => (m.kernel.task q).context) kind q := by
  obtain ⟨m₁, he⟩ := trapEntry_ok (m := m.take kind.cause) h.sscratch
  obtain ⟨hload, htrap⟩ := trap_entered he
  rw [htrap, bind_ok] at ht
  obtain ⟨⟨out', k⟩, hk, ht⟩ := ht
  have hh := h.running.handled ha hload hk
  obtain ⟨t, hcur, -, hsatp⟩ := hh.ready.current
  dsimp only at ht
  rw [show k.current = .ok t by rw [Kernel.current, hcur], ok_bind, pure_ok, Prod.mk.injEq] at ht
  obtain ⟨-, rfl⟩ := ht
  have hctx (q : ℕ) : (k.task q).context = m.expect p s kind q :=
    (hh.context q).trans (congrFun (m.expect_congr h.others kind) q)
  have hrun : Running (Machine.resumed I m₁.word k t) t := hh.ready.resumed hcur _
  exact ⟨t, ⟨hrun, rfl, fun q _ => hctx q⟩,
    ⟨hrun.mode, hcur, congrArg Context.reg (hctx t), congrArg Context.sepc (hctx t), hsatp, rfl⟩,
      hh.context⟩

theorem execve_ready (hk : k.Tabled) (h : execve L junk name file k = .ok k') : k'.Ready := by
  obtain ⟨p, a, o, k₁, k₅, -, -, rfl⟩ := execve_ops h
  obtain ⟨p', k₁', h1, hs⟩ := execve_slices h
  obtain ⟨htabled, hpid⟩ := hk.process h1
  obtain rfl : p' = p := (Option.some.inj hs.current).symm
  refine ⟨?_, fun q hq => ?_, p', rfl, ?_, ?_⟩
  · simp [entered, Csr.sstatusSet, Csr.satpSet, clearBit_testBit]
  · rw [hs.pidmap]
    exact htabled q (hs.pgtable q ▸ hq)
  · rw [hs.pidmap]
    exact hpid
  · simp [entered, Csr.satpSet, Kernel.setTask]

theorem switchRun_tracked (hr : SwitchRun I s m) : ∃ p, Tracked I s m p := by
  induction hr with
  | start hk hx hp => exact ⟨_, (execve_ready hk hx).resumed hp _, rfl, fun _ _ => rfl⟩
  | user _ ih =>
    obtain ⟨p, h, hs, ho⟩ := ih
    exact ⟨p, ⟨h.mode, h.current, h.pid, h.satp, h.tabled⟩, hs, ho⟩
  | trap _ ha _ hp ht ih =>
    obtain ⟨p', h⟩ := ih
    obtain rfl := Option.some.inj (hp.symm.trans h.running.current)
    obtain ⟨t, ht, -⟩ := h.trap ha ht
    exact ⟨t, ht⟩

end

-- ---------------------------------------------------------------------------
-- What is undefined
-- ---------------------------------------------------------------------------

theorem bind_ne_wild {x : Run α} {f : α → Run β} (hx : x ≠ .error .wild)
    (hf : ∀ a, x = .ok a → f a ≠ .error .wild) :
    x >>= f ≠ .error .wild := by
  cases x with
  | error e => exact fun h => hx (by cases h; rfl)
  | ok a => exact hf a rfl

theorem ok_ne_wild (a : α) : (.ok a : Run α) ≠ .error .wild := by
  intro h
  cases h

theorem pageFault_ne_wild (va : ℕ) : (.error (.pageFault va) : Run α) ≠ .error .wild := by
  intro h
  cases h

theorem loadAddr_ne_wild (m : Mem) (c : Csr) (va : ℕ) : loadAddr m c va ≠ .error .wild := by
  have hlevel (refused : ℕ → Bool) (level a : ℕ) :
      walkLevel m refused va level a ≠ .error .wild := by
    induction level generalizing a with
    | zero =>
      unfold walkLevel
      dsimp only
      split_ifs
      · exact pageFault_ne_wild va
      · exact pageFault_ne_wild va
      · exact ok_ne_wild _
      · exact pageFault_ne_wild va
    | succ level ih =>
      unfold walkLevel
      dsimp only
      split_ifs
      · exact pageFault_ne_wild va
      · exact pageFault_ne_wild va
      · exact ok_ne_wild _
      · exact ih _
  unfold loadAddr
  split
  · exact hlevel _ _ _
  · exact pageFault_ne_wild va

theorem loadBytes_ne_wild (m : Mem) (c : Csr) (src n : ℕ) : loadBytes m c src n ≠ .error .wild := by
  induction n with
  | zero => exact ok_ne_wild _
  | succ n ih => exact bind_ne_wild ih fun l _ =>
      bind_ne_wild (loadAddr_ne_wild _ _ _) fun pa _ => ok_ne_wild _

theorem sysWrite_ne_wild (h : fd = 0 → len < 256) : sysWrite fd buf len k ≠ .error .wild := by
  unfold sysWrite
  split
  · rename_i hfd
    refine bind_ne_wild (loadBytes_ne_wild _ _ _ _) fun l _ => ?_
    rw [if_neg (not_le.mpr (h hfd))]
    exact ok_ne_wild _
  · exact ok_ne_wild _

section
variable {L : Layout} {I : Image} {m : Machine} {s : ℕ → Context} {kind : TrapKind}

theorem Running.getpid_returns (h : Running m p) (ha : TrapKind.getpid.asked m) :
    ∃ k, syscall L (m.stored syscallFromUMode p m.behind) = .ok ([], k) := by
  have hcur : (m.stored syscallFromUMode p m.behind).current = .ok p := by
    rw [Kernel.current, show (m.stored syscallFromUMode p m.behind).currentTask = some p from
      h.current]
  have hnum : ((m.stored syscallFromUMode p m.behind).task p).context.reg .a7 = syscallGetpid := by
    rw [stored_reg]
    exact ha _ rfl
  rw [syscall, hcur, ok_bind]
  simp only [hnum]
  rw [if_neg (by decide), if_pos trivial, sysGetpid, hcur, ok_bind]
  exact ⟨_, rfl⟩

theorem Running.write_call (h : Running m p) (ha : TrapKind.write.asked m) :
    syscall L (m.stored syscallFromUMode p m.behind) =
      sysWrite (m.reg .a0) (m.reg .a1) (m.reg .a2) (m.stored syscallFromUMode p m.behind) := by
  have hreg : ((m.stored syscallFromUMode p m.behind).task p).context.reg = m.reg := by
    rw [stored_reg]
    rfl
  rw [syscall_write (k := m.stored syscallFromUMode p m.behind) h.current
    (by rw [hreg]; exact ha _ rfl), hreg]

theorem Running.defined (h : Running m p) (ha : kind.asked m) (hf : kind.Fits m)
    (hne : kind ≠ .fork)
    (hw : Context.load w x = ⟨m.reg, m.pc⟩) : trapStart L x w (m.trapped kind.cause) ≠
      .error .wild := by
  cases kind with
  | timer =>
    have huser : (m.stored timerCause p ⟨m.reg, m.pc⟩).FromUser := by
      change (_ &&& sstatusSpp) >>> 8 = 0
      rw [sstatusSpp, (and_bit _ 8).mpr (h.stored timerCause _).spp]
      rfl
    obtain ⟨k, hk, -⟩ := doTimer_returns (k := m.stored timerCause p ⟨m.reg, m.pc⟩) h.current huser
    rw [TrapKind.cause, h.timer_start hw, hk]
    exact ok_ne_wild _
  | getpid =>
    obtain ⟨k, hk⟩ := h.getpid_returns (L := L) ha
    rw [show TrapKind.getpid.cause = syscallFromUMode from rfl, trapStart_call h.current hw, hk]
    exact ok_ne_wild _
  | fork => exact absurd rfl hne
  | write =>
    rw [show TrapKind.write.cause = syscallFromUMode from rfl, trapStart_call h.current hw,
      h.write_call ha]
    exact sysWrite_ne_wild (hf rfl)

theorem Tracked.defined (h : Tracked I s m p) (ha : kind.asked m) (hf : kind.Fits m)
    (hne : kind ≠ .fork) :
    SkyOS.trap I kind.cause m ≠ .error .wild := by
  obtain ⟨m₁, he⟩ := trapEntry_ok (m := m.take kind.cause) h.sscratch
  obtain ⟨hload, htrap⟩ := trap_entered he
  rw [htrap]
  refine bind_ne_wild (h.running.defined ha hf hne hload) fun x hx => ?_
  obtain ⟨t, hcur, -⟩ := (h.running.handled ha hload hx).ready.current
  dsimp only
  rw [show x.2.current = .ok t by rw [Kernel.current, hcur]]
  exact ok_ne_wild _

/-- Whatever traps came before, where every write fits: a trap of `p` is defined, up to the memory
that `fork` asks for. It returns to a process with its own registers, and no context changes but
that of `p` and of a new process. -/
theorem context_switch (hr : SwitchRun I s m) (ha : kind.asked m) (hf : kind.Fits m)
    (hp : m.kernel.currentTask = some p) : (kind ≠ .fork → trap I kind.cause m ≠ .error .wild) ∧
    ∀ out m', trap I kind.cause m = .ok (out, m') → ∃ t, Returned I (m.expect p s kind) m' t ∧
      ∀ q ≠ p, (kind = .fork → freePid m.kernel ≠ some q) →
        (m'.kernel.task q).context = (m.kernel.task q).context := by
  obtain ⟨p', h⟩ := switchRun_tracked hr
  obtain rfl := Option.some.inj (hp.symm.trans h.running.current)
  refine ⟨h.defined ha hf, fun out m' ht => ?_⟩
  obtain ⟨t, -, hret, hctx⟩ := h.trap ha ht
  refine ⟨t, hret, fun q hq hnew => (hctx q).trans ?_⟩
  cases kind with
  | timer | getpid | write =>
    unfold Machine.expect
    exact Function.update_of_ne hq _ _
  | fork =>
    unfold Machine.expect
    cases hc : freePid m.kernel with
    | some c =>
      have hqc : q ≠ c := fun h => hnew rfl (h ▸ hc)
      exact (Function.update_of_ne hqc _ _).trans (Function.update_of_ne hq _ _)
    | none => exact Function.update_of_ne hq _ _

end

-- ---------------------------------------------------------------------------
-- Writes from the stack of a process
-- ---------------------------------------------------------------------------

theorem StackLoads.bytes (h : StackLoads k p) (hc : c.satp = satpOf (k.task p).pgtable)
    (hs : c.sstatus.testBit 18)
    (hn : n ≤ pgSize * 4) : ∃ l, loadBytes k.phys.mem c 0x3fffffc000 n = .ok l := by
  induction n with
  | zero => exact ⟨[], rfl⟩
  | succ n ih =>
    obtain ⟨l, hl⟩ := ih (by omega)
    have hlt : 0x3fffffc000 + n < 2 ^ 64 := by
      simp only [pgSize] at hn
      omega
    obtain ⟨pa, hpa⟩ :=
      h c hc hs (u64 (0x3fffffc000 + n)) (by rw [u64_of_lt hlt]; omega)
      (by rw [u64_of_lt hlt]; omega)
    rw [loadBytes, hl, ok_bind, hpa]
    exact ⟨_, rfl⟩

theorem stack_writer (len : ℕ) : ∃ s m, SwitchRun sampleImage s m ∧ TrapKind.write.asked m ∧
    m.kernel.currentTask = some 0 ∧ m.reg .a0 = 0 ∧ m.reg .a2 = len ∧ StackLoads m.kernel 0 ∧
      m.reg .a1 = 0x3fffffc000 := by
  obtain ⟨k, k₅, a, D, -, h0, -, -, -, hx, -, -, -, -, hloads⟩ :=
      starts sampleLayout zeroed 0 (fun _ => 0)
    ⟨0, 0, 0, 0, 0, 0, 0, 0⟩
  have htabled : k.Tabled := fun q hq => absurd (h0 q).2 hq
  have hstart := SwitchRun.start (I := sampleImage) (w := fun _ => 0) (p := 0) htabled hx rfl
  refine ⟨_, { Machine.resumed sampleImage (fun _ => 0) (entered 0 a 0 k₅) 0 with
      reg := fun r => match r with
        | .a0 => 0
        | .a1 => 0x3fffffc000
        | .a2 => len
        | _ => syscallWrite
      pc := 0
      kernel :=
        (Machine.resumed sampleImage (fun _ => 0) (entered 0 a 0 k₅) 0).kernel.setMem k₅.phys.mem },
    hstart.user, fun n hn => Option.some.inj hn, rfl, rfl, rfl, ?_, rfl⟩
  intro c hc
  exact hloads c
    (hc.trans
    (by simp [Machine.resumed, Machine.sret, Machine.setCsr, Kernel.setMem, entered,
    Kernel.setTask]))

theorem Running.write_loaded {I : Image} {m : Machine} (h : Running m p)
    (hs : m.csr.sscratch = I.sscratchStack)
    (ha : TrapKind.write.asked m) (hfd : m.reg .a0 = 0) (hsrc : m.reg .a1 = 0x3fffffc000)
    (hl : StackLoads m.kernel p) : ∃ l w, trap I syscallFromUMode m =
      if m.reg .a2 ≥ 256 then .error .wild
      else .ok (cString l,
        Machine.resumed I w (withoutSum (withSum (m.stored syscallFromUMode p m.behind))) p) := by
  obtain ⟨m₁, he⟩ := trapEntry_ok (m := m.take syscallFromUMode) hs
  obtain ⟨hload, htrap⟩ := trap_entered he
  have hpg : ((m.stored syscallFromUMode p m.behind).task p).pgtable = (m.kernel.task p).pgtable :=
    (m.stored_slices syscallFromUMode p _).pgtable p
  have hsum : (withSum (m.stored syscallFromUMode p m.behind)).csr.sstatus.testBit 18 = true := by
    simp [withSum, Csr.sstatusSet, setBit_testBit]
  obtain ⟨l, hbytes⟩ :=
      hl.bytes (c := (withSum (m.stored syscallFromUMode p m.behind)).csr) h.satp hsum
    (show min (u32 (m.reg .a2)) 256 ≤ pgSize * 4 from (Nat.min_le_right _ _).trans (by decide))
  have hcur : (withoutSum (withSum (m.stored syscallFromUMode p m.behind))).current = .ok p := by
    rw [Kernel.current,
      show (withoutSum (withSum (m.stored syscallFromUMode p m.behind))).currentTask =
      some p from h.current]
  refine ⟨l, m₁.word, ?_⟩
  have hwrite : sysWrite 0 0x3fffffc000 (m.reg .a2) (m.stored syscallFromUMode p m.behind) =
      if m.reg .a2 ≥ 256 then .error .wild
      else .ok (cString l, withoutSum (withSum (m.stored syscallFromUMode p m.behind))) := by
    rw [sysWrite, if_pos rfl]
    change loadBytes _ (withSum (m.stored syscallFromUMode p m.behind)).csr _ _ >>= _ = _
    rw [show (m.stored syscallFromUMode p m.behind).phys.mem = m.kernel.phys.mem from rfl, hbytes,
      ok_bind]
    split <;> rfl
  rw [htrap, trapStart_call h.current hload, h.write_call ha, hfd, hsrc, hwrite]
  split
  · rfl
  · rw [ok_bind]
    dsimp only
    rw [hcur]
    rfl

theorem context_switch_write : ∃ s m m' t out, SwitchRun sampleImage s m ∧ m.reg .a0 = 0 ∧
    m.reg .a2 = 255 ∧
    trap sampleImage syscallFromUMode m = .ok (out, m') ∧
      Returned sampleImage (m.expect 0 s .write) m' t ∧
      ∀ q ≠ 0, (m'.kernel.task q).context = (m.kernel.task q).context := by
  obtain ⟨s, m, hr, ha, hp, hfd, hlen, hl, hsrc⟩ := stack_writer 255
  obtain ⟨p, h⟩ := switchRun_tracked hr
  obtain rfl := Option.some.inj (hp.symm.trans h.running.current)
  obtain ⟨l, w, ht⟩ := h.running.write_loaded h.sscratch ha hfd hsrc hl
  rw [hlen, if_neg (by decide)] at ht
  obtain ⟨t, hret, hrest⟩ := (context_switch hr ha (fun _ _ => by rw [hlen]; decide) hp).2 _ _ ht
  exact ⟨s, m, _, t, _, hr, hfd, hlen, ht, hret, fun q hq => hrest q hq (by simp)⟩

/-- 256 bytes are one too many. -/
theorem write_overruns : ∃ s m, SwitchRun sampleImage s m ∧ TrapKind.write.asked m ∧
    m.kernel.currentTask = some 0 ∧
    m.reg .a0 = 0 ∧ m.reg .a2 = 256 ∧ trap sampleImage syscallFromUMode m = .error .wild ∧
    ¬ ∃ out m' t, trap sampleImage syscallFromUMode m = .ok (out, m') ∧
      Returned sampleImage (m.expect 0 s .write) m' t := by
  obtain ⟨s, m, hr, ha, hp, hfd, hlen, hl, hsrc⟩ := stack_writer 256
  obtain ⟨p, h⟩ := switchRun_tracked hr
  obtain rfl := Option.some.inj (hp.symm.trans h.running.current)
  obtain ⟨l, w, ht⟩ := h.running.write_loaded h.sscratch ha hfd hsrc hl
  rw [hlen, if_pos le_rfl] at ht
  refine ⟨s, m, hr, ha, hp, hfd, hlen, ht, ?_⟩
  rintro ⟨out, m', t, hok, -⟩
  rw [ht] at hok
  cases hok

end SkyOS
