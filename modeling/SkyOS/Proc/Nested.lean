import SkyOS.Proc.Write

/-!
# Traps in the handler

`trap_entry` swaps `a0` with `sscratch`, and `trap_return` swaps them back. In between
`sscratch` holds the `a0` of what was interrupted, and a fault of the handler's own code is
a trap like any other.
-/

namespace SkyOS

open ByteMem

/-- Where the hart is: in the kernel and in no trap, in a process, before the instruction
`i` of `trap_entry`, at the call of `trap_start`, or before the instruction `i` of
`trap_return`. -/
inductive TrapPoint
  | kernel
  | process
  | entering (i : ℕ)
  | handling
  | returning (i : ℕ)

def TrapPoint.outside (o : TrapPoint) : Prop := o = .kernel ∨ o = .process

/-- A trap that was taken, and the address that `trap_entry` stores the registers at. -/
structure Taken where
  point : TrapPoint
  saved : ℕ

/-- What may take a trap, and the hart where it does. -/
inductive Traps (I : Image) : TrapPoint → Machine → Machine → Prop
  | kernel : Traps I .kernel m m
  | process : Traps I .process m m
  | interrupt : m.csr.sstatus.testBit 1 = true → Traps I o m m
  | entering : trapEntry[i]? = some ins → ins.exec I m = .error (.pageFault a) →
      Traps I (.entering i) m m
  | returning : trapReturn[i]? = some ins → ins.exec I m = .error (.pageFault a) →
      Traps I (.returning i) m m
  -- the compiled code may have done anything but write `sscratch`
  | handling : trapStart I.toLayout (m.reg .a0) m.word m.kernel = .error (.pageFault a) →
      k.csr.sscratch = m.csr.sscratch → Traps I .handling m { m with reg, pc, kernel := k }

def Machine.point (m : Machine) : TrapPoint := if m.mode = .user then .process else .kernel

/-- Runs from the `sscratch_set` of `trap_init` on, with the traps taken, the last one first. -/
inductive TrapRun (I : Image) : List Taken → TrapPoint → Machine → Prop
  | init : m.csr.sscratch = I.sscratchStack → TrapRun I [] .kernel m
  | code : TrapRun I t .kernel m → m'.csr.sscratch = m.csr.sscratch → TrapRun I t .kernel m'
  | user : TrapRun I t .process m →
      TrapRun I t .process { m with reg, pc, kernel := m.kernel.setMem mem }
  | start : TrapRun I t .kernel m → trapReturn2 I m = .ok m' → TrapRun I t (.returning 0) m'
  | take : TrapRun I t o m → Traps I o m m' →
      TrapRun I (⟨o, m'.csr.sscratch⟩ :: t) (.entering 0) (m'.take cause)
  | enter : TrapRun I t (.entering i) m → trapEntry[i]? = some ins → ins.exec I m = .ok m' →
      TrapRun I t (.entering (i + 1)) m'
  | call : TrapRun I t (.entering trapEntry.length) m → TrapRun I t .handling m
  | handle : TrapRun I t .handling m → trapStart I.toLayout (m.reg .a0) m.word m.kernel =
      .ok (out, k) →
      trapReturn2 I { m with kernel := k } = .ok m' → TrapRun I t (.returning 0) m'
  | instr : TrapRun I t (.returning i) m → trapReturn[i]? = some ins → ins.exec I m = .ok m' →
      TrapRun I t (.returning (i + 1)) m'
  | sret : TrapRun I t (.returning trapReturn.length) m → TrapRun I t m.sret.point m.sret

/-- The registers were stored in `sscratch_stack`, and those of the next trap will be. -/
structure Saving (I : Image) (t : List Taken) (o : TrapPoint) (m : Machine) : Prop where
  taken : ∀ x ∈ t, x.saved = I.sscratchStack
  ready : o.outside → m.csr.sscratch = I.sscratchStack

def Swapped (I : Image) (m : Machine) : TrapPoint → Prop
  | .kernel | .process | .entering 0 => m.csr.sscratch = I.sscratchStack
  | .entering (_ + 1) => m.reg .a0 = I.sscratchStack
  | .handling => True
  | .returning i => (i < trapReturn.length → m.reg .a0 = I.sscratchStack) ∧
      (i = trapReturn.length → m.csr.sscratch = I.sscratchStack)

section
variable {I : Image} {m m' : Machine} {t : List Taken} {o : TrapPoint}

theorem Traps.same (h : Traps I o m m') (ho : o.outside) : m' = m := by
  cases h with
  | handling => exact absurd ho (by simp [TrapPoint.outside])
  | _ => rfl

theorem trapEntry_get : ∀ i :
    Fin trapEntry.length, (i.val = 0 → trapEntry.get i = .csrrwA0Sscratch) ∧
    (i.val ≠ 0 → (trapEntry.get i).dest ≠ some .a0) := by decide

theorem trapReturn_last : ∀ i : Fin trapReturn.length, i.val = 34 →
    trapReturn.get i = .csrrwA0Sscratch := by decide

theorem Swapped.enter (h : Swapped I m (.entering i)) (hi : trapEntry[i]? = some ins)
    (he : ins.exec I m = .ok m') :
    Swapped I m' (.entering (i + 1)) := by
  obtain ⟨hlt, rfl⟩ := List.getElem?_eq_some_iff.mp hi
  obtain ⟨hfirst, hrest⟩ := trapEntry_get ⟨i, hlt⟩
  cases i with
  | zero =>
    have hins : trapEntry[0] = .csrrwA0Sscratch := hfirst rfl
    rw [hins] at he
    cases he
    have ha : Function.update m.reg .a0 m.csr.sscratch .a0 = m.csr.sscratch :=
      Function.update_self _ _ _
    exact ha.trans h
  | succ i => exact ((exec_frame he).reg _ (hrest (Nat.succ_ne_zero i))).trans h

theorem Swapped.instr (h : Swapped I m (.returning i)) (hi : trapReturn[i]? = some ins)
    (he : ins.exec I m = .ok m') :
    Swapped I m' (.returning (i + 1)) := by
  obtain ⟨hlt, -, hdest, -⟩ := trapReturn_at hi
  have ha : m.reg .a0 = I.sscratchStack := h.1 hlt
  refine ⟨fun hi' => ?_, fun hi' => ?_⟩
  · have hi' : i + 1 < 35 := hi'
    exact ((exec_frame he).reg _ (hdest (by omega))).trans ha
  · have hi' : i + 1 = 35 := hi'
    obtain ⟨hlt', rfl⟩ := List.getElem?_eq_some_iff.mp hi
    have hins : trapReturn[i] = .csrrwA0Sscratch := trapReturn_last ⟨i, hlt'⟩ (by simp only; omega)
    rw [hins] at he
    cases he
    exact ha

theorem trapReturn2_a0 (h : trapReturn2 I m = .ok m') : m'.reg .a0 = I.sscratchStack := by
  rw [trapReturn2, bind_ok] at h
  obtain ⟨p, -, h⟩ := h
  rw [pure_ok] at h
  rw [← h]
  have ha : Function.update m.reg .a0 I.sscratchStack .a0 = I.sscratchStack :=
    Function.update_self _ _ _
  exact ha

theorem Swapped.start (h : trapReturn2 I m = .ok m') : Swapped I m' (.returning 0) :=
  ⟨fun _ => trapReturn2_a0 h, fun h0 => absurd h0 (by decide)⟩

theorem Swapped.ready (h : Swapped I m o) (ho : o.outside) : m.csr.sscratch = I.sscratchStack := by
  rcases ho with rfl | rfl <;> exact h

theorem trapRun_inv (hr : TrapRun I t o m) (h : ∀ x ∈ t, x.point.outside) :
    (∀ x ∈ t, x.saved = I.sscratchStack) ∧ Swapped I m o := by
  induction hr with
  | init hs => exact ⟨by simp, hs⟩
  | code _ hs ih => exact ⟨(ih h).1, hs.trans (ih h).2⟩
  | user _ ih => exact ⟨(ih h).1, (ih h).2⟩
  | start _ he ih => exact ⟨(ih h).1, .start he⟩
  | take _ ht ih =>
    obtain ⟨ho, h⟩ := List.forall_mem_cons.mp h
    obtain ⟨hsaved, hs⟩ := ih h
    obtain rfl := ht.same ho
    exact ⟨List.forall_mem_cons.mpr ⟨hs.ready ho, hsaved⟩, hs.ready ho⟩
  | enter _ hi he ih => exact ⟨(ih h).1, (ih h).2.enter hi he⟩
  | call _ ih => exact ⟨(ih h).1, trivial⟩
  | handle _ _ he ih => exact ⟨(ih h).1, .start he⟩
  | instr _ hi he ih => exact ⟨(ih h).1, (ih h).2.instr hi he⟩
  | sret _ ih =>
    obtain ⟨hsaved, hs⟩ := ih h
    refine ⟨hsaved, ?_⟩
    unfold Machine.point
    split <;> exact hs.2 rfl

end

/-- Traps that are not taken in the handler of another one are saved in `sscratch_stack`. -/
theorem traps_saved (hr : TrapRun I t o m) (h : ∀ x ∈ t, x.point.outside) : Saving I t o m := by
  obtain ⟨hsaved, hs⟩ := trapRun_inv hr h
  exact ⟨hsaved, hs.ready⟩

-- ---------------------------------------------------------------------------
-- A bad pointer
-- ---------------------------------------------------------------------------

section
variable {I : Image} {m m' : Machine} {t : List Taken}

theorem TrapRun.enters_from (hr : TrapRun I t (.entering i) m)
    (h : runInstrs I m (trapEntry.drop i) = .ok m')
    (hi : i + n = trapEntry.length) : TrapRun I t .handling m' := by
  induction n generalizing i m with
  | zero =>
    obtain rfl : i = trapEntry.length := hi
    cases h
    exact hr.call
  | succ n ih =>
    have hlt : i < trapEntry.length := by omega
    rw [List.drop_eq_getElem_cons hlt, runInstrs_cons, bind_ok] at h
    obtain ⟨m₁, h1, h2⟩ := h
    exact ih (hr.enter (List.getElem?_eq_getElem hlt) h1) h2 (by omega)

theorem TrapRun.enters (hr : TrapRun I t (.entering 0) m) (h : runInstrs I m trapEntry = .ok m') :
    TrapRun I t .handling m' :=
  hr.enters_from h (Nat.zero_add _)

theorem TrapRun.returns_from (hr : TrapRun I t (.returning i) m)
    (h : runInstrs I m (trapReturn.drop i) = .ok m')
    (hi : i + n = trapReturn.length) : TrapRun I t m'.sret.point m'.sret := by
  induction n generalizing i m with
  | zero =>
    obtain rfl : i = trapReturn.length := hi
    cases h
    exact hr.sret
  | succ n ih =>
    have hlt : i < trapReturn.length := by omega
    rw [List.drop_eq_getElem_cons hlt, runInstrs_cons, bind_ok] at h
    obtain ⟨m₁, h1, h2⟩ := h
    exact ih (hr.instr (List.getElem?_eq_getElem hlt) h1) h2 (by omega)

theorem TrapRun.returns (hr : TrapRun I t (.returning 0) m)
    (h : runInstrs I m trapReturn = .ok m') :
    TrapRun I t m'.sret.point m'.sret := hr.returns_from h (Nat.zero_add _)

theorem TrapRun.trap (hr : TrapRun I t .process m) (h : trap I cause m = .ok (out, m')) :
    TrapRun I (⟨.process, m.csr.sscratch⟩ :: t) m'.point m' := by
  simp only [SkyOS.trap, bind_ok, pure_ok, Prod.exists, Prod.mk.injEq] at h
  obtain ⟨m₁, h1, out', k, h2, m₂, h3, m₃, h4, -, rfl⟩ := h
  exact (((hr.take .process).enters h1).handle h2 h3).returns h4

abbrev loadPageFault : ℕ := 13

theorem sysWrite_fault (hlen : len < 256)
    (h : loadBytes k.phys.mem (withSum k).csr buf len = .error e) :
    sysWrite 0 buf len k = .error e := by
  rw [sysWrite, if_pos rfl, u32_of_lt (by omega), Nat.min_eq_left hlen.le]
  change loadBytes k.phys.mem (withSum k).csr buf len >>= _ = _
  rw [h]
  rfl

/-- Where `sys_write` faults, `sscratch` has the file descriptor in it. -/
theorem WriteCall.nested (h : WriteCall I m p) (hr : TrapRun I t .process m)
    (hlen : m.reg .a2 < 256)
    (hf : loadBytes m.kernel.phys.mem (withSum (m.called p)).csr (m.reg .a1) (m.reg .a2) =
      .error (.pageFault a)) :
    ∃ m', TrapRun I (⟨.handling, 0⟩ :: ⟨.process, I.sscratchStack⟩ :: t) (.entering 0) m' := by
  obtain ⟨m₁, he⟩ := trapEntry_ok (m := m.take syscallFromUMode) h.sscratch
  obtain ⟨-, -, ha, hload, hk⟩ := trapEntry_inv he
  have ha : m₁.reg .a0 = m.csr.sscratch := ha
  have hk : m₁.kernel = m.trapped syscallFromUMode := hk
  have hload : Context.load m₁.word m.csr.sscratch = ⟨m.reg, m.pc⟩ := hload
  have hstart : SkyOS.trapStart I.toLayout (m₁.reg .a0) m₁.word m₁.kernel =
      .error (.pageFault a) := by
    rw [ha, hk, h.trapStart hload]
    exact sysWrite_fault hlen hf
  have hsscratch : m₁.csr.sscratch = 0 := by
    rw [Machine.csr, hk, ← h.fd]
    rfl
  have hrun :
      TrapRun I (⟨.handling, m₁.csr.sscratch⟩ :: ⟨.process, m.csr.sscratch⟩ :: t) (.entering 0)
      (m₁.take loadPageFault) :=
    ((hr.take .process).enters he).take (.handling hstart rfl)
  rw [hsscratch, h.sscratch] at hrun
  exact ⟨_, hrun⟩

end

/-- The kernel is about to start a process, with the page of `onePageMem`. -/
def starting : Machine := { writeCaller 1 with mode := .supervisor }

def badCaller : Machine :=
  { Machine.resumed sampleImage (fun _ => 0) starting.kernel 0 with
    reg
      | .a1 => 0x20000
      | .a2 => 1
      | .a7 => syscallWrite
      | _ => 0 }

theorem badCaller_runs : TrapRun sampleImage [] .process badCaller := by
  have hstart : TrapRun sampleImage [] .kernel starting := .init rfl
  have hreturn := trapReturn_ok (I := sampleImage) (c := (starting.kernel.task 0).context)
    (m := { starting with
      word := (starting.kernel.task 0).context.store sampleImage.sscratchStack starting.word
      reg := Function.update starting.reg .a0 sampleImage.sscratchStack })
    (by simp) (by simp only [Context.load_store])
  exact (TrapRun.start hstart rfl).returns hreturn |>.user

theorem badCaller_call : WriteCall sampleImage badCaller 0 := ⟨rfl, rfl, rfl, rfl, rfl⟩

theorem badCaller_fault (sum : Bool) :
    loadLevel onePageMem sum 0x20000 2 (satpRoot (satpOf 0x84000000)) =
      .error (.pageFault 0x20000) := by
  cases sum <;> decide +kernel

/-- Of the two traps the second one is saved at 0. -/
theorem nested_trap_lost :
    ∃ m, TrapRun sampleImage [⟨.handling, 0⟩, ⟨.process, sampleImage.sscratchStack⟩]
      (.entering 0) m ∧
    ¬ Saving sampleImage [⟨.handling, 0⟩, ⟨.process, sampleImage.sscratchStack⟩]
    (.entering 0) m := by
  have hload : loadBytes badCaller.kernel.phys.mem (withSum (badCaller.called 0)).csr 0x20000 1 =
      .error (.pageFault 0x20000) := by
    have haddr : loadAddr onePageMem (withSum (badCaller.called 0)).csr 0x20000 =
        .error (.pageFault 0x20000) := by
      have hsatp : (withSum (badCaller.called 0)).csr.satp = satpOf 0x84000000 := rfl
      rw [loadAddr, if_pos (by decide), hsatp]
      exact badCaller_fault _
    have hmem : badCaller.kernel.phys.mem = onePageMem := rfl
    rw [loadBytes, loadBytes, ok_bind, Nat.add_zero, u64_of_lt (by decide), hmem, haddr]
    rfl
  obtain ⟨m, hm⟩ := badCaller_call.nested badCaller_runs (by decide) hload
  refine ⟨m, hm, fun h => ?_⟩
  exact absurd (h.taken _ List.mem_cons_self) (by decide)

theorem traps_saved_once :
    TrapRun sampleImage [⟨.process, sampleImage.sscratchStack⟩] (.entering 0)
      (badCaller.take syscallFromUMode) ∧
    Saving sampleImage [⟨.process, sampleImage.sscratchStack⟩] (.entering 0)
    (badCaller.take syscallFromUMode) := by
  have hrun :
      TrapRun sampleImage [⟨.process, sampleImage.sscratchStack⟩] (.entering 0)
      (badCaller.take syscallFromUMode) :=
    badCaller_runs.take .process
  exact ⟨hrun, traps_saved hrun (by simp [TrapPoint.outside])⟩

end SkyOS
