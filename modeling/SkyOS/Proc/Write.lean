import SkyOS.Proc.BootLaws

/-!
# The write system call

`sys_write` against what its caller may read. The bytes before the first NUL
are printed, and the length it returns is not stored in the context.
-/

namespace SkyOS

open ByteMem

-- ---------------------------------------------------------------------------
-- What a process may read
-- ---------------------------------------------------------------------------

def userLevel (m : Mem) (va level a : ℕ) : Run ℕ :=
  walkLevel m (fun pte => pte &&& pteU == 0) va level a

def userAddr (m : Mem) (c : Csr) (va : ℕ) : Run ℕ :=
  if canonical va then userLevel m va 2 (satpRoot c.satp) else throw (.pageFault va)

/-- `l` is what the process may read at `src`, `n` bytes of it. -/
structure UserBytes (m : Mem) (c : Csr) (src n : ℕ) (l : List UInt8) : Prop where
  length : l.length = n
  byte : ∀ i < n, ∃ pa, userAddr m c (u64 (src + i)) = .ok pa ∧ l[i]? = some (m pa)

section
variable {m : Mem} {c c' : Csr}

/-- Who is refused less gets as far. -/
theorem walkLevel_mono {refused refused' : ℕ → Bool}
    (hsub : ∀ pte, refused' pte = true → refused pte = true)
    (h : walkLevel m refused va level a = .ok pa) : walkLevel m refused' va level a = .ok pa := by
  induction level generalizing a with
  | zero =>
    unfold walkLevel at h ⊢
    dsimp only at h ⊢
    split_ifs at h with h1 h2 h3
    rw [if_neg h1, if_pos h2, if_neg (by grind), ← h]
  | succ level ih =>
    unfold walkLevel at h ⊢
    dsimp only at h ⊢
    split_ifs at h with h1 h2 h3
    · rw [if_neg h1, if_pos h2, if_neg (by grind), ← h]
    · rw [if_neg h1, if_neg h2]
      exact ih h

theorem userLevel_load (h : userLevel m va level a = .ok pa) :
    loadLevel m true va level a = .ok pa :=
  walkLevel_mono (by simp) h

theorem userAddr_load (hs : c'.sstatus.testBit 18 = true) (hr : c'.satp = c.satp)
    (h : userAddr m c va = .ok pa) :
    loadAddr m c' va = .ok pa := by
  have hsum : (c'.sstatus &&& sstatusSum != 0) = true := by
    rw [bne_iff_ne, ne_eq, sstatusSum, and_bit, hs]
    decide
  unfold userAddr at h
  unfold loadAddr
  split at h <;> rename_i hc
  · rw [if_pos hc, hsum, hr]
    exact userLevel_load h
  · simp at h

theorem UserBytes.prefix (h : UserBytes m c src (n + 1) l) : ∃ l' b, l = l' ++ [b] ∧
    UserBytes m c src n l' := by
  obtain ⟨hlen, hbyte⟩ := h
  obtain ⟨l', b, rfl⟩ := List.eq_nil_or_concat l |>.resolve_left (by rintro rfl; simp at hlen)
  have hlen' : l'.length = n := by simpa using hlen
  refine ⟨l', b, by simp, hlen', fun i hi => ?_⟩
  obtain ⟨pa, h1, h2⟩ := hbyte i (by omega)
  refine ⟨pa, h1, ?_⟩
  rwa [List.concat_eq_append, List.getElem?_append_left (by omega)] at h2

theorem UserBytes.loads (hs : c'.sstatus.testBit 18 = true) (hr : c'.satp = c.satp)
    (h : UserBytes m c src n l) :
    loadBytes m c' src n = .ok l := by
  induction n generalizing l with
  | zero => rw [List.eq_nil_of_length_eq_zero h.length]; rfl
  | succ n ih =>
    obtain ⟨l', b, rfl, h'⟩ := h.prefix
    obtain ⟨pa, h1, h2⟩ := h.byte n (by omega)
    obtain rfl : b = m pa := by
      rw [List.getElem?_append_right h'.length.le, h'.length] at h2
      simpa using h2
    rw [loadBytes, ih h', ok_bind, userAddr_load hs hr h1, ok_bind]
    rfl

end

-- ---------------------------------------------------------------------------
-- sys_write
-- ---------------------------------------------------------------------------

theorem cString_eq : cString l = l ↔ (0 : UInt8) ∉ l := by
  rw [cString, List.takeWhile_eq_self_iff]
  constructor
  · intro h h0
    simpa using h 0 h0
  · rintro h x hx
    exact bne_iff_ne.mpr fun h0 => h (h0 ▸ hx)

section
variable {I : Image} {m : Machine}

structure WriteCall (I : Image) (m : Machine) (p : ℕ) : Prop where
  mode : m.mode = .user
  sscratch : m.csr.sscratch = I.sscratchStack
  current : m.kernel.currentTask = some p
  number : m.reg .a7 = syscallWrite
  fd : m.reg .a0 = 0

/-- The caller's bytes are printed, all of them that it may read, and the
caller goes on with their number. -/
structure Wrote (m : Machine) (out : List UInt8) (m' : Machine) : Prop where
  bytes : UserBytes m.kernel.phys.mem m.csr (m.reg .a1) (m.reg .a2) out
  mode : m'.mode = .user
  length : m'.reg .a0 = m.reg .a2

/-- A store outside of `internal_buffer` is one of the ways to stop. -/
def WriteFaithful (I : Image) (m : Machine) : Prop :=
  ∃ out m', trap I syscallFromUMode m = .ok (out, m') ∧ Wrote m out m'

def Machine.called (m : Machine) (p : ℕ) : Kernel :=
  let k := m.trapped syscallFromUMode
  k.setTask p { k.task p with context := ⟨m.reg, u64 (m.pc + 4)⟩ }

theorem syscall_write (hc : k.currentTask = some p)
    (hn : (k.task p).context.reg .a7 = syscallWrite) :
    syscall L k = sysWrite ((k.task p).context.reg .a0) ((k.task p).context.reg .a1)
      ((k.task p).context.reg .a2) k := by
  rw [syscall, Kernel.current, hc]
  simp only [ok_bind, hn]
  rw [if_neg (by decide), if_neg (by decide), if_neg (by decide), if_pos trivial]

theorem WriteCall.trapStart (h : WriteCall I m p) (hw : Context.load w x = ⟨m.reg, m.pc⟩) :
    trapStart L x w (m.trapped syscallFromUMode) =
      sysWrite 0 (m.reg .a1) (m.reg .a2) (m.called p) := by
  have hcause : (m.trapped syscallFromUMode).csr.scause = syscallFromUMode := rfl
  have hcur : (m.trapped syscallFromUMode).current = .ok p := by
    rw [Kernel.current, show (m.trapped syscallFromUMode).currentTask = some p from h.current]
  have hcalled : ((m.trapped syscallFromUMode).setTask p
      { (m.trapped syscallFromUMode).task p with context := ⟨m.reg, m.pc⟩ }).setTask p
      { ((m.trapped syscallFromUMode).setTask p
          { (m.trapped syscallFromUMode).task p with context := ⟨m.reg, m.pc⟩ }).task p with
        context := ⟨m.reg, u64 (m.pc + 4)⟩ } = m.called p := by
    simp [Machine.called, Kernel.setTask]
  have hctx : ((m.called p).task p).context.reg = m.reg := by simp [Machine.called, Kernel.setTask]
  have hinter : (syscallFromUMode &&& 1 <<< 63 != 0) = false := by decide
  have hself : ∀ t, ((m.trapped syscallFromUMode).setTask p t).task p = t := by
    simp [Kernel.setTask]
  unfold SkyOS.trapStart
  simp only [hcause, hcur, ok_bind, hinter, hw, hself, Bool.false_eq_true, if_false]
  rw [hself] at hcalled
  rw [hcalled, show syscallFromUMode &&& 0xff = syscallFromUMode by decide, handleException,
      if_pos rfl,
    syscall_write (k := m.called p) h.current (by rw [hctx, h.number]), hctx, h.fd]

def withoutSum (k : Kernel) : Kernel :=
  { k with csr := k.csr.sstatusSet (clearBit k.csr.sstatus sstatusSum) }

theorem sysWrite_short (hlen : len < 256)
    (hl : loadBytes k.phys.mem (withSum k).csr buf len = .ok l) :
    sysWrite 0 buf len k = .ok (cString l, withoutSum (withSum k)) := by
  rw [sysWrite, if_pos rfl, u32_of_lt (by omega), Nat.min_eq_left hlen.le]
  change loadBytes k.phys.mem (withSum k).csr buf len >>= _ = _
  rw [hl, ok_bind, if_neg (by omega)]
  rfl

theorem sysWrite_inv (h : sysWrite 0 buf len k = .ok (out, k')) : len < 256 ∧
    k' = withoutSum (withSum k) := by
  rw [sysWrite, if_pos rfl, bind_ok] at h
  obtain ⟨l, -, h⟩ := h
  split_ifs at h with hlen
  · cases h
  · simp only [pure_ok, Prod.mk.injEq] at h
    exact ⟨by omega, h.2.symm⟩

def Machine.wrote (m : Machine) (p : ℕ) : Kernel := withoutSum (withSum (m.called p))

theorem WriteCall.resumes (h : WriteCall I m p) (w : ℕ → ℕ) :
    (Machine.resumed I w (m.wrote p) p).mode = .user ∧
    (Machine.resumed I w (m.wrote p) p).reg .a0 = 0 := by
  refine ⟨?_, ?_⟩
  · have hspp : (m.wrote p).csr.sstatus.testBit 8 = false := by
      simp only [Machine.wrote, withoutSum, Machine.called, withSum, Csr.sstatusSet, Kernel.setTask,
          Machine.trapped, Machine.take,
        h.mode, if_true, Machine.csr, Machine.setCsr]
      simp only [clearBit_testBit, setBit_testBit]
      split <;> simp [clearBit_testBit, setBit_testBit]
    rw [resumed_mode, hspp]
    rfl
  · have hctx : ((m.wrote p).task p).context = ⟨m.reg, u64 (m.pc + 4)⟩ := by
      simp [Machine.wrote, withoutSum, withSum, Machine.called, Kernel.setTask]
    simp only [Machine.resumed, Machine.sret, Machine.setCsr, hctx]
    exact h.fd

theorem WriteCall.trap (h : WriteCall I m p) : ∃ w, trap I syscallFromUMode m = do
    let (out, k) ← sysWrite 0 (m.reg .a1) (m.reg .a2) (m.called p)
    let p ← k.current
    return (out, Machine.resumed I w k p) := by
  obtain ⟨m₁, he⟩ := trapEntry_ok (m := m.take syscallFromUMode) h.sscratch
  obtain ⟨hload, htrap⟩ := trap_entered he
  exact ⟨m₁.word, by rw [htrap, h.trapStart hload]⟩

theorem WriteCall.a0 (h : WriteCall I m p) (ht : SkyOS.trap I syscallFromUMode m = .ok (out, m')) :
    m.reg .a2 < 256 ∧ m'.reg .a0 = 0 := by
  obtain ⟨w, htrap⟩ := h.trap
  rw [ht] at htrap
  obtain ⟨⟨out', k⟩, hw, hk⟩ := bind_ok.mp htrap.symm
  obtain ⟨hlen, rfl⟩ := sysWrite_inv hw
  have hcur : (m.wrote p).current = .ok p := by
    rw [Kernel.current, show (m.wrote p).currentTask = some p from h.current]
  change (m.wrote p).current >>= _ = _ at hk
  rw [hcur, ok_bind, pure_ok, Prod.mk.injEq] at hk
  obtain ⟨-, rfl⟩ := hk
  exact ⟨hlen, (h.resumes w).2⟩

/-- Fewer than 256 bytes that the caller may read are printed up to the first
NUL, and the process goes on. -/
theorem write_prints (h : WriteCall I m p) (hlen : m.reg .a2 < 256)
    (hl : UserBytes m.kernel.phys.mem m.csr (m.reg .a1) (m.reg .a2) l) :
    ∃ m', trap I syscallFromUMode m = .ok (cString l, m') ∧ m'.mode = .user ∧ m'.reg .a0 = 0 := by
  obtain ⟨w, htrap⟩ := h.trap
  have hsum : (withSum (m.called p)).csr.sstatus.testBit 18 = true := by
    simp [withSum, Csr.sstatusSet, setBit_testBit]
  have hload : loadBytes (m.called p).phys.mem (withSum (m.called p)).csr (m.reg .a1) (m.reg .a2) =
      .ok l :=
    UserBytes.loads (c := m.csr) hsum rfl hl
  have hcur : (m.wrote p).current = .ok p := by
    rw [Kernel.current, show (m.wrote p).currentTask = some p from h.current]
  rw [sysWrite_short hlen hload, ok_bind] at htrap
  change SkyOS.trap I syscallFromUMode m = (m.wrote p).current >>= _ at htrap
  rw [hcur, ok_bind] at htrap
  exact ⟨_, htrap, h.resumes w⟩

theorem write_output_iff (h : WriteCall I m p) (hlen : m.reg .a2 < 256)
    (hl : UserBytes m.kernel.phys.mem m.csr (m.reg .a1) (m.reg .a2) l) :
    (∃ m', trap I syscallFromUMode m = .ok (l, m')) ↔ (0 : UInt8) ∉ l := by
  obtain ⟨m₁, h1, -⟩ := write_prints h hlen hl
  rw [← cString_eq]
  constructor
  · rintro ⟨m', h2⟩
    rw [h1, Except.ok.injEq, Prod.mk.injEq] at h2
    exact h2.1
  · intro hl
    exact ⟨m₁, by rw [h1, hl]⟩

/-- For every buffer and pointer: the call does what it should if and only if
the length is 0, which is what `a0` holds already. -/
theorem write_faithful_iff (h : WriteCall I m p) : WriteFaithful I m ↔ m.reg .a2 = 0 := by
  constructor
  · rintro ⟨out, m', ht, hw⟩
    exact hw.length.symm.trans (h.a0 ht).2
  · intro h0
    have hl : UserBytes m.kernel.phys.mem m.csr (m.reg .a1) (m.reg .a2) [] :=
      ⟨h0.symm, by simp [h0]⟩
    obtain ⟨m', ht, hmode, ha⟩ := write_prints h (by omega) hl
    exact ⟨[], m', ht, hl, hmode, ha.trans h0.symm⟩

end

-- ---------------------------------------------------------------------------
-- One byte
-- ---------------------------------------------------------------------------

def onePageMem : Mem :=
  let m : Mem := fun x => if x = 0x84003000 then 65 else 0
  let m := writePte m 0x84000000 (tablePte 0x84001000 0)
  let m := writePte m 0x84001000 (tablePte 0x84002000 0)
  writePte m 0x84002080 (leafPte 0x84003000 pteU)

def writeCaller (len : ℕ) : Machine where
  mode := .user
  reg
    | .a1 => 0x10000
    | .a2 => len
    | .a7 => syscallWrite
    | _ => 0
  pc := 0x10100
  word _ := 0
  kernel := { coldKernel 0x84000000 ⟨onePageMem, buddyInit zeroed⟩ with
    currentTask := some 0
    csr := ⟨0, 0, 0, 0x802ff000, 0, 0, 0, satpOf 0x84000000⟩ }

theorem writeCaller_call (len : ℕ) : WriteCall sampleImage (writeCaller len) 0 :=
  ⟨rfl, rfl, rfl, rfl, rfl⟩

theorem onePageMem_addr : userAddr onePageMem (writeCaller 1).csr 0x10000 = .ok 0x84003000 := by
  decide +kernel

theorem writeCaller_byte : UserBytes onePageMem (writeCaller 1).csr 0x10000 1 [65] where
  length := rfl
  byte i hi := by
    obtain rfl : i = 0 := by omega
    exact ⟨0x84003000, onePageMem_addr, by decide⟩

theorem write_faithful_none : WriteFaithful sampleImage (writeCaller 0) ↔
    (writeCaller 0).reg .a2 = 0 :=
  write_faithful_iff (writeCaller_call 0)

/-- One byte is printed, and the process is told that it was none. -/
theorem write_unreturned : WriteCall sampleImage (writeCaller 1) 0 ∧
    ¬ WriteFaithful sampleImage (writeCaller 1) ∧
    ∃ m', trap sampleImage syscallFromUMode (writeCaller 1) = .ok ([65], m') ∧ m'.reg .a0 = 0 := by
  have h := writeCaller_call 1
  refine ⟨h, ?_, ?_⟩
  · rintro ⟨out, m', ht, hw⟩
    exact absurd (hw.length.symm.trans (h.a0 ht).2) (by decide)
  · obtain ⟨m', ht, -, ha⟩ := write_prints h (by decide) writeCaller_byte
    exact ⟨m', ht, ha⟩

end SkyOS
