import SkyOS.Proc.Sched

/-!
# Starting a program

`execve` of `proc/sched.c` over `include/elf.h`. What the file system finds
under the name is a parameter: the size that the directory entry gives and the
bytes that `fat_read` delivers.
-/

namespace SkyOS

open ByteMem

-- ---------------------------------------------------------------------------
-- include/elf.h
-- ---------------------------------------------------------------------------

abbrev elfMagic : ℕ := 0x464C457F

abbrev elfProgLoad : ℕ := 1

abbrev proghdrSize : ℕ := 56

/-- The fields of `struct elfhdr` that are read, at `a`. -/
structure Elfhdr where
  magic : ℕ
  entry : ℕ
  phoff : ℕ
  phnum : ℕ
  deriving DecidableEq

def readElfhdr (m : Mem) (a : ℕ) : Elfhdr where
  magic := readLE m a 4
  entry := readLE m (a + 24) 8
  phoff := readLE m (a + 32) 8
  phnum := readLE m (a + 56) 2

structure Proghdr where
  type : ℕ
  off : ℕ
  vaddr : ℕ
  filesz : ℕ
  memsz : ℕ
  deriving DecidableEq

def readProghdr (m : Mem) (a : ℕ) : Proghdr where
  type := readLE m a 4
  off := readLE m (a + 8) 8
  vaddr := readLE m (a + 16) 8
  filesz := readLE m (a + 32) 8
  memsz := readLE m (a + 40) 8

-- ---------------------------------------------------------------------------
-- execve
-- ---------------------------------------------------------------------------

structure File where
  size : ℕ
  byte : ℕ → UInt8

def File.load (f : File) (m : Mem) (a : ℕ) : Mem := fun x =>
  if a ≤ x ∧ x < a + f.size then f.byte (x - a) else m x

/-- One round of the loop over the program headers, with `SEPC_OFFSET`. -/
def loadSegment (L : Layout) (p elfcontent i : ℕ) (r : ℕ × Kernel) : Run (ℕ × Kernel) := do
  let (sepcOffset, k) := r
  let header := readElfhdr k.phys.mem elfcontent
  let off := u32 (header.phoff + i * proghdrSize)
  let ph := readProghdr k.phys.mem (elfcontent + off)
  if ph.type ≠ elfProgLoad then return (sepcOffset, k)
  let (tmp, k) ← k.alloc L ph.memsz
  if !align tmp then throw (.panic "...")
  let m ← copyIn k.csr tmp (u64 (elfcontent + ph.off)) (u32 ph.filesz) k.phys.mem
  -- the headers lie in memory that may have been written
  let ph := readProghdr m (elfcontent + off)
  let k ← umap L p ph.vaddr tmp ph.memsz (k.setMem m)
  let ph := readProghdr k.phys.mem (elfcontent + off)
  let header := readElfhdr k.phys.mem elfcontent
  if ph.vaddr ≤ header.entry ∧ header.entry < u64 (ph.vaddr + ph.memsz) then return (offset tmp, k)
  else return (sepcOffset, k)

def loadSegments (L : Layout) (p elfcontent : ℕ) : ℕ → ℕ → ℕ × Kernel → Run (ℕ × Kernel)
  | 0, _, r => .ok r
  | fuel + 1, i, r =>
    if i < (readElfhdr r.2.phys.mem elfcontent).phnum then do
      let r ← loadSegment L p elfcontent i r
      loadSegments L p elfcontent fuel (i + 1) r
    else .ok r

/-- Up to the call of `trap_return_2`. `SEPC_OFFSET` is not initialised: it
starts out as `junk`. -/
def execve (L : Layout) (junk : ℕ) (filename : ℕ → UInt8) (file : File) (k : Kernel) :
    Run Kernel := do
  let (p, k) ← allocProcess L k
  let k := k.setTask p { k.task p with
    filename := fun i => if i < 8 then filename i else (k.task p).filename i }
  let (elfcontent, k) ← k.alloc L file.size
  let k := k.setMem (file.load k.phys.mem elfcontent)
  if (readElfhdr k.phys.mem elfcontent).magic ≠
    elfMagic then throw (.panic "not ELF format binary code")
  let (sepcOffset, k) ← loadSegments L p elfcontent (2 ^ 16) 0 (junk, k)
  let (stack, k) ← k.alloc L (pgSize * 4)
  if !align stack then throw (.panic "stack paddr not aligned")
  let k ← umap L p (u64Sub ((k.task p).context.reg .sp) (4 * pgSize)) (u64Sub stack (4 * pgSize))
    (pgSize * 4) k
  let header := readElfhdr k.phys.mem elfcontent
  let k := k.setTask p { k.task p with
    context := { (k.task p).context with sepc := u64 (header.entry + sepcOffset) } }
  switchTo { k with currentTask := some p }

-- ---------------------------------------------------------------------------
-- A call that comes back
-- ---------------------------------------------------------------------------

def named (p : ℕ) (filename : ℕ → UInt8) (k : Kernel) : Kernel :=
  k.setTask p { k.task p with filename :=
    fun i => if i < 8 then filename i else (k.task p).filename i }

/-- The new process is entered at the address in the header at `elfcontent`. -/
def entered (p elfcontent sepcOffset : ℕ) (k : Kernel) : Kernel :=
  let t : Task := { k.task p with
    context := { (k.task p).context with
      sepc := u64 ((readElfhdr k.phys.mem elfcontent).entry + sepcOffset) } }
  { k.setTask p t with
    currentTask := some p
    csr := (k.csr.sstatusSet (clearBit k.csr.sstatus sstatusSpp)).satpSet (satpOf t.pgtable) }

theorem execve_ok : execve L junk filename file k = .ok k' ↔ ∃ p k₁ a k₂ o k₃ stack k₄ k₅,
    allocProcess L k = .ok (p, k₁) ∧ (named p filename k₁).alloc L file.size = .ok (a, k₂) ∧
    (readElfhdr (file.load k₂.phys.mem a) a).magic = elfMagic ∧
    loadSegments L p a (2 ^ 16) 0 (junk, k₂.setMem (file.load k₂.phys.mem a)) = .ok (o, k₃) ∧
    k₃.alloc L (pgSize * 4) = .ok (stack, k₄) ∧ align stack ∧
    umap L p (u64Sub ((k₄.task p).context.reg .sp) (4 * pgSize)) (u64Sub stack (4 * pgSize))
    (pgSize * 4) k₄ = .ok k₅ ∧
    k' = entered p a o k₅ := by
  unfold execve
  simp only [bind_ok, Prod.exists]
  constructor
  · rintro ⟨p, k₁, h1, a, k₂, h2, h⟩
    split at h
    · simp [bind_ok] at h
    rename_i hmagic
    simp only [bind_ok, Prod.exists] at h
    obtain ⟨o, k₃, h3, stack, k₄, h4, h⟩ := h
    split at h
    · simp [bind_ok] at h
    rename_i hal
    simp only [bind_ok] at h
    obtain ⟨k₅, h5, h6⟩ := h
    refine ⟨p, k₁, a, k₂, o, k₃, stack, k₄, k₅, h1, h2, not_not.mp hmagic, h3, h4,
      by simpa using hal, h5, ?_⟩
    rw [switchTo, bind_ok] at h6
    obtain ⟨q, hq, h6⟩ := h6
    cases hq
    rw [pure_ok] at h6
    rw [← h6]
    simp [entered, Kernel.setTask]
  · rintro ⟨p, k₁, a, k₂, o, k₃, stack, k₄, k₅, h1, h2, hmagic, h3, h4, hal, h5, rfl⟩
    refine ⟨p, k₁, h1, a, k₂, h2, ?_⟩
    have hmagic : ¬ (readElfhdr (k₂.setMem (file.load k₂.phys.mem a)).phys.mem a).magic ≠
      elfMagic := not_not.mpr hmagic
    rw [if_neg hmagic]
    simp only [bind_ok, Prod.exists]
    refine ⟨o, k₃, h3, stack, k₄, h4, ?_⟩
    rw [if_neg (by simpa using hal)]
    simp only [bind_ok]
    refine ⟨k₅, h5, ?_⟩
    rw [switchTo, bind_ok]
    refine ⟨p, rfl, ?_⟩
    rw [pure_ok]
    simp [entered, Kernel.setTask]

-- ---------------------------------------------------------------------------
-- The steps of a call
-- ---------------------------------------------------------------------------

/-- What loading a segment does to the kernel's state. -/
inductive LoadOp (L : Layout) : Kernel → Kernel → Prop
  | alloc : k.alloc L size = .ok (a, k') → LoadOp L k k'
  | store : LoadOp L k (k.setMem m)
  | umap : umap L p va pa size k = .ok k' → LoadOp L k k'

/-- What `execve` does to it before `current_task` is set. -/
inductive ExecOp (L : Layout) : Kernel → Kernel → Prop
  | process : allocProcess L k = .ok (p, k') → ExecOp L k k'
  | name : ExecOp L k (named p filename k)
  | load : LoadOp L k k' → ExecOp L k k'
  | entry :
      ExecOp L k (k.setTask p { k.task p with context := { (k.task p).context with sepc := v } })

abbrev LoadOps (L : Layout) : Kernel → Kernel → Prop := Relation.ReflTransGen (LoadOp L)

abbrev ExecOps (L : Layout) : Kernel → Kernel → Prop := Relation.ReflTransGen (ExecOp L)

theorem loadSegment_ops (h : loadSegment L p a i (o, k) = .ok (o', k')) : LoadOps L k k' := by
  unfold loadSegment at h
  simp only at h
  split at h
  · rw [pure_ok, Prod.mk.injEq] at h
    exact h.2 ▸ .refl
  · rw [bind_ok] at h
    obtain ⟨⟨tmp, k₁⟩, ha, h⟩ := h
    simp only at h
    split at h
    · cases h
    · rw [bind_ok] at h
      obtain ⟨m, -, h⟩ := h
      rw [bind_ok] at h
      obtain ⟨k₂, hu, h⟩ := h
      have hk : k₂ = k' := by
        split at h <;> (rw [pure_ok, Prod.mk.injEq] at h; exact h.2)
      exact hk ▸ .tail (.tail (.single (.alloc ha)) .store) (.umap hu)

theorem loadSegments_ops (h : loadSegments L p a n i (o, k) = .ok (o', k')) : LoadOps L k k' := by
  induction n generalizing i o k with
  | zero =>
    rw [loadSegments, Except.ok.injEq, Prod.mk.injEq] at h
    exact h.2 ▸ .refl
  | succ n ih =>
    rw [loadSegments] at h
    split at h
    · rw [bind_ok] at h
      obtain ⟨⟨o₁, k₁⟩, h1, h2⟩ := h
      exact (loadSegment_ops h1).trans (ih h2)
    · rw [Except.ok.injEq, Prod.mk.injEq] at h
      exact h.2 ▸ .refl

theorem LoadOps.exec (h : LoadOps L k k') : ExecOps L k k' :=
  Relation.ReflTransGen.mono (fun _ _ => ExecOp.load) _ _ h

theorem execve_ops (h : execve L junk filename file k = .ok k') : ∃ p a o k₁ k₅, allocProcess L k =
    .ok (p, k₁) ∧
    ExecOps L k₁ k₅ ∧ k' = entered p a o k₅ := by
  obtain ⟨p, k₁, a, k₂, o, k₃, stack, k₄, k₅, h1, h2, -, h3, h4, -, h5, rfl⟩ := execve_ok.mp h
  have hload : LoadOps L (named p filename k₁) k₅ :=
    .tail (.tail (.trans (.tail (.single (.alloc h2)) .store) (loadSegments_ops h3)) (.alloc h4))
      (.umap h5)
  exact ⟨p, a, o, k₁, k₅, h1, .trans (.single .name) hload.exec, rfl⟩

end SkyOS
