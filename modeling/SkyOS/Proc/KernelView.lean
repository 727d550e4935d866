import SkyOS.Proc.Isolation

/-!
# What every process sees of the kernel

A trap enters the kernel on the table of the process. `sys_fork` is taken apart
into the steps of `SpaceReach`, so that whatever sequence of calls has made the
processes, the kernel's range is mapped in all of them.
-/

namespace SkyOS

open ByteMem

-- ---------------------------------------------------------------------------
-- sys_fork
-- ---------------------------------------------------------------------------

def forkTasks (p q : ℕ) (k : Kernel) : Kernel :=
  let parent := k.task q
  let k := k.setTask p { k.task p with
    filename := parent.filename
    fpid := parent.pid
    state := .running
    context := parent.context.set .a0 0 }
  k.setTask q { k.task q with context := (k.task q).context.set .a0 (k.task p).pid }

def withSum (k : Kernel) : Kernel :=
  { k with csr := k.csr.sstatusSet (setBit k.csr.sstatus sstatusSum) }

def copyVmas (L : Layout) (p q n : ℕ) (k : Kernel) : Run Kernel :=
  (List.range n).foldlM (fun k i => copyVma L p q i k) k

def copyBlocks (L : Layout) (p q : ℕ) (k : Kernel) : ℕ → Set ℕ
  | 0 => ∅
  | n + 1 => copyBlocks L p q k n ∪ {x | ∃ k₁ pa k₂, copyVmas L p q n k = .ok k₁ ∧
      ((k₁.task q).memMap n).memRange ≠ 0 ∧ k₁.alloc L ((k₁.task q).memMap n).memRange =
        .ok (pa, k₂) ∧
      x ∈ blockBytes pa ((k₁.task q).memMap n).memRange}

def forkBytes (L : Layout) (k : Kernel) : Set ℕ :=
  {x | ∃ p k₁ q, allocProcess L k = .ok (p, k₁) ∧ k₁.currentTask = some q ∧
    x ∈ copyBlocks L p q (withSum (forkTasks p q k₁)) maxVmaNum}

/-- The tables that round `i` needs come from pages without entries. -/
def BlankRound (L : Layout) (p q i : ℕ) (k : Kernel) : Prop :=
  ∀ pa k₁ m, k.alloc L ((k.task q).memMap i).memRange = .ok (pa, k₁) →
    copyIn k₁.csr pa ((k.task q).memMap i).memStart (u32 ((k.task q).memMap i).memRange)
      k₁.phys.mem = .ok m →
    BlankPages L ⟨m, k₁.phys.heap⟩
        (tablesMissing m (k₁.task p).pgtable ((k.task q).memMap i).memStart pa
      ((k.task q).memMap i).memRange)

def BlankFork (L : Layout) (k : Kernel) : Prop :=
  ∀ p k₁ q i k₂, allocProcess L k = .ok (p, k₁) → k₁.currentTask = some q →
    copyVmas L p q i (withSum (forkTasks p q k₁)) = .ok k₂ → BlankRound L p q i k₂

def Kernel.Words (k : Kernel) : Prop := ∀ p i, ((k.task p).memMap i).memStart < 2 ^ 64

/-- The calls that make processes and map memory for them, from `vms_init` on.
Between them, blocks are handed out for data, data is stored, and the kernel
works on whatever is not a page table. -/
inductive CallReach (L : Layout) (b : Buddy) : Kernel → Set ℕ → Prop
  | boot : s.heap = buddyInit b → (∀ p, k.pidmap p = 0) →
      BlankPages L s (1 + tablesMissing s.mem k.kPgtable kernelStart kernelStart (kernelRange L)) →
      kPgtableInit (kalloc L) L s = .ok (k.kPgtable, k.phys) → CallReach L b k ∅
  | process : CallReach L b k D → allocProcess L k = .ok (p, k') → CallReach L b k' D
  | umap : CallReach L b k D → k.pidmap p ≠ 0 → va < 2 ^ 64 → pa < 2 ^ 64 →
      BlankPages L k.phys (tablesMissing k.phys.mem (k.task p).pgtable va pa size) →
      umap L p va pa size k = .ok k' → CallReach L b k' D
  | fork : CallReach L b k D → k.Words → BlankFork L k →
      sysFork L k = .ok (c, k') → CallReach L b k' (D ∪ forkBytes L k)
  | alloc : CallReach L b k D → k.alloc L size = .ok (a, k') →
      CallReach L b k' (D ∪ blockBytes a size)
  | store : CallReach L b k D → (∀ x ∉ D, m x = k.phys.mem x) → CallReach L b (k.setMem m) D
  | other : CallReach L b k D → k'.phys = k.phys → k'.pidmap = k.pidmap →
      (∀ r, k'.root r = k.root r) →
      CallReach L b k' D

section
variable {L : Layout} {b : Buddy} {k k' k₁ : Kernel} {D : Set ℕ}

-- ---------------------------------------------------------------------------
-- One region
-- ---------------------------------------------------------------------------

theorem copyIn_outside (h : copyIn c dst src n m = .ok m') (hx : ¬ (dst ≤ x ∧ x < dst + n)) :
    m' x = m x := by
  induction n generalizing m' with
  | zero =>
    rw [copyIn, Except.ok.injEq] at h
    rw [h]
  | succ n ih =>
    rw [copyIn, bind_ok] at h
    obtain ⟨m₁, h1, h2⟩ := h
    rw [bind_ok] at h2
    obtain ⟨pa, -, h3⟩ := h2
    rw [pure_ok] at h3
    rw [← h3, Function.update_of_ne (by omega), ih h1 (by omega)]

theorem copyVmas_succ (L : Layout) (p q n : ℕ) (k : Kernel) :
    copyVmas L p q (n + 1) k = copyVmas L p q n k >>= copyVma L p q n := by
  rw [copyVmas, copyVmas, List.range_succ, List.foldlM_append]
  congr 1
  funext k
  rw [List.foldlM_cons]
  exact bind_pure _

theorem copyVma_inv (h : copyVma L p q i k = .ok k') (hv : ((k.task q).memMap i).memRange ≠ 0) :
    ∃ pa k₁ m,
    k.alloc L ((k.task q).memMap i).memRange = .ok (pa, k₁) ∧
    copyIn k₁.csr pa ((k.task q).memMap i).memStart (u32 ((k.task q).memMap i).memRange)
      k₁.phys.mem = .ok m ∧
    umap L p ((k.task q).memMap i).memStart pa ((k.task q).memMap i).memRange (k₁.setMem m) =
      .ok k' := by
  unfold copyVma at h
  rw [if_pos hv, bind_ok] at h
  obtain ⟨⟨pa, k₁⟩, h1, h2⟩ := h
  simp only [bind_ok] at h2
  obtain ⟨m, h2, h3⟩ := h2
  exact ⟨pa, k₁, m, h1, h2, h3⟩

theorem copyVma_skip (hv : ((k.task q).memMap i).memRange = 0) : copyVma L p q i k = .ok k := by
  unfold copyVma
  rw [if_neg (by simpa using hv)]
  rfl

theorem Kernel.Words.umap (h : k.Words) (hva : va < 2 ^ 64) (hu : umap L p va pa size k = .ok k') :
    k'.Words := by
  simp only [SkyOS.umap, bind_ok, pure_ok] at hu
  obtain ⟨phys, -, rfl⟩ := hu
  intro q i
  simp only [Kernel.setTask]
  by_cases hq : q = p
  · subst hq
    rw [Function.update_self, vmaInsert]
    split
    · rename_i j _
      by_cases hi : i = j
      · subst hi
        simpa using hva
      · simp only [Function.update_of_ne hi]
        exact h q i
    · exact h q i
  · rw [Function.update_of_ne hq]
    exact h q i

theorem SpaceReach.copyVma (hr : SpaceReach L b k D) (hw : k.Words) (hp : k.pidmap p ≠ 0)
    (hb : BlankRound L p q i k) (h : copyVma L p q i k = .ok k') :
    SpaceReach L b k' (D ∪ {x | ∃ pa k₂, ((k.task q).memMap i).memRange ≠ 0 ∧
      k.alloc L ((k.task q).memMap i).memRange = .ok (pa, k₂) ∧
        x ∈ blockBytes pa ((k.task q).memMap i).memRange}) ∧
      k'.pidmap = k.pidmap ∧ k'.Words := by
  by_cases hv : ((k.task q).memMap i).memRange = 0
  · rw [copyVma_skip hv, Except.ok.injEq] at h
    subst h
    simpa [hv] using ⟨hr, hw⟩
  · obtain ⟨pa, k₁, m, ha, hc, hu⟩ := copyVma_inv h hv
    have hset : {x | ∃ pa k₂, ((k.task q).memMap i).memRange ≠ 0 ∧
        k.alloc L ((k.task q).memMap i).memRange = .ok (pa, k₂) ∧
        x ∈ blockBytes pa ((k.task q).memMap i).memRange} =
        blockBytes pa ((k.task q).memMap i).memRange := by
      ext x
      simp [hv, ha]
    rw [hset]
    have hb := hb pa k₁ m ha hc
    obtain ⟨T, P, hs⟩ := spaceReach_spaces hr
    obtain ⟨heap, hk, rfl⟩ := alloc_ok.mp ha
    have hg := hs.owned.grant hk
    have hlen := u32_le_kallocLen hk
    have hstore := (hr.alloc ha).store (m := m) fun x hx => copyIn_outside hc fun hin =>
      hx (.inr ⟨hin.1, by omega⟩)
    have hpa : pa < 2 ^ 64 := by
      have h1 := hg.stop
      have h2 := L.pmmEnd_lt
      omega
    have hpid := umap_pidmap hu
    refine ⟨hstore.umap hp (hw q i) hpa hb hu, hpid, Kernel.Words.umap ?_ (hw q i) hu⟩
    exact hw

theorem SpaceReach.copyVmas (hr : SpaceReach L b k D) (hw : k.Words) (hp : k.pidmap p ≠ 0)
    (hb : ∀ i k₁, copyVmas L p q i k = .ok k₁ →
      BlankRound L p q i k₁) (h : copyVmas L p q n k = .ok k') :
    SpaceReach L b k' (D ∪ copyBlocks L p q k n) ∧ k'.pidmap = k.pidmap ∧ k'.Words := by
  induction n generalizing k' with
  | zero =>
    rw [SkyOS.copyVmas, List.range_zero, List.foldlM_nil, pure_ok] at h
    subst h
    exact ⟨by simpa [copyBlocks] using hr, rfl, hw⟩
  | succ n ih =>
    rw [copyVmas_succ, bind_ok] at h
    obtain ⟨k₁, h1, h2⟩ := h
    obtain ⟨hr1, hpid, hw1⟩ := ih h1
    obtain ⟨hr2, hpid2, hw2⟩ := hr1.copyVma hw1 (hpid ▸ hp) (hb n k₁ h1) h2
    refine ⟨?_, hpid2.trans hpid, hw2⟩
    rw [copyBlocks, ← Set.union_assoc]
    convert hr2 using 3
    ext x
    simp [h1]

-- ---------------------------------------------------------------------------
-- The whole call
-- ---------------------------------------------------------------------------

theorem sysFork_inv (h : sysFork L k = .ok (c, k')) : ∃ p k₁ q k₂, allocProcess L k = .ok (p, k₁) ∧
    k₁.currentTask = some q ∧ copyVmas L p q maxVmaNum (withSum (forkTasks p q k₁)) = .ok k₂ ∧
    c = (k₂.task p).pid ∧
      k' = { k₂ with csr := k₂.csr.sstatusSet (clearBit k₂.csr.sstatus sstatusSum) } := by
  unfold sysFork at h
  rw [bind_ok] at h
  obtain ⟨⟨p, k₁⟩, h1, h⟩ := h
  simp only [bind_ok] at h
  obtain ⟨q, h2, h⟩ := h
  have hq : k₁.currentTask = some q := by
    unfold Kernel.current at h2
    split at h2
    · rename_i r hr
      rw [Except.ok.injEq] at h2
      rw [hr, h2]
    · cases h2
  obtain ⟨k₃, h3, h⟩ := h
  rw [pure_ok, Prod.mk.injEq] at h
  unfold copyMemFrom at h3
  rw [bind_ok] at h3
  obtain ⟨k₂, h3, h4⟩ := h3
  rw [pure_ok] at h4
  exact ⟨p, k₁, q, k₂, h1, hq, h3, by rw [← h.1, ← h4], by rw [← h.2, h4]⟩

theorem forkTasks_root (p q : ℕ) (k : Kernel) (r : Option ℕ) :
    (withSum (forkTasks p q k)).root r = k.root r := by
  cases r with
  | none => rfl
  | some t =>
    by_cases hq : t = q <;> by_cases hp : t = p <;> by_cases hqp : q = p <;>
      simp_all [Kernel.root, withSum, forkTasks, Kernel.setTask]

theorem forkTasks_memMap (p q : ℕ) (k : Kernel) (t : ℕ) :
    ((withSum (forkTasks p q k)).task t).memMap = (k.task t).memMap := by
  by_cases hq : t = q <;> by_cases hp : t = p <;> by_cases hqp : q = p <;>
    simp_all [withSum, forkTasks, Kernel.setTask]

theorem SpaceReach.fork (hr : SpaceReach L b k D) (hw : k.Words) (hb : BlankFork L k)
    (h : sysFork L k = .ok (c, k')) : SpaceReach L b k' (D ∪ forkBytes L k) := by
  obtain ⟨p, k₁, q, k₂, ha, hq, hc, -, rfl⟩ := sysFork_inv h
  have hset : forkBytes L k = copyBlocks L p q (withSum (forkTasks p q k₁)) maxVmaNum := by
    ext x
    simp [forkBytes, ha, hq]
  obtain ⟨-, t, heap, -, -, rfl⟩ := allocProcess_ok.mp ha
  have hr1 : SpaceReach L b (withSum (forkTasks p q (withProcess k p t heap))) D :=
    (hr.process ha).other rfl rfl (forkTasks_root p q _)
  have hw1 : (withSum (forkTasks p q (withProcess k p t heap))).Words := fun r i => by
    rw [forkTasks_memMap, withProcess]
    by_cases hrp : r = p
    · subst hrp
      simpa using hw r i
    · simpa [Function.update_of_ne hrp] using hw r i
  have hp1 : (withSum (forkTasks p q (withProcess k p t heap))).pidmap p ≠ 0 := by
    simp [withSum, forkTasks, Kernel.setTask, withProcess]
  obtain ⟨hr2, -, -⟩ := hr1.copyVmas hw1 hp1 (fun i k₂ h2 => hb p _ q i k₂ ha hq h2) hc
  rw [hset]
  exact hr2.other rfl rfl fun r => by cases r <;> rfl

theorem CallReach.spaceReach (hr : CallReach L b k D) : SpaceReach L b k D := by
  induction hr with
  | boot hh hpid hb hk => exact .boot hh hpid hb hk
  | process _ ha ih => exact ih.process ha
  | umap _ hp hva hpa hb hu ih => exact ih.umap hp hva hpa hb hu
  | fork _ hw hb hf ih => exact ih.fork hw hb hf
  | alloc _ ha ih => exact ih.alloc ha
  | store _ hm ih => exact ih.store hm
  | other _ hphys hpid hroot ih => exact ih.other hphys hpid hroot

-- ---------------------------------------------------------------------------
-- The kernel's range
-- ---------------------------------------------------------------------------

/-- How the walk for an address of the kernel's range ends in all spaces. -/
theorem Spaces.walk_kernel (h : Spaces L k T P D) (hs : SeesKernel L k.phys.mem (T none))
    (hx : kernelStart ≤ x) (hlt : x < L.kernelEnd + memSize) : ∃ a e,
      (∀ r, k.HasSpace r → walk k.phys.mem (k.root r) x = .ok (a, e)) ∧ pte2ppn e = x >>> 12 ∧
      e &&& 0x3ff = pteV ||| pteR ||| pteW ||| pteX := by
  have hend := kernelRange_end L
  have hmax := kernelRange_lt L
  have hpage : pgSize ∣ kernelStart := by decide
  obtain ⟨hvpn, hi⟩ := vpn_range (x := x) hpage (hmax.le.trans (by decide)) hx (by
    simp only [rangeEnd, pgSize]
    omega)
  have hv := (mem_kernelRange L).mpr ⟨_, hi, rfl⟩
  obtain ⟨a, ha⟩ := hs _ hv
  refine ⟨a, leafPte (kernelStart + (x - kernelStart) / pgSize * pgSize) 0, fun r hr => ?_, ?_, ?_⟩
  · rw [(h.tables r hr).walk_ok_iff, hvpn, h.leafAt_kernel hr (show k.HasSpace none from trivial)
      (kernelRange_slot L hv)]
    exact ha
  · rw [leafPte_ppn (.inl rfl) (by omega), Nat.shiftRight_eq_div_pow]
    simp only [kernelStart, pgSize] at hx ⊢
    omega
  · rw [show 0x3ff = 2 ^ 10 - 1 by decide, Nat.and_two_pow_sub_one_eq_mod, leafPte_flags (.inl rfl)]
    decide

/-- In every process, after any sequence of calls, every address of the
kernel's range is mapped to itself by the leaf that `k_pgtable` has there. The
leaf has all permissions but `PTE_U`. -/
theorem kernel_mapped (hr : CallReach L b k D) (hp : k.pidmap p ≠ 0) (hx : kernelStart ≤ x)
    (hlt : x < L.kernelEnd + memSize) : ∃ a e, walk k.phys.mem (k.task p).pgtable x = .ok (a, e) ∧
      walk k.phys.mem k.kPgtable x = .ok (a, e) ∧ pte2ppn e = x >>> 12 ∧
      e &&& 0x3ff = pteV ||| pteR ||| pteW ||| pteX := by
  obtain ⟨T, P, h, hs⟩ := spaceReach_kernel hr.spaceReach
  obtain ⟨a, e, hw, hppn, hflags⟩ := h.walk_kernel hs hx hlt
  exact ⟨a, e, hw (some p) hp, hw none trivial, hppn, hflags⟩

end

theorem SpaceReach.callReach {L : Layout} {b : Buddy} (hr : SpaceReach L b k D) :
    CallReach L b k D := by
  induction hr with
  | boot hh hpid hb hk => exact .boot hh hpid hb hk
  | process _ ha ih => exact ih.process ha
  | umap _ hp hva hpa hb hu ih => exact ih.umap hp hva hpa hb hu
  | alloc _ ha ih => exact ih.alloc ha
  | store _ hm ih => exact ih.store hm
  | other _ hphys hpid hroot ih => exact ih.other hphys hpid hroot

/-- The second process, when a page has been mapped for the first. -/
theorem kernel_mapped_first_page : ∃ k k', CallReach sampleLayout zeroed k ∅ ∧
    umap sampleLayout 0 0x1000 0x80300000 0x1000 k = .ok k' ∧ k'.pidmap 1 ≠ 0 ∧ ∃ a e,
    walk k'.phys.mem (k'.task 1).pgtable kernelStart = .ok (a, e) ∧
      walk k'.phys.mem k'.kPgtable kernelStart = .ok (a, e) ∧ pte2ppn e = kernelStart >>> 12 ∧
      e &&& 0x3ff = pteV ||| pteR ||| pteW ||| pteX := by
  obtain ⟨k, k', T, P, hr, h0, h1, h, hu⟩ := low_page_mapped
  have hr' : CallReach sampleLayout zeroed k' ∅ :=
    hr.callReach.umap h0 (by decide) (by decide) (h.spaces.owned.blankPages h.zero _) hu
  have h1' : k'.pidmap 1 ≠ 0 := umap_pidmap hu ▸ h1
  exact ⟨k, k', hr.callReach, hu, h1', kernel_mapped hr' h1' le_rfl (by decide)⟩

end SkyOS
