import SkyOS.Proc.Access
import SkyOS.Proc.BootLaws
import SkyOS.Proc.KernelView

/-!
# The memory behind a mapping

`execve` and `copy_mem_from` take a block from `kalloc` for each region and map it. Every
call of `umap` is recorded together with the block that was taken for it.
-/

namespace SkyOS

open ByteMem Traced

-- ---------------------------------------------------------------------------
-- Calls of umap
-- ---------------------------------------------------------------------------

def Mapping.Inside (x : Mapping) : Prop :=
  ∀ v ∈ pagesOf x.va x.pa x.size, ∀ y, InPage v.2 y → y ∈ blockBytes x.block x.len

def Access.Backed : Access → Prop
  | .map x => x.Inside
  | _ => True

def copyVmaT (L : Layout) (p current i : ℕ) (k : Kernel) : Touching Kernel := do
  let vma := (k.task current).memMap i
  if vma.memRange ≠ 0 then
    let (pa, k) ← k.alloc L vma.memRange
    let m ← copyIn k.csr pa vma.memStart (u32 vma.memRange) k.phys.mem
    emit (.map ⟨p, vma.memStart, pa, vma.memRange, pa, vma.memRange⟩)
    umap L p vma.memStart pa vma.memRange (k.setMem m)
  else return k

def copyVmasT (L : Layout) (p current : ℕ) : ℕ → Kernel → Touching Kernel
  | 0, k => pure k
  | n + 1, k => do
    let k ← copyVmasT L p current n k
    copyVmaT L p current n k

/-- `fork`, with the calls of `umap`. -/
def sysForkT (L : Layout) (k : Kernel) : Touching (ℕ × Kernel) := do
  let (p, k) ← allocProcess L k
  let current ← k.current
  let k ← copyVmasT L p current maxVmaNum (withSum (forkTasks p current k))
  return ((k.task p).pid, { k with csr := k.csr.sstatusSet (clearBit k.csr.sstatus sstatusSum) })

section
variable {L : Layout} {k k' : Kernel}

theorem copyVmaT_result (p q i : ℕ) (k : Kernel) :
    (copyVmaT L p q i k).result = copyVma L p q i k := by
  unfold copyVmaT copyVma
  simp only [result_ite, result_bind, result_lift, result_pure, result_emit, pure_bind]

theorem copyVmasT_result (p q n : ℕ) (k : Kernel) :
    (copyVmasT L p q n k).result = copyVmas L p q n k := by
  induction n with
  | zero => rfl
  | succ n ih =>
    rw [copyVmas_succ, copyVmasT, result_bind, ih]
    exact bind_congr fun k => copyVmaT_result p q n k

theorem sysForkT_result (k : Kernel) : (sysForkT L k).result = sysFork L k := by
  unfold sysForkT sysFork copyMemFrom
  rw [result_bind, result_lift]
  refine bind_congr fun ⟨p, k⟩ => ?_
  rw [result_bind, result_lift]
  refine bind_congr fun q => ?_
  simp only [result_bind, result_pure, copyVmasT_result, bind_assoc, pure_bind]
  rfl

-- ---------------------------------------------------------------------------
-- The allocator
-- ---------------------------------------------------------------------------

theorem map_heap {σ : Type} {next : ℕ → σ → Run (ℕ × σ)} {P : σ → Prop} {s s' : Phys σ}
    (hP : ∀ s a s', P s → next pgSize s = .ok (a, s') →
      P s') (h : map next pg va pa size perm s = .ok s') (h0 : P s.heap) :
    P s'.heap := by
  have hlevel (va0 pa0 n a : ℕ) (s s' : Phys σ) (h : mapLevel next va0 pa0 perm n a s = .ok s')
      (h0 : P s.heap) : P s'.heap := by
    induction n generalizing a s with
    | zero =>
      rw [mapLevel] at h
      split at h
      · cases h
      · rw [pure_ok] at h
        exact h ▸ h0
    | succ n ih =>
      rw [mapLevel] at h
      dsimp only at h
      split at h
      · exact ih _ _ h h0
      · rw [bind_ok] at h
        obtain ⟨⟨b, heap⟩, h1, h2⟩ := h
        exact ih _ _ h2 (hP _ _ _ h0 h1)
  have hloop (last n va0 pa0 : ℕ) (s s' : Phys σ) (h : mapLoop next pg last perm n va0 pa0 s =
      .ok s') (h0 : P s.heap) :
      P s'.heap := by
    induction n generalizing va0 pa0 s with
    | zero => cases h
    | succ n ih =>
      rw [mapLoop] at h
      split at h
      · rw [bind_ok] at h
        obtain ⟨s₁, h1, h2⟩ := h
        exact ih _ _ _ h2 (hlevel _ _ _ _ _ _ h1 h0)
      · rw [pure_ok] at h
        exact h ▸ h0
  exact hloop _ _ _ _ _ _ h h0

def Kernel.Serving (L : Layout) (k : Kernel) : Prop := ∃ P, Owned L k.phys.heap P

theorem Kernel.Serving.alloc (h : k.Serving L) (ha : k.alloc L size = .ok (a, k')) :
    k'.Serving L ∧ L.pmmStart ≤ a ∧ a + kallocLen size ≤ L.pmmEnd := by
  obtain ⟨heap, hk, rfl⟩ := alloc_ok.mp ha
  obtain ⟨P, h⟩ := h
  have hg := h.grant hk
  exact ⟨⟨_, hg.owned⟩, hg.start, hg.stop⟩

theorem Kernel.Serving.umap (h : k.Serving L) (hu : umap L p va pa size k = .ok k') :
    k'.Serving L := by
  simp only [SkyOS.umap, bind_ok, pure_ok] at hu
  obtain ⟨phys, hm, rfl⟩ := hu
  refine map_heap (P := fun s => ∃ P, Owned L s P) (fun s a s' hs ha => ?_) hm h
  obtain ⟨P, hs⟩ := hs
  exact ⟨_, (hs.grant ha).owned⟩

theorem Kernel.Serving.process (h : k.Serving L) (ha : allocProcess L k = .ok (p, k')) :
    k'.Serving L := by
  obtain ⟨-, t, heap, hk, -, rfl⟩ := allocProcess_ok.mp ha
  obtain ⟨P, h⟩ := h
  exact ⟨_, by rw [withProcess]; exact (h.grant hk).owned⟩

theorem Kernel.Serving.loads (h : k.Serving L) (ho : LoadOps L k k') : k'.Serving L := by
  induction ho with
  | refl => exact h
  | tail _ h1 ih =>
    cases h1 with
    | alloc ha => exact (ih.alloc ha).1
    | store => exact ih
    | umap hu => exact ih.umap hu

end

-- ---------------------------------------------------------------------------
-- Runs
-- ---------------------------------------------------------------------------

/-- Runs from an `execve` on, with what the calls read, write and map. In between, everything
but the allocator may change. -/
inductive MapRun (L : Layout) (b : Buddy) : List Access → Kernel → Prop
  | start : SpaceReach L b k D → execve L junk name file k = .ok k' →
    MapRun L b (execveT L junk name file k).events k'
  | exec : MapRun L b l k → execve L junk name file k = .ok k' →
      MapRun L b (l ++ (execveT L junk name file k).events) k'
  | fork : MapRun L b l k → sysFork L k = .ok (c, k') → MapRun L b (l ++ (sysForkT L k).events) k'
  | alloc : MapRun L b l k → k.alloc L size = .ok (a, k') → MapRun L b l k'
  | other : MapRun L b l k → k'.phys.heap = k.phys.heap → MapRun L b l k'

def Backed (l : List Access) : Prop := ∀ x ∈ l, x.Backed

section
variable {L : Layout} {b : Buddy} {k k' : Kernel}

theorem mem_blockBytes_stack (a : ℕ) (y : ℕ) : y ∈ blockBytes a (pgSize * 4) ↔ a ≤ y ∧
    y < a + 4 * pgSize := by
  rw [blockBytes, show kallocLen (pgSize * 4) = 4 * pgSize by decide, Set.mem_Ico]

theorem stack_outside (hsp : sp = sv39UserSpAddr) (hlo : L.pmmStart ≤ a)
    (hhi : a + kallocLen (pgSize * 4) ≤ L.pmmEnd) :
    ¬ Mapping.Inside ⟨p, u64Sub sp (4 * pgSize), u64Sub a (4 * pgSize), pgSize * 4, a,
      pgSize * 4⟩ := by
  intro h
  have hstart : kernelStart ≤ L.pmmStart := L.start_lt.le.trans (by simp [Layout.pmmStart])
  have hend := L.pmmEnd_lt
  have hpa : u64Sub a (4 * pgSize) = a - 4 * pgSize :=
    u64Sub_of_le (by simp only [kernelStart, pgSize] at *; omega) (by omega)
  have hva : u64Sub sp (4 * pgSize) = sv39UserSpAddr - 4 * pgSize := by
    rw [hsp]
    exact u64Sub_of_le (by decide) (by decide)
  have hmem : (sv39UserSpAddr - 4 * pgSize, a - 4 * pgSize) ∈
      pagesOf (sv39UserSpAddr - 4 * pgSize) (a - 4 * pgSize) (pgSize * 4) := by
    refine (mem_pagesOf (by omega)).mpr ⟨0, by decide, ?_⟩
    rw [Nat.zero_mul, Nat.add_zero, Nat.add_zero, u64_of_lt (by omega)]
  rw [Mapping.Inside] at h
  dsimp only at h
  rw [hpa, hva] at h
  have hy := h _ hmem (a - 4 * pgSize) (.self _)
  rw [mem_blockBytes_stack] at hy
  simp only [kernelStart, pgSize] at *
  omega

theorem execveT_stack (hk : k.Serving L) (h : execve L junk name file k = .ok k') :
    ¬ (execveT L junk name file k).All Access.Backed := by
  obtain ⟨p, k₁, a, k₂, o, k₃, stack, k₄, k₅, h1, h2, hm, h3, h4, hal, -, -⟩ := execve_ok.mp h
  -- the process has its stack pointer, and the block of the stack is one of the allocator's
  have hload : LoadOps L (named p name k₁) k₃ :=
    .trans (.tail (.single (.alloc h2)) .store) (loadSegments_ops h3)
  have hsp : (k₄.task p).context.reg .sp = sv39UserSpAddr := by
    obtain ⟨-, t, heap, -, -, rfl⟩ := allocProcess_ok.mp h1
    have hops : ExecOps L (withProcess k p t heap) k₄ :=
      .trans (.single .name) (LoadOps.exec (.tail hload (.alloc h4)))
    exact hops.sp (by simp [withProcess])
  have hname : (named p name k₁).Serving L := show k₁.Serving L from hk.process h1
  obtain ⟨-, hlo, hhi⟩ := (hname.loads hload).alloc h4
  intro hall
  unfold execveT at hall
  have hall := all_lift_bind.mp hall _ h1
  have hall := all_lift_bind.mp hall _ h2
  rw [all_emit_bind] at hall
  have hall := (all_check _ _ _).mp hall.2 (not_not.mpr hm)
  rw [all_emit_bind, all_bind] at hall
  have hall := hall.2.2 _ ((loadSegmentsT_result ..).trans h3)
  have hall := all_lift_bind.mp hall _ h4
  have hall := (all_check _ _ _).mp hall (by simpa using hal)
  generalize SkyOS.umap L p
    (u64Sub ((k₄.task p).context.reg .sp) (4 * pgSize)) (u64Sub stack (4 * pgSize)) (pgSize * 4)
      k₄ = u at hall
  have hin := (all_emit_bind.mp hall).1
  rw [Access.Backed] at hin
  exact stack_outside hsp hlo hhi hin

/-- In no run every mapping is of its own block. -/
theorem user_memory (h : MapRun L b l k) : ¬ Backed l := by
  have append {l l' : List Access} (hl : ¬ Backed l) : ¬ Backed (l ++ l') := fun hb =>
    hl fun x hx => hb x (List.mem_append_left _ hx)
  induction h with
  | start hr hx =>
    obtain ⟨T, P, hs⟩ := spaceReach_spaces hr
    exact execveT_stack ⟨P, hs.owned⟩ hx
  | exec _ _ ih => exact append ih
  | fork _ _ ih => exact append ih
  | alloc _ _ ih => exact ih
  | other _ _ ih => exact ih

/-- The first process has the four pages below its stack. -/
theorem user_memory_first : ∃ l k, MapRun sampleLayout zeroed l k ∧ ¬ Backed l := by
  obtain ⟨k, k₅, a, D, hr, -, -, -, -, hx, -⟩ :=
    starts sampleLayout zeroed 0 (fun _ => 0) ⟨0, 0, 0, 0, 0, 0, 0, 0⟩
  exact ⟨_, _, .start hr hx, user_memory (.start hr hx)⟩

theorem stack_below_block : ∃ l k, MapRun sampleLayout zeroed l k ∧
    ∃ x, .map x ∈ l ∧ ¬ x.Inside := by
  obtain ⟨k, k₅, a, D, hr, -, -, -, -, hx, -⟩ :=
    starts sampleLayout zeroed 0 (fun _ => 0) ⟨0, 0, 0, 0, 0, 0, 0, 0⟩
  obtain ⟨T, P, hs⟩ := spaceReach_spaces hr
  have h := execveT_stack ⟨P, hs.owned⟩ hx
  simp only [All, not_forall, exists_prop] at h
  obtain ⟨x | x | x, hx', hout⟩ := h
  · exact absurd trivial hout
  · exact absurd trivial hout
  · exact ⟨_, _, .start hr hx, x, hx', hout⟩

end

end SkyOS
