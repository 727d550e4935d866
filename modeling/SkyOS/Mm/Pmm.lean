import SkyOS.Mm.BuddyRuns

/-!
# The physical memory manager

`mm/pmm.c`. The heap is the `mem_size` bytes behind the kernel image, and
`kalloc` turns the page the buddy allocator picks into an address there.
-/

namespace SkyOS

abbrev kernelStart : ℕ := 0x80200000

structure Layout where
  kernelEnd : ℕ
  start_lt : kernelStart < kernelEnd
  aligned : pgSize ∣ kernelEnd
  small : kernelEnd < kernelStart + 2 ^ 25

def Layout.pmmStart (L : Layout) : ℕ := L.kernelEnd

def Layout.pmmEnd (L : Layout) : ℕ := L.pmmStart + memSize

def pgAddr (L : Layout) (i : ℕ) : ℕ := L.pmmStart + i * pgSize

def kalloc (L : Layout) (size : ℕ) (s : Buddy) : Run (ℕ × Buddy) := do
  let (p, s) ← if size ≥ pgSize then buddyAllocate size s else buddyAllocate pgSize s
  return (pgAddr L p, s)

def kallocOrder (size : ℕ) : ℕ := size2order (if size ≥ pgSize then size else pgSize)

def kallocLen (size : ℕ) : ℕ := 2 ^ kallocOrder size * pgSize

def blockBytes (a size : ℕ) : Set ℕ := Set.Ico a (a + kallocLen size)

theorem kalloc_eq (L : Layout) (size : ℕ) (s : Buddy) : kalloc L size s =
    (buddyAllocate (if size ≥ pgSize then size else pgSize) s).map fun r =>
    (pgAddr L r.1, r.2) := by
  unfold kalloc
  split
  · cases buddyAllocate size s <;> rfl
  · cases buddyAllocate pgSize s <;> rfl

theorem kalloc_ok : kalloc L size s = .ok (a, s') ↔
    ∃ p, buddyAllocate (if size ≥ pgSize then size else pgSize) s = .ok (p, s') ∧
      a = pgAddr L p := by
  rw [kalloc_eq]
  cases buddyAllocate (if size ≥ pgSize then size else pgSize) s with
  | error e => simp [Except.map]
  | ok r =>
    obtain ⟨p, t⟩ := r
    simp only [Except.map, Except.ok.injEq, Prod.mk.injEq]
    constructor
    · rintro ⟨rfl, rfl⟩
      exact ⟨p, ⟨rfl, rfl⟩, rfl⟩
    · rintro ⟨q, ⟨rfl, rfl⟩, rfl⟩
      exact ⟨rfl, rfl⟩

-- ---------------------------------------------------------------------------
-- Sizes
-- ---------------------------------------------------------------------------

theorem size2orderLoop_lt (h : t < 2 ^ n) : t < 2 ^ (size2orderLoop n t + 1) := by
  induction n generalizing t with
  | zero =>
    rw [size2orderLoop]
    omega
  | succ n ih =>
    rw [size2orderLoop]
    split
    · have h1 : t >>> 1 < 2 ^ n := by
        rw [Nat.shiftRight_eq_div_pow]
        rw [Nat.pow_succ] at h
        omega
      have h2 := ih h1
      rw [Nat.shiftRight_eq_div_pow] at h2
      rw [Nat.shiftRight_eq_div_pow, Nat.pow_succ]
      omega
    · omega

theorem kalloc_order (ha : kalloc L size s = .ok (a, s')) : kallocOrder size < buddyMaxOrder := by
  obtain ⟨p, hp, -⟩ := kalloc_ok.mp ha
  by_contra hcon
  unfold buddyAllocate at hp
  rw [kallocOrder] at hcon
  rw [if_pos (not_lt.mp hcon)] at hp
  cases hp

theorem size2order_eq (size : ℕ) (h : o = size2orderLoop 32 (u32 (size / buddyPageSize))) :
    size2order size = if size > u64OfInt ((1 <<< o) * buddyPageSize) then o + 1 else o := by
  rw [h]
  rfl

theorem u32_le_kallocLen (ha : kalloc L size s = .ok (a, s')) : u32 size ≤ kallocLen size := by
  have ho := kalloc_order ha
  rw [buddyMaxOrder_eq] at ho
  rw [kallocLen]
  unfold kallocOrder at ho ⊢
  generalize hn : (if size ≥ pgSize then size else pgSize) = n at ho ⊢
  have hle : u32 size ≤ n := by
    simp only [u32, pgSize] at hn ⊢
    split at hn <;> omega
  have hmod : u32 size < (u32 (n / buddyPageSize) + 1) * pgSize := by
    simp only [u32, pgSize, buddyPageSize] at hn ⊢
    split at hn <;> omega
  have hloop := size2orderLoop_lt (u32_lt (n / buddyPageSize))
  generalize hl : size2orderLoop 32 (u32 (n / buddyPageSize)) = o at hloop
  rw [size2order_eq n hl.symm] at ho ⊢
  by_cases hres : n > u64OfInt ((1 <<< o) * buddyPageSize)
  · rw [if_pos hres]
    exact hmod.le.trans (Nat.mul_le_mul_right pgSize hloop)
  · rw [if_neg hres] at ho ⊢
    have hpow : 2 ^ o ≤ 2 ^ 13 := Nat.pow_le_pow_right (by omega) (by omega)
    rw [Nat.one_shiftLeft, u64OfInt_of_lt (by simp only [buddyPageSize]; omega)] at hres
    exact hle.trans (not_lt.mp hres)
-- ---------------------------------------------------------------------------
-- Runs
-- ---------------------------------------------------------------------------

/-- The allocator states that calls of `kalloc` reach. -/
inductive KallocReach (L : Layout) (b : Buddy) : Buddy → Prop
  | init : KallocReach L b (buddyInit b)
  | kalloc : KallocReach L b s → kalloc L size s = .ok (a, s') → KallocReach L b s'

theorem kallocReach_heap (hr : KallocReach L b s) : ∃ l ls B, Partition ⟨s, l⟩ ls B := by
  induction hr with
  | init => exact ⟨[], _, _, partition_init b⟩
  | kalloc _ ha ih =>
    obtain ⟨l, ls, B, h⟩ := ih
    obtain ⟨p, hp, -⟩ := kalloc_ok.mp ha
    obtain ⟨m, -, -, -, h', -⟩ := partition_alloc h hp
    exact ⟨_, _, _, h'⟩

def sampleLayout : Layout := ⟨0x80300000, by decide, by decide, by decide⟩

theorem init_kalloc (L : Layout) (b : Buddy) (size : ℕ) (h : kallocOrder size < buddyMaxOrder) :
    ∃ s, kalloc L size (buddyInit b) = .ok (L.kernelEnd, s) := by
  obtain ⟨s, h1, -⟩ := init_alloc b _ h
  exact ⟨s, kalloc_ok.mpr ⟨0, h1, by simp [pgAddr, Layout.pmmStart]⟩⟩

theorem init_pages (L : Layout) (b : Buddy) : ∃ s₀ s₁ s₂,
    kalloc L pgSize (buddyInit b) = .ok (pgAddr L 0, s₀) ∧
      kalloc L pgSize s₀ = .ok (pgAddr L 1, s₁) ∧ kalloc L pgSize s₁ = .ok (pgAddr L 2, s₂) := by
  have hsz : size2order pgSize = 0 := by decide
  have hk : ∀ {s p s'}, buddyAllocate pgSize s = .ok (p, s') →
      kalloc L pgSize s = .ok (pgAddr L p, s') :=
    fun h => kalloc_ok.mpr ⟨_, h, rfl⟩
  obtain ⟨s₀, h0, hr0, -⟩ := init_alloc b pgSize (by decide)
  rw [hsz] at hr0
  obtain ⟨s₁, h1, hr1, -⟩ := buddyAllocate_ok hr0 (m := 0) (by decide) hsz.le (i := 1) (l := [])
    rfl fun j h1 h2 => by omega
  rw [hsz] at hr1
  obtain ⟨s₂, h2, -, -⟩ :=
      buddyAllocate_ok hr1 (m := 1) (by decide) (hsz.le.trans (by decide)) (i := 2)
    (l := []) rfl fun j h1 h2 => by
      obtain rfl : j = 0 := by omega
      rfl
  exact ⟨s₀, s₁, s₂, hk h0, hk h1, hk h2⟩

end SkyOS
