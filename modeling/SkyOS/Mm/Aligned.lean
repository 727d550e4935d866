import SkyOS.Mm.BuddyRuns

/-!
# When blocks are aligned

A split cuts an aligned block into its two halves. A release looks for a free
block of its order behind its own, wherever its own block lies, so it can join
the right half of one block to the left half of the next. Runs in which no
release does keep every block at a multiple of its length.
-/

namespace SkyOS

open CircList Tiling

/-- The release of `i` in `s` joins two halves of one block only: as long as
the block grows, what follows it is not taken for its buddy when it is a right
half. -/
def MergesHalves (s : Buddy) (i : ℕ) : Prop :=
  ∀ j < buddyMaxOrder - 1, (s.pages i).order ≤ j →
    (∀ t < j, (s.pages i).order ≤ t → mergeable s t (i + 2 ^ t)) → i / 2 ^ j % 2 = 1 →
    ¬ mergeable s j (i + 2 ^ j)

inductive Heap.HalvingReach (b : Buddy) : Heap → Prop
  | init : HalvingReach b ⟨buddyInit b, []⟩
  | alloc : HalvingReach b ⟨s, l⟩ → buddyAllocate size s = .ok (p, s') → HalvingReach b ⟨s', p :: l⟩
  | free : HalvingReach b ⟨s, l⟩ → p ∈ l → MergesHalves s p → buddyFreePage p s = .ok s' →
      HalvingReach b ⟨s', l.erase p⟩

/-- The page heads a block: one that is held, or one on a free list. -/
def Heap.IsHead (H : Heap) (i : ℕ) : Prop := i ∈ H.live ∨ ∃ k, (i, k) ∈ H.buddy.freeBlocks

def Heap.Aligned (H : Heap) : Prop := ∀ i, H.IsHead i → 2 ^ (H.buddy.pages i).order ∣ i

-- ---------------------------------------------------------------------------
-- Aligned blocks
-- ---------------------------------------------------------------------------

def Aligned (B : Set Block) : Prop := ∀ b ∈ B, 2 ^ b.order ∣ b.start

theorem Partition.aligned (h : Partition H ls B) (ha : Aligned B) : H.Aligned := by
  have key : ∀ i k f, ⟨i, k, f⟩ ∈ B → 2 ^ (H.buddy.pages i).order ∣ i := fun i k f hb => by
    have := h.rep.page _ hb
    simp only at this
    rw [this]
    exact ha _ hb
  rintro i (hi | ⟨k, hk⟩)
  · obtain ⟨k, hb⟩ := (h.live i).mp hi
    exact key i k false hb
  · rw [h.rep.freeBlocks] at hk
    exact key i k true hk

theorem odd_of_not_dvd (h : 2 ^ j ∣ i) (hn : ¬ 2 ^ (j + 1) ∣ i) : i / 2 ^ j % 2 = 1 := by
  obtain ⟨a, rfl⟩ := h
  rw [Nat.mul_div_cancel_left _ (Nat.two_pow_pos j)]
  by_contra hodd
  obtain ⟨c, rfl⟩ : 2 ∣ a := by omega
  exact hn ⟨c, by ring⟩

theorem aligned_init : Aligned initBlocks := by
  rintro b (rfl | rfl) <;> simp [buddyMaxOrderNrPages_eq]

theorem aligned_carve (ha : Aligned B) (hi : ⟨i, m, true⟩ ∈ B) (hkm : k ≤ m) :
    Aligned (carve B i k m) := by
  have hdvd : ∀ t ≤ m, 2 ^ t ∣ i := fun t ht => (Nat.pow_dvd_pow 2 ht).trans (ha _ hi)
  rintro b (⟨hb, -⟩ | rfl | ⟨t, -, ht, rfl⟩)
  · exact ha b hb
  · exact hdvd k hkm
  · exact (hdvd t ht.le).add (dvd_refl _)

section
variable {s : Buddy} {ls : ℕ → List ℕ} {B : Set Block} {i k : ℕ}
variable (ha : Aligned B) (h : Rep s ls B) (hi : ⟨i, k, false⟩ ∈ B) (hu : MergesHalves s i)
include ha h hi hu

theorem MergesHalves.dvd (hkm : k ≤ m) (hm : m < buddyMaxOrder)
    (habs : ∀ j, k ≤ j → j < m → ⟨i + 2 ^ j, j, true⟩ ∈ B) : 2 ^ m ∣ i := by
  have hM := buddyMaxOrder_eq
  have hord : (s.pages i).order = k := by rw [h.page _ hi, Block.page]
  induction m, hkm using Nat.le_induction with
  | base => exact ha _ hi
  | succ m hkm ih =>
    have hdvd := ih (by omega) fun j h1 h2 => habs j h1 (by omega)
    by_contra hn
    have hnot := hu m (by omega) (by omega) (fun t h1 h2 =>
      (h.mergeable_start (habs t (by omega) (by omega))).mpr ⟨rfl, rfl⟩) (odd_of_not_dvd hdvd hn)
    exact hnot ((h.mergeable_start (habs m hkm (by omega))).mpr ⟨rfl, rfl⟩)

theorem MergesHalves.quietFor : QuietFor s B i k := by
  intro j hj hkj habs hend
  have hM := buddyMaxOrder_eq
  have hord : (s.pages i).order = k := by rw [h.page _ hi, Block.page]
  have hdvd := hu.dvd ha h hi hkj (by omega) habs
  have hn : ¬ 2 ^ (j + 1) ∣ i := fun hd => by
    have h1 : 2 ^ (j + 1) ∣ npage := by
      rw [npage_eq]
      exact Nat.pow_dvd_pow 2 (by omega)
    rw [← hend, ← Nat.dvd_add_iff_right hd, Nat.pow_dvd_pow_iff_le_right (by omega)] at h1
    omega
  have := hu j hj (by omega) (fun t h1 h2 =>
    (h.mergeable_start (habs t (by omega) h1)).mpr ⟨rfl, rfl⟩) (odd_of_not_dvd hdvd hn)
  rwa [hend] at this

omit h hi hu in
theorem aligned_absorb (hdvd : 2 ^ m ∣ i) : Aligned (absorb (freed B i k) i k m) := by
  rintro b (⟨⟨hb, -⟩ | rfl, hne, -⟩ | rfl)
  · exact ha b hb
  · exact absurd rfl hne
  · exact hdvd

end

-- ---------------------------------------------------------------------------
-- Runs
-- ---------------------------------------------------------------------------

/-- In runs whose releases join halves every block is aligned. -/
theorem heap_aligned (hr : Heap.HalvingReach b H) : H.Aligned := by
  suffices ∃ ls B, Partition H ls B ∧ Aligned B by
    obtain ⟨ls, B, h, ha⟩ := this
    exact h.aligned ha
  induction hr with
  | init => exact ⟨_, _, partition_init b, aligned_init⟩
  | alloc _ hk ih =>
    obtain ⟨ls, B, h, ha⟩ := ih
    obtain ⟨m, -, hle, hi, h', -⟩ := partition_alloc h hk
    exact ⟨_, _, h', aligned_carve ha hi hle⟩
  | free _ hl hu hf ih =>
    obtain ⟨ls, B, h, ha⟩ := ih
    obtain ⟨k, hk⟩ := (h.live _).mp hl
    obtain ⟨m, ls', s', h1, hkm, hm, habs, -, h', -⟩ :=
      partition_free h hk (hu.quietFor ha h.rep hk)
    rw [hf, Except.ok.injEq] at h1
    subst h1
    exact ⟨_, _, h', aligned_absorb ha (hu.dvd ha h.rep hk hkm hm habs)⟩

theorem heap_aligned_left_half : ∃ s₁ s₂, buddyAllocate 0x8000 (buddyInit zeroed) = .ok (0, s₁) ∧
    buddyFreePage 0 s₁ = .ok s₂ ∧ Heap.Aligned ⟨s₂, []⟩ := by
  obtain ⟨s₁, ha, hr, hp⟩ := init_alloc zeroed 0x8000 (by decide)
  obtain ⟨m, ls, s₂, hf, -⟩ := buddyFreePage_ok hr (i := 0) (.inr (.inl rfl))
    (zeroed_quiet.of_past hp).quietFor
  have hu : MergesHalves s₁ 0 := fun j _ _ _ h => by simp at h
  exact ⟨s₁, s₂, ha, hf, heap_aligned (.free (.alloc .init ha) (by simp) hu hf)⟩

/-- Four neighbours of eight pages are held. The third is released, then the
second: the two are joined, to a block of sixteen pages at page 8. -/
theorem right_joins_left : ∃ s₁ s₂ s₃ s₄ s₅ s₆, buddyAllocate 0x8000 (buddyInit zeroed) =
    .ok (0, s₁) ∧
    buddyAllocate 0x8000 s₁ = .ok (8, s₂) ∧ buddyAllocate 0x8000 s₂ = .ok (16, s₃) ∧
    buddyAllocate 0x8000 s₃ = .ok (24, s₄) ∧ buddyFreePage 16 s₄ = .ok s₅ ∧
      buddyFreePage 8 s₅ = .ok s₆ ∧
    Heap.Reach zeroed ⟨s₆, [24, 0]⟩ ∧ ¬ Heap.Aligned ⟨s₆, [24, 0]⟩ := by
  have hsz : size2order 0x8000 = 3 := by decide
  obtain ⟨s₁, ha1, hr1, hp1⟩ := init_alloc zeroed 0x8000 (by decide)
  rw [hsz] at hr1
  obtain ⟨s₂, ha2, hr2, hp2⟩ := buddyAllocate_ok hr1 (m := 3) (by decide) hsz.le (i := 8) (l := [])
    rfl fun j h1 h2 => by omega
  have hp2 := hp2.past hr1 hr2
  rw [hsz] at hr2
  obtain ⟨s₃, ha3, hr3, hp3⟩ :=
      buddyAllocate_ok hr2 (m := 4) (by decide) (hsz.le.trans (by decide)) (i := 16)
    (l := []) rfl fun j h1 h2 => by
      obtain rfl : j = 3 := by omega
      rfl
  have hp3 := hp3.past hr2 hr3
  rw [hsz] at hr3
  obtain ⟨s₄, ha4, hr4, hp4⟩ := buddyAllocate_ok hr3 (m := 3) (by decide) hsz.le (i := 24) (l := [])
    rfl fun j h1 h2 => by omega
  have hp4 := hp4.past hr3 hr4
  rw [hsz] at hr4
  have hQ4 : Quiet s₄ := zeroed_quiet.of_past fun j hj =>
    (hp4 j hj).trans ((hp3 j hj).trans ((hp2 j hj).trans (hp1 j hj)))
  have hmem : ∀ i ∈ [8, 16], ⟨i, 3, false⟩ ∈
      carve (carve (carve (carve initBlocks 0 3 13) 8 3 3) 16 3 4) 24 3 3 := by
    intro i hi
    simp only [List.mem_cons, List.not_mem_nil, or_false] at hi
    rcases hi with rfl | rfl <;> simp [carve, leftover]
  obtain ⟨m, ls, s₅, hf5, hm, -, habs, -, hr5, hp5⟩ :=
    buddyFreePage_ok hr4 (hmem 16 (by simp)) hQ4.quietFor
  -- the block after the third is held
  obtain rfl : m = 3 := by
    by_contra hne
    have := habs 3 le_rfl (by omega)
    simp [carve, leftover, initBlocks] at this
  obtain ⟨m, ls', s₆, hf6, hm', -, -, hstop, hr6, -⟩ := buddyFreePage_ok hr5 (i := 8) (k := 3)
    (.inl ⟨.inl ⟨hmem 8 (by simp), by simp⟩, by simp, by simp⟩)
      (hQ4.of_past (hp5.past hr4 hr5)).quietFor
  -- the second is followed by a free block of its order
  have hne : m ≠ 3 := by
    rintro rfl
    rcases hstop with hstop | hstop
    · exact absurd hstop (by decide)
    · exact hstop (.inr rfl)
  refine ⟨s₁, s₂, s₃, s₄, s₅, s₆, ha1, ha2, ha3, ha4, hf5, hf6, ?_, fun hal => ?_⟩
  · have h4 : Heap.Reach zeroed ⟨s₄, [24, 16, 8, 0]⟩ :=
      .step (.step (.step (.step .init (.alloc ha1)) (.alloc ha2)) (.alloc ha3)) (.alloc ha4)
    have h5 : Heap.Reach zeroed ⟨s₅, [24, 8, 0]⟩ := .step h4 (.free (by simp) hf5)
    exact .step h5 (.free (by simp) hf6)
  · have hpage : s₆.pages 8 = ⟨m, 1, pgHead⟩ := hr6.page ⟨8, m, true⟩ (.inr rfl)
    have hdvd := hal 8 (.inr ⟨m, by
      rw [hr6.freeBlocks]
      exact .inr rfl⟩)
    simp only [hpage] at hdvd
    have hle := Nat.le_of_dvd (by decide) hdvd
    have hpow : 2 ^ 4 ≤ 2 ^ m := Nat.pow_le_pow_right (by decide) (by omega)
    omega

end SkyOS
