import SkyOS.Mm.BuddyRuns

/-!
# A block that is given back at once

The leftovers of the split that served a request are the blocks its release
meets first, so the release undoes at least the split. The free pages are those
from before, in blocks that are no smaller.
-/

namespace SkyOS

open Tiling

def chunkSize (i : ℕ) : ℕ := u64OfInt (buddyPageSize * (1 <<< i))

def buddyStatistics (s : Buddy) : ℕ :=
  (List.range buddyMaxOrder).foldl (fun total i => u64 (total + u64 (s.nr i * chunkSize i))) 0

def Buddy.freePages (s : Buddy) : Set ℕ := {x | ∃ b ∈ s.freeBlocks, x ∈ Set.Ico b.1 (b.1 + 2 ^ b.2)}

def Heap.heldBlocks (H : Heap) : Set (ℕ × ℕ) := {b | b.1 ∈ H.live ∧ (H.buddy.pages b.1).order = b.2}

-- ---------------------------------------------------------------------------
-- Held blocks and free pages
-- ---------------------------------------------------------------------------

section
variable {s : Buddy} {ls : ℕ → List ℕ} {B : Set Block} {H : Heap}

theorem Partition.mem_heldBlocks (h : Partition H ls B) :
    (i, k) ∈ H.heldBlocks ↔ ⟨i, k, false⟩ ∈ B := by
  constructor
  · rintro ⟨hi, hk⟩
    obtain ⟨j, hj⟩ := (h.live i).mp hi
    have hpage := h.rep.page _ hj
    simp only at hpage hk
    rw [hpage] at hk
    exact (show j = k from hk) ▸ hj
  · intro hb
    refine ⟨(h.live i).mpr ⟨k, hb⟩, ?_⟩
    have hpage := h.rep.page _ hb
    simp only at hpage ⊢
    rw [hpage]
    rfl

theorem Partition.mem_freePages (h : Partition H ls B) : x ∈ H.buddy.freePages ↔
    x < npage ∧ ∀ b ∈ H.heldBlocks, x ∉ Set.Ico b.1 (b.1 + 2 ^ b.2) := by
  rw [Buddy.freePages, h.rep.freeBlocks]
  constructor
  · rintro ⟨⟨i, k⟩, hb, hx⟩
    refine ⟨hx.2.trans_le (h.rep.end_le hb), fun ⟨j, n⟩ hc hx' => ?_⟩
    have := h.rep.tiles.unique _ hb _ (h.mem_heldBlocks.mp hc) x hx.1 hx.2 hx'.1 hx'.2
    simp at this
  · rintro ⟨hx, hno⟩
    obtain ⟨⟨i, k, f⟩, hb, h1, h2⟩ := h.rep.tiles.cover x hx
    cases f with
    | true => exact ⟨(i, k), hb, h1, h2⟩
    | false => exact absurd ⟨h1, h2⟩ (hno (i, k) (h.mem_heldBlocks.mpr hb))

-- ---------------------------------------------------------------------------
-- Statistics
-- ---------------------------------------------------------------------------

theorem chunkSize_eq (hi : i < buddyMaxOrder) : chunkSize i = 2 ^ i * pgSize := by
  have hpow : 2 ^ i ≤ 2 ^ 13 :=
    Nat.pow_le_pow_right (by omega) (by rw [buddyMaxOrder_eq] at hi; omega)
  rw [chunkSize, Nat.one_shiftLeft, u64OfInt_of_lt (by simp only [buddyPageSize]; omega)]
  simp only [buddyPageSize, pgSize]
  omega

theorem foldl_u64 (f : ℕ → ℕ) (n : ℕ) :
    (List.range n).foldl (fun total i => u64 (total + u64 (f i))) 0 =
      u64 (∑ i ∈ Finset.range n, f i) := by
  induction n with
  | zero => rfl
  | succ n ih =>
    rw [List.range_succ, List.foldl_append, ih, Finset.sum_range_succ]
    simp only [List.foldl_cons, List.foldl_nil, u64]
    omega

def listedPages (ls : ℕ → List ℕ) : Finset ℕ :=
  (Finset.range buddyMaxOrder).biUnion fun k => (ls k).toFinset.biUnion fun i =>
    Finset.Ico i (i + 2 ^ k)

theorem Rep.mem_listedPages (h : Rep s ls B) : x ∈ listedPages ls ↔ x ∈ s.freePages := by
  rw [Buddy.freePages, h.freeBlocks]
  simp only [listedPages, Finset.mem_biUnion, Finset.mem_range, List.mem_toFinset, Finset.mem_Ico]
  constructor
  · rintro ⟨k, hk, i, hi, hx⟩
    exact ⟨(i, k), (h.listed k hk i).mp hi, hx⟩
  · rintro ⟨⟨i, k⟩, hb, hx⟩
    exact ⟨k, h.order _ hb, i, (h.listed k (h.order _ hb) i).mpr hb, hx⟩

theorem Rep.listed_apart (h : Rep s ls B) (hk : k < buddyMaxOrder) (hk' : k' < buddyMaxOrder)
    (hi : i ∈ ls k)
    (hi' : i' ∈ ls k') (hne : (i, k) ≠ (i', k')) :
    Disjoint (Finset.Ico i (i + 2 ^ k)) (Finset.Ico i' (i' + 2 ^ k')) := by
  rw [Finset.disjoint_left]
  intro x hx hx'
  rw [Finset.mem_Ico] at hx hx'
  have := h.tiles.unique _ ((h.listed k hk i).mp hi) _ ((h.listed k' hk' i').mp hi') x hx.1 hx.2
    hx'.1 hx'.2
  simp only [Block.mk.injEq, and_true] at this
  exact hne (Prod.ext this.1 this.2)

theorem Rep.card_listedPages (h : Rep s ls B) :
    (listedPages ls).card = ∑ k ∈ Finset.range buddyMaxOrder, s.nr k * 2 ^ k := by
  rw [listedPages, Finset.card_biUnion]
  · refine Finset.sum_congr rfl fun k hk => ?_
    have hk := Finset.mem_range.mp hk
    rw [Finset.card_biUnion]
    · simp only [Nat.card_Ico, Nat.add_sub_cancel_left, Finset.sum_const, smul_eq_mul]
      rw [List.toFinset_card_of_nodup (h.ringed.nodup hk), h.nr k hk]
    · intro i hi i' hi' hne
      exact h.listed_apart hk hk (List.mem_toFinset.mp hi) (List.mem_toFinset.mp hi')
        (by simpa using hne)
  · intro k hk k' hk' hne
    simp only [Function.onFun, Finset.disjoint_biUnion_left]
    intro i hi
    rw [Finset.disjoint_biUnion_right]
    intro i' hi'
    rw [Finset.mem_coe, Finset.mem_range] at hk hk'
    exact h.listed_apart hk hk' (List.mem_toFinset.mp hi) (List.mem_toFinset.mp hi') (by simp [hne])

theorem Rep.statistics_eq (h : Rep s ls B) : buddyStatistics s = s.freePages.ncard * pgSize := by
  have hset : s.freePages = (listedPages ls : Set ℕ) := by
    ext x
    exact h.mem_listedPages.symm
  have hle : (listedPages ls).card ≤ npage := by
    rw [← Finset.card_range npage]
    refine Finset.card_le_card fun x hx => ?_
    obtain ⟨⟨i, k⟩, hb, hx⟩ := h.mem_listedPages.mp hx
    rw [h.freeBlocks] at hb
    exact Finset.mem_range.mpr (hx.2.trans_le (h.end_le hb))
  rw [hset, Set.ncard_coe_finset, buddyStatistics, foldl_u64]
  have hsum : ∑ i ∈ Finset.range buddyMaxOrder, s.nr i * chunkSize i = (listedPages ls).card *
      pgSize := by
    rw [h.card_listedPages, Finset.sum_mul]
    refine Finset.sum_congr rfl fun k hk => ?_
    rw [chunkSize_eq (Finset.mem_range.mp hk), Nat.mul_assoc]
  rw [hsum, u64_of_lt]
  rw [npage_eq] at hle
  simp only [pgSize]
  omega

end

-- ---------------------------------------------------------------------------
-- There and back
-- ---------------------------------------------------------------------------

/-- `s'` is no more fragmented than `s`, and has the same blocks held. -/
structure NoMoreFragmented (H H' : Heap) : Prop where
  pages : H'.buddy.freePages = H.buddy.freePages
  blocks : ∀ b ∈ H.buddy.freeBlocks, ∃ b' ∈ H'.buddy.freeBlocks,
    Set.Ico b.1 (b.1 + 2 ^ b.2) ⊆ Set.Ico b'.1 (b'.1 + 2 ^ b'.2)
  held : H'.heldBlocks = H.heldBlocks
  statistics : buddyStatistics H'.buddy = buddyStatistics H.buddy

section
variable {s : Buddy} {ls : ℕ → List ℕ} {B : Set Block} {p k m n : ℕ}

/-- The blocks after `p` has been cut out of an order `m` block and released. -/
theorem carve_absorb_held (h : Rep s ls B) (hp : ⟨p, m, true⟩ ∈ B) :
    ⟨i, j, false⟩ ∈ absorb (freed (carve B p k m) p k) p k n ↔ ⟨i, j, false⟩ ∈ B := by
  simp only [absorb, freed, carve, leftover, Set.mem_ofPred_eq]
  constructor
  · rintro (⟨⟨⟨hb, -⟩ | hb | ⟨t, -, -, hb⟩, hne⟩ | hb, -⟩ | hb)
    · exact hb
    · exact absurd hb hne
    all_goals simp at hb
  · intro hb
    refine .inl ⟨.inl ⟨.inl ⟨hb, by simp⟩, ?_⟩, by simp, fun t _ _ => by simp⟩
    rintro hbk
    -- the block at `p` was free
    rw [hbk] at hb
    simpa using h.eq_of_start hb hp rfl

theorem carve_absorb_free (h : Rep s ls B) (hp : ⟨p, m, true⟩ ∈ B) (hmn : m ≤ n)
    (hb : ⟨i, j, true⟩ ∈ B) :
    ∃ i' j', ⟨i', j', true⟩ ∈ absorb (freed (carve B p k m) p k) p k n ∧
      Set.Ico i (i + 2 ^ j) ⊆ Set.Ico i' (i' + 2 ^ j') := by
  have hlast : (⟨p, n, true⟩ : Block) ∈ absorb (freed (carve B p k m) p k) p k n := .inr rfl
  by_cases hpm : (⟨i, j, true⟩ : Block) = ⟨p, m, true⟩
  · simp only [Block.mk.injEq, and_true] at hpm
    obtain ⟨rfl, rfl⟩ := hpm
    exact ⟨i, n, hlast,
      Set.Ico_subset_Ico_right (Nat.add_le_add_left (Nat.pow_le_pow_right (by omega) hmn) i)⟩
  by_cases hin : ∃ t, k ≤ t ∧ t < n ∧ (⟨i, j, true⟩ : Block) = ⟨p + 2 ^ t, t, true⟩
  · obtain ⟨t, -, htn, heq⟩ := hin
    simp only [Block.mk.injEq, and_true] at heq
    obtain ⟨rfl, rfl⟩ := heq
    have hpow : 2 ^ (j + 1) ≤ 2 ^ n := Nat.pow_le_pow_right (by omega) htn
    rw [Nat.pow_succ] at hpow
    exact ⟨p, n, hlast, Set.Ico_subset_Ico (Nat.le_add_right _ _) (by omega)⟩
  · push Not at hin
    refine ⟨i, j, .inl ⟨.inl ⟨.inl ⟨hb, hpm⟩, by simp⟩, fun hk => ?_, fun t h1 h2 => hin t h1 h2⟩,
      subset_rfl⟩
    simp only [Block.mk.injEq, and_true] at hk
    obtain ⟨rfl, rfl⟩ := hk
    exact hpm (h.eq_of_start hb hp rfl)

end

/-- A request that is served and released at once, in any state reached. -/
theorem allocate_free (hb : Quiet b) (hr : Heap.Reach b ⟨s, l⟩)
    (ha : buddyAllocate size s = .ok (p, s₁)) :
    ∃ s', buddyFreePage p s₁ = .ok s' ∧ NoMoreFragmented ⟨s, l⟩ ⟨s', (p :: l).erase p⟩ := by
  obtain ⟨⟨ls, B, h⟩, hQ⟩ := reach_partition hb hr
  obtain ⟨m, hm, -, hp, h₁, hpast⟩ := partition_alloc h ha
  have hheld : ⟨p, size2order size, false⟩ ∈ carve B p (size2order size) m := .inr (.inl rfl)
  obtain ⟨n, ls', s', hf, hkn, hn, -, hstop, h', -⟩ :=
    partition_free h₁ hheld (hQ.of_past (hpast.past h.rep h₁.rep)).quietFor
  -- it does not stop at a leftover of the split
  have hmn : m ≤ n := by
    by_contra hlt
    rcases hstop with hstop | hstop
    · rw [buddyMaxOrder_eq] at hm hstop
      omega
    · exact hstop (.inr (.inr ⟨n, hkn, not_le.mp hlt, rfl⟩))
  have hsame : Heap.heldBlocks ⟨s', (p :: l).erase p⟩ = Heap.heldBlocks ⟨s, l⟩ := by
    ext ⟨i, j⟩
    rw [h'.mem_heldBlocks, h.mem_heldBlocks, carve_absorb_held h.rep hp]
  have hpages : s'.freePages = s.freePages := by
    ext x
    rw [h'.mem_freePages, h.mem_freePages, hsame]
  refine ⟨s', hf, hpages, fun ⟨i, j⟩ hij => ?_, hsame, ?_⟩
  · rw [h.rep.freeBlocks] at hij
    obtain ⟨i', j', hb', hsub⟩ := carve_absorb_free (k := size2order size) h.rep hp hmn hij
    refine ⟨(i', j'), ?_, hsub⟩
    rw [h'.rep.freeBlocks]
    exact hb'
  · show buddyStatistics s' = buddyStatistics s
    rw [h'.rep.statistics_eq, h.rep.statistics_eq, hpages]

theorem allocate_free_page : ∃ s₁ s', buddyAllocate pgSize (buddyInit zeroed) = .ok (0, s₁) ∧
    buddyFreePage 0 s₁ = .ok s' ∧ NoMoreFragmented ⟨buddyInit zeroed, []⟩ ⟨s', [0].erase 0⟩ := by
  obtain ⟨s₁, ha, -⟩ := init_alloc zeroed pgSize (by decide)
  obtain ⟨s', hf, h⟩ := allocate_free zeroed_quiet .init ha
  exact ⟨s₁, s', ha, hf, h⟩

end SkyOS
