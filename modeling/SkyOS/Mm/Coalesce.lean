import SkyOS.Mm.Aligned
import SkyOS.Lib.Dyadic

/-!
# When releases undo all splits

`get_buddy_page` looks to the right only. A release that finds its block to be
a right half whose left half is free leaves two halves behind, and one that
finds a free block of its order to the right of a right half joins two pages
that no split cut apart. Runs in which neither happens keep the blocks `Paired`,
and end with what `buddy_init` set up.
-/

namespace SkyOS

open CircList Tiling

/-- The release of `i` in `s` joins two halves of one block only and forgets
none. As long as the block grows: when it is a right half, its left half is not
free and what follows is not taken for its buddy. -/
def PairsUp (s : Buddy) (i : ℕ) : Prop :=
  ∀ j < buddyMaxOrder - 1, (s.pages i).order ≤ j →
    (∀ t < j, (s.pages i).order ≤ t → mergeable s t (i + 2 ^ t)) → i / 2 ^ j % 2 = 1 →
    ¬ mergeable s j (i + 2 ^ j) ∧ ¬ mergeable s j (i - 2 ^ j)

inductive Heap.PairedReach (b : Buddy) : Heap → Prop
  | init : PairedReach b ⟨buddyInit b, []⟩
  | alloc : PairedReach b ⟨s, l⟩ → buddyAllocate size s = .ok (p, s') → PairedReach b ⟨s', p :: l⟩
  | free : PairedReach b ⟨s, l⟩ → p ∈ l → PairsUp s p → buddyFreePage p s = .ok s' →
      PairedReach b ⟨s', l.erase p⟩

def Heap.Coalesced (H : Heap) : Prop :=
  ∃ ls, Ringed H.buddy.links ls ∧ (∀ k < buddyMaxOrder, H.buddy.nr k = (ls k).length) ∧
    (∀ k < buddyMaxOrder - 1, ls k = []) ∧ (ls (buddyMaxOrder - 1)).Perm [0, buddyMaxOrderNrPages]

-- ---------------------------------------------------------------------------
-- Paired blocks
-- ---------------------------------------------------------------------------

/-- Blocks are aligned, and no two free ones are the halves of a block. -/
structure Paired (B : Set Block) : Prop where
  aligned : Aligned B
  apart : ∀ i, ∀ j < buddyMaxOrder - 1, ⟨i, j, true⟩ ∈ B → ⟨sibling j i, j, true⟩ ∉ B

theorem sibling_left (h : 2 ^ (j + 1) ∣ i) : sibling j (i + 2 ^ j) = i := by
  obtain ⟨c, rfl⟩ := h
  have he : 2 ^ (j + 1) * c + 2 ^ j = 2 ^ j * (2 * c + 1) := by ring
  have hodd : (2 ^ (j + 1) * c + 2 ^ j) / 2 ^ j % 2 ≠ 0 := by
    rw [he, Nat.mul_div_cancel_left _ (Nat.two_pow_pos j)]
    omega
  rw [sibling, if_neg hodd, Nat.add_sub_cancel]

theorem sibling_ne (h : 2 ^ j ∣ i) : sibling j i ≠ i := by
  have hpos := Nat.two_pow_pos j
  rw [sibling]
  split
  · omega
  · have : i ≠ 0 := by
      rintro rfl
      simp at *
    omega

theorem paired_init : Paired initBlocks := by
  refine ⟨aligned_init, ?_⟩
  rintro i j hj (hb | hb) -
  all_goals
    simp only [Block.mk.injEq, and_true] at hb
    omega

theorem paired_carve (hp : Paired B) (h : Rep s ls B) (hi : ⟨i, m, true⟩ ∈ B) (hkm : k ≤ m) :
    Paired (carve B i k m) := by
  have hdvd : ∀ t ≤ m, 2 ^ t ∣ i := fun t ht => (Nat.pow_dvd_pow 2 ht).trans (hp.aligned _ hi)
  -- the left sibling of a leftover starts at `i`
  have hleft : ∀ t < m, ⟨i, t, true⟩ ∉ B := by
    intro t ht hm
    have := h.eq_of_start hm hi rfl
    simp at this
    omega
  constructor
  · exact aligned_carve hp.aligned hi hkm
  · rintro c j hj (⟨hc, -⟩ | hc | ⟨t, -, ht, hc⟩) (⟨hd, -⟩ | hd | ⟨u, -, hu, hd⟩)
    · exact hp.apart c j hj hc hd
    · simp at hd
    · simp only [Block.mk.injEq, and_true] at hd
      obtain ⟨hd, rfl⟩ := hd
      obtain ⟨-, -, -, -, hinv⟩ := sibling_cell (hp.aligned _ hc)
      simp only at hinv
      rw [hd, sibling_left (hdvd (j + 1) (by omega))] at hinv
      exact hleft j hu (hinv ▸ hc)
    · simp at hc
    · simp at hc
    · simp at hc
    · simp only [Block.mk.injEq, and_true] at hc
      obtain ⟨rfl, rfl⟩ := hc
      rw [sibling_left (hdvd (j + 1) (by omega))] at hd
      exact hleft j ht hd
    · simp at hd
    · simp only [Block.mk.injEq, and_true] at hc hd
      obtain ⟨rfl, rfl⟩ := hc
      obtain ⟨hd, rfl⟩ := hd
      exact sibling_ne ((hdvd j ht.le).add (dvd_refl _)) hd

theorem PairsUp.mergesHalves (hu : PairsUp s i) : MergesHalves s i :=
  fun j h1 h2 h3 h4 => (hu j h1 h2 h3 h4).1

section
variable {s : Buddy} {ls : ℕ → List ℕ} {B : Set Block} {i k : ℕ}
variable (hp : Paired B) (h : Rep s ls B) (hi : ⟨i, k, false⟩ ∈ B) (hu : PairsUp s i)
include hp h hi hu

theorem paired_absorb (hkm : k ≤ m) (hm : m < buddyMaxOrder)
    (habs : ∀ j, k ≤ j → j < m → ⟨i + 2 ^ j, j, true⟩ ∈ B)
    (hstop : m = buddyMaxOrder - 1 ∨ ⟨i + 2 ^ m, m, true⟩ ∉ B) :
    Paired (absorb (freed B i k) i k m) := by
  have hdvd := hu.mergesHalves.dvd hp.aligned h hi hkm hm habs
  have hord : (s.pages i).order = k := by rw [h.page _ hi, Block.page]
  have hold : ∀ b ∈ absorb (freed B i k) i k m, b = ⟨i, m, true⟩ ∨ b ∈ B := by
    rintro b (⟨⟨hb, -⟩ | rfl, hne, -⟩ | rfl)
    · exact .inr hb
    · exact absurd rfl hne
    · exact .inl rfl
  -- the grown block has no free sibling
  have hsib : m < buddyMaxOrder - 1 → ⟨sibling m i, m, true⟩ ∉ B := by
    intro hlt hb
    rw [sibling] at hb
    split at hb
    · rcases hstop with rfl | hstop
      · omega
      · exact hstop hb
    · have := (hu m hlt (by omega) (fun t h1 h2 =>
        (h.mergeable_start (habs t (by omega) h1)).mpr ⟨rfl, rfl⟩) (by omega)).2
      exact this ((h.mergeable_start hb).mpr ⟨rfl, rfl⟩)
  constructor
  · exact aligned_absorb hp.aligned hdvd
  · intro c j hj hc hd
    rcases hold _ hc with hce | hcB <;> rcases hold _ hd with hde | hdB
    · simp only [Block.mk.injEq, and_true] at hce hde
      obtain ⟨rfl, rfl⟩ := hce
      exact sibling_ne hdvd hde.1
    · simp only [Block.mk.injEq, and_true] at hce
      obtain ⟨rfl, rfl⟩ := hce
      exact hsib hj hdB
    · simp only [Block.mk.injEq, and_true] at hde
      obtain ⟨hds, rfl⟩ := hde
      obtain ⟨-, -, -, -, hinv⟩ := sibling_cell (hp.aligned _ hcB)
      simp only at hinv
      rw [hds] at hinv
      rw [← hinv] at hcB
      exact hsib hj hcB
    · exact hp.apart c j hj hcB hdB

end

-- ---------------------------------------------------------------------------
-- Runs
-- ---------------------------------------------------------------------------

theorem pairedReach_paired (hr : Heap.PairedReach b H) : ∃ ls B, Partition H ls B ∧ Paired B := by
  induction hr with
  | init => exact ⟨_, _, partition_init b, paired_init⟩
  | alloc _ ha ih =>
    obtain ⟨ls, B, h, hp⟩ := ih
    obtain ⟨m, -, hle, hi, h', -⟩ := partition_alloc h ha
    exact ⟨_, _, h', paired_carve hp h.rep hi hle⟩
  | free _ hl hu hf ih =>
    obtain ⟨ls, B, h, hp⟩ := ih
    obtain ⟨k, hk⟩ := (h.live _).mp hl
    obtain ⟨m, ls', s', h1, hkm, hm, habs, hstop, h', -⟩ :=
      partition_free h hk (hu.mergesHalves.quietFor hp.aligned h.rep hk)
    rw [hf, Except.ok.injEq] at h1
    subst h1
    exact ⟨_, _, h', paired_absorb hp h.rep hk hu hkm hm habs hstop⟩

theorem Paired.eq_init (hp : Paired B) (h : Rep s ls B) (hf : ∀ b ∈ B, b.free = true) :
    B = initBlocks := by
  have hM := buddyMaxOrder_eq
  have hord : ∀ b ∈ B, b.order = buddyMaxOrder - 1 := by
    refine Tiles.eq_of_no_siblings h.tiles hp.aligned (fun b hb => ?_) ?_ ?_
    · have := h.order b hb
      omega
    · rw [npage_eq]
      exact Nat.pow_dvd_pow 2 (by omega)
    · rintro ⟨i, j, f⟩ hb ⟨i', j', f'⟩ hc hlt (rfl : j' = j) (rfl : i' = sibling j' i)
      obtain rfl : f = true := hf _ hb
      obtain rfl : f' = true := hf _ hc
      exact hp.apart i j' hlt hb hc
  have hshape : ∀ b ∈ B, b ∈ initBlocks := by
    rintro ⟨i, j, f⟩ hb
    obtain rfl : f = true := hf _ hb
    obtain rfl : j = 13 := hord _ hb
    have hend : i + 2 ^ 13 ≤ npage := h.end_le hb
    have hdvd : 2 ^ 13 ∣ i := hp.aligned _ hb
    rw [npage_eq] at hend
    have : i = 0 ∨ i = buddyMaxOrderNrPages := by
      rw [buddyMaxOrderNrPages_eq]
      omega
    rcases this with rfl | rfl
    · exact .inl rfl
    · exact .inr rfl
  ext b
  refine ⟨hshape b, fun hb => ?_⟩
  obtain ⟨c, hc, h1, h2⟩ := h.tiles.cover b.start (by
    rcases hb with rfl | rfl <;> simp [npage_eq, buddyMaxOrderNrPages_eq])
  obtain rfl := initBlocks_tiles.unique b hb c (hshape c hc) b.start le_rfl
    (by have := b.len_pos; omega) h1 h2
  exact hc

/-- A run whose releases pair up ends with what `buddy_init` set up once every
block is released. -/
theorem heap_coalesced (hr : Heap.PairedReach b H) (hl : H.live = []) : H.Coalesced := by
  obtain ⟨ls, B, h, hp⟩ := pairedReach_paired hr
  have hf : ∀ b ∈ B, b.free = true := by
    rintro ⟨i, j, f⟩ hb
    cases f with
    | true => rfl
    | false =>
      have := (h.live i).mpr ⟨j, hb⟩
      simp [hl] at this
  obtain rfl := hp.eq_init h.rep hf
  have hM := buddyMaxOrder_eq
  refine ⟨ls, h.rep.ringed, h.rep.nr, fun k hk => ?_, ?_⟩
  · refine List.eq_nil_iff_forall_not_mem.mpr fun i hi => ?_
    rcases (h.rep.listed k (by omega) i).mp hi with he | he <;>
    · simp only [Block.mk.injEq] at he
      omega
  · refine (List.perm_ext_iff_of_nodup (h.rep.ringed.nodup (by omega)) (by decide)).mpr fun i => ?_
    rw [h.rep.listed _ (by omega)]
    simp [initBlocks]

theorem heap_coalesced_left_half :
    ∃ s₁ s₂, buddyAllocate 0x8000 (buddyInit zeroed) = .ok (0, s₁) ∧
      buddyFreePage 0 s₁ = .ok s₂ ∧ Heap.Coalesced ⟨s₂, []⟩ := by
  obtain ⟨s₁, ha, hr, hp⟩ := init_alloc zeroed 0x8000 (by decide)
  obtain ⟨m, ls, s₂, hf, -⟩ := buddyFreePage_ok hr (i := 0) (.inr (.inl rfl))
    (zeroed_quiet.of_past hp).quietFor
  have hu : PairsUp s₁ 0 := fun j _ _ _ h => by simp at h
  exact ⟨s₁, s₂, ha, hf, heap_coalesced (.free (.alloc .init ha) (by simp) hu hf) (by simp)⟩

/-- Two neighbours, released left to right: the second release looks past its
own buddy, and neither half is joined. -/
theorem left_half_stays :
    ∃ s₁ s₂ s₃ s₄, buddyAllocate 0x8000 (buddyInit zeroed) = .ok (0, s₁) ∧
      buddyAllocate 0x8000 s₁ = .ok (8, s₂) ∧ buddyFreePage 0 s₂ = .ok s₃ ∧
      buddyFreePage 8 s₃ = .ok s₄ ∧ Heap.Reach zeroed ⟨s₄, []⟩ ∧ ¬ Heap.Coalesced ⟨s₄, []⟩ := by
  have hsz : size2order 0x8000 = 3 := by decide
  obtain ⟨s₁, ha1, hr1, hp1⟩ := init_alloc zeroed 0x8000 (by decide)
  rw [hsz] at hr1
  obtain ⟨s₂, ha2, hr2, hp2⟩ := buddyAllocate_ok hr1 (m := 3) (by decide) hsz.le (i := 8) (l := [])
    rfl fun j h1 h2 => by omega
  have hp2 := hp2.past hr1 hr2
  rw [hsz] at hr2
  have hQ2 : Quiet s₂ := zeroed_quiet.of_past fun j hj => (hp2 j hj).trans (hp1 j hj)
  obtain ⟨m, ls, s₃, hf3, hm, -, habs, -, hr3, hp3⟩ := buddyFreePage_ok hr2 (i := 0) (k := 3)
    (.inl ⟨.inr (.inl rfl), by simp⟩) hQ2.quietFor
  -- the page after the first block is held
  obtain rfl : m = 3 := by
    by_contra hne
    have := habs 3 le_rfl (by omega)
    simp [carve, leftover] at this
  obtain ⟨m, ls', s₄, hf4, hm', -, habs', -, hr4, -⟩ := buddyFreePage_ok hr3 (i := 8) (k := 3)
    (.inl ⟨.inl ⟨.inr (.inl rfl), by simp⟩, by simp, by simp⟩)
      (hQ2.of_past (hp3.past hr2 hr3)).quietFor
  -- a larger block follows the second
  obtain rfl : m = 3 := by
    by_contra hne
    have := habs' 3 le_rfl (by omega)
    simp [absorb, freed, carve, leftover, initBlocks] at this
  refine ⟨s₁, s₂, s₃, s₄, ha1, ha2, hf3, hf4, ?_, ?_⟩
  · have h2 : Heap.Reach zeroed ⟨s₂, [8, 0]⟩ := .step (.step .init (.alloc ha1)) (.alloc ha2)
    have h3 : Heap.Reach zeroed ⟨s₃, [8]⟩ := .step h2 (.free (by simp) hf3)
    exact .step h3 (.free (by simp) hf4)
  · rintro ⟨ls'', -, hnr, hempty, -⟩
    have h8 : 8 ∈ ls' 3 := (hr4.listed 3 (by decide) 8).mpr (.inr rfl)
    have h0 := (hr4.nr 3 (by decide)).symm.trans (hnr 3 (by decide))
    rw [hempty 3 (by decide), List.length_nil, List.length_eq_zero_iff] at h0
    simp [h0] at h8

end SkyOS
