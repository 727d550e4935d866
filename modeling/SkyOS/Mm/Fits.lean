import SkyOS.Mm.Owned

/-!
# Requests that fit

Splitting puts a block only on lists that are empty. Without frees a list below
the largest order therefore never holds two blocks, and what is free is enough
for a request as soon as there are that many free pages.
-/

namespace SkyOS

open Classical

def Sparse (s : Buddy) : Prop := ∀ k < buddyMaxOrder - 1, s.nr k ≤ 1

noncomputable def heldPages (L : Layout) (P : Set ℕ) : Finset ℕ :=
  (Finset.range npage).filter fun i => pgAddr L i ∈ P

section
variable {L : Layout} {s s' : Buddy} {P Q : Set ℕ}

theorem sparse_init (b : Buddy) : Sparse (buddyInit b) := by
  intro k hk
  rw [(buddyInit_ok b).nr k (by omega), initLists]
  split
  · omega
  · simp

theorem Sparse.allocate (h : Rep s ls B) (hs : Sparse s) (ha : buddyAllocate size s = .ok (p, s')) :
    Sparse s' := by
  obtain ⟨m, l, hm, hle, hl, he, hr, -⟩ := buddyAllocate_inv h ha
  intro k hk
  have hold := hs k hk
  rw [h.nr k (by omega)] at hold
  rw [hr.nr k (by omega), carveLists]
  split
  · rename_i hkm
    subst hkm
    rw [List.length_tail]
    omega
  · split
    · simp
    · exact hold

theorem Sparse.kalloc (h : Owned L s P) (hs : Sparse s) (ha : kalloc L size s = .ok (a, s')) :
    Sparse s' := by
  obtain ⟨live, ls, B, hp, -⟩ := h
  obtain ⟨p, hp', -⟩ := kalloc_ok.mp ha
  exact hs.allocate hp.rep hp'

theorem Sparse.draws (h : Owned L s P) (hs : Sparse s) (hd : Draws (SkyOS.kalloc L pgSize) s l s') :
    Sparse s' := by
  induction hd generalizing P with
  | nil => exact hs
  | cons ha _ ih => exact ih (h.grant ha).owned (hs.kalloc h ha)

-- ---------------------------------------------------------------------------
-- Counting pages
-- ---------------------------------------------------------------------------

theorem mem_heldPages : i ∈ heldPages L P ↔ i < npage ∧ pgAddr L i ∈ P := by simp [heldPages]

theorem heldPages_le (L : Layout) (P : Set ℕ) : (heldPages L P).card ≤ npage := by
  have := Finset.card_filter_le (Finset.range npage) fun i => pgAddr L i ∈ P
  rwa [Finset.card_range] at this

theorem pgAddr_lt (L : Layout) : pgAddr L i < pgAddr L j ↔ i < j := by
  simp only [pgAddr, pgSize]
  omega

theorem Granted.index (h : Granted L P a size s') : ∃ p, a = pgAddr L p ∧
    p + 2 ^ kallocOrder size ≤ npage := by
  obtain ⟨c, hc⟩ := h.page
  obtain ⟨d, hd⟩ := L.aligned
  have h1 := h.start
  have h2 := h.stop
  refine ⟨c - d, ?_, ?_⟩
  · simp only [pgAddr, Layout.pmmStart, pgSize] at *
    omega
  · rw [npage_eq]
    simp only [Layout.pmmEnd, Layout.pmmStart, kallocLen, memSize, pgSize] at *
    omega

theorem heldPages_grant (h : Granted L P a size s') :
    (heldPages L (P ∪ blockBytes a size)).card ≤ (heldPages L P).card + 2 ^ kallocOrder size := by
  obtain ⟨p, rfl, -⟩ := h.index
  have hsub : heldPages L (P ∪ blockBytes (pgAddr L p) size) ⊆
      heldPages L P ∪ Finset.Ico p (p + 2 ^ kallocOrder size) := by
    intro i hi
    obtain ⟨hlt, hi | ⟨h1, h2⟩⟩ := mem_heldPages.mp hi
    · exact Finset.mem_union_left _ (mem_heldPages.mpr ⟨hlt, hi⟩)
    · refine Finset.mem_union_right _ (Finset.mem_Ico.mpr ?_)
      simp only [pgAddr, kallocLen, pgSize] at h1 h2 ⊢
      omega
  refine (Finset.card_le_card hsub).trans ((Finset.card_union_le _ _).trans ?_)
  simp

theorem Owned.supply (h : Owned L s P) (hn : (heldPages L P).card + n ≤ npage) : Supply L s n := by
  induction n generalizing s P with
  | zero => exact ⟨[], s, .nil, rfl⟩
  | succ n ih =>
    obtain ⟨i, hi, hP⟩ : ∃ i < npage, pgAddr L i ∉ P := by
      by_contra hcon
      push Not at hcon
      have : Finset.range npage ⊆ heldPages L P := fun i hi =>
        mem_heldPages.mpr ⟨Finset.mem_range.mp hi, hcon i (Finset.mem_range.mp hi)⟩
      have := Finset.card_le_card this
      rw [Finset.card_range] at this
      omega
    obtain ⟨a, s₁, ha⟩ := h.kalloc_page hi hP
    have hg := h.grant ha
    have hcard := heldPages_grant hg
    rw [show 2 ^ kallocOrder pgSize = 1 by decide] at hcard
    obtain ⟨l, s', hd, hl⟩ := ih hg.owned (by omega)
    exact ⟨a :: l, s', .cons ha hd, by simp [hl]⟩

theorem Owned.supply_le (h : Owned L s P) (hs : Supply L s n) :
    (heldPages L P).card + n ≤ npage := by
  obtain ⟨l, s', hd, rfl⟩ := hs
  induction hd generalizing P with
  | nil => simpa using heldPages_le L P
  | @cons s a s₁ l s' ha _ ih =>
    have hg := h.grant ha
    have hle := ih hg.owned
    obtain ⟨p, rfl, hp⟩ := hg.index
    have hself := InPage.self (pgAddr L p)
    have hlt : p < npage := by
      have := Nat.two_pow_pos (kallocOrder pgSize)
      omega
    have hsub : heldPages L P ⊂ heldPages L (P ∪ blockBytes (pgAddr L p) pgSize) := by
      refine Finset.ssubset_iff.mpr ⟨p, fun hm => ?_, fun i hi => ?_⟩
      · exact hg.new _ hself (mem_heldPages.mp hm).2
      · rcases Finset.mem_insert.mp hi with rfl | hi
        · exact mem_heldPages.mpr ⟨hlt, .inr (by rw [blockBytes_page]; exact hself)⟩
        · exact mem_heldPages.mpr ⟨(mem_heldPages.mp hi).1, .inl (mem_heldPages.mp hi).2⟩
    have := Finset.card_lt_card hsub
    rw [List.length_cons]
    omega

-- ---------------------------------------------------------------------------
-- Requests of any size
-- ---------------------------------------------------------------------------

theorem Owned.kalloc_fits (h : Owned L s P) (hs : Sparse s) (ho : kallocOrder size < buddyMaxOrder)
    (hn : (heldPages L P).card + 2 ^ kallocOrder size ≤ npage) :
    ∃ a s', kalloc L size s = .ok (a, s') := by
  obtain ⟨live, ls, B, hp, rfl⟩ := h
  have hr : Rep s ls B := hp.rep
  by_cases hex : ∃ m, kallocOrder size ≤ m ∧ m < buddyMaxOrder ∧ ls m ≠ []
  · obtain ⟨p, s', ha⟩ := buddyAllocate_served hr hex
    exact ⟨_, s', kalloc_ok.mpr ⟨p, ha, rfl⟩⟩
  · push Not at hex
    exfalso
    -- the free pages are in the blocks of lower orders, of which there is one each
    have hsub : Finset.range npage \ heldPages L (heldBytes L B) ⊆
        (Finset.range (kallocOrder size)).biUnion
        fun k => (ls k).toFinset.biUnion fun j => Finset.Ico j (j + 2 ^ k) := by
      intro i hi
      rw [Finset.mem_sdiff, Finset.mem_range] at hi
      obtain ⟨⟨j, k, f⟩, hb, h1, h2⟩ := hr.tiles.cover i hi.1
      have hfree : f = true := by
        cases f with
        | true => rfl
        | false =>
          have hin : pgAddr L i ∈ heldBytes L B := by
            refine ⟨_, hb, rfl, ?_, (pgAddr_lt L).mpr h2⟩
            simp only [pgAddr, pgSize] at *
            omega
          exact absurd (mem_heldPages.mpr ⟨hi.1, hin⟩) hi.2
      subst hfree
      have hk : k < buddyMaxOrder := hr.order _ hb
      have hj := (hr.listed k hk j).mpr hb
      have hlt : k < kallocOrder size := by
        by_contra hle
        rw [hex k (by omega) hk] at hj
        simp at hj
      simp only [Finset.mem_biUnion, Finset.mem_range, List.mem_toFinset, Finset.mem_Ico]
      exact ⟨k, hlt, j, hj, h1, h2⟩
    have hone : ∀ k ∈ Finset.range (kallocOrder size),
        ((ls k).toFinset.biUnion fun j => Finset.Ico j (j + 2 ^ k)).card ≤ 2 ^ k := by
      intro k hk
      rw [Finset.mem_range] at hk
      have hlen := hs k (by omega)
      rw [hr.nr k (by omega)] at hlen
      refine (Finset.card_biUnion_le_card_mul _ _ (2 ^ k) fun j _ => by simp).trans ?_
      have := (ls k).toFinset_card_le
      calc (ls k).toFinset.card * 2 ^ k ≤ 1 * 2 ^ k := Nat.mul_le_mul_right _ (this.trans hlen)
        _ = 2 ^ k := Nat.one_mul _
    have hcard :=
      (Finset.card_le_card hsub).trans (Finset.card_biUnion_le.trans (Finset.sum_le_sum hone))
    rw [Finset.card_sdiff_of_subset (show heldPages L _ ⊆ Finset.range npage from
        Finset.filter_subset _ _),
      Finset.card_range] at hcard
    have hgeom : ∑ k ∈ Finset.range (kallocOrder size), 2 ^ k < 2 ^ kallocOrder size :=
      Nat.geomSum_lt le_rfl fun k hk => Finset.mem_range.mp hk
    omega

end

end SkyOS
