import SkyOS.Mm.Pmm

/-!
# How much memory kalloc returns

`size2order` counts pages in 32 bits. Up to `2 ^ 44` bytes it finds the smallest
order that is large enough, and refuses what is larger than the largest block.
From there on the count wraps, and a request whose count wraps to less than a
largest block is served.
-/

namespace SkyOS

-- ---------------------------------------------------------------------------
-- size2order
-- ---------------------------------------------------------------------------

theorem size2orderLoop_le (n : ℕ) (h : 0 < t) : 2 ^ size2orderLoop n t ≤ t := by
  induction n generalizing t with
  | zero => exact h
  | succ n ih =>
    rw [size2orderLoop]
    split
    · have hhalf := ih (t := t >>> 1) (by rw [Nat.shiftRight_eq_div_pow]; omega)
      rw [Nat.shiftRight_eq_div_pow] at hhalf
      rw [Nat.shiftRight_eq_div_pow, Nat.pow_succ]
      omega
    · exact h

theorem size2orderLoop_zero (n : ℕ) : size2orderLoop n 0 = 0 := by
  cases n <;> rfl

theorem size2order_loop (size : ℕ) : ∃ o, u32 (size / pgSize) < 2 ^ (o + 1) ∧
    (0 < u32 (size / pgSize) → 2 ^ o ≤ u32 (size / pgSize)) ∧ (u32 (size / pgSize) = 0 → o = 0) ∧
    (o < buddyMaxOrder → size2order size = if 2 ^ o * pgSize < size then o + 1 else o) ∧
    (buddyMaxOrder ≤ o → buddyMaxOrder ≤ size2order size) := by
  refine ⟨_, size2orderLoop_lt (u32_lt _), size2orderLoop_le _, fun h => ?_, fun ho => ?_,
    fun ho => ?_⟩
  · rw [h, size2orderLoop_zero]
  · have hpow : 2 ^ size2orderLoop 32 (u32 (size / pgSize)) ≤ 2 ^ 13 :=
      Nat.pow_le_pow_right (by omega) (by rw [buddyMaxOrder_eq] at ho; omega)
    rw [size2order_eq size rfl, Nat.one_shiftLeft, u64OfInt_of_lt]
    · rfl
    · have : 2 ^ size2orderLoop 32 (u32 (size / buddyPageSize)) ≤ 2 ^ 13 := hpow
      simp only [buddyPageSize] at this ⊢
      omega
  · rw [size2order_eq size rfl]
    split
    · exact ho.trans (Nat.le_succ _)
    · exact ho

theorem size2order_le_iff (h0 : 0 < size) (h : size ≤ 2 ^ 25) : size2order size ≤ k ↔
    size ≤ 2 ^ k * pgSize := by
  obtain ⟨o, hlt, hle, hz, heq, -⟩ := size2order_loop size
  have hu : u32 (size / pgSize) = size / pgSize := u32_of_lt (by simp only [pgSize]; omega)
  rw [hu] at hlt hle hz
  have ho : 2 ^ o ≤ 2 ^ 13 := by
    rcases Nat.eq_zero_or_pos (size / pgSize) with h0 | hpos
    · rw [hz h0]
      decide
    · refine (hle hpos).trans ?_
      simp only [pgSize]
      omega
  have ho := (Nat.pow_le_pow_iff_right (by omega)).mp ho
  rw [heq (by rw [buddyMaxOrder_eq]; omega)]
  have hup : size < 2 ^ (o + 1) * pgSize := by
    have : size / pgSize + 1 ≤ 2 ^ (o + 1) := hlt
    simp only [pgSize] at this ⊢
    omega
  split
  · rename_i hbig
    constructor
    · intro hk
      exact hup.le.trans (Nat.mul_le_mul_right _ (Nat.pow_le_pow_right (by omega) hk))
    · intro hk
      have := lt_of_mul_lt_mul_right (hbig.trans_le hk) (Nat.zero_le _)
      exact (Nat.pow_lt_pow_iff_right (by omega)).mp this
  · rename_i hfit
    constructor
    · intro hk
      exact (not_lt.mp hfit).trans (Nat.mul_le_mul_right _ (Nat.pow_le_pow_right (by omega) hk))
    · intro hk
      by_contra hlt'
      have hko : k + 1 ≤ o := by omega
      -- a smaller order would hold fewer pages than there are
      have hpow : 2 ^ (k + 1) ≤ 2 ^ o := Nat.pow_le_pow_right (by omega) hko
      have h1 : 1 ≤ 2 ^ k := Nat.one_le_two_pow
      have hpos : 0 < size / pgSize := by
        by_contra h0
        have := hz (by omega)
        omega
      have := hle hpos
      have hmul : 2 ^ o * pgSize ≤ size :=
        (Nat.mul_le_mul_right _ this).trans (Nat.div_mul_le_self _ _)
      rw [Nat.pow_succ] at hpow
      simp only [pgSize] at *
      omega

theorem size2order_refused (h : 2 ^ 25 < size) :
    buddyMaxOrder ≤ size2order size ↔ 2 ^ 13 ≤ u32 (size / pgSize) := by
  obtain ⟨o, hlt, hle, hz, heq, hge⟩ := size2order_loop size
  have hM := buddyMaxOrder_eq
  constructor
  · intro hbig
    by_contra hsmall
    have ho : o < 13 := by
      rcases Nat.eq_zero_or_pos (u32 (size / pgSize)) with h0 | hpos
      · rw [hz h0]
        decide
      · exact (Nat.pow_lt_pow_iff_right (a := 2) (by omega)).mp
          ((hle hpos).trans_lt (not_le.mp hsmall))
    rw [heq (by omega)] at hbig
    split at hbig <;> omega
  · intro hbig
    have ho : 13 < o + 1 := (Nat.pow_lt_pow_iff_right (a := 2) (by omega)).mp (hbig.trans_lt hlt)
    by_cases h13 : o = 13
    · subst h13
      rw [heq (by omega), if_pos (by simp only [pgSize]; omega)]
    · exact hge (by omega)

-- ---------------------------------------------------------------------------
-- kalloc
-- ---------------------------------------------------------------------------

/-- What `kalloc` owes for a request of `size` bytes. -/
structure EnoughMemory (L : Layout) (s : Buddy) (size : ℕ) : Prop where
  block : ∀ a s', kalloc L size s = .ok (a, s') → ∃ p, a = pgAddr L p ∧
    max size 1 ≤ 2 ^ (s'.pages p).order * pgSize ∧
    L.pmmStart ≤ a ∧ a + 2 ^ (s'.pages p).order * pgSize ≤ L.pmmStart + memSize ∧
    ∀ k, max size 1 ≤ 2 ^ k * pgSize → (s'.pages p).order ≤ k
  refused : 2 ^ 13 * pgSize < size → kalloc L size s = .error allocFail

def roundedSize (size : ℕ) : ℕ := if size ≥ pgSize then size else pgSize

theorem roundedSize_le_iff (size k : ℕ) : roundedSize size ≤ 2 ^ k * pgSize ↔
    max size 1 ≤ 2 ^ k * pgSize := by
  have h1 : 1 ≤ 2 ^ k := Nat.one_le_two_pow
  unfold roundedSize
  simp only [pgSize]
  split <;> omega

theorem kalloc_block (h : Rep s ls B) (ha : kalloc L size s = .ok (a, s')) : ∃ p, a = pgAddr L p ∧
    (s'.pages p).order = size2order (roundedSize size) ∧ p + 2 ^ (s'.pages p).order ≤ npage := by
  obtain ⟨p, hp, rfl⟩ := kalloc_ok.mp ha
  obtain ⟨m, l, -, -, -, -, h', -⟩ := buddyAllocate_inv h hp
  have hb : ⟨p, size2order (roundedSize size), false⟩ ∈
    carve B p (size2order (roundedSize size)) m := .inr (.inl rfl)
  have hpage : (s'.pages p).order = size2order (roundedSize size) := by
    rw [show s'.pages p = _ from h'.page _ hb]
    rfl
  exact ⟨p, rfl, hpage, hpage ▸ h'.end_le hb⟩

theorem kalloc_refused (h : buddyMaxOrder ≤ size2order (roundedSize size)) :
    kalloc L size s = .error allocFail := by
  rw [kalloc_eq, show (if size ≥ pgSize then size else pgSize) = roundedSize size from rfl,
    buddyAllocate, if_pos h]
  rfl

theorem kalloc_not_refused (hr : Rep s ls B) (h : size2order (roundedSize size) < buddyMaxOrder) :
    kalloc L size s ≠ .error allocFail := by
  rw [kalloc_eq, show (if size ≥ pgSize then size else pgSize) = roundedSize size from rfl]
  by_cases hex : ∃ m, size2order (roundedSize size) ≤ m ∧ m < buddyMaxOrder ∧ ls m ≠ []
  · obtain ⟨p, s', hs⟩ := buddyAllocate_served hr hex
    rw [hs]
    exact nofun
  · push Not at hex
    rw [buddyAllocate_none hr hex, if_neg (not_le.mpr h)]
    simp [Except.map, allocFail]

theorem enoughMemory_iff (h : Rep s ls B) :
    EnoughMemory L s size ↔ size < 2 ^ 44 ∨ 2 ^ 13 ≤ u32 (size / pgSize) := by
  by_cases hsmall : size ≤ 2 ^ 25
  · refine ⟨fun _ => .inl (by omega), fun _ => ⟨fun a s' ha => ?_, fun hbig => ?_⟩⟩
    · obtain ⟨p, rfl, hpage, hend⟩ := kalloc_block h ha
      have hpos : 0 < roundedSize size := by
        unfold roundedSize
        simp only [pgSize]
        split <;> omega
      have hsz : roundedSize size ≤ 2 ^ 25 := by
        unfold roundedSize
        simp only [pgSize]
        split <;> omega
      have hleast (k : ℕ) : (s'.pages p).order ≤ k ↔ max size 1 ≤ 2 ^ k * pgSize := by
        rw [hpage, size2order_le_iff hpos hsz, roundedSize_le_iff]
      refine ⟨p, rfl, (hleast _).mp le_rfl, ?_, ?_, fun k hk => (hleast k).mpr hk⟩
      · simp [pgAddr]
      · rw [npage_eq] at hend
        simp only [pgAddr, pgSize, memSize]
        omega
    · simp only [pgSize] at hbig
      omega
  · have hround : roundedSize size = size := if_pos (by simp only [pgSize]; omega)
    have href := size2order_refused (not_le.mp hsmall)
    have hlow : size < 2 ^ 44 → 2 ^ 13 ≤ u32 (size / pgSize) := fun hlt => by
      rw [u32_of_lt (by simp only [pgSize]; omega)]
      simp only [pgSize]
      omega
    constructor
    · intro he
      by_contra hcon
      push Not at hcon
      refine kalloc_not_refused h ?_ (he.refused (by simp only [pgSize]; omega))
      rw [hround, ← not_le, href]
      exact not_le.mpr hcon.2
    · intro hcond
      have hbig : kalloc L size s = .error allocFail :=
        kalloc_refused (by rw [hround, href]; exact hcond.elim hlow id)
      refine ⟨fun a s' ha => ?_, fun _ => hbig⟩
      rw [hbig] at ha
      cases ha

/-- In every state reached, for every size. -/
theorem kalloc_enough (hb : Quiet b) (hr : Heap.Reach b H) (size : ℕ) :
    EnoughMemory L H.buddy size ↔ size < 2 ^ 44 ∨ 2 ^ 13 ≤ u32 (size / pgSize) := by
  obtain ⟨⟨ls, B, h⟩, -⟩ := reach_partition hb hr
  exact enoughMemory_iff h.rep

/-- Two pages asked for while another is held. -/
theorem kalloc_enough_page : ∃ s, buddyAllocate pgSize (buddyInit zeroed) = .ok (0, s) ∧
    EnoughMemory sampleLayout s (2 * pgSize) := by
  obtain ⟨s, ha, -⟩ := init_alloc zeroed pgSize (by decide)
  have hr : Heap.Reach zeroed ⟨s, [0]⟩ := .step .init (.alloc ha)
  exact ⟨s, ha, (kalloc_enough zeroed_quiet hr (2 * pgSize)).mpr (.inl (by decide))⟩

/-- A request for 16 TiB is served with two pages. -/
theorem kalloc_wraps : ∃ s, kalloc sampleLayout (2 ^ 44) (buddyInit zeroed) =
    .ok (sampleLayout.kernelEnd, s) ∧
    (s.pages 0).order = 1 ∧ ¬ EnoughMemory sampleLayout (buddyInit zeroed) (2 ^ 44) := by
  obtain ⟨s, hs⟩ := init_kalloc sampleLayout zeroed (2 ^ 44) (by decide)
  obtain ⟨p, hp, hpage, -⟩ := kalloc_block (buddyInit_ok zeroed) hs
  have hp0 : p = 0 := by
    simp only [pgAddr, sampleLayout, Layout.pmmStart, pgSize] at hp
    omega
  subst hp0
  refine ⟨s, hs, hpage.trans (by decide), fun he => ?_⟩
  have := he.refused (by decide)
  rw [hs] at this
  cases this

end SkyOS
