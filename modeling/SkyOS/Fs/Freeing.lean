import SkyOS.Fs.Entries

/-!
# Freeing chains

Whatever is in the FAT, `fat_chain_unlink` clears bits of it and never sets one. An
entry that it leaves is zero and stays so, and the loop ends on the entries that are
not.
-/

namespace SkyOS

open ByteMem WriteBack

def Disk.Below (D' D : Disk) : Prop := ∀ x : ℕ × ℕ, x.2 < 4096 → D'.bit x = true → D.bit x = true

theorem Disk.Below.refl (D : Disk) : D.Below D := fun _ _ => id

theorem Disk.Below.trans {D₁ D₂ D₃ : Disk} (h : D₁.Below D₂) (h' : D₂.Below D₃) : D₁.Below D₃ :=
  fun x hx hb =>
  h' x hx (h x hx hb)

section
variable {h : Fat} {D : Disk}

theorem SetBits.below {slot : ℕ → ℕ × ℕ} (hs : SetBits D D' slot 0 a b) : D'.Below D := by
  intro x hx hb
  by_cases hin : ∃ j, a ≤ j ∧ j < b ∧ slot j = x
  · obtain ⟨j, hj, hj', rfl⟩ := hin
    rw [hs.slots j hj hj', Nat.zero_testBit] at hb
    cases hb
  · push Not at hin
    rwa [hs.others x hx hin] at hb

theorem Fat.setCopies_below (hb : h.bytesPerSector = maxSectorSize) (n i c : ℕ) :
    (h.setCopies c 0 n i D).Below D := by
  induction n generalizing i D with
  | zero => exact Disk.Below.refl D
  | succ n ih => exact (ih (i + 1)).trans (Fat.setCopy_setBits hb i c 0).below

theorem Disk.Below.next_zero (hD : Disk.Below D' D) (hb : h.bytesPerSector = maxSectorSize)
    (hz : h.next D c = 0) :
    h.next D' c = 0 := by
  have hlt : 0 < 2 ^ h.width := Nat.two_pow_pos _
  rw [Fat.next_eq_iff hb hlt] at hz ⊢
  intro j hj
  have hz := hz j hj
  rw [Nat.zero_testBit] at hz ⊢
  by_contra hset
  rw [hD _ (h.slot_lt 0 c j) (by simpa using hset)] at hz
  cases hz

theorem Fat.setCluster_eq (h : Fat) (hc : c < 2 ^ h.width) : h.setCluster c = c := by
  unfold Fat.setCluster Fat.width at *
  cases ht : h.type with
  | fat12 =>
    rw [ht] at hc
    exact Nat.mod_eq_of_lt (hc.trans (by decide))
  | fat16 =>
    rw [ht] at hc
    exact Nat.mod_eq_of_lt hc
  | fat32 => rfl

theorem Fat.set_zero (hb : h.bytesPerSector = maxSectorSize) (hn : 0 < h.numFats)
    (hc : c < 2 ^ h.width) :
    h.next (h.set c 0 D) c = 0 := by
  obtain ⟨n, hn⟩ := Nat.exists_eq_succ_of_ne_zero hn.ne'
  rw [Fat.set, hn, Fat.setCopies]
  refine (Fat.setCopies_below hb n 1 c).next_zero hb ?_
  rw [Fat.next_eq_iff hb (Nat.two_pow_pos _)]
  intro j hj
  have hs := (Fat.setCopy_setBits hb 0 c 0 (D := D)).slots j (Nat.zero_le _) hj
  rwa [h.setCluster_eq hc] at hs

theorem Fat.setCopies_zero_slot (hb : h.bytesPerSector = maxSectorSize) (hc : c < 2 ^ h.width)
    (n i : ℕ) (hk : i ≤ k)
    (hk' : k < i + n) (hj : j < h.width) : (h.setCopies c 0 n i D).bit (h.slot k c j) = false := by
  induction n generalizing i D with
  | zero => omega
  | succ n ih =>
    rw [Fat.setCopies]
    rcases hk.eq_or_lt with rfl | hlt
    · have hs := (Fat.setCopy_setBits (D := D) hb i c 0).slots j (Nat.zero_le _) hj
      rw [h.setCluster_eq hc, Nat.zero_testBit] at hs
      by_contra hset
      have := Fat.setCopies_below hb n (i + 1) c _ (h.slot_lt i c j) (by simpa using hset)
      rw [hs] at this
      cases this
    · exact ih (i + 1) (by omega) (by omega)

-- ---------------------------------------------------------------------------
-- The loop
-- ---------------------------------------------------------------------------

def Fat.used (h : Fat) (D : Disk) (N : ℕ) : ℕ :=
  ((Finset.range N).filter fun c => h.next D c ≠ 0).card

theorem Fat.used_le (h : Fat) (D : Disk) (N : ℕ) : h.used D N ≤ N :=
  (Finset.card_filter_le _ _).trans (Finset.card_range N).le

theorem Disk.Below.used_lt (hD : Disk.Below D' D) (hb : h.bytesPerSector = maxSectorSize)
    (hc : c < N) (hz : h.next D' c = 0)
    (hu : h.next D c ≠ 0) : h.used D' N < h.used D N := by
  refine Finset.card_lt_card (Finset.ssubset_iff_of_subset ?_ |>.mpr ⟨c, ?_, ?_⟩)
  · intro e he
    rw [Finset.mem_filter] at he ⊢
    exact ⟨he.1, fun h0 => he.2 (hD.next_zero hb h0)⟩
  · exact Finset.mem_filter.mpr ⟨Finset.mem_range.mpr hc, hu⟩
  · exact fun hmem => (Finset.mem_filter.mp hmem).2 hz

theorem fatChainUnlink_step (hb : h.bytesPerSector = maxSectorSize)
    (hrest : Gives .univ (On (h.set c 0 D)) (fatChainUnlink h fuel (h.next D c)) () (On D'))
    (hc : ¬ (c = 0 ∨ c = fatEoc h)) :
    Gives .univ (On D) (fatChainUnlink h (fuel + 1) c) () (On D') := by
  rw [fatChainUnlink, if_neg hc]
  exact (fatGetNextCluster_gives hb (Set.subset_univ _)).bind <|
    (fatSetNextCluster_gives hb c 0).bind hrest

theorem fatChainUnlink_stop (hc : c = 0 ∨ c = fatEoc h) (hfuel : 0 < fuel) :
    Gives .univ (On D) (fatChainUnlink h fuel c) () (On D) := by
  obtain ⟨fuel, rfl⟩ := Nat.exists_eq_succ_of_ne_zero hfuel.ne'
  rw [fatChainUnlink, if_pos hc]
  exact Gives.pure _ fun _ => id

theorem fatChainUnlink_gives (hb : h.bytesPerSector = maxSectorSize) (hn : 0 < h.numFats)
    (hc : c < 2 ^ h.width) :
    ∃ D' : Disk, D'.Below D ∧ ∀ fuel ≥ h.used D (2 ^ h.width) + 2,
      Gives .univ (On D) (fatChainUnlink h fuel c) () (On D') := by
  induction hu : h.used D (2 ^ h.width) using Nat.strong_induction_on generalizing c D with
  | h u ih =>
    by_cases hstop : c = 0 ∨ c = fatEoc h
    · exact ⟨D, .refl D, fun fuel hfuel => fatChainUnlink_stop hstop (by omega)⟩
    have hbelow : (h.set c 0 D).Below D := Fat.setCopies_below hb h.numFats 0 c
    by_cases hfree : h.next D c = 0
    · refine ⟨h.set c 0 D, hbelow, fun fuel hfuel => ?_⟩
      obtain ⟨fuel, rfl⟩ := Nat.exists_eq_succ_of_ne_zero (show fuel ≠ 0 by omega)
      exact fatChainUnlink_step hb (fatChainUnlink_stop (.inl hfree) (by omega)) hstop
    · have hlt : h.used (h.set c 0 D) _ < h.used D _ :=
          hbelow.used_lt hb hc (Fat.set_zero hb hn hc) hfree
      obtain ⟨D', hD', hrest⟩ := ih _ (hu ▸ hlt) (h.next_lt hb D c) rfl
      refine ⟨D', hD'.trans hbelow, fun fuel hfuel => ?_⟩
      obtain ⟨fuel, rfl⟩ := Nat.exists_eq_succ_of_ne_zero (show fuel ≠ 0 by omega)
      exact fatChainUnlink_step hb (hrest fuel (by omega)) hstop

theorem Fat.width_le (h : Fat) : h.width ≤ 28 := by
  unfold Fat.width
  cases h.type <;> decide

theorem fatChainUnlink_any (hb : h.bytesPerSector = maxSectorSize) (hn : 0 < h.numFats) (c : ℕ) :
    ∃ D', ∀ fuel ≥ 2 ^ h.width + 3, Gives .univ (On D) (fatChainUnlink h fuel c) () (On D') := by
  have hpos := Nat.two_pow_pos h.width
  by_cases hstop : c = 0 ∨ c = fatEoc h
  · exact ⟨D, fun fuel hfuel => fatChainUnlink_stop hstop (by omega)⟩
  obtain ⟨D', -, hrest⟩ := fatChainUnlink_gives (D := h.set c 0 D) hb hn (h.next_lt hb D c)
  refine ⟨D', fun fuel hfuel => ?_⟩
  have hle := h.used_le (h.set c 0 D) (2 ^ h.width)
  obtain ⟨fuel, rfl⟩ := Nat.exists_eq_succ_of_ne_zero (show fuel ≠ 0 by omega)
  exact fatChainUnlink_step hb (hrest fuel (by omega)) hstop

theorem fatChainUnlink_more {c₀ c₁ : Cached Sector}
    (hrun : (fatChainUnlink h fuel c).cached c₀ = .ok ((), c₁))
    (hle : fuel ≤ fuel') : (fatChainUnlink h fuel' c).cached c₀ = .ok ((), c₁) := by
  induction fuel generalizing fuel' c c₀ with
  | zero => cases hrun
  | succ fuel ih =>
    obtain ⟨fuel', rfl⟩ := Nat.exists_eq_succ_of_ne_zero (show fuel' ≠ 0 by omega)
    rw [fatChainUnlink] at hrun ⊢
    split at hrun
    · rename_i hstop
      rwa [if_pos hstop]
    · rename_i hstop
      rw [if_neg hstop]
      obtain ⟨next, c₂, hnext, hrun⟩ := Prog.cached_bind_ok.mp hrun
      obtain ⟨u, c₃, hset, hrun⟩ := Prog.cached_bind_ok.mp hrun
      exact Prog.cached_bind_ok.mpr ⟨next, c₂, hnext,
        Prog.cached_bind_ok.mpr ⟨u, c₃, hset, ih hrun (by omega)⟩⟩

/-- Whatever is on the disk, the loop ends. -/
theorem fat_chain_unlink_ends (hb : h.bytesPerSector = maxSectorSize) (hn : 0 < h.numFats)
    (cluster : ℕ) {c : Cached Sector}
    (hc : On D c) : ∃ n ≤ unlinkRounds, ∃ c', ∀ fuel ≥ n, (fatChainUnlink h fuel cluster).cached c =
      .ok ((), c') := by
  obtain ⟨D', hends⟩ := fatChainUnlink_any (D := D) hb hn cluster
  obtain ⟨-, c', hrun, -⟩ := (hends _ le_rfl).run hc
  refine ⟨2 ^ h.width + 3, ?_, c', fun fuel hfuel => fatChainUnlink_more hrun hfuel⟩
  have hle : 2 ^ h.width ≤ 2 ^ 28 := Nat.pow_le_pow_right (by decide) h.width_le
  unfold unlinkRounds
  omega

end

def cyclicDisk (n : ℕ) : Sector :=
  .ofMem (if n = 1 then writeLE (fun _ => 0) 0 6 0x002003FFFFF8 else fun _ => 0)

theorem fat_chain_unlink_ends_cyclic : ∃ n ≤ unlinkRounds, ∃ c', ∀ fuel ≥ n,
    (fatChainUnlink fourClusters fuel 2).cached (coldCache cyclicDisk) = .ok ((), c') :=
  fat_chain_unlink_ends rfl (by decide) 2 (coldCache_on cyclicDisk)

end SkyOS
