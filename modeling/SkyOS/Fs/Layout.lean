import SkyOS.Fs.Freeing
import SkyOS.Fs.Reading
import SkyOS.Lib.Chains

/-!
# The layout of a volume

The copies of the FAT lie one after the other and before the data, and each has the
entries of all clusters. Then no two entries share a bit, and a cluster has nothing in
common with the FAT.
-/

namespace SkyOS

open ByteMem WriteBack

namespace Fat

/-- The copies have the entries of all clusters, and the entries can hold their numbers. -/
structure Tabled (h : Fat) : Prop where
  sector : h.bytesPerSector = maxSectorSize
  copies : 0 < h.numFats
  room : h.entryBit (h.clusterCount + 1) + h.width ≤ 4096 * h.fatSize
  region : h.reservedSectorCount + h.numFats * h.fatSize ≤ 2 ^ 32
  count : h.clusterCount + 2 ≤ 2 ^ h.width

structure WellFormed (h : Fat) : Prop extends h.Sized where
  copies : 0 < h.numFats
  room : h.entryBit (h.clusterCount + 1) + h.width ≤ 4096 * h.fatSize
  apart : h.reservedSectorCount + h.numFats * h.fatSize ≤ h.firstDataSector
  count : h.clusterCount + 2 ≤ fatEoc h

def stride (h : Fat) : ℕ :=
  match h.type with
  | .fat12 => 12
  | .fat16 => 16
  | .fat32 => 32

def copyBit (h : Fat) (i b : ℕ) : ℕ × ℕ :=
  (h.reservedSectorCount + i * h.fatSize + b / 4096, b % 4096)

def IsFat (h : Fat) (s : ℕ) : Prop := h.reservedSectorCount ≤ s ∧
    s < h.reservedSectorCount + h.numFats * h.fatSize

def IsMarker (h : Fat) (m : ℕ) : Prop := fatEoc h ≤ m ∧ m < fatEoc h + 8

instance (h : Fat) (s : ℕ) : Decidable (h.IsFat s) := inferInstanceAs (Decidable (_ ∧ _))
instance (h : Fat) (m : ℕ) : Decidable (h.IsMarker m) := inferInstanceAs (Decidable (_ ∧ _))

end Fat

section
variable {h : Fat} {D : Disk}

theorem Fat.width_le_stride (h : Fat) : h.width ≤ h.stride := by
  unfold Fat.width Fat.stride
  cases h.type <;> decide

theorem Fat.fatEoc_lt (h : Fat) : fatEoc h + 8 = 2 ^ h.width := by
  unfold fatEoc Fat.width
  cases h.type <;> rfl

theorem Fat.entryBit_stride (hc : c < 2 ^ h.width) : h.entryBit c = h.stride * c := by
  unfold Fat.entryBit Fat.stride Fat.nibble fatOffset Fat.width at *
  cases ht : h.type with
  | fat12 =>
    rw [ht] at hc
    dsimp only at hc ⊢
    rw [u32_of_lt (by omega)]
    split <;> simp at * <;> omega
  | fat16 =>
    rw [ht] at hc
    dsimp only at hc ⊢
    rw [u32_of_lt (by omega), if_neg (by simp)]
    omega
  | fat32 =>
    rw [ht] at hc
    dsimp only at hc ⊢
    rw [u32_of_lt (by omega), if_neg (by simp)]
    omega

theorem Fat.IsMarker.lt (hm : h.IsMarker m) : m < 2 ^ h.width := by
  rw [← h.fatEoc_lt]
  exact hm.2

theorem Fat.WellFormed.table (hf : h.WellFormed) : h.Tabled where
  sector := hf.sector
  copies := hf.copies
  room := hf.room
  region := by
    have := hf.last
    have := hf.apart
    omega
  count := by
    have := h.fatEoc_lt
    have := hf.count
    omega

theorem Fat.Tabled.lt (ht : h.Tabled) (hc : c < h.clusterCount + 2) : c < 2 ^ h.width :=
  hc.trans_le ht.count

theorem Fat.WellFormed.data_lt (hf : h.WellFormed) (hc : h.IsData c) : c < 2 ^ h.width :=
  hf.table.lt hc.2

theorem Fat.length_le_count (h : Fat) (hchain : Chains.Chain (h.next D) h.IsData first cs m)
    (hcs : cs.Nodup) :
    cs.length ≤ h.clusterCount := by
  have hsub : cs.toFinset ⊆ Finset.Ico 2 (h.clusterCount + 2) := fun c hc =>
    Finset.mem_Ico.mpr (hchain.mem (List.mem_toFinset.mp hc))
  have hcard := Finset.card_le_card hsub
  rw [List.toFinset_card_of_nodup hcs, Nat.card_Ico] at hcard
  omega

theorem Fat.WellFormed.not_data (hf : h.WellFormed) (hm : h.IsMarker m) : ¬ h.IsData m :=
  fun hd => by
  have := hf.count
  have := hd.2
  have := hm.1
  omega

-- ---------------------------------------------------------------------------
-- Slots
-- ---------------------------------------------------------------------------

theorem Fat.Tabled.slot_room (ht : h.Tabled) (hc : c < h.clusterCount + 2) (hj : j < h.width) :
    (h.stride * c + j) / 4096 < h.fatSize := by
  have hroom := ht.room
  have hle : h.stride * c ≤ h.stride * (h.clusterCount + 1) := Nat.mul_le_mul_left _ (by omega)
  rw [Fat.entryBit_stride (ht.lt (Nat.lt_succ_self _))] at hroom
  omega

theorem Fat.Tabled.copy_le (ht : h.Tabled) (hi : i < h.numFats) :
    h.reservedSectorCount + i * h.fatSize + h.fatSize ≤ h.reservedSectorCount + h.numFats *
      h.fatSize ∧
      h.reservedSectorCount + h.numFats * h.fatSize ≤ 2 ^ 32 := by
  have hle : (i + 1) * h.fatSize ≤ h.numFats * h.fatSize := Nat.mul_le_mul_right _ hi
  rw [Nat.add_mul, Nat.one_mul] at hle
  exact ⟨by omega, ht.region⟩

theorem Fat.Tabled.slot (ht : h.Tabled) (hc : c < h.clusterCount + 2) (hi : i < h.numFats)
    (hj : j < h.width) :
    h.slot i c j = h.copyBit i (h.stride * c + j) := by
  have hroom := ht.slot_room hc hj
  obtain ⟨hle, hlt⟩ := ht.copy_le hi
  rw [Fat.slot, Fat.entryBit_stride (ht.lt hc), fatSector, ht.sector,
    u32_of_lt (show i * h.fatSize < 2 ^ 32 by omega)]
  unfold maxSectorSize Fat.copyBit
  rw [Nat.div_div_eq_div_mul, u32_of_lt (by omega)]

theorem Fat.Tabled.copyBit_isFat (ht : h.Tabled) (hi : i < h.numFats) (hb : b / 4096 < h.fatSize) :
    h.IsFat (h.copyBit i b).1 := by
  obtain ⟨hle, -⟩ := ht.copy_le hi
  dsimp only [Fat.IsFat, Fat.copyBit]
  omega

theorem Fat.Tabled.slot_isFat (ht : h.Tabled) (hc : c < h.clusterCount + 2) (hi : i < h.numFats)
    (hj : j < h.width) :
    h.IsFat (h.slot i c j).1 := by
  rw [ht.slot hc hi hj]
  exact ht.copyBit_isFat hi (ht.slot_room hc hj)

theorem Fat.copyBit_inj (h : Fat) (hb : b / 4096 < h.fatSize) (hb' : b' / 4096 < h.fatSize)
    (heq : h.copyBit i b = h.copyBit i' b') :
    i = i' ∧ b = b' := by
  rw [Fat.copyBit, Fat.copyBit, Prod.mk.injEq] at heq
  obtain ⟨hsec, hbit⟩ := heq
  have hcopy : i = i' := by
    have h₁ := Nat.div_eq_of_lt_le (k := i) (m := i * h.fatSize + b / 4096) (n :=
      h.fatSize) (by omega) (by rw [Nat.succ_mul]; omega)
    have h₂ := Nat.div_eq_of_lt_le (k := i') (m := i' * h.fatSize + b' / 4096) (n :=
      h.fatSize) (by omega) (by rw [Nat.succ_mul]; omega)
    rw [← h₁, ← h₂, show i * h.fatSize + b / 4096 = i' * h.fatSize + b' / 4096 by omega]
  subst hcopy
  exact ⟨rfl, by omega⟩

theorem Fat.Tabled.slot_inj (ht : h.Tabled) (hc : c < h.clusterCount + 2)
    (hc' : c' < h.clusterCount + 2) (hi : i < h.numFats)
    (hi' : i' < h.numFats) (hj : j < h.width) (hj' : j' < h.width)
    (heq : h.slot i c j = h.slot i' c' j') : i = i' ∧ c = c' ∧ j = j' := by
  rw [ht.slot hc hi hj, ht.slot hc' hi' hj'] at heq
  obtain ⟨rfl, hsum⟩ := h.copyBit_inj (ht.slot_room hc hj) (ht.slot_room hc' hj') heq
  have hw := h.width_le_stride
  have hpos : 0 < h.stride := by omega
  have hdiv := congrArg (· / h.stride) hsum
  simp only [Nat.mul_add_div hpos, Nat.div_eq_of_lt (hj.trans_le hw),
    Nat.div_eq_of_lt (hj'.trans_le hw)] at hdiv
  have hcc : c = c' := by omega
  subst hcc
  exact ⟨rfl, rfl, by omega⟩

-- ---------------------------------------------------------------------------
-- Setting an entry
-- ---------------------------------------------------------------------------

theorem Fat.Tabled.setCopies_slot (ht : h.Tabled) (hc : c < h.clusterCount + 2) (n i : ℕ)
    (hn : i + n ≤ h.numFats) (hk : i ≤ k)
    (hk' : k < i + n) (hj : j < h.width) (v : ℕ) : (h.setCopies c v n i D).bit (h.slot k c j) =
      v.testBit j := by
  induction n generalizing i D with
  | zero => omega
  | succ n ih =>
    rw [Fat.setCopies]
    rcases hk.eq_or_lt with rfl | hlt
    · rw [Fat.setCopies_others ht.sector n (i + 1) (h.slot_lt i c j)]
      · have hs := (Fat.setCopy_setBits (D := D) ht.sector i c v).slots j (Nat.zero_le _) hj
        rwa [h.setCluster_eq (ht.lt hc)] at hs
      · intro k hk hk' j' hj' heq
        rw [h.setCluster_eq (ht.lt hc)] at heq
        have := (ht.slot_inj hc hc (by omega) (by omega) hj' hj heq).1
        omega
    · exact ih (i + 1) (by omega) (by omega) (by omega)

theorem Fat.Tabled.set_slot (ht : h.Tabled) (hc : c < h.clusterCount + 2) (hi : i < h.numFats)
    (hj : j < h.width) (v : ℕ) :
    (h.set c v D).bit (h.slot i c j) = v.testBit j :=
  ht.setCopies_slot hc _ 0 (by omega) (Nat.zero_le _) (by omega) hj v

theorem Fat.Tabled.set_others (ht : h.Tabled) (hc : c < h.clusterCount + 2) (hx : x.2 < 4096)
    (hne : ∀ i < h.numFats, ∀ j < h.width, h.slot i c j ≠ x) (v : ℕ) :
    (h.set c v D).bit x = D.bit x := by
  refine Fat.set_others ht.sector hx ?_
  rwa [h.setCluster_eq (ht.lt hc)]

theorem Fat.Tabled.next_set_self (ht : h.Tabled) (hc : c < h.clusterCount + 2)
    (hv : v < 2 ^ h.width) : h.next (h.set c v D) c = v :=
  (Fat.next_eq_iff ht.sector hv).mpr fun _ hj => ht.set_slot hc ht.copies hj v

theorem Fat.Tabled.next_set_of_ne (ht : h.Tabled) (hc : c < h.clusterCount + 2)
    (hc' : c' < h.clusterCount + 2) (hne : c ≠ c') (v : ℕ) :
    h.next (h.set c v D) c' = h.next D c' := by
  refine (Fat.next_eq_iff ht.sector (h.next_lt ht.sector D c')).mpr fun j hj => ?_
  rw [ht.set_others hc (h.slot_lt 0 c' j) fun i hi j' hj' heq =>
      hne (ht.slot_inj hc hc' hi ht.copies hj' hj heq).2.1,
    Fat.next_testBit ht.sector, decide_eq_true hj, Bool.true_and]

theorem Sector.ext_bit {b b' : Sector}
    (hb : ∀ k < 4096, ByteMem.bit b.mem k = ByteMem.bit b'.mem k) : b = b' := by
  funext i
  have hi : i.val < 512 := i.isLt
  refine UInt8.toNat_inj.mp (Nat.eq_of_testBit_eq fun j => ?_)
  by_cases hj : j < 8
  · have hbit := hb (8 * i.val + j) (by omega)
    have hmem (b : Sector) : b.mem i.val = b i := dif_pos i.isLt
    rwa [ByteMem.bit, ByteMem.bit, show (8 * i.val + j) / 8 = i.val by omega,
      show (8 * i.val + j) % 8 = j by omega, hmem, hmem] at hbit
  · have hlt (b : UInt8) : b.toNat < 2 ^ j :=
        b.toNat_lt.trans_le (Nat.pow_le_pow_right (by decide) (by omega))
    rw [Nat.testBit_lt_two_pow (hlt _), Nat.testBit_lt_two_pow (hlt _)]

theorem Fat.Tabled.set_outside (ht : h.Tabled) (hc : c < h.clusterCount + 2) (hs : ¬ h.IsFat s)
    (v : ℕ) : h.set c v D s = D s := by
  refine Sector.ext_bit fun k hk => ?_
  refine ht.set_others (x := (s, k)) hc hk (fun i hi j hj heq => hs ?_) v
  have := ht.slot_isFat hc hi hj
  rwa [heq] at this

end

theorem fourClusters_wellFormed : fourClusters.WellFormed :=
  { sector := rfl, cluster := by decide, last := by decide, copies := by decide, room := by decide,
    apart := by decide, count := by decide }

end SkyOS
