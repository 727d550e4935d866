import SkyOS.Fs.Found
import SkyOS.Fs.Storing

/-!
# Records kept up to date

`fat_file_sync` sets three fields of the record of a file. The rest of the disk keeps its
bytes, and the record is then that of a file with the size and the first cluster of the
handle.
-/

namespace SkyOS

open ByteMem WriteBack

section
variable {D D' : Disk} {f h : Handle}

theorem Sector.mem_put (b : Sector) (o n v : ℕ) (hi : i < maxSectorSize) :
    (b.put o n v).mem i = writeLE b.mem o n v i := by
  rw [Sector.mem, dif_pos hi]
  rfl

theorem Handle.grown_eq (hrecord : h.direntSector ≠ 0) :
    h.grown = { h with size := max h.size h.position } := by
  by_cases hg : h.Grown
  · rw [Handle.grown, if_pos hg, Nat.max_eq_right (show h.size ≤ h.position from hg.2.le)]
  · rw [Handle.grown, if_neg hg, Nat.max_eq_left (not_lt.mp fun hlt => hg ⟨hrecord, hlt⟩)]

-- ---------------------------------------------------------------------------
-- What keeps its bytes
-- ---------------------------------------------------------------------------

theorem Handle.synced_other (h : Handle) (D : Disk) (hx : x ≠ h.direntSector) :
    h.synced D x = D x :=
  Function.update_of_ne hx _ _

theorem Handle.synced_byte (h : Handle) (D : Disk) (hi : i < maxSectorSize)
    (hout : i < h.direntOffset ∨ h.direntOffset + direntSize ≤ i) :
    (h.synced D h.direntSector).mem i = (D h.direntSector).mem i := by
  unfold direntSize at hout
  unfold Handle.synced Disk.edit
  rw [Function.update_self, Sector.mem_put _ _ _ _ hi, writeLE_apply_of_not_mem (by omega),
      Sector.mem_put _ _ _ _ hi,
    writeLE_apply_of_not_mem (by omega), Sector.mem_put _ _ _ _ hi,
      writeLE_apply_of_not_mem (by omega)]

theorem Handle.recorded_other (h : Handle) (D : Disk) (hx : x ≠ h.direntSector) :
    h.recorded D x = D x := by
  have hplace : h.grown.direntSector = h.direntSector := by
    unfold Handle.grown
    split <;> rfl
  unfold Handle.recorded
  split
  · exact h.grown.synced_other D (hplace ▸ hx)
  · rfl

theorem Handle.recorded_record (h : Handle) (D : Disk) (ho : o + direntSize ≤ maxSectorSize)
    (hout : s = h.direntSector → o + direntSize ≤ h.direntOffset ∨ h.direntOffset + direntSize ≤ o)
    (hi : i < direntSize) :
    (h.recorded D).record s o i = D.record s o i := by
  have hplace : h.grown.direntSector = h.direntSector ∧ h.grown.direntOffset = h.direntOffset := by
    unfold Handle.grown
    split <;> exact ⟨rfl, rfl⟩
  by_cases hs : s = h.direntSector
  · have hout := hout hs
    unfold Handle.recorded
    split
    · rw [Disk.record, Disk.record, hs, ← hplace.1]
      refine h.grown.synced_byte D (by omega) ?_
      rw [hplace.2]
      omega
    · rfl
  · rw [Disk.record, Disk.record, h.recorded_other D hs]

-- ---------------------------------------------------------------------------
-- The record
-- ---------------------------------------------------------------------------

theorem Handle.synced_record (h : Handle) (D : Disk)
    (ho : h.direntOffset + direntSize ≤ maxSectorSize) (hi : i < direntSize) :
    (h.synced D).record h.direntSector h.direntOffset i =
      writeLE (writeLE (writeLE (D.record h.direntSector h.direntOffset)
      28 4 h.size) 20 2 (h.firstCluster >>> 16)) 26 2 (h.firstCluster &&& 0xFFFF) i := by
  have hlt : h.direntOffset + i < maxSectorSize := by omega
  have hin (a n : ℕ) : h.direntOffset + a ≤ h.direntOffset + i ∧
    h.direntOffset + i < h.direntOffset + a + n ↔ a ≤ i ∧ i < a + n := by omega
  unfold Handle.synced Disk.edit Disk.record
  rw [Function.update_self, Sector.mem_put _ _ _ _ hlt]
  unfold writeLE
  simp only [hin, Nat.add_sub_add_left]
  rw [Sector.mem_put _ _ _ _ hlt]
  unfold writeLE
  simp only [hin, Nat.add_sub_add_left]
  rw [Sector.mem_put _ _ _ _ hlt]
  unfold writeLE
  simp only [hin, Nat.add_sub_add_left]

theorem halves_eq (n : ℕ) : n >>> 16 <<< 16 ||| n &&& 0xFFFF = n := by
  refine Nat.eq_of_testBit_eq fun j => ?_
  rw [show (0xFFFF : ℕ) = 2 ^ 16 - 1 from rfl, Nat.testBit_or, Nat.testBit_and,
      Nat.testBit_two_pow_sub_one, Nat.testBit_shiftLeft,
    Nat.testBit_shiftRight]
  by_cases hj : 16 ≤ j
  · simp [hj, Nat.add_sub_cancel' hj, Nat.not_lt.mpr hj]
  · simp [hj, Nat.lt_of_not_le hj]

theorem Found.synced (hf : Found D f)
    (hplace : f.direntSector = h.direntSector ∧ f.direntOffset = h.direntOffset)
    (ho : h.direntOffset + direntSize ≤ maxSectorSize) (hsize : h.size < 2 ^ 32)
    (hfirst : h.firstCluster < 2 ^ 32)
    (hroot : h.rootFlag = false) : Found (h.synced D) h.fresh := by
  obtain ⟨haligned, hinside, hattr, -, -, -⟩ := hf
  rw [hplace.1, hplace.2] at hattr
  rw [hplace.2] at haligned hinside
  have hread (a n : ℕ) (hn : a + n ≤ direntSize) :
      readLE ((h.synced D).record h.direntSector h.direntOffset) a n =
      readLE (writeLE (writeLE (writeLE (D.record h.direntSector h.direntOffset) 28 4 h.size) 20 2
          (h.firstCluster >>> 16)) 26 2
        (h.firstCluster &&& 0xFFFF)) a n :=
    readLE_congr fun i hi => h.synced_record D ho (by omega)
  have hhigh : h.firstCluster >>> 16 < 256 ^ 2 := by
    rw [Nat.shiftRight_eq_div_pow]
    omega
  have hlow : h.firstCluster &&& 0xFFFF < 256 ^ 2 := (Nat.and_le_right).trans_lt (by decide)
  constructor
  case aligned => exact haligned
  case inside => exact hinside
  case attr =>
    change (h.synced D).record h.direntSector h.direntOffset 11 &&& _ = 0
    rw [h.synced_record D ho (by decide), writeLE_apply_of_not_mem (by omega),
        writeLE_apply_of_not_mem (by omega),
      writeLE_apply_of_not_mem (by omega)]
    exact hattr
  case size =>
    change h.size = readLE ((h.synced D).record h.direntSector h.direntOffset) 28 4
    rw [hread 28 4 (by decide), readLE_writeLE_apart _ _ (by omega),
      readLE_writeLE_apart _ _ (by omega), readLE_writeLE _ _ hsize]
  case first =>
    change h.firstCluster = readLE ((h.synced D).record h.direntSector h.direntOffset) 20
        2 <<< 16 |||
      readLE ((h.synced D).record h.direntSector h.direntOffset) 26 2
    rw [hread 20 2 (by decide), hread 26 2 (by decide), readLE_writeLE _ _ hlow,
        readLE_writeLE_apart _ _ (by omega),
      readLE_writeLE _ _ hhigh, halves_eq]
  case start => exact ⟨rfl, rfl, hroot⟩

theorem Found.congr (hf : Found D f)
    (hD : ∀ i < direntSize, D'.record f.direntSector f.direntOffset i = D.record f.direntSector
      f.direntOffset i) :
    Found D' f := by
  have hread (a n : ℕ) (hn : a + n ≤ direntSize) :
      readLE (D'.record f.direntSector f.direntOffset) a n =
      readLE (D.record f.direntSector f.direntOffset) a n := readLE_congr fun i hi =>
        hD _ (by omega)
  refine ⟨hf.aligned, hf.inside, ?_, ?_, ?_, hf.start⟩
  · rw [entryAttr, hD 11 (by decide)]
    exact hf.attr
  · rw [hread 28 4 (by decide)]
    exact hf.size
  · rw [hread 20 2 (by decide), hread 26 2 (by decide)]
    exact hf.first

end

end SkyOS
