import SkyOS.Fs.Found
import SkyOS.Fs.Listing
import SkyOS.Fs.Write

/-!
# Names that are refused

`fat_create` and `fat_mkdir` look names up before they write anything. If the name is there,
or every short name for it is, or a root directory of fixed size is full, they return with the
disk as it was. Later there is no way back: what is written of an entry stays.
-/

namespace SkyOS

open ByteMem WriteBack

section
variable {fat : Fat} {D : Disk} {vol : Vol} {name : CStr} {c : Cached Sector}

-- ---------------------------------------------------------------------------
-- Looking up
-- ---------------------------------------------------------------------------

theorem fatWrite_full {h : Handle} (hb : fat.bytesPerSector = maxSectorSize)
    (hs : fat.sectorsPerCluster ≠ 0) (hroot : h.rootFlag = true)
    (hcur : h.curCluster ≠ 0) (hend : h.position = h.size) (hsize : h.size < 2 ^ 31) (b : ℕ →
      UInt8) :
    Gives .univ (On D) (fatWrite fat h b direntSize) (0, fat, h) (On D) := by
  have hover : h.rootFlag = true ∧ u32 (h.position + u32OfInt direntSize) > h.size := by
    refine ⟨hroot, ?_⟩
    rw [show u32OfInt direntSize = 32 from rfl, u32_of_lt (by omega)]
    omega
  have hnone : intOfU32 (u32Sub h.size h.position) = 0 := by
    have hzero : u32Sub h.size h.position = 0 := by
      unfold u32Sub
      omega
    rw [hzero]
    rfl
  unfold fatWrite fatFirstAlloc
  rw [if_neg fun h => hcur h.1, Prog.pure_bind]
  dsimp only
  refine (fatFileSectorOffset_at hb hs h).bind ?_
  rw [if_pos hover, hnone]
  dsimp only [Int.toNat_zero, fatWriteLoop]
  rw [Prog.pure_bind]
  dsimp only
  rw [if_neg (by omega)]
  exact Gives.pure _ fun _ => id

end

-- ---------------------------------------------------------------------------
-- A volume without a free cluster
-- ---------------------------------------------------------------------------

end SkyOS
