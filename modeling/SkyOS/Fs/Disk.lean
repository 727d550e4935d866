import SkyOS.Fs.Ops
import SkyOS.Lib.Steps

/-!
# The FAT on a disk

What `_fat_get_next_cluster` finds on a disk, and the chain of clusters that it
leads along.
-/

namespace SkyOS

open ByteMem WriteBack

abbrev Disk := ℕ → Sector

-- ---------------------------------------------------------------------------
-- The buffer
-- ---------------------------------------------------------------------------

def Sector.put (b : Sector) (off n v : ℕ) : Sector := .ofMem (writeLE b.mem off n v)

def Sector.fill (b : Sector) (off n : ℕ) (src : ℕ → UInt8) : Sector := fun i =>
  if off ≤ i.val ∧ i.val < off + n then src (i.val - off) else b i

section
variable {S : Set ℕ} {P : Cached Sector → Prop} {D : Disk} {b : Sector}

theorem gives_inBuf (h : off + n ≤ maxSectorSize) : Gives S P (inBuf off n) () P := by
  rw [inBuf, if_pos h]
  exact .pure () fun _ => id

theorem gives_nonzero (h : n ≠ 0) : Gives S P (nonzero n) () P := by
  rw [nonzero, if_neg h]
  exact .pure () fun _ => id

theorem gives_getLe (s : ℕ) (h : off + n ≤ maxSectorSize) :
    Gives S (At s D) (getLe off n) (readLE (D s).mem off n) (At s D) :=
  (gives_inBuf h).bind <| (gives_load s).bind <| Gives.pure _ fun _ => id

theorem gives_putLe (h : off + n ≤ maxSectorSize) (v : ℕ) :
    Gives S (Editing s D b) (putLe off n v) () (Editing s D (b.put off n v)) :=
  (gives_inBuf h).bind <| gives_loadEdited.bind <| gives_store _

theorem gives_readBuf (s : ℕ) (h : off + n ≤ maxSectorSize) :
    Gives S (At s D) (readBuf off n) ((List.range n).map fun i => (D s).mem (off + i)) (At s D) :=
  (gives_inBuf h).bind <| (gives_load s).bind <| Gives.pure _ fun _ => id

theorem gives_writeBuf (h : off + n ≤ maxSectorSize) (src : ℕ → UInt8) :
    Gives S (Editing s D b) (writeBuf off n src) () (Editing s D (b.fill off n src)) :=
  (gives_inBuf h).bind <| gives_loadEdited.bind <| gives_store _

theorem gives_writeSpare (h : off + n ≤ maxSectorSize) (src : ℕ → UInt8) :
    Gives S (Spare D b) (writeBuf off n src) () (Spare D (b.fill off n src)) :=
  (gives_inBuf h).bind <| gives_loadSpare.bind <| gives_storeSpare _

end

-- ---------------------------------------------------------------------------
-- Entries of the FAT
-- ---------------------------------------------------------------------------

namespace Fat

/-- The sector of the first FAT that the entry of `cluster` begins in. -/
def entrySector (h : Fat) (cluster : ℕ) : ℕ :=
  u32 (h.reservedSectorCount + fatOffset h cluster / h.bytesPerSector)

def raw12 (h : Fat) (D : Disk) (sector offset : ℕ) : ℕ :=
  if offset = h.bytesPerSector - 1 then
    readLE (D sector).mem offset 1 + readLE (D (u32 (sector + 1))).mem 0 1 <<< 8
  else readLE (D sector).mem offset 2

def next (h : Fat) (D : Disk) (cluster : ℕ) : ℕ :=
  let sector := h.entrySector cluster
  let offset := fatOffset h cluster % h.bytesPerSector
  match h.type with
  | .fat12 =>
    if cluster &&& 1 ≠ 0 then h.raw12 D sector offset >>> 4 else h.raw12 D sector offset &&& 0xFFF
  | .fat16 => readLE (D sector).mem offset 2
  | .fat32 => readLE (D sector).mem offset 4 &&& 0x0FFFFFFF

def entrySectors (h : Fat) (cluster : ℕ) : Set ℕ :=
  {h.entrySector cluster, u32 (h.entrySector cluster + 1)}

def IsData (h : Fat) (c : ℕ) : Prop := 2 ≤ c ∧ c < h.clusterCount + 2

instance (h : Fat) (c : ℕ) : Decidable (h.IsData c) := inferInstanceAs (Decidable (_ ∧ _))

def cluster (h : Fat) (D : Disk) (first i : ℕ) : ℕ := (h.next D)^[i] first

theorem cluster_succ (h : Fat) (D : Disk) (first i : ℕ) :
    h.cluster D first (i + 1) = h.next D (h.cluster D first i) := Function.iterate_succ_apply' _ _ _

end Fat

section
variable {S : Set ℕ} {fat : Fat} {D : Disk}

theorem fatOffset_even (h : fat.type = .fat16) (c : ℕ) : 2 ∣ fatOffset fat c := by
  simp only [fatOffset, h, u32]
  omega

theorem fatOffset_quad (h : fat.type = .fat32) (c : ℕ) : 4 ∣ fatOffset fat c := by
  simp only [fatOffset, h, u32]
  omega

theorem getFat12_gives (hb : fat.bytesPerSector = maxSectorSize) (ho : offset < maxSectorSize)
    (hS : offset = maxSectorSize - 1 → u32 (sector + 1) ∈ S) :
    Gives S (At sector D) (getFat12 fat sector offset) (fat.raw12 D sector offset) (On D) := by
  unfold getFat12 Fat.raw12
  split
  · rename_i hlast
    rw [hb] at hlast
    refine (gives_getLe sector (by omega)).bind <|
      ((gives_get (hS hlast)).pre fun _ h => h.toOn).bind ?_
    exact (gives_getLe _ (by decide)).bind <| Gives.pure _ fun _ h => h.toOn
  · -- both bytes are in this sector
    refine (gives_getLe sector ?_).post fun _ h => h.toOn
    rw [hb] at *
    omega

/-- Where the second sector is asked for only if the entry is over the boundary. -/
theorem fatGetNextCluster_asks (hb : fat.bytesPerSector = maxSectorSize)
    (hS : fat.entrySector c ∈ S)
    (hover : fat.type = .fat12 → fatOffset fat c % fat.bytesPerSector = maxSectorSize - 1 →
      u32 (fat.entrySector c + 1) ∈ S) :
    Gives S (On D) (fatGetNextCluster fat c) (fat.next D c) (On D) := by
  have hoff : fatOffset fat c % fat.bytesPerSector < maxSectorSize := by
    rw [hb]
    exact Nat.mod_lt _ (by decide)
  refine (gives_nonzero (by rw [hb]; decide)).bind <| (gives_get hS).bind ?_
  unfold Fat.next
  cases ht : fat.type with
  | fat12 =>
    refine (getFat12_gives hb hoff (hover ht)).bind ?_
    dsimp only [Fat.entrySector]
    split <;> exact Gives.pure _ fun _ => id
  | fat16 =>
    have h2 := fatOffset_even ht c
    refine (gives_getLe _ ?_).post fun _ h => h.toOn
    rw [hb] at *
    unfold maxSectorSize at *
    omega
  | fat32 =>
    have h4 := fatOffset_quad ht c
    refine (gives_getLe _ ?_).bind <| Gives.pure _ fun _ h => h.toOn
    rw [hb] at *
    unfold maxSectorSize at *
    omega

theorem fatGetNextCluster_gives (hb : fat.bytesPerSector = maxSectorSize)
    (hS : fat.entrySectors c ⊆ S) :
    Gives S (On D) (fatGetNextCluster fat c) (fat.next D c) (On D) :=
  fatGetNextCluster_asks hb (hS (.inl rfl)) fun _ _ => hS (.inr rfl)

theorem followChain_gives (hb : fat.bytesPerSector = maxSectorSize) (n first : ℕ) :
    Gives .univ (On D) (followChain fat n first) (fat.cluster D first n) (On D) := by
  induction n generalizing first with
  | zero => exact .pure _ fun _ => id
  | succ n ih => exact (fatGetNextCluster_gives hb (Set.subset_univ _)).bind (ih _)

end

def Fat.sectorAt (fat : Fat) (h : Handle) : ℕ :=
  if h.rootFlag then u32 (h.curCluster + h.position / fat.bytesPerSector)
  else u32 (fatFirstSectorOfCluster fat h.curCluster +
    h.position / fat.bytesPerSector % fat.sectorsPerCluster)

theorem fatFileSectorOffset_at {S : Set ℕ} {P : Cached Sector → Prop} {fat : Fat}
    (hb : fat.bytesPerSector = maxSectorSize)
    (hs : fat.sectorsPerCluster ≠ 0) (h : Handle) :
    Gives S P (fatFileSectorOffset fat h) (fat.sectorAt h, h.position % fat.bytesPerSector) P := by
  refine (gives_nonzero (by rw [hb]; decide)).bind ?_
  unfold Fat.sectorAt
  dsimp only
  by_cases hroot : h.rootFlag = true
  · rw [if_pos hroot, if_pos hroot]
    exact Gives.pure _ fun _ => id
  · rw [if_neg hroot, if_neg hroot]
    exact (gives_nonzero hs).bind <| Gives.pure _ fun _ => id

theorem coldCache_on (D : Disk) : On D (coldCache D) := ⟨rfl, nofun, nofun⟩

def fourClusters : Fat := ⟨.fat12, 512, 1, 1, 1, 3, 4, 1, 0, 2⟩

end SkyOS
