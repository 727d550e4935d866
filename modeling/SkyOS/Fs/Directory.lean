import SkyOS.Fs.Layout
import SkyOS.Fs.Rounds

/-!
# The records of a directory

A record is inside a sector, so `fat_read` takes it from one sector, and looks up the next
cluster when it was the last one of a cluster. Positions are `uint32`s, and the place in a
cluster is taken from the position.
-/

namespace SkyOS

open ByteMem WriteBack Chains

def Fat.chainSectors (fat : Fat) (cs : List ℕ) : Set ℕ :=
  {s | (∃ c ∈ cs, (c - 2) * fat.sectorsPerCluster + fat.firstDataSector ≤ s ∧
    s < (c - 2) * fat.sectorsPerCluster + fat.firstDataSector + fat.sectorsPerCluster) ∨
      fat.IsFat s}

def Handle.past (h : Handle) (fat : Fat) (D : Disk) : Handle :=
  { h with
    position := u32 (h.position + direntSize)
    curCluster := if (h.position + direntSize) % maxSectorSize = 0 ∧
        u32 (fat.sectorAt h + 1) % fat.sectorsPerCluster =
          fat.firstDataSector % fat.sectorsPerCluster then
      fat.next D h.curCluster else h.curCluster }

section
variable {S : Set ℕ} {fat : Fat} {D : Disk} {h : Handle}

theorem Fat.WellFormed.next_gives (hf : fat.WellFormed) (hc : fat.IsData c)
    (hS : ∀ s, fat.IsFat s → s ∈ S) :
    Gives S (On D) (fatGetNextCluster fat c) (fat.next D c) (On D) := by
  have hfirst :=
    hf.table.slot_isFat hc.2 hf.copies
    (show 0 < fat.width by unfold Fat.width; cases fat.type <;> decide)
  have hnibble : fat.nibble c ≤ 4 := by
    unfold Fat.nibble
    split <;> omega
  rw [Fat.slot, Fat.entryBit, fatSector, Nat.zero_mul,
    show (8 * fatOffset fat c + fat.nibble c + 0) / 8 = fatOffset fat c by omega] at hfirst
  refine fatGetNextCluster_asks hf.sector (hS _ hfirst) fun ht hlast => hS _ ?_
  -- the last bit of the entry is in the sector after
  have hover :=
    hf.table.slot_isFat hc.2 hf.copies (show 11 < fat.width by rw [Fat.width, ht]; decide)
  have hbyte : (8 * fatOffset fat c + fat.nibble c + 11) / 8 = fatOffset fat c + 1 := by
    have : fat.nibble c = 0 ∨ fat.nibble c = 4 := by
      unfold Fat.nibble
      split <;> simp
    omega
  have hsector : u32 (fat.entrySector c + 1) =
      u32 (fat.reservedSectorCount + u32 0 + (fatOffset fat c + 1) / fat.bytesPerSector) := by
    rw [hf.sector] at hlast
    rw [Fat.entrySector, hf.sector]
    unfold u32 maxSectorSize at *
    omega
  rwa [Fat.slot, Fat.entryBit, fatSector, Nat.zero_mul, hbyte, ← hsector] at hover

theorem fatRead_past (hb : fat.bytesPerSector = maxSectorSize) (hs : 0 < fat.sectorsPerCluster)
    (hroot : h.rootFlag = false)
    (hsize : h.size = 0) (hpos : h.position % direntSize = 0) (hsec : fat.sectorAt h ∈ S)
    (hnext : Gives S (On D) (fatGetNextCluster fat h.curCluster) (fat.next D h.curCluster) (On D)) :
    Gives S (On D) (fatRead fat h direntSize)
      ((List.range direntSize).map fun i =>
        (D (fat.sectorAt h)).mem (h.position % maxSectorSize + i), h.past fat D) (On D) := by
  have hoff : h.position % maxSectorSize + direntSize ≤ maxSectorSize := by
    unfold direntSize maxSectorSize at *
    omega
  have hchunk : min (fat.bytesPerSector - h.position % fat.bytesPerSector) direntSize =
      direntSize := by
    rw [hb]
    omega
  have hpast : u32 (h.position + direntSize) % fat.bytesPerSector =
      (h.position + direntSize) % maxSectorSize := by
    rw [hb]
    unfold u32 maxSectorSize
    omega
  refine (fatFileSectorOffset_at hb hs.ne' h).bind ?_
  dsimp only
  rw [if_neg (by simp [hsize]), show (direntSize : ℤ).toNat = 31 + 1 from rfl]
  unfold fatReadLoop
  rw [if_neg (Nat.succ_ne_zero _), show 31 + 1 = direntSize from rfl, hchunk]
  refine (gives_get hsec).bind <| (gives_readBuf _ (by rw [hb]; exact hoff)).bind ?_
  dsimp only
  rw [hpast, hb]
  unfold Handle.past
  by_cases hin : (h.position + direntSize) % maxSectorSize ≠ 0
  · rw [if_pos hin, if_neg fun hend => hin hend.1]
    exact Gives.pure _ fun _ h => h.toOn
  rw [if_neg hin, Nat.sub_self]
  by_cases hend : u32 (fat.sectorAt h + 1) % fat.sectorsPerCluster =
    fat.firstDataSector % fat.sectorsPerCluster
  · rw [if_pos ⟨by simp [hroot], hend⟩, if_pos ⟨not_not.mp hin, hend⟩]
    refine (hnext.pre fun _ h => h.toOn).bind ?_
    split
    · exact Gives.pure _ fun _ => id
    · refine (Gives.pure ([], _) fun _ => id).bind ?_
      rw [List.append_nil]
      exact Gives.pure _ fun _ => id
  · rw [if_neg fun h => hend h.2, if_neg fun h => hend h.2]
    refine (Gives.pure ([], _) fun _ h => h.toOn).bind ?_
    rw [List.append_nil]
    exact Gives.pure _ fun _ => id

-- ---------------------------------------------------------------------------
-- The chain
-- ---------------------------------------------------------------------------

def Handle.record (h : Handle) (fat : Fat) (D : Disk) (k : ℕ) : List UInt8 :=
  h.bytes fat D (direntSize * k) direntSize

def Handle.nth (h : Handle) (fat : Fat) (D : Disk) (k : ℕ) : Handle :=
  { h with
    position := u32 (direntSize * k)
    curCluster := fat.cluster D h.firstCluster (k / 16 / fat.sectorsPerCluster) }

/-- The place in a cluster that `position` says is that of record `k`. -/
def Fat.InStep (fat : Fat) (k : ℕ) : Prop := fat.sectorsPerCluster ∣ 2 ^ 23 ∨ k < 2 ^ 27

def Fat.recordCount (fat : Fat) (cs : List ℕ) : ℕ := cs.length * fat.sectorsPerCluster * 16

/-- A directory in the clusters `cs`, from its start. -/
structure Fat.Directory (fat : Fat) (D : Disk) (h : Handle) (cs : List ℕ) : Prop where
  root : h.rootFlag = false
  size : h.size = 0
  start : h.fresh = h
  nonempty : cs ≠ []
  chain : Chain (fat.next D) fat.IsData h.firstCluster cs (fatEoc fat)

theorem Fat.InStep.phase (hk : fat.InStep k) :
    u32 (direntSize * k) / maxSectorSize % fat.sectorsPerCluster =
      k / 16 % fat.sectorsPerCluster := by
  have hdiv : u32 (direntSize * k) / maxSectorSize = k / 16 % 2 ^ 23 := by
    unfold u32 direntSize maxSectorSize
    omega
  rw [hdiv]
  rcases hk with hdvd | hlt
  · exact Nat.mod_mod_of_dvd _ hdvd
  · rw [Nat.mod_eq_of_lt (show k / 16 < 2 ^ 23 by omega)]

theorem Fat.Directory.nth_zero (hd : fat.Directory D h cs) : h.nth fat D 0 = h := by
  have := hd.start
  unfold Handle.fresh at this
  unfold Handle.nth
  rw [Nat.zero_div]
  exact this

theorem Fat.Directory.data (hd : fat.Directory D h cs) (hi : i < cs.length) :
    fat.cluster D h.firstCluster i ∈ cs ∧
    fat.IsData (fat.cluster D h.firstCluster i) := by
  have hget : cs[i] = fat.cluster D h.firstCluster i := hd.chain.get hi
  exact hget ▸ ⟨List.getElem_mem hi, hd.chain.mem (List.getElem_mem hi)⟩

theorem Fat.Directory.nth_end (hd : fat.Directory D h cs) (hs : 0 < fat.sectorsPerCluster) :
    (h.nth fat D (fat.recordCount cs)).curCluster = fatEoc fat := by
  change fat.cluster D h.firstCluster _ = _
  rw [Fat.recordCount, Nat.mul_div_cancel _ (by decide), Nat.mul_div_cancel _ hs]
  exact hd.chain.iterate

theorem Fat.Directory.sectorAt (hd : fat.Directory D h cs) (hf : fat.WellFormed)
    (hk : k < fat.recordCount cs) (hin : fat.InStep k) :
    fat.sectorAt (h.nth fat D k) = h.sectorOf fat D (direntSize * k) ∧
      h.sectorOf fat D (direntSize * k) + 1 < 2 ^ 32 ∧
      h.sectorOf fat D (direntSize * k) =
      (fat.cluster D h.firstCluster (k / 16 / fat.sectorsPerCluster) - 2) * fat.sectorsPerCluster +
        fat.firstDataSector + k / 16 % fat.sectorsPerCluster ∧ k / 16 / fat.sectorsPerCluster <
          cs.length := by
  have hi : k / 16 / fat.sectorsPerCluster < cs.length := by
    rw [Nat.div_lt_iff_lt_mul hf.cluster, Nat.div_lt_iff_lt_mul (by decide)]
    exact hk
  obtain ⟨hfirst, hlt⟩ := hf.firstSector (hd.data hi).2
  have hmod := Nat.mod_lt (k / 16) hf.cluster
  have hof : h.sectorOf fat D (direntSize * k) =
      (fat.cluster D h.firstCluster (k / 16 / fat.sectorsPerCluster) - 2) *
      fat.sectorsPerCluster + fat.firstDataSector + k / 16 % fat.sectorsPerCluster := by
    rw [Handle.sectorOf, hf.sector,
      show direntSize * k / maxSectorSize = k / 16 by unfold direntSize maxSectorSize; omega]
    rw [if_neg (by simp [hd.root])]
  refine ⟨?_, by omega, hof, hi⟩
  have hphase := hin.phase
  rw [Fat.sectorAt, if_neg (by simp [Handle.nth, hd.root]), hf.sector, Handle.nth]
  dsimp only
  rw [hphase, hfirst, hof, u32_of_lt (by omega)]

theorem Fat.Directory.past_nth (hd : fat.Directory D h cs) (hf : fat.WellFormed)
    (hk : k < fat.recordCount cs) (hin : fat.InStep k) :
    (h.nth fat D k).past fat D = h.nth fat D (k + 1) := by
  obtain ⟨hat, hlt, hof, -⟩ := hd.sectorAt hf hk hin
  have hpos : u32 (u32 (direntSize * k) + direntSize) = u32 (direntSize * (k + 1)) := by
    unfold u32
    rw [Nat.mod_add_mod, Nat.mul_succ]
  have hlast : (u32 (direntSize * k) + direntSize) % maxSectorSize = 0 ↔ (k + 1) % 16 = 0 := by
    unfold u32 direntSize maxSectorSize
    omega
  have hbound : u32 (h.sectorOf fat D (direntSize * k) + 1) % fat.sectorsPerCluster =
      fat.firstDataSector % fat.sectorsPerCluster ↔
      (k / 16 % fat.sectorsPerCluster + 1) % fat.sectorsPerCluster = 0 := by
    rw [u32_of_lt hlt, hof, Nat.add_assoc, sector_mod]
  unfold Handle.past
  rw [hat]
  unfold Handle.nth
  dsimp only
  rw [hpos]
  congr 1
  by_cases hsec : (k + 1) % 16 = 0
  · rw [show (k + 1) / 16 = k / 16 + 1 by omega]
    rcases next_sector hf.cluster (k / 16) with ⟨hmod, hdiv, -⟩ | ⟨hmod, hdiv, -⟩
    · rw [if_pos ⟨hlast.mpr hsec, hbound.mpr (by rw [hmod, Nat.mod_self])⟩, hdiv, Fat.cluster_succ]
    · rw [if_neg fun h => by have := hbound.mp h.2; rw [Nat.mod_eq_of_lt hmod] at this; omega, hdiv]
  · rw [if_neg fun h => hsec (hlast.mp h.1), show (k + 1) / 16 = k / 16 by omega]

theorem Fat.Directory.read (hd : fat.Directory D h cs) (hf : fat.WellFormed)
    (hk : k < fat.recordCount cs) (hin : fat.InStep k)
    (hS : fat.chainSectors cs ⊆ S) :
    Gives S (On D) (fatRead fat (h.nth fat D k) direntSize) (h.record fat D k, h.nth fat D (k + 1))
    (On D) := by
  obtain ⟨hat, hlt, hof, hi⟩ := hd.sectorAt hf hk hin
  obtain ⟨hmem, hdata⟩ := hd.data hi
  have hmod := Nat.mod_lt (k / 16) hf.cluster
  have hsec : fat.sectorAt (h.nth fat D k) ∈ S := hS (.inl ⟨_, hmem, by omega, by omega⟩)
  have hpos : (h.nth fat D k).position % direntSize = 0 := by
    unfold Handle.nth u32 direntSize
    dsimp only
    omega
  have hread :=
      fatRead_past (D := D) hf.sector hf.cluster (show (h.nth fat D k).rootFlag = false from
      hd.root) hd.size hpos hsec
    (hf.next_gives hdata fun s hs => hS (.inr hs))
  rw [hd.past_nth hf hk hin, hat] at hread
  have hoff : (h.nth fat D k).position % maxSectorSize = direntSize * k % fat.bytesPerSector := by
    rw [hf.sector]
    unfold Handle.nth u32 direntSize maxSectorSize
    dsimp only
    omega
  rw [hoff, Handle.bytes_sector hf.sector (by unfold direntSize maxSectorSize; omega)] at hread
  exact hread

end

end SkyOS
