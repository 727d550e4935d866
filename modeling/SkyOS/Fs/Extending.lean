import SkyOS.Fs.Alloc
import SkyOS.Fs.Layout
import SkyOS.Fs.Transparency

/-!
# Extending a chain

`fat_alloc_next_cluster` makes a free cluster the end of a chain and links the old end to
it. It may clear the new cluster behind the back of the cache, with the buffer still tagged
with a sector of the FAT.
-/

namespace SkyOS

open ByteMem WriteBack

namespace Fat

def table (h : Fat) : Set ℕ := { s | h.IsFat s }

def InCluster (h : Fat) (c s : ℕ) : Prop :=
  fatFirstSectorOfCluster h c ≤ s ∧ s < fatFirstSectorOfCluster h c + h.sectorsPerCluster

instance (h : Fat) (c s : ℕ) : Decidable (h.InCluster c s) := inferInstanceAs (Decidable (_ ∧ _))

def clusterByte (h : Fat) (D : Disk) (c y : ℕ) : UInt8 :=
  (D (fatFirstSectorOfCluster h c + y / maxSectorSize)).mem (y % maxSectorSize)

def hint (h : Fat) (c : ℕ) : Fat := { h with lastClusterAlloc := c }

/-- Where a search may begin: from 2 on, it is where a free cluster was found. -/
def Hinted (h : Fat) : Prop := 2 ≤ h.lastClusterAlloc ∧ h.lastClusterAlloc ≤ max 2 h.clusterCount

def link (h : Fat) (D : Disk) (c c' : ℕ) : Disk := h.set c c' (h.set c' (fatEoc h) D)

def zeroed (h : Fat) (D : Disk) (c : ℕ) : Disk := fun s => if h.InCluster c s then fun _ =>
    0 else D s

def extended (h : Fat) (D : Disk) (c c' : ℕ) (clear : Bool) : Disk :=
  if clear then h.zeroed (h.link D c c') c' else h.link D c c'

end Fat

def Disk.write (D : Disk) (s o n : ℕ) (src : ℕ → UInt8) : Disk := D.edit s fun b => b.fill o n src

section
variable {h : Fat} {D : Disk}

@[simp] theorem Fat.hint_next (h : Fat) (l : ℕ) (D : Disk) (c : ℕ) :
    (h.hint l).next D c = h.next D c := rfl

theorem Fat.hint_setCopies (h : Fat) (l c v n i : ℕ) (D : Disk) :
    (h.hint l).setCopies c v n i D = h.setCopies c v n i D := by
  induction n generalizing i D with
  | zero => rfl
  | succ n ih => exact ih (i + 1) _

@[simp] theorem Fat.hint_set (h : Fat) (l c v : ℕ) (D : Disk) :
    (h.hint l).set c v D = h.set c v D :=
  h.hint_setCopies l c v _ 0 D

theorem Fat.hint_extended (h : Fat) (l : ℕ) (D : Disk) (c c' : ℕ) (clear : Bool) :
    (h.hint l).extended D c c' clear = h.extended D c c' clear := by
  have hlink : (h.hint l).link D c c' = h.link D c c' :=
    (Fat.hint_set _ _ _ _ _).trans (congrArg _ (Fat.hint_set _ _ _ _ _))
  unfold Fat.extended
  rw [hlink]
  rfl

theorem Fat.WellFormed.hint (hf : h.WellFormed) (l : ℕ) : (h.hint l).WellFormed :=
  ⟨⟨hf.sector, hf.cluster, hf.last⟩, hf.copies, hf.room, hf.apart, hf.count⟩

-- ---------------------------------------------------------------------------
-- Clusters
-- ---------------------------------------------------------------------------

theorem Fat.WellFormed.inCluster (hf : h.WellFormed) (hc : h.IsData c) (hs : h.InCluster c s) :
    h.firstDataSector + (c - 2) * h.sectorsPerCluster ≤ s ∧
      s < h.firstDataSector + (c - 1) * h.sectorsPerCluster := by
  obtain ⟨hfirst, -⟩ := hf.firstSector hc
  obtain ⟨hle, hlt⟩ := hs
  have hmul : (c - 1) * h.sectorsPerCluster = (c - 2) * h.sectorsPerCluster +
      h.sectorsPerCluster := by
    rw [show c - 1 = c - 2 + 1 by have := hc.1; omega, Nat.succ_mul]
  omega

theorem Fat.WellFormed.not_isFat (hf : h.WellFormed) (hc : h.IsData c) (hs : h.InCluster c s) :
    ¬ h.IsFat s := fun hfat => by
  have := (hf.inCluster hc hs).1
  have := hf.apart
  have := hfat.2
  omega

theorem Fat.WellFormed.inCluster_unique (hf : h.WellFormed) (hc : h.IsData c) (hc' : h.IsData c')
    (hs : h.InCluster c s)
    (hs' : h.InCluster c' s) : c = c' := by
  have h₁ := hf.inCluster hc hs
  have h₂ := hf.inCluster hc' hs'
  have := hc.1
  have := hc'.1
  rcases Nat.lt_trichotomy c c' with hlt | heq | hlt
  · have := Nat.mul_le_mul_right h.sectorsPerCluster (show c - 1 ≤ c' - 2 by omega)
    omega
  · exact heq
  · have := Nat.mul_le_mul_right h.sectorsPerCluster (show c' - 1 ≤ c - 2 by omega)
    omega

theorem Fat.WellFormed.next_congr {D' : Disk} (hf : h.WellFormed) (hc : h.IsData c)
    (hD : ∀ s, h.IsFat s → D' s = D s) :
    h.next D' c = h.next D c := by
  refine Nat.eq_of_testBit_eq fun j => ?_
  rw [Fat.next_testBit hf.sector, Fat.next_testBit hf.sector]
  by_cases hj : j < h.width
  · rw [Disk.bit, Disk.bit, hD _ (hf.table.slot_isFat hc.2 hf.copies hj)]
  · rw [decide_eq_false hj, Bool.false_and, Bool.false_and]

-- ---------------------------------------------------------------------------
-- The new cluster
-- ---------------------------------------------------------------------------

theorem Fat.freeCluster_cases (hl : h.Hinted) (D : Disk) :
    (h.freeCluster D = (0, h) ∧ ∀ c, 2 ≤ c → c < h.clusterCount → h.next D c ≠ 0) ∨
      ∃ c, 2 ≤ c ∧ c < h.clusterCount ∧ h.next D c = 0 ∧ h.freeCluster D = (c, h.hint c) := by
  obtain ⟨hl, hle⟩ := hl
  unfold Fat.freeCluster
  cases h1 : h.firstFree D (h.clusterCount - h.lastClusterAlloc) h.lastClusterAlloc with
  | some c =>
    obtain ⟨hlc, hc, hfree⟩ := Fat.firstFree_some h1
    exact .inr ⟨c, by omega, by omega, hfree, rfl⟩
  | none =>
    have h1 := Fat.firstFree_none.mp h1
    cases h2 : h.firstFree D (h.lastClusterAlloc - 2) 2 with
    | some c =>
      obtain ⟨hlc, hc, hfree⟩ := Fat.firstFree_some h2
      exact .inr ⟨c, by omega, by omega, hfree, rfl⟩
    | none =>
      have h2 := Fat.firstFree_none.mp h2
      refine .inl ⟨rfl, fun c hc hcc => ?_⟩
      rcases Nat.lt_or_ge c h.lastClusterAlloc with hlt | hge
      · exact h2 c hc (by omega)
      · exact h1 c hge (by omega)

theorem Fat.Hinted.hint (hc : 2 ≤ c) (hcc : c < h.clusterCount) : (h.hint c).Hinted :=
  ⟨hc, (Nat.le_of_lt hcc).trans (Nat.le_max_right _ _)⟩

theorem Fat.fatEoc_pos (h : Fat) : 0 < fatEoc h := by
  unfold fatEoc
  cases h.type <;> exact Nat.succ_pos _

theorem Fat.fatEoc_lt_width (h : Fat) : fatEoc h < 2 ^ h.width := by
  have := h.fatEoc_lt
  omega

theorem Fat.WellFormed.zeroed_isFat (hf : h.WellFormed) (hc : h.IsData c) (hs : h.IsFat s) :
    h.zeroed D c s = D s :=
  if_neg fun hin => hf.not_isFat hc hin hs

theorem Fat.WellFormed.extended_next (hf : h.WellFormed) (hc : h.IsData c) (hc' : h.IsData c')
    (clear : Bool) (hd : h.IsData d) :
    h.next (h.extended D c c' clear) d = if d = c then c' else if d = c' then fatEoc h else
      h.next D d := by
  have hzero : h.next (h.extended D c c' clear) d = h.next (h.link D c c') d := by
    unfold Fat.extended
    split
    · exact hf.next_congr hd fun s hs => hf.zeroed_isFat hc' hs
    · rfl
  rw [hzero, Fat.link]
  by_cases hdc : d = c
  · rw [if_pos hdc, hdc, hf.table.next_set_self hc.2 (hf.data_lt hc')]
  · rw [if_neg hdc, hf.table.next_set_of_ne hc.2 hd.2 (Ne.symm hdc)]
    by_cases hdc' : d = c'
    · rw [if_pos hdc', hdc', hf.table.next_set_self hc'.2 h.fatEoc_lt_width]
    · rw [if_neg hdc', hf.table.next_set_of_ne hc'.2 hd.2 (Ne.symm hdc')]

theorem Fat.WellFormed.extended_other (hf : h.WellFormed) (hc : h.IsData c) (hc' : h.IsData c')
    (clear : Bool) (hs : ¬ h.IsFat s)
    (hin : ¬ h.InCluster c' s) : h.extended D c c' clear s = D s := by
  have hlink : h.link D c c' s = D s :=
    (hf.table.set_outside hc.2 hs c').trans (hf.table.set_outside hc'.2 hs _)
  unfold Fat.extended
  split
  · exact (if_neg hin).trans hlink
  · exact hlink

-- ---------------------------------------------------------------------------
-- fat_set_next_cluster
-- ---------------------------------------------------------------------------

theorem Fat.WellFormed.entry_isFat (hf : h.WellFormed) (hc : h.IsData c) (hi : i < h.numFats) :
    h.IsFat (fatSector h i (fatOffset h c)) := by
  have hn : h.nibble c ≤ 4 := by
    unfold Fat.nibble
    split <;> omega
  have hslot :=
    hf.table.slot_isFat hc.2 hi (j :=
    0) (by unfold Fat.width; cases h.type <;> exact Nat.succ_pos _)
  rwa [Fat.slot_in hf.sector i (by unfold maxSectorSize; omega)] at hslot

theorem Fat.WellFormed.over_isFat (hf : h.WellFormed) (hc : h.IsData c) (hi : i < h.numFats)
    (ht : h.type = .fat12)
    (hlast : fatOffset h c % maxSectorSize = 511) :
    h.IsFat (u32 (fatSector h i (fatOffset h c) + 1)) := by
  have hn : h.nibble c ≤ 4 := by
    unfold Fat.nibble
    split <;> omega
  have hslot := hf.table.slot_isFat hc.2 hi (j := 8) (by unfold Fat.width; rw [ht]; decide)
  rwa [Fat.slot_over hf.sector i (by omega) (by omega)] at hslot

theorem fat12SetNextCluster_settles (hf : h.WellFormed) (hc : h.IsData c) (hi : i < h.numFats)
    (ht : h.type = .fat12) (v : ℕ) :
    Settles h.table (fat12SetNextCluster h i c v) := by
  have hcl := hf.data_lt hc
  rw [Fat.width, ht] at hcl
  dsimp only at hcl
  have hu : u16 c = c := Nat.mod_eq_of_lt (by omega)
  have ho : c + c / 2 = fatOffset h c := (fatOffset_fat12 ht (by omega)).symm
  unfold fat12SetNextCluster
  dsimp only
  rw [hu, ho]
  refine .after fun _ => .after fun _ => ?_
  by_cases hlast : fatOffset h c % h.bytesPerSector = h.bytesPerSector - 1
  · have hover := hf.over_isFat hc hi ht (by rw [hf.sector] at hlast; exact hlast)
    rw [if_pos hlast]
    split
    · exact .after fun _ => .after fun _ => .after fun _ => .after fun _ => .after fun _ =>
        settles_put hover
    · exact .after fun _ => .after fun _ => .after fun _ => .after fun _ => .after fun _ =>
        settles_put hover
  · rw [if_neg hlast]
    refine .after fun _ => ?_
    split
    · exact .after fun _ => settles_put (hf.entry_isFat hc hi)
    · exact .after fun _ => settles_put (hf.entry_isFat hc hi)

theorem fat16SetNextCluster_settles (hf : h.WellFormed) (hc : h.IsData c) (hi : i < h.numFats)
    (ht : h.type = .fat16) (v : ℕ) :
    Settles h.table (fat16SetNextCluster h i c v) := by
  have hcl := hf.data_lt hc
  rw [Fat.width, ht] at hcl
  dsimp only at hcl
  have hu : u16 c = c := Nat.mod_eq_of_lt (by omega)
  have ho : c * 2 = fatOffset h c := (fatOffset_fat16 ht (by omega)).symm
  unfold fat16SetNextCluster
  dsimp only
  rw [hu, ho]
  exact .after fun _ => .after fun _ => .after fun _ => settles_put (hf.entry_isFat hc hi)

theorem fat32SetNextCluster_settles (hf : h.WellFormed) (hc : h.IsData c) (hi : i < h.numFats)
    (ht : h.type = .fat32) (v : ℕ) :
    Settles h.table (fat32SetNextCluster h i c v) := by
  have ho : u32 (c * 4) = fatOffset h c := by rw [fatOffset, ht]
  unfold fat32SetNextCluster
  dsimp only
  rw [ho]
  exact .after fun _ => .after fun _ => .after fun _ => .after fun _ =>
    settles_put (hf.entry_isFat hc hi)

theorem fatSetCopies_settles (hf : h.WellFormed) (hc : h.IsData c) (n i : ℕ)
    (hn : i + n < h.numFats) (v : ℕ) :
    Settles h.table (fatSetCopies h c v (n + 1) i) := by
  induction n generalizing i with
  | zero =>
    refine Settles.still ?_ fun _ => .pure _
    unfold fatSetCopy
    split
    · exact fat12SetNextCluster_settles hf hc hn ‹_› v
    · exact fat16SetNextCluster_settles hf hc hn ‹_› v
    · exact fat32SetNextCluster_settles hf hc hn ‹_› v
  | succ n ih => exact .after fun _ => ih (i + 1) (by omega)

theorem fatSetNextCluster_settles (hf : h.WellFormed) (hc : h.IsData c) (v : ℕ) :
    Settles h.table (fatSetNextCluster h c v) := by
  have hpos := hf.copies
  obtain ⟨n, hn⟩ := Nat.exists_eq_succ_of_ne_zero hpos.ne'
  unfold fatSetNextCluster
  rw [hn]
  exact fatSetCopies_settles hf hc n 0 (by omega) v

-- ---------------------------------------------------------------------------
-- fat_alloc_next_cluster
-- ---------------------------------------------------------------------------

theorem clearSectors_gives (b : Sector) (n s : ℕ) (hs : s + n ≤ 2 ^ 32) :
    Gives .univ (Spare D b) (clearSectors n s) () (Spare (fun t => if s ≤ t ∧
      t < s + n then b else D t) b) := by
  induction n generalizing s D with
  | zero =>
    refine Gives.pure _ fun c hc => ⟨hc.dirty, hc.buf, hc.dev.trans ?_⟩
    funext t
    rw [if_neg (by omega)]
  | succ n ih =>
    refine (gives_write _).bind <| (ih (s + 1) (by omega)).post fun c hc =>
      ⟨hc.dirty, hc.buf, hc.dev.trans ?_⟩
    rw [u32_of_lt (by omega)]
    funext t
    by_cases ht : t = s
    · rw [ht, if_neg (by omega), if_pos (by omega), Function.update_self]
    · rw [Function.update_of_ne ht]
      exact if_congr (by omega) rfl rfl

theorem Sector.fill_all (b : Sector) (src : ℕ → UInt8) : b.fill 0 maxSectorSize src = fun i =>
    src i.val := by
  funext i
  exact if_pos ⟨Nat.zero_le _, by have := i.isLt; omega⟩

theorem clearBuf_gives (hn : n = maxSectorSize) (b : Sector) :
    Gives .univ (Spare D b) (clearBuf n) () (Spare D fun _ => 0) := by
  subst hn
  have hfill := gives_writeSpare (S := .univ) (D := D) (b := b) (Nat.zero_add maxSectorSize).le
    fun _ => 0
  rwa [Sector.fill_all] at hfill

theorem clearSectors_still (n s : ℕ) : Still (clearSectors n s) := by
  induction n generalizing s with
  | zero => exact .pure _
  | succ n ih => exact (still_write _).bind fun _ => ih (s + 1)

theorem fatAllocNextCluster_follow (hb : h.bytesPerSector = maxSectorSize)
    (hne : h.next D c ≠ fatEoc h) (clear : Bool) :
    Gives .univ (On D) (fatAllocNextCluster h c clear) (h.next D c, h) (On D) := by
  refine (fatGetNextCluster_gives hb (Set.subset_univ _)).bind ?_
  rw [if_pos hne]
  exact Gives.pure _ fun _ => id

theorem fatAllocNextCluster_full (hb : h.bytesPerSector = maxSectorSize)
    (heoc : h.next D c = fatEoc h) (hfree : h.freeCluster D = (0, h))
    (clear : Bool) : Gives .univ (On D) (fatAllocNextCluster h c clear) (0, h) (On D) := by
  refine (fatGetNextCluster_gives hb (Set.subset_univ _)).bind ?_
  rw [if_neg (not_not.mpr heoc)]
  refine (fatFindFreeCluster_gives hb).bind ?_
  rw [hfree]
  exact Gives.pure _ fun _ => id

theorem linkClear_gives (hf : h.WellFormed) (hc : h.IsData c) (hc' : h.IsData c') (r : α) :
    Gives .univ (On D) (do
      fatSetNextCluster h c c'
      flushSector
      clearBuf h.bytesPerSector
      clearSectors h.sectorsPerCluster (fatFirstSectorOfCluster h c')
      return r) r (Apart h.table (h.zeroed (h.set c c' D) c')) := by
  obtain ⟨hfirst, hlt⟩ := hf.firstSector hc'
  have hrun : Gives .univ (On D) (do
      fatSetNextCluster h c c'
      flushSector
      clearBuf h.bytesPerSector
      clearSectors h.sectorsPerCluster (fatFirstSectorOfCluster h c')
      return r) r (Spare (h.zeroed (h.set c c' D) c') fun _ => 0) := by
    refine (fatSetNextCluster_gives hf.sector c c').bind <| gives_flush.bind ?_
    rintro s ⟨-, b, hb⟩
    refine (clearBuf_gives hf.sector b).bind ?_ s hb
    exact (clearSectors_gives _ _ _ (by omega)).bind (Gives.pure r fun _ => id)
  have htag : Settles h.table (do
      fatSetNextCluster h c c'
      flushSector
      clearBuf h.bytesPerSector
      clearSectors h.sectorsPerCluster (fatFirstSectorOfCluster h c')
      return r) :=
    (fatSetNextCluster_settles hf hc c').still fun _ => still_flush.bind fun _ =>
        (Still.onBuf (writeBuf_onBuf _ _ _)).bind fun _ =>
      (clearSectors_still _ _).bind fun _ => .pure r
  exact (Does.settles hrun htag).post fun a s h => ⟨h.1.1, .inr ⟨h.1.2.dirty, h.1.2.dev, h.2⟩⟩

theorem fatAllocNextCluster_extend (hf : h.WellFormed) (hc : h.IsData c) (hc' : h.IsData c')
    (heoc : h.next D c = fatEoc h)
    (hfree : h.freeCluster D = (c', h.hint c')) (clear : Bool) :
    Gives .univ (On D) (fatAllocNextCluster h c clear) (c', h.hint c')
    (Apart h.table (h.extended D c c' clear)) := by
  have hb := hf.sector
  have hb' : (h.hint c').bytesPerSector = maxSectorSize := hb
  have hfree0 : c' ≠ 0 := by
    have := hc'.1
    omega
  refine (fatGetNextCluster_gives hb (Set.subset_univ _)).bind ?_
  rw [if_neg (not_not.mpr heoc)]
  refine (fatFindFreeCluster_gives hb).bind ?_
  rw [hfree]
  dsimp only
  rw [if_neg hfree0]
  refine (fatSetNextCluster_gives hb' c' _).bind ?_
  unfold Fat.extended Fat.link
  cases clear with
  | false =>
    rw [if_neg Bool.false_ne_true, if_neg Bool.false_ne_true]
    refine (fatSetNextCluster_gives hb' c _).bind <| Gives.pure _ fun _ hc => ?_
    rw [Fat.hint_set, Fat.hint_set] at hc
    exact hc.apart _
  | true =>
    rw [if_pos rfl, if_pos rfl]
    rw [Fat.hint_set]
    refine (linkClear_gives (hf.hint c') hc hc' _).post fun c hc => ?_
    rwa [Fat.hint_set] at hc

end

end SkyOS
