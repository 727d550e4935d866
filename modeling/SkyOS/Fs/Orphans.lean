import SkyOS.Fs.Directory
import SkyOS.Fs.LongNames
import SkyOS.Fs.Refusing
import SkyOS.Fs.Streams

/-!
# What a failed creation leaves

From the first record on `_fat_dir_create_file` takes nothing back. The records of the long name
that are written stay, and so does the cluster that was meant for a directory. What the
directory had before is still there, as long as the new records lie in the sectors it has.
-/

namespace SkyOS

open ByteMem WriteBack Chains

/-- The `N` bytes of a directory, of fixed size or in clusters, have their sectors to themselves. -/
structure Handle.Region (h : Handle) (fat : Fat) (D : Disk) (N : ℕ) : Prop where
  readable : h.Readable fat D N
  small : N < 2 ^ 31
  pos : 0 < N
  whole : N % direntSize = 0
  size : h.size = if h.rootFlag then N else 0
  record : h.direntSector = 0
  first : h.firstCluster ≠ 0
  outside : ∀ p < N, ¬ fat.IsFat (h.sectorOf fat D p)
  apart : ∀ p < N, ∀ q < N, h.sectorOf fat D p = h.sectorOf fat D q →
    p / maxSectorSize = q / maxSectorSize

/-- `D'` has long name records from `p` up to `q`, and else what `D` has. -/
structure Handle.Orphans (h : Handle) (fat : Fat) (N : ℕ) (D D' : Disk) (p q : ℕ) : Prop where
  table : ∀ x, fat.IsFat x → D' x = D x
  old : ∀ i < N, i < p ∨ q ≤ i → h.byte fat D' i = h.byte fat D i
  long : ∀ k, p ≤ direntSize * k → direntSize * k < q →
    entryAttr (entryMem (h.record fat D' k)) = fatAttrLongName

/-- What is left of a directory and the clusters by a creation that fails: the records that are in
use are there, those that are new are orphans, and at most one cluster, for a directory, is
taken. -/
structure Handle.Leaves (h : Handle) (fat : Fat) (N : ℕ) (attr : UInt8) (D D' : Disk) : Prop where
  there : ∀ k, direntSize * k < N → (∀ j ≤ k, entryMem (h.record fat D j) 0 ≠ 0) →
    entryMem (h.record fat D k) 0 ≠ 0xe5 → h.record fat D' k = h.record fat D k
  orphans : ∀ k, direntSize * k < N → h.record fat D' k ≠ h.record fat D k →
    entryAttr (entryMem (h.record fat D' k)) = fatAttrLongName
  kept : ∀ c, fat.IsData c → fat.next D c ≠ 0 → fat.next D' c = fat.next D c
  taken : ∀ c c', fat.IsData c → fat.IsData c' → fat.next D' c ≠ fat.next D c →
    fat.next D' c' ≠ fat.next D c' → c = c' ∧ attr = fatAttrDirectory

/-- Where `_fat_dir_seek_empty` goes among the records `first` are the first bytes of: there are `n`
of them from record `k` on, and the `i` records before it are deleted. -/
def emptyPlace (first : ℕ → UInt8) (entries : ℕ) : ℕ → ℕ → ℕ → ℕ
  | 0, k, i => k - i
  | n + 1, k, i =>
    if first k = 0 then k - i
    else if first k = 0xe5 then
      if i + 1 = entries then k - i else emptyPlace first entries n (k + 1) (i + 1)
    else emptyPlace first entries n (k + 1) 0

/-- The place for an entry of so many records in a directory of `N` bytes. -/
def Handle.place (h : Handle) (fat : Fat) (D : Disk) (N entries : ℕ) : ℕ :=
  emptyPlace (fun k => entryMem (h.record fat D k) 0) entries (N / direntSize) 0 0

section
variable {fat : Fat} {D D' E : Disk} {h h' : Handle} {b : ℕ → UInt8} {N p q k : ℕ}

-- ---------------------------------------------------------------------------
-- Directories
-- ---------------------------------------------------------------------------

theorem Handle.sectorOf_chain (hf : fat.Sized) (hroot : h.rootFlag = false)
    (hc : fat.IsData (fat.cluster D h.firstCluster (p / maxSectorSize / fat.sectorsPerCluster))) :
    h.sectorOf fat D p = fatFirstSectorOfCluster fat
      (fat.cluster D h.firstCluster (p / maxSectorSize / fat.sectorsPerCluster)) +
      p / maxSectorSize % fat.sectorsPerCluster := by
  rw [Handle.sectorOf, hf.sector, if_neg (by simp [hroot]), (hf.firstSector hc).1]

/-- A directory in clusters. -/
theorem Fat.Directory.region (hd : fat.Directory D h cs) (hf : fat.WellFormed)
    (hrecord : h.direntSector = 0) (hsmall : cs.length * fat.clusterSize < 2 ^ 31) :
    h.Region fat D (cs.length * fat.clusterSize) := by
  have hindex (p : ℕ) (hp : p < cs.length * fat.clusterSize) :
      p / maxSectorSize / fat.sectorsPerCluster < cs.length := by
    rw [Nat.div_div_eq_div_mul]
    refine Nat.div_lt_of_lt_mul ?_
    rwa [Nat.mul_comm maxSectorSize, ← hf.clusterSize_eq, Nat.mul_comm]
  have hin (p : ℕ) (hp : p < cs.length * fat.clusterSize) :
      fat.InCluster (fat.cluster D h.firstCluster (p / maxSectorSize / fat.sectorsPerCluster))
        (h.sectorOf fat D p) := by
    rw [Handle.sectorOf_chain hf.toSized hd.root (hd.data (hindex p hp)).2]
    exact ⟨Nat.le_add_right _ _, Nat.add_lt_add_left (Nat.mod_lt _ hf.cluster) _⟩
  have hout : ¬ fat.IsData (fatEoc fat) := hf.not_data ⟨le_rfl, Nat.lt_add_of_pos_right (by decide)⟩
  have hpos := List.length_pos_iff.mpr hd.nonempty
  constructor
  case readable =>
    rw [Handle.Readable, if_neg (by simp [hd.root])]
    intro i hi
    have hdata := (hd.data (lt_of_mul_lt_mul_right hi (Nat.zero_le _))).2
    exact ⟨hdata, fun heq => hout (heq ▸ hdata)⟩
  case small => exact hsmall
  case pos => exact Nat.mul_pos hpos hf.clusterSize_pos
  case whole =>
    rw [hf.clusterSize_eq, ← Nat.mul_assoc]
    exact Nat.mod_eq_zero_of_dvd (Dvd.dvd.mul_left (by decide) _)
  case size => rw [hd.size, if_neg (by simp [hd.root])]
  case record => exact hrecord
  case first =>
    have := (hd.data hpos).2.1
    change 2 ≤ h.firstCluster at this
    omega
  case outside => exact fun p hp => hf.not_isFat (hd.data (hindex p hp)).2 (hin p hp)
  case apart =>
    intro p hp q hq heq
    have hcluster := hf.inCluster_unique (hd.data (hindex p hp)).2 (hd.data (hindex q hq)).2
      (hin p hp) (heq ▸ hin q hq)
    rw [Handle.sectorOf_chain hf.toSized hd.root (hd.data (hindex p hp)).2,
      Handle.sectorOf_chain hf.toSized hd.root (hd.data (hindex q hq)).2, hcluster,
      Nat.add_left_cancel_iff] at heq
    rw [Fat.cluster, Fat.cluster, ← hd.chain.get (hindex p hp), ← hd.chain.get (hindex q hq),
      (hd.chain.nodup hout).getElem_inj_iff] at hcluster
    rw [← Nat.div_add_mod (p / maxSectorSize) fat.sectorsPerCluster, hcluster, heq,
      Nat.div_add_mod]

theorem Handle.Region.linked (hr : h.Region fat D N) (hroot : h.rootFlag = false)
    (hi : i * fat.clusterSize < N) : fat.Linked (fat.cluster D h.firstCluster i) := by
  have hread := hr.readable
  rw [Handle.Readable, if_neg (by simp [hroot])] at hread
  exact hread i hi

theorem Handle.Region.cluster_frame (hf : fat.WellFormed) (hr : h.Region fat D N)
    (hD : ∀ x, fat.IsFat x → D' x = D x) (hroot : h.rootFlag = false)
    (hi : i * fat.clusterSize < N) :
    fat.cluster D' h.firstCluster i = fat.cluster D h.firstCluster i := by
  induction i with
  | zero => rfl
  | succ i ih =>
    have hlt : i * fat.clusterSize < N := (Nat.mul_le_mul_right _ (Nat.le_succ i)).trans_lt hi
    rw [Fat.cluster_succ, Fat.cluster_succ, ih hlt]
    exact hf.next_congr (hr.linked hroot hlt).1 hD

theorem Fat.clusters_below (fat : Fat) (p : ℕ) :
    p / fat.bytesPerSector / fat.sectorsPerCluster * fat.clusterSize ≤ p := by
  rw [Nat.div_div_eq_div_mul, Fat.clusterSize, Nat.mul_comm fat.sectorsPerCluster]
  exact Nat.div_mul_le_self p _

theorem Handle.Region.moved_frame (hf : fat.WellFormed) (hr : h.Region fat D N)
    (hD : ∀ x, fat.IsFat x → D' x = D x) (hp : p < N ∨ h.rootFlag = true) :
    h.moved fat D' p = h.moved fat D p := by
  unfold Handle.moved
  by_cases hroot : h.rootFlag = true
  · rw [if_pos hroot, if_pos hroot]
  · rw [if_neg hroot, if_neg hroot, hr.cluster_frame hf hD (by simpa using hroot)
      ((fat.clusters_below p).trans_lt (hp.resolve_right hroot))]

theorem Handle.Region.sectorOf_frame (hf : fat.WellFormed) (hr : h.Region fat D N)
    (hD : ∀ x, fat.IsFat x → D' x = D x) (hp : p < N) :
    h.sectorOf fat D' p = h.sectorOf fat D p := by
  unfold Handle.sectorOf
  dsimp only
  by_cases hroot : h.rootFlag = true
  · rw [if_pos hroot, if_pos hroot]
  · rw [if_neg hroot, if_neg hroot, hr.cluster_frame hf hD (by simpa using hroot)
      ((fat.clusters_below p).trans_lt hp)]

theorem Handle.Region.frame (hf : fat.WellFormed) (hr : h.Region fat D N)
    (hD : ∀ x, fat.IsFat x → D' x = D x) : h.Region fat D' N := by
  have hsector (p : ℕ) (hp : p < N) := hr.sectorOf_frame hf hD hp
  refine { hr with readable := ?_, outside := ?_, apart := ?_ }
  · have hread := hr.readable
    unfold Handle.Readable at hread ⊢
    by_cases hroot : h.rootFlag = true
    · rwa [if_pos hroot] at hread ⊢
    · rw [if_neg hroot]
      intro i hi
      rw [hr.cluster_frame hf hD (by simpa using hroot) hi]
      exact hr.linked (by simpa using hroot) hi
  · intro p hp
    rw [hsector p hp]
    exact hr.outside p hp
  · intro p hp q hq
    rw [hsector p hp, hsector q hq]
    exact hr.apart p hp q hq

theorem Handle.moved_of_fresh (heq : h'.fresh = h.fresh) (p : ℕ) :
    h'.moved fat D p = h.moved fat D p := by
  rw [← h'.moved_fresh, heq, h.moved_fresh]

theorem Handle.Region.table_write (hr : h.Region fat D N) (hp : p < N) (n : ℕ) :
    ∀ x, fat.IsFat x → D.write (h.sectorOf fat D p) (p % maxSectorSize) n b x = D x := by
  intro x hx
  refine D.write_of_ne ?_ _ _ _
  rintro rfl
  exact hr.outside p hp hx

/-- The byte at `q` after `n` bytes are written into the sector of `p`. -/
theorem Handle.Region.byte_write (hf : fat.WellFormed) (hr : h.Region fat D N) (hp : p < N)
    (hn : p % maxSectorSize + n ≤ maxSectorSize) (hq : q < N) :
    h.byte fat (D.write (h.sectorOf fat D p) (p % maxSectorSize) n b) q =
      if p ≤ q ∧ q < p + n then b (q - p) else h.byte fat D q := by
  rw [Handle.byte, hr.sectorOf_frame hf (hr.table_write hp n) hq, hf.sector]
  by_cases hsec : h.sectorOf fat D q = h.sectorOf fat D p
  · have hdiv := hr.apart q hq p hp hsec
    have hqmod := Nat.div_add_mod q maxSectorSize
    have hpmod := Nat.div_add_mod p maxSectorSize
    rw [hsec, Disk.write, Disk.edit, Function.update_self]
    rw [Sector.mem_fill _ _ _ _ (Nat.mod_lt q (by decide)), Handle.byte, hsec, hf.sector]
    unfold maxSectorSize at *
    by_cases hin : p ≤ q ∧ q < p + n
    · rw [if_pos hin, if_pos (by omega)]
      congr 1
      omega
    · rw [if_neg hin, if_neg (by omega)]
  · rw [D.write_of_ne hsec, if_neg, Handle.byte, hf.sector]
    intro hin
    refine hsec ?_
    unfold Handle.sectorOf
    rw [hf.sector, show q / maxSectorSize = p / maxSectorSize by unfold maxSectorSize at *; omega]

-- ---------------------------------------------------------------------------
-- Writing a record
-- ---------------------------------------------------------------------------

theorem fatWriteLoop_done {n i : ℕ} (hle : n ≤ i) (fuel s o : ℕ) :
    fatWriteLoop b n fuel i s o fat h = pure (i, fat, h) := by
  cases fuel with
  | zero => rfl
  | succ fuel =>
    unfold fatWriteLoop
    rw [if_pos hle]

/-- The chain goes on where the directory does. -/
theorem fatAllocNextCluster_linked (hf : fat.WellFormed) (hn : fat.next D c ≠ fatEoc fat)
    (clear : Bool) :
    Gives .univ (On D) (fatAllocNextCluster fat c clear) (fat.next D c, fat) (On D) := by
  unfold fatAllocNextCluster
  refine (fatGetNextCluster_gives hf.sector (Set.subset_univ _)).bind ?_
  rw [if_pos hn]
  exact Gives.pure _ fun _ => id

theorem Handle.Region.cur (hr : h.Region fat D N) (hp : p < N) :
    (h.moved fat D p).curCluster ≠ 0 := by
  unfold Handle.moved
  by_cases hroot : h.rootFlag = true
  · simp only [if_pos hroot]
    exact hr.first
  · simp only [if_neg hroot]
    have := (hr.linked (by simpa using hroot) ((fat.clusters_below p).trans_lt hp)).1.1
    omega

/-- Where a cluster of the directory ends, the table has the next one. -/
theorem Handle.Region.nextCluster (hf : fat.WellFormed) (hr : h.Region fat D N)
    (hE : ∀ x, fat.IsFat x → E x = D x) (hroot : h.rootFlag = false) (hp : p < N) (hq : q < N)
    (hdiv : q / fat.bytesPerSector / fat.sectorsPerCluster =
      p / fat.bytesPerSector / fat.sectorsPerCluster + 1) (clear : Bool) :
    ∃ c ≠ 0, Gives .univ (On E) (fatAllocNextCluster fat (h.moved fat D p).curCluster clear)
      (c, fat) (On E) ∧
      { h.moved fat D p with position := q, curCluster := c } = h.moved fat D q := by
  have hthis := hr.linked hroot ((fat.clusters_below p).trans_lt hp)
  have hnext := hr.linked hroot ((fat.clusters_below q).trans_lt hq)
  obtain ⟨hcur, hmoved⟩ := h.moved_crossed (D := D) hroot hdiv
  have hsame : fat.next E (h.moved fat D p).curCluster =
      fat.next D (h.moved fat D p).curCluster := by
    rw [Handle.moved_curCluster _ _ _ hroot]
    exact hf.next_congr hthis.1 hE
  refine ⟨_, ?_, fatAllocNextCluster_linked hf ?_ clear, ?_⟩
  · rw [hsame, hcur]
    have := hnext.1.1
    omega
  · rw [hsame, hcur]
    exact hnext.2
  · rw [hsame]
    exact hmoved

/-- The one round of the loop that a record takes. -/
theorem Handle.Region.writeLoop (hf : fat.WellFormed) (ha : fat.Aligned) (hr : h.Region fat D N)
    (hp : p % direntSize = 0) (hlt : p + direntSize < N ∨ h.rootFlag = true ∧ p + direntSize ≤ N)
    (hE : E = D.write (h.sectorOf fat D p) (p % maxSectorSize) direntSize b) :
    Gives .univ (On D) (fatWriteLoop b direntSize direntSize 0 (h.sectorOf fat D p)
      (p % fat.bytesPerSector) fat (h.moved fat D p))
      (direntSize, fat, h.moved fat E (p + direntSize)) (On E) := by
  have hsmall := hr.small
  have hb := hf.sector
  have hN : p < N := by
    unfold direntSize at *
    omega
  have hD := hr.table_write (b := b) hN direntSize
  rw [← hE] at hD
  have hE' : D.write (h.sectorOf fat D p) (p % fat.bytesPerSector) direntSize
      (fun j => b (0 + j)) = E := by
    simp only [Nat.zero_add]
    rw [hb, hE]
  have hchunk : min (fat.bytesPerSector - p % fat.bytesPerSector) (direntSize - 0) =
      direntSize := by
    rw [hb]
    unfold direntSize maxSectorSize at *
    omega
  have hinside : p % fat.bytesPerSector + direntSize ≤ maxSectorSize := by
    rw [hb]
    unfold direntSize maxSectorSize at *
    omega
  have hmoved := hr.moved_frame hf hD (p := p + direntSize)
    (hlt.elim .inl fun h => .inr h.1)
  have hpos : u32 ((h.moved fat D p).position + direntSize) = p + direntSize :=
    u32_of_lt (by simp only [Handle.moved, direntSize] at *; omega)
  rw [show direntSize = 31 + 1 from rfl, fatWriteLoop, if_neg (Nat.not_succ_le_zero 31)]
  rw [show 31 + 1 = direntSize from rfl, hchunk]
  refine ((fatWriteChunk_gives (T := ∅) hb (Set.notMem_empty _) hinside _).pre
    fun c hc => hc.apart ∅).bind ?_
  rw [hE']
  dsimp only
  rw [hpos, Nat.zero_add]
  by_cases hend : (p + direntSize) % fat.bytesPerSector ≠ 0
  · rw [if_pos hend, hmoved]
    rw [hb] at hend
    rw [Handle.moved_add hb (by unfold direntSize maxSectorSize at *; omega)]
    exact Gives.pure _ fun _ => id
  rw [if_neg hend]
  have hq : (p + direntSize) / fat.bytesPerSector = p / fat.bytesPerSector + 1 := by
    rw [hb] at hend ⊢
    unfold direntSize maxSectorSize at *
    omega
  rcases hr.readable.step hf.toSized hN hq with ⟨hroot, hbound, hdiv, -⟩ | ⟨hcond, -, hdiv⟩
  · -- the cluster is full, and there is another one
    rw [show fat.firstDataSector % fat.sectorsPerCluster = 0 from ha] at hbound
    rw [if_pos (show (!(h.moved fat D p).rootFlag) = true ∧ _ from ⟨hroot, hbound⟩)]
    have hroot : h.rootFlag = false := by simpa using hroot
    have hmore : p + direntSize < N := hlt.resolve_right fun h => by simp [hroot] at h
    obtain ⟨c, hc, halloc, hlast⟩ :=
      hr.nextCluster hf hD hroot hN hmore hdiv ((h.moved fat D p).size == 0)
    refine halloc.bind ?_
    dsimp only
    rw [if_neg hc, fatWriteLoop_done le_rfl, hmoved, hlast]
    exact Gives.pure _ fun _ => id
  · rw [show fat.firstDataSector % fat.sectorsPerCluster = 0 from ha] at hcond
    rw [if_neg (show ¬ ((!(h.moved fat D p).rootFlag) = true ∧ _) from hcond),
      fatWriteLoop_done le_rfl, hmoved]
    rw [Handle.moved_within hdiv]
    exact Gives.pure _ fun _ => id

theorem Handle.Region.write (hf : fat.WellFormed) (ha : fat.Aligned) (hr : h.Region fat D N)
    (hp : p % direntSize = 0) (hlt : p + direntSize < N ∨ h.rootFlag = true ∧ p + direntSize ≤ N)
    (hE : E = D.write (h.sectorOf fat D p) (p % maxSectorSize) direntSize b) :
    Gives .univ (On D) (fatWrite fat (h.moved fat D p) b direntSize)
      (direntSize, fat, h.moved fat E (p + direntSize)) (On E) := by
  have hsmall := hr.small
  have hN : p < N := by
    unfold direntSize at *
    omega
  obtain ⟨s, hs, hoff⟩ :=
    fatFileSectorOffset_gives (S := .univ) (P := On D) hf.toSized hr.readable p
  obtain rfl := hs hN
  have hroom : ¬ ((h.moved fat D p).rootFlag = true ∧
      u32 ((h.moved fat D p).position + u32OfInt direntSize) > (h.moved fat D p).size) := by
    rintro ⟨hroot, hover⟩
    have hroot : h.rootFlag = true := hroot
    change u32 (p + 32) > h.size at hover
    rw [hr.size, if_pos hroot, u32_of_lt (by omega)] at hover
    unfold direntSize at hlt
    omega
  unfold fatWrite fatFirstAlloc
  rw [if_neg fun hz => hr.cur hN hz.1, Prog.pure_bind]
  dsimp only
  refine hoff.bind ?_
  rw [if_neg hroom]
  dsimp only [Int.toNat_natCast]
  refine (hr.writeLoop hf ha hp hlt hE).bind ?_
  dsimp only
  rw [if_neg fun h => h.1 hr.record]
  exact Gives.pure _ fun _ => id

theorem Handle.Region.full (hf : fat.WellFormed) (hr : h.Region fat D N)
    (hroot : h.rootFlag = true) :
    Gives .univ (On D) (fatWrite fat (h.moved fat D N) b direntSize) (0, fat, h.moved fat D N)
      (On D) := by
  have hsize : h.size = N := by rw [hr.size, if_pos hroot]
  refine fatWrite_full (h := h.moved fat D N) hf.sector hf.cluster.ne' hroot ?_ hsize.symm
    (show h.size < 2 ^ 31 from hsize ▸ hr.small) b
  simp only [Handle.moved, if_pos hroot]
  exact hr.first

-- ---------------------------------------------------------------------------
-- Writing the long name
-- ---------------------------------------------------------------------------

theorem Handle.entryMem_record (h : Handle) (fat : Fat) (D : Disk) (k : ℕ)
    (hi : i < direntSize) :
    entryMem (h.record fat D k) i = h.byte fat D (direntSize * k + i) := by
  rw [entryMem, Handle.record, Handle.bytes, List.getD_eq_getElem _ _ (by simpa using hi),
    List.getElem_map, List.getElem_range]

theorem Handle.record_congr
    (hbyte : ∀ i < direntSize, h.byte fat D' (direntSize * k + i) =
      h.byte fat D (direntSize * k + i)) :
    h.record fat D' k = h.record fat D k :=
  List.map_congr_left fun i hi => hbyte i (List.mem_range.mp hi)

theorem Handle.Orphans.refl (h : Handle) (fat : Fat) (N : ℕ) (D : Disk) (p : ℕ) :
    h.Orphans fat N D D p p :=
  ⟨fun _ _ => rfl, fun _ _ _ => rfl, fun _ h1 h2 => absurd h2 (Nat.not_lt.mpr h1)⟩

/-- One more record in front. -/
theorem Handle.Orphans.cons (hf : fat.WellFormed) (hr : h.Region fat D N)
    (hp : p % direntSize = 0) (hlt : p + direntSize ≤ N) (hb : b 11 = fatAttrLongName)
    (hE : E = D.write (h.sectorOf fat D p) (p % maxSectorSize) direntSize b)
    (ho : h.Orphans fat N E D' (p + direntSize) q) (hq : p + direntSize ≤ q) :
    h.Orphans fat N D D' p q := by
  have hN : p < N := by
    unfold direntSize at hlt
    omega
  have hinside : p % maxSectorSize + direntSize ≤ maxSectorSize := by
    unfold direntSize maxSectorSize at *
    omega
  have hbyte (i : ℕ) (hi : i < N) : h.byte fat E i =
      if p ≤ i ∧ i < p + direntSize then b (i - p) else h.byte fat D i := by
    rw [hE, hr.byte_write hf hN hinside hi]
  constructor
  case table =>
    intro x hx
    rw [ho.table x hx, hE, hr.table_write hN direntSize x hx]
  case old =>
    intro i hi hout
    rw [ho.old i hi (by omega), hbyte i hi, if_neg (by omega)]
  case long =>
    intro k h1 h2
    by_cases hk : p + direntSize ≤ direntSize * k
    · exact ho.long k hk h2
    · have heq : direntSize * k = p := by
        unfold direntSize at *
        omega
      rw [entryAttr, h.entryMem_record fat D' k (by decide), heq,
        ho.old (p + 11) (by unfold direntSize at *; omega) (.inl (by unfold direntSize; omega)),
        hbyte (p + 11) (by unfold direntSize at *; omega),
        if_pos ⟨Nat.le_add_right _ _, by unfold direntSize; omega⟩, Nat.add_sub_cancel_left, hb]

/-- From the place on the records are deleted, up to as many as are wanted, to a free one or to the
end. -/
theorem emptyPlace_spec (first : ℕ → UInt8) (entries n : ℕ) {i : ℕ} (hi : i ≤ k)
    (hdel : ∀ j, k - i ≤ j → j < k → first j = 0xe5) :
    ∃ e, emptyPlace first entries n k i ≤ e ∧ e ≤ k + n ∧
      (∀ j, emptyPlace first entries n k i ≤ j → j < e → first j = 0xe5) ∧
      (e = emptyPlace first entries n k i + entries ∨ e < k + n ∧ first e = 0 ∨ e = k + n) := by
  induction n generalizing k i with
  | zero => exact ⟨k, Nat.sub_le _ _, le_rfl, hdel, .inr (.inr rfl)⟩
  | succ n ih =>
    unfold emptyPlace
    split
    · rename_i hfree
      exact ⟨k, Nat.sub_le _ _, by omega, hdel, .inr (.inl ⟨by omega, hfree⟩)⟩
    split
    · rename_i hk
      have hdel' (j : ℕ) (h1 : k - i ≤ j) (h2 : j < k + 1) : first j = 0xe5 := by
        rcases Nat.lt_succ_iff_lt_or_eq.mp h2 with h2 | rfl
        · exact hdel j h1 h2
        · exact hk
      split
      · exact ⟨k + 1, by omega, by omega, hdel', .inl (by omega)⟩
      · have hrest := ih (k := k + 1) (i := i + 1) (by omega)
          (by rw [Nat.add_sub_add_right]; exact hdel')
        rwa [Nat.add_right_comm, Nat.add_assoc] at hrest
    · have hrest := ih (k := k + 1) (i := 0) (Nat.zero_le _) fun j h1 h2 => by omega
      rwa [Nat.add_right_comm, Nat.add_assoc] at hrest

theorem Handle.Region.request (hr : h.Region fat D N) (hp : p + direntSize ≤ N) :
    (h.request p direntSize).toNat = direntSize := by
  have hsmall := hr.small
  unfold Handle.request
  rw [if_neg]
  · rfl
  · rintro ⟨hne, hover⟩
    change u32 (p + 32) > h.size at hover
    rw [hr.size] at hne hover
    split at hover <;> rename_i hroot
    · rw [u32_of_lt (by unfold direntSize at hp; omega)] at hover
      unfold direntSize at hp
      omega
    · exact hne (if_neg hroot)

theorem Handle.Region.read (hf : fat.WellFormed) (hr : h.Region fat D N)
    (hk : direntSize * k + direntSize ≤ N) :
    Gives .univ (On D) (fatRead fat (h.moved fat D (direntSize * k)) direntSize)
      (h.record fat D k, h.moved fat D (direntSize * (k + 1))) (On D) := by
  have hsmall := hr.small
  rw [Nat.mul_succ]
  exact fatRead_gives hf.toSized hr.readable (by omega) (Set.subset_univ _) (hr.request hk) hk

/-- A directory of fixed size has an end. -/
theorem Handle.Region.read_end (hf : fat.WellFormed) (hr : h.Region fat D N)
    (hroot : h.rootFlag = true) :
    Gives .univ (On D) (fatRead fat (h.moved fat D N) direntSize) ([], h.moved fat D N) (On D) := by
  have hsmall := hr.small
  have hsize : h.size = N := by rw [hr.size, if_pos hroot]
  have hnone : (h.request N direntSize).toNat = 0 := by
    rw [Handle.request_min (hsize ▸ hr.pos) (hsize ▸ hr.small) hsize.ge (Int.natCast_nonneg _)
      (by decide), hsize, Nat.sub_self, Nat.min_zero]
  exact fatRead_gives hf.toSized hr.readable (by omega) (Set.subset_univ _) hnone (le_refl N)

theorem Handle.Region.length_record (h : Handle) (fat : Fat) (D : Disk) (k : ℕ) :
    (h.record fat D k).length = direntSize := by
  rw [Handle.record, Handle.length_bytes]

/-- The loop of `_fat_dir_seek_empty` at record `k`. -/
theorem Handle.Region.seekLoop (hf : fat.WellFormed) (hr : h.Region fat D N) (entries : ℕ) {n i : ℕ}
    (hn : n + k = N / direntSize) (hi : i ≤ k) (hie : i < entries) (hfuel : n < fuel)
    (hroom : h.rootFlag = true ∨
      emptyPlace (fun k => entryMem (h.record fat D k) 0) entries n k i + entries ≤
        N / direntSize) :
    Does .univ (On D) (seekEmptyLoop fat entries fuel (direntSize * (k - i)) i
      (h.moved fat D (direntSize * k))) fun r c => On D c ∧ r.2.fresh = h.fresh ∧
        r.1 = direntSize * emptyPlace (fun k => entryMem (h.record fat D k) 0) entries n k i := by
  have hwhole := hr.whole
  induction fuel generalizing n k i with
  | zero => omega
  | succ fuel ih =>
    unfold seekEmptyLoop
    cases n with
    | zero =>
      rw [emptyPlace] at hroom
      have hroot : h.rootFlag = true := hroom.resolve_right (by omega)
      have hk : direntSize * k = N := by
        unfold direntSize at *
        omega
      rw [hk]
      refine (hr.read_end hf hroot).bind ?_
      dsimp only
      rw [if_pos (by decide)]
      exact Does.pure fun c hc => ⟨hc, rfl, rfl⟩
    | succ n =>
      have hlt : direntSize * k + direntSize ≤ N := by
        unfold direntSize at *
        omega
      refine (hr.read hf hlt).bind ?_
      dsimp only
      rw [if_neg (by rw [Handle.Region.length_record]; simp)]
      rw [emptyPlace] at hroom ⊢
      by_cases h0 : entryMem (h.record fat D k) 0 = 0
      · rw [if_pos h0, if_pos h0]
        exact Does.pure fun c hc => ⟨hc, rfl, rfl⟩
      rw [if_neg h0] at hroom ⊢
      rw [if_neg h0]
      by_cases hdel : entryMem (h.record fat D k) 0 = 0xe5
      · rw [if_pos hdel] at hroom ⊢
        rw [if_pos hdel]
        by_cases hall : i + 1 = entries
        · rw [if_pos hall, if_pos hall]
          exact Does.pure fun c hc => ⟨hc, rfl, rfl⟩
        · rw [if_neg hall] at hroom ⊢
          rw [if_neg hall]
          have hnext := ih (n := n) (k := k + 1) (i := i + 1) (by omega) (by omega) (by omega)
            (by omega) hroom
          rwa [Nat.add_sub_add_right] at hnext
      · rw [if_neg hdel] at hroom ⊢
        rw [if_neg hdel]
        exact ih (n := n) (k := k + 1) (i := 0) (by omega) (Nat.zero_le _) (by omega)
          (by omega) hroom

theorem Handle.Region.target (hr : h.Region fat D N) (heq : h'.fresh = h.fresh) (hp : p ≤ N) :
    h'.target p .set = some p := by
  have hsize : h'.fresh.size = h.fresh.size := by rw [heq]
  change h'.size = h.size at hsize
  unfold Handle.target
  rw [hsize, hr.size]
  dsimp only [Option.map_some]
  rw [if_neg]
  rintro ⟨hne, hover⟩
  split at hover
  · omega
  · rename_i hroot
    exact hne (if_neg hroot)

theorem Handle.place_le (h : Handle) (fat : Fat) (D : Disk) (N entries : ℕ) :
    direntSize * h.place fat D N entries ≤ N := by
  obtain ⟨e, hle, hlast, -⟩ := emptyPlace_spec (fun k => entryMem (h.record fat D k) 0) entries
    (N / direntSize) (le_refl 0) fun j _ h2 => absurd h2 (Nat.not_lt_zero j)
  rw [Nat.zero_add] at hlast
  exact (Nat.mul_le_mul_left _ (hle.trans hlast)).trans (Nat.mul_div_le N direntSize)

/-- A directory handle, wherever it stands, is brought to the place. -/
theorem Handle.Region.seek (hf : fat.WellFormed) (hr : h.Region fat D N)
    (heq : h'.fresh = h.fresh) {entries : ℕ} (he : 0 < entries)
    (hroom : h.rootFlag = true ∨ h.place fat D N entries + entries ≤ N / direntSize) :
    Gives .univ (On D) (fatDirSeekEmpty fat h' entries)
      (h.moved fat D (direntSize * h.place fat D N entries)) (On D) := by
  have hsmall := hr.small
  have hplace := h.place_le fat D N entries
  unfold fatDirSeekEmpty
  refine (fatLseek_gives hf.toSized (hr.target heq (Nat.zero_le N))).bind ?_
  dsimp only
  rw [Handle.moved_of_fresh heq]
  have hloop := hr.seekLoop hf entries (n := N / direntSize) (k := 0) (i := 0) rfl le_rfl he
    (show N / direntSize < readdirRounds by unfold readdirRounds direntSize; omega) hroom
  refine Does.bind hloop fun r => ?_
  obtain ⟨pos, dir⟩ := r
  rintro c ⟨hc, hfresh, hpos⟩
  dsimp only at hfresh hpos ⊢
  subst hpos
  have hseek := fatLseek_gives (D := D) hf.toSized (hr.target hfresh hplace)
  rw [Handle.moved_of_fresh hfresh] at hseek
  refine (Gives.bind (f := fun r => pure r.2) hseek ?_) c hc
  exact Gives.pure _ fun _ => id

-- ---------------------------------------------------------------------------
-- The handle of the directory
-- ---------------------------------------------------------------------------

/-- In a directory of clusters a record counts as written, even if there is no next cluster. -/
theorem fatWrite_whole (hb : fat.bytesPerSector = maxSectorSize) (hs : fat.sectorsPerCluster ≠ 0)
    (hroot : h.rootFlag = false) (hcur : h.curCluster ≠ 0) (hpos : h.position % direntSize = 0) :
    Returns (fun _ => True) (fatWrite fat h b direntSize) fun r _ => r.1 = direntSize := by
  have hchunk : min (fat.bytesPerSector - h.position % fat.bytesPerSector) (direntSize - 0) =
      direntSize := by
    rw [hb]
    unfold direntSize maxSectorSize at *
    omega
  have hloop (sector : ℕ) : Returns (fun _ => True) (fatWriteLoop b direntSize direntSize 0 sector
      (h.position % fat.bytesPerSector) fat h) fun r _ => r.1 = direntSize := by
    rw [show direntSize = 31 + 1 from rfl, fatWriteLoop, if_neg (Nat.not_succ_le_zero 31)]
    rw [show 31 + 1 = direntSize from rfl, hchunk]
    refine Returns.bind (Returns.trivially _) fun _ => ?_
    dsimp only
    rw [Nat.zero_add]
    split
    · exact .pure fun _ _ => rfl
    split
    · refine Returns.bind (Returns.trivially _) fun r => ?_
      split
      · exact .pure fun _ _ => rfl
      · rw [fatWriteLoop_done le_rfl]
        exact .pure fun _ _ => rfl
    · rw [fatWriteLoop_done le_rfl]
      exact .pure fun _ _ => rfl
  unfold fatWrite fatFirstAlloc
  rw [if_neg fun hz => hcur hz.1, Prog.pure_bind]
  dsimp only
  refine Returns.bind (fatFileSectorOffset_at (S := .univ) hb hs h).returns fun r => ?_
  refine Returns.pre (Returns.given (P := fun _ => True) fun hr => ?_) fun c hc => ⟨trivial, hc.1⟩
  rw [hr, if_neg (by simp [hroot])]
  dsimp only [Int.toNat_natCast]
  refine Returns.bind (hloop _) fun r => ?_
  refine Returns.pre (Returns.given (P := fun _ => True) fun hr => ?_) fun c hc => ⟨trivial, hc⟩
  split
  · split
    · exact Returns.bind (Returns.trivially _) fun _ => .pure fun _ _ => hr
    · exact .pure fun _ _ => hr
  · exact .pure fun _ _ => hr

-- ---------------------------------------------------------------------------
-- What is left
-- ---------------------------------------------------------------------------

theorem Handle.Leaves.refl (h : Handle) (fat : Fat) (N : ℕ) (attr : UInt8) (D : Disk) :
    h.Leaves fat N attr D D :=
  ⟨fun _ _ _ _ => rfl, fun _ _ hne => absurd rfl hne, fun _ _ _ => rfl,
    fun _ _ _ _ hne => absurd rfl hne⟩

/-- A cluster is taken besides. -/
theorem Handle.Leaves.take (hf : fat.WellFormed) (hr : h.Region fat D N) (hroot : h.rootFlag = true)
    (hl : h.Leaves fat N fatAttrDirectory D D') (htable : ∀ x, fat.IsFat x → D' x = D x)
    (hx : fat.IsData x) (hfree : fat.next D' x = 0) :
    h.Leaves fat N fatAttrDirectory D (fat.set x (fatEoc fat) D') := by
  have hrecord (k : ℕ) (hk : direntSize * k < N) :
      h.record fat (fat.set x (fatEoc fat) D') k = h.record fat D' k := by
    have hwhole := hr.whole
    refine Handle.record_congr fun i hi => ?_
    have hout := hr.outside (direntSize * k + i) (by unfold direntSize at *; omega)
    have hsec (E : Disk) : h.sectorOf fat E (direntSize * k + i) =
        h.sectorOf fat D (direntSize * k + i) := by
      simp [Handle.sectorOf, hroot]
    rw [Handle.byte, Handle.byte, hsec (fat.set x (fatEoc fat) D'), hsec D',
      hf.table.set_outside hx.2 hout]
  have hnext (c : ℕ) (hc : fat.IsData c) : fat.next D' c = fat.next D c := hf.next_congr hc htable
  constructor
  case there =>
    intro k hk huse hlive
    rw [hrecord k hk]
    exact hl.there k hk huse hlive
  case orphans =>
    intro k hk hne
    rw [hrecord k hk] at hne ⊢
    exact hl.orphans k hk hne
  case kept =>
    intro c hc hne
    rw [hf.next_ended hx hc, if_neg, hnext c hc]
    rintro rfl
    exact hne ((hnext c hc).symm.trans hfree)
  case taken =>
    have hof (c : ℕ) (hc : fat.IsData c)
        (hne : fat.next (fat.set x (fatEoc fat) D') c ≠ fat.next D c) : c = x := by
      by_contra hcx
      rw [hf.next_ended hx hc, if_neg hcx] at hne
      exact hne (hnext c hc)
    exact fun c c' hc hc' hne hne' => ⟨(hof c hc hne).trans (hof c' hc' hne').symm, rfl⟩

theorem Handle.Region.of_root (hr : h.Region fat D N) (hroot : h.rootFlag = true) (E : Disk) :
    h.Region fat E N := by
  have hsec (p : ℕ) : h.sectorOf fat E p = h.sectorOf fat D p := by simp [Handle.sectorOf, hroot]
  refine { hr with readable := ?_, outside := ?_, apart := ?_ }
  · have hread := hr.readable
    rwa [Handle.Readable, if_pos hroot] at hread ⊢
  · exact fun p hp => hsec p ▸ hr.outside p hp
  · intro p hp q hq
    rw [hsec p, hsec q]
    exact hr.apart p hp q hq

theorem Handle.Region.hint (hr : h.Region fat D N) (l : ℕ) : h.Region (fat.hint l) D N :=
  ⟨hr.readable, hr.small, hr.pos, hr.whole, hr.size, hr.record, hr.first, hr.outside, hr.apart⟩

variable {vol vol' : Vol} {name : CStr} {attr : UInt8} {c c' : Cached Sector} {f : Option Handle}

/-- The record of the short name is not written where a directory of fixed size ends, and nowhere
else. -/
theorem Handle.Orphans.short (vol : Vol) (hf : vol.fat.WellFormed) (ha : vol.fat.Aligned)
    (hr : h.Region vol.fat D N) (hcwd : vol.cwd = h.moved vol.fat D q)
    (hq : q % direntSize = 0) (hqN : q ≤ N)
    (hlt : h.rootFlag = false → q < N) (hc : On E c)
    (hrun : (fatWrite vol.fat vol.cwd b direntSize).cached c = .ok ((i, r), c'))
    (hi : i ≠ direntSize) : h.rootFlag = true ∧ On E c' := by
  have hwhole := hr.whole
  by_cases hroot : h.rootFlag = true
  · have hrE := hr.of_root hroot E
    have hmoved : vol.cwd = h.moved vol.fat E q := by
      rw [hcwd]
      simp [Handle.moved, hroot]
    rw [hmoved] at hrun
    by_cases hend : q + direntSize ≤ N
    · have hwrite := (hrE.write hf ha hq (.inr ⟨hroot, hend⟩) rfl).returns c hc _ _ hrun
      cases hwrite.1
      exact absurd rfl hi
    · obtain rfl : q = N := by
        unfold direntSize at *
        omega
      exact ⟨hroot, ((hrE.full hf hroot).returns c hc _ _ hrun).2⟩
  · have hroot : h.rootFlag = false := by simpa using hroot
    have hcur := hr.cur (hlt hroot)
    rw [← hcwd] at hcur
    have hwhole := fatWrite_whole (b := b) hf.sector hf.cluster.ne'
      (show vol.cwd.rootFlag = false from hcwd ▸ hroot) hcur
      (show vol.cwd.position % direntSize = 0 from hcwd ▸ hq) c trivial _ _ hrun
    exact absurd hwhole hi

end

-- ---------------------------------------------------------------------------
-- Volumes with little room
-- ---------------------------------------------------------------------------

/-- The call returns `r`, and leaves a disk with `p`. -/
def EndsWith (r : ℤ) (p : Disk → Bool) : Except Stop ((ℤ × α) × Cached Sector) → Bool
  | .ok ((r', _), c) => r' == r && p c.disk
  | .error _ => false

theorem EndsWith.run {p : Disk → Bool} {run : Except Stop ((ℤ × α) × Cached Sector)}
    (h : EndsWith r p run = true) : ∃ a c, run = .ok ((r, a), c) ∧ p c.disk = true := by
  match run, h with
  | .ok ((r', a), c), h =>
    obtain ⟨hr, hp⟩ := Bool.and_eq_true_iff.mp h
    exact ⟨a, c, by rw [eq_of_beq hr], hp⟩

end SkyOS
