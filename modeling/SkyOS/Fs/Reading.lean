import SkyOS.Fs.Disk

/-!
# Reading files

The bytes of a file are those of the sectors of its chain, laid end to end. A
handle is where it is if its cluster is the one that the position is in.
-/

namespace SkyOS

open ByteMem WriteBack

namespace Fat

def clusterSize (h : Fat) : ℕ := h.sectorsPerCluster * h.bytesPerSector

structure Sized (h : Fat) : Prop where
  sector : h.bytesPerSector = maxSectorSize
  cluster : 0 < h.sectorsPerCluster
  last : h.firstDataSector + h.clusterCount * h.sectorsPerCluster < 2 ^ 32

def Linked (h : Fat) (c : ℕ) : Prop := h.IsData c ∧ c ≠ fatEoc h

instance (h : Fat) (c : ℕ) : Decidable (h.Linked c) := inferInstanceAs (Decidable (_ ∧ _))

def Covers (h : Fat) (D : Disk) (first n : ℕ) : Prop := ∀ i, i * h.clusterSize < n →
    h.Linked (h.cluster D first i)

end Fat

namespace Handle

def sectorOf (h : Handle) (fat : Fat) (D : Disk) (p : ℕ) : ℕ :=
  let index := p / fat.bytesPerSector
  if h.rootFlag then h.firstCluster + index
  else (fat.cluster D h.firstCluster (index / fat.sectorsPerCluster) - 2) * fat.sectorsPerCluster +
    fat.firstDataSector + index % fat.sectorsPerCluster

def byte (h : Handle) (fat : Fat) (D : Disk) (p : ℕ) : UInt8 :=
  (D (h.sectorOf fat D p)).mem (p % fat.bytesPerSector)

def moved (h : Handle) (fat : Fat) (D : Disk) (p : ℕ) : Handle :=
  { h with
    position := p
    curCluster := if h.rootFlag then h.firstCluster
      else fat.cluster D h.firstCluster (p / fat.bytesPerSector / fat.sectorsPerCluster) }

@[simp] theorem moved_size (h : Handle) (fat : Fat) (D : Disk) (p : ℕ) :
    (h.moved fat D p).size = h.size := rfl

@[simp] theorem moved_position (h : Handle) (fat : Fat) (D : Disk) (p : ℕ) :
    (h.moved fat D p).position = p := rfl

@[simp] theorem moved_rootFlag (h : Handle) (fat : Fat) (D : Disk) (p : ℕ) :
    (h.moved fat D p).rootFlag = h.rootFlag := rfl

theorem moved_curCluster {h : Handle} (fat : Fat) (D : Disk) (p : ℕ) (hroot : h.rootFlag = false) :
    (h.moved fat D p).curCluster =
    fat.cluster D h.firstCluster (p / fat.bytesPerSector / fat.sectorsPerCluster) := by
  simp [moved, hroot]

def Readable (h : Handle) (fat : Fat) (D : Disk) (n : ℕ) : Prop :=
  if h.rootFlag then h.firstCluster + n / fat.bytesPerSector + 1 <
    2 ^ 32 else fat.Covers D h.firstCluster n

end Handle

-- ---------------------------------------------------------------------------
-- Sectors
-- ---------------------------------------------------------------------------

section
variable {fat : Fat} {D : Disk} {h : Handle}

theorem fatFirstSectorOfCluster_lt (fat : Fat) (c : ℕ) : fatFirstSectorOfCluster fat c < 2 ^ 32 :=
  u32_lt _

theorem Fat.Sized.firstSector (hf : fat.Sized) (hc : fat.IsData c) :
    fatFirstSectorOfCluster fat c = (c - 2) * fat.sectorsPerCluster + fat.firstDataSector ∧
      (c - 2) * fat.sectorsPerCluster + fat.firstDataSector + fat.sectorsPerCluster < 2 ^ 32 := by
  obtain ⟨h2, hlt⟩ := hc
  have hlast := hf.last
  have hmul : (c - 2 + 1) * fat.sectorsPerCluster ≤ fat.clusterCount * fat.sectorsPerCluster :=
    Nat.mul_le_mul_right _ (by omega)
  rw [Nat.add_mul, Nat.one_mul] at hmul
  have hpos := hf.cluster
  have hc32 : c - 2 < 2 ^ 32 := by
    have : c - 2 ≤ (c - 2) * fat.sectorsPerCluster := Nat.le_mul_of_pos_right _ hpos
    omega
  have hsub : u32Sub c 2 = c - 2 := by
    unfold u32Sub
    omega
  rw [fatFirstSectorOfCluster, hsub, u32_of_lt (by omega)]
  omega

theorem next_sector (hs : 0 < s) (q : ℕ) :
    (q % s + 1 = s ∧ (q + 1) / s = q / s + 1 ∧ (q + 1) % s = 0) ∨
      (q % s + 1 < s ∧ (q + 1) / s = q / s ∧ (q + 1) % s = q % s + 1) := by
  have hq := Nat.div_add_mod q s
  rcases Nat.lt_or_ge (q % s + 1) s with hlt | hge
  · right
    have hq' : q + 1 = q % s + 1 + s * (q / s) := by omega
    refine ⟨hlt, ?_, ?_⟩
    · rw [hq', Nat.add_mul_div_left _ _ hs, Nat.div_eq_of_lt hlt, Nat.zero_add]
    · rw [hq', Nat.add_mul_mod_self_left, Nat.mod_eq_of_lt hlt]
  · left
    have hlt := Nat.mod_lt q hs
    have hq' : q + 1 = s * (q / s + 1) := by
      rw [Nat.mul_add]
      omega
    refine ⟨by omega, ?_, ?_⟩
    · rw [hq', Nat.mul_div_cancel_left _ hs]
    · rw [hq', Nat.mul_mod_right]

theorem sector_mod (s a b k : ℕ) : (a * s + b + (k + 1)) % s = b % s ↔ (k + 1) % s = 0 := by
  rw [Nat.add_assoc, Nat.add_comm (a * s), Nat.add_mul_mod_self_right]
  constructor
  · intro h
    have hm : b + (k + 1) ≡ b + 0 [MOD s] := h
    exact Nat.ModEq.add_left_cancel' b hm
  · intro h
    have hm : k + 1 ≡ 0 [MOD s] := h
    exact hm.add_left b

theorem Fat.Covers.at (hc : fat.Covers D first n) (hp : p < n) :
    fat.Linked (fat.cluster D first (p / fat.bytesPerSector / fat.sectorsPerCluster)) := by
  refine hc _ ?_
  rw [Nat.div_div_eq_div_mul, Fat.clusterSize, Nat.mul_comm fat.sectorsPerCluster]
  exact (Nat.div_mul_le_self p _).trans_lt hp

theorem Handle.Readable.sector (hf : fat.Sized) (hr : h.Readable fat D n) (hp : p < n) :
    h.sectorOf fat D p + 1 < 2 ^ 32 ∧
    (if h.rootFlag then u32 (h.firstCluster + p / fat.bytesPerSector)
      else u32 (fatFirstSectorOfCluster fat
        (fat.cluster D h.firstCluster (p / fat.bytesPerSector / fat.sectorsPerCluster)) +
        p / fat.bytesPerSector % fat.sectorsPerCluster)) = h.sectorOf fat D p := by
  unfold Handle.Readable at hr
  unfold Handle.sectorOf
  dsimp only
  split
  · rename_i hroot
    rw [if_pos hroot] at hr
    have hle : p / fat.bytesPerSector ≤ n / fat.bytesPerSector := Nat.div_le_div_right hp.le
    exact ⟨by omega, u32_of_lt (by omega)⟩
  · rename_i hroot
    rw [if_neg hroot] at hr
    obtain ⟨hfirst, hlt⟩ := hf.firstSector (hr.at hp).1
    have hmod := Nat.mod_lt (p / fat.bytesPerSector) hf.cluster
    rw [hfirst]
    exact ⟨by omega, u32_of_lt (by omega)⟩

theorem fatFileSectorOffset_gives {S : Set ℕ} {P : Cached Sector → Prop} (hf : fat.Sized)
    (hr : h.Readable fat D n) (p : ℕ) :
    ∃ s, (p < n → s = h.sectorOf fat D p) ∧
      Gives S P (fatFileSectorOffset fat (h.moved fat D p)) (s, p % fat.bytesPerSector) P := by
  refine ⟨_, fun hp => (hr.sector hf hp).2, (gives_nonzero (by rw [hf.sector]; decide)).bind ?_⟩
  dsimp only [Handle.moved]
  by_cases hroot : h.rootFlag = true
  · simp only [if_pos hroot]
    exact Gives.pure _ fun _ => id
  · simp only [if_neg hroot]
    exact (gives_nonzero hf.cluster.ne').bind <| Gives.pure _ fun _ => id

-- ---------------------------------------------------------------------------
-- The loop
-- ---------------------------------------------------------------------------

def Handle.readSectors (h : Handle) (fat : Fat) (D : Disk) (n : ℕ) : Set ℕ := fun s =>
  (∃ p < n, s = h.sectorOf fat D p) ∨
    h.rootFlag = false ∧ ∃ i, i * fat.clusterSize < n ∧
      s ∈ fat.entrySectors (fat.cluster D h.firstCluster i)

def Handle.bytes (h : Handle) (fat : Fat) (D : Disk) (p n : ℕ) : List UInt8 :=
  (List.range n).map fun i => h.byte fat D (p + i)

theorem Handle.bytes_zero (h : Handle) (fat : Fat) (D : Disk) (p : ℕ) :
    h.bytes fat D p 0 = [] := rfl

theorem Handle.bytes_add (h : Handle) (fat : Fat) (D : Disk) (p n m : ℕ) :
    h.bytes fat D p (n + m) = h.bytes fat D p n ++ h.bytes fat D (p + n) m := by
  simp only [Handle.bytes, List.range_add, List.map_append, List.map_map, Function.comp_def,
    Nat.add_assoc]

theorem Handle.bytes_sector (hb : fat.bytesPerSector = maxSectorSize)
    (hn : p % maxSectorSize + n ≤ maxSectorSize) :
    ((List.range n).map fun i => (D (h.sectorOf fat D p)).mem (p % fat.bytesPerSector + i)) =
      h.bytes fat D p n := by
  refine List.map_congr_left fun i hi => ?_
  rw [List.mem_range] at hi
  unfold maxSectorSize at *
  have hdiv : (p + i) / 512 = p / 512 := by omega
  have hmod : (p + i) % 512 = p % 512 + i := by omega
  simp only [Handle.byte, Handle.sectorOf, hb, hdiv, hmod]

theorem Handle.moved_add (hb : fat.bytesPerSector = maxSectorSize)
    (hdiv : (p + n) / maxSectorSize = p / maxSectorSize) :
    { h.moved fat D p with position := p + n } = h.moved fat D (p + n) := by
  simp only [Handle.moved, hb, hdiv]

theorem Handle.Readable.step (hf : fat.Sized) (hr : h.Readable fat D n) (hp : p < n)
    (hend : q / fat.bytesPerSector = p / fat.bytesPerSector + 1) :
    ((!h.rootFlag) = true ∧ u32 (h.sectorOf fat D p + 1) % fat.sectorsPerCluster =
        fat.firstDataSector % fat.sectorsPerCluster ∧
      q / fat.bytesPerSector / fat.sectorsPerCluster =
        p / fat.bytesPerSector / fat.sectorsPerCluster + 1 ∧
      q / fat.bytesPerSector % fat.sectorsPerCluster = 0) ∨
    (¬ ((!h.rootFlag) = true ∧ u32 (h.sectorOf fat D p + 1) % fat.sectorsPerCluster =
        fat.firstDataSector % fat.sectorsPerCluster) ∧
      h.sectorOf fat D q = h.sectorOf fat D p + 1 ∧
      (h.rootFlag = false →
        q / fat.bytesPerSector / fat.sectorsPerCluster =
        p / fat.bytesPerSector / fat.sectorsPerCluster)) := by
  have hlt := (hr.sector hf hp).1
  rw [u32_of_lt hlt, hend]
  by_cases hroot : h.rootFlag = true
  · right
    simp [Handle.sectorOf, hroot, hend]
    omega
  · simp only [Handle.sectorOf, if_neg hroot, hend]
    rw [Nat.add_assoc, sector_mod]
    rcases next_sector hf.cluster (p / fat.bytesPerSector) with ⟨hk, hdiv, hmod⟩ | ⟨hk, hdiv, hmod⟩
    · left
      exact ⟨by simpa using hroot, by rw [hk, Nat.mod_self], hdiv, hmod⟩
    · right
      rw [hdiv, hmod]
      refine ⟨fun hc => ?_, by omega, fun _ => rfl⟩
      rw [Nat.mod_eq_of_lt hk] at hc
      exact absurd hc.2 (Nat.succ_ne_zero _)

theorem Handle.moved_crossed (hroot : h.rootFlag = false)
    (hdiv : q / fat.bytesPerSector / fat.sectorsPerCluster =
      p / fat.bytesPerSector / fat.sectorsPerCluster + 1) :
    fat.next D (h.moved fat D p).curCluster =
      fat.cluster D h.firstCluster (q / fat.bytesPerSector / fat.sectorsPerCluster) ∧
    { h.moved fat D p with
      position := q
      curCluster := fat.next D (h.moved fat D p).curCluster } = h.moved fat D q := by
  rw [Handle.moved_curCluster _ _ _ hroot, ← Fat.cluster_succ, ← hdiv]
  exact ⟨rfl, by simp [Handle.moved, hroot]⟩

theorem Handle.moved_within (hdiv : h.rootFlag = false →
    q / fat.bytesPerSector / fat.sectorsPerCluster =
      p / fat.bytesPerSector / fat.sectorsPerCluster) :
    { h.moved fat D p with position := q } = h.moved fat D q := by
  by_cases hroot : h.rootFlag = true
  · simp [Handle.moved, hroot]
  · simp [Handle.moved, hroot, hdiv (by simpa using hroot)]

/-- The cluster ends, and the rest is read from the next one. -/
theorem fatReadLoop_crosses {S : Set ℕ} (hf : fat.Sized) (hr : h.Readable fat D N)
    (hS : h.readSectors fat D N ⊆ S) (hroot : h.rootFlag = false) (hp : p < N)
    (hdiv : q / fat.bytesPerSector / fat.sectorsPerCluster =
      p / fat.bytesPerSector / fat.sectorsPerCluster + 1)
    (hzero : q / fat.bytesPerSector % fat.sectorsPerCluster = 0) (hm : q + m ≤ N) (l : List UInt8)
    (hrest : ∀ s, (0 < m → s = h.sectorOf fat D q) →
      Gives S (On D) (fatReadLoop fat fuel m s 0 (h.moved fat D q))
        (h.bytes fat D q m, h.moved fat D (q + m)) (On D)) :
    Gives S (On D) (do
      let cluster ← fatGetNextCluster fat (h.moved fat D p).curCluster
      let g : Handle := { h.moved fat D p with position := q, curCluster := cluster }
      if cluster = fatEoc fat then return (l, g)
      let (l', g) ← fatReadLoop fat fuel m (fatFirstSectorOfCluster fat cluster) 0 g
      return (l ++ l', g)) (l ++ h.bytes fat D q m, h.moved fat D (q + m)) (On D) := by
  obtain ⟨hcur, hmoved⟩ := h.moved_crossed (D := D) hroot hdiv
  have hcs : p / fat.bytesPerSector / fat.sectorsPerCluster * fat.clusterSize ≤ p := by
    rw [Nat.div_div_eq_div_mul, Fat.clusterSize, Nat.mul_comm fat.sectorsPerCluster]
    exact Nat.div_mul_le_self p _
  refine (fatGetNextCluster_gives hf.sector ?_).bind ?_
  · rw [Handle.moved_curCluster _ _ _ hroot]
    exact fun s hs => hS (.inr ⟨hroot, _, by omega, hs⟩)
  dsimp only
  rw [hmoved, hcur]
  by_cases hmore : 0 < m
  · have hsec := (hr.sector hf (p := q) (by omega)).2
    rw [Handle.Readable, if_neg (by simp [hroot])] at hr
    rw [if_neg (by simp [hroot]), hzero, Nat.add_zero,
      u32_of_lt (fatFirstSectorOfCluster_lt _ _)] at hsec
    rw [if_neg (hr.at (p := q) (by omega)).2]
    exact (hrest _ fun _ => hsec).bind <| Gives.pure _ fun _ => id
  · -- nothing more was asked for
    obtain rfl : m = 0 := by omega
    split
    · rw [Nat.add_zero, Handle.bytes_zero, List.append_nil]
      exact Gives.pure _ fun _ => id
    · exact (hrest _ fun h0 => absurd h0 (lt_irrefl 0)).bind <| Gives.pure _ fun _ => id

theorem fatReadLoop_gives {S : Set ℕ} (hf : fat.Sized) (hr : h.Readable fat D N) (hN : N < 2 ^ 32)
    (hS : h.readSectors fat D N ⊆ S) (hfuel : n ≤ fuel) (hn : p + n ≤ N) (hs : 0 < n →
      s = h.sectorOf fat D p) :
    Gives S (On D) (fatReadLoop fat fuel n s (p % fat.bytesPerSector) (h.moved fat D p))
      (h.bytes fat D p n, h.moved fat D (p + n)) (On D) := by
  have hb := hf.sector
  induction fuel generalizing n p s with
  | zero =>
    obtain rfl : n = 0 := by omega
    exact Gives.pure _ fun _ => id
  | succ fuel ih =>
    unfold fatReadLoop
    by_cases h0 : n = 0
    · rw [if_pos h0, h0]
      exact Gives.pure _ fun _ => id
    rw [if_neg h0]
    obtain rfl := hs (by omega)
    obtain ⟨chunk, hchunk⟩ : ∃ chunk, chunk = min (fat.bytesPerSector - p % fat.bytesPerSector) n :=
      ⟨_, rfl⟩
    rw [← hchunk]
    have hle : p % maxSectorSize + chunk ≤ maxSectorSize := by
      have := Nat.mod_lt p (show 0 < maxSectorSize by decide)
      rw [hb] at hchunk
      omega
    refine (gives_get (hS (.inl ⟨p, by omega, rfl⟩))).bind <|
      (gives_readBuf _ (by rw [hb]; exact hle)).bind ?_
    rw [Handle.bytes_sector hb hle]
    have hpos : u32 ((h.moved fat D p).position + chunk) = p + chunk :=
      u32_of_lt (by simp only [Handle.moved]; omega)
    dsimp only
    rw [hpos]
    rw [hb] at hchunk
    unfold maxSectorSize at hchunk hle hb
    by_cases hend : (p + chunk) % fat.bytesPerSector ≠ 0
    · -- the request ends inside the sector
      rw [if_pos hend]
      rw [hb] at hend
      obtain rfl : chunk = n := by omega
      rw [Handle.moved_add hb (by unfold maxSectorSize; omega)]
      exact Gives.pure _ fun _ h => h.toOn
    rw [if_neg hend]
    have hmod := not_not.mp hend
    have hq : (p + chunk) / fat.bytesPerSector = p / fat.bytesPerSector + 1 := by
      rw [hb] at hmod ⊢
      omega
    have hsplit : h.bytes fat D p n = h.bytes fat D p chunk ++
        h.bytes fat D (p + chunk) (n - chunk) := by
      rw [← Handle.bytes_add]
      congr 1
      omega
    have hlast : p + n = p + chunk + (n - chunk) := by omega
    have hrest (s : ℕ) (hs : 0 < n - chunk → s = h.sectorOf fat D (p + chunk)) :
        Gives S (On D) (fatReadLoop fat fuel (n - chunk) s 0 (h.moved fat D (p + chunk)))
          (h.bytes fat D (p + chunk) (n - chunk), h.moved fat D (p + chunk + (n - chunk)))
          (On D) := by
      have := ih (by omega) (by omega) hs
      rwa [hmod] at this
    rw [hsplit]
    rcases hr.step hf (q := p + chunk) (by omega) hq with ⟨hroot, hbound, hdiv, hzero⟩ |
      ⟨hcond, hnext, hdiv⟩
    · rw [if_pos (show (!(h.moved fat D p).rootFlag) = true ∧ _ from ⟨hroot, hbound⟩), hlast]
      exact (fatReadLoop_crosses hf hr hS (by simpa using hroot) (by omega) hdiv hzero (by omega) _
        hrest).pre fun _ h => h.toOn
    · rw [if_neg (show ¬ ((!(h.moved fat D p).rootFlag) = true ∧ _) from hcond)]
      rw [Handle.moved_within hdiv, hlast]
      refine ((hrest _ fun _ => ?_).pre fun _ h => h.toOn).bind <| Gives.pure _ fun _ => id
      rw [hnext, u32_of_lt (by have := (hr.sector hf (p := p) (by omega)).1; omega)]

-- ---------------------------------------------------------------------------
-- fat_read
-- ---------------------------------------------------------------------------

def Handle.request (h : Handle) (p : ℕ) (n : ℤ) : ℤ :=
  if h.size ≠ 0 ∧ u32 (p + u32OfInt n) > h.size then intOfU32 (u32Sub h.size p) else n

theorem fatRead_gives {S : Set ℕ} (hf : fat.Sized) (hr : h.Readable fat D N) (hN : N < 2 ^ 32)
    (hS : h.readSectors fat D N ⊆ S) (hk : (h.request p n).toNat = k) (hn : p + k ≤ N) :
    Gives S (On D) (fatRead fat (h.moved fat D p) n) (h.bytes fat D p k, h.moved fat D (p + k))
    (On D) := by
  obtain ⟨s, hs, hoff⟩ := fatFileSectorOffset_gives (S := S) (P := On D) hf hr p
  refine hoff.bind ?_
  have hreq :
      (if (h.moved fat D p).size ≠ 0 ∧
      u32 ((h.moved fat D p).position + u32OfInt n) > (h.moved fat D p).size then
      intOfU32 (u32Sub (h.moved fat D p).size (h.moved fat D p).position) else n) =
        h.request p n := rfl
  dsimp only
  rw [hreq, hk]
  exact fatReadLoop_gives hf hr hN hS le_rfl hn fun h0 => hs (by omega)

theorem Handle.request_min (h0 : 0 < h.size) (hs : h.size < 2 ^ 31) (hp : p ≤ h.size) (hn : 0 ≤ n)
    (hlt : n < 2 ^ 31) :
    (h.request p n).toNat = min n.toNat (h.size - p) := by
  have hu : u32OfInt n = n.toNat := by
    unfold u32OfInt
    omega
  have hsub : u32Sub h.size p = h.size - p := by
    unfold u32Sub
    omega
  have hint : intOfU32 (h.size - p) = ((h.size - p : ℕ) : ℤ) := if_pos (by omega)
  unfold Handle.request
  rw [hu, hsub, u32_of_lt (by omega), hint]
  split <;> omega

theorem Handle.request_le (hn : 0 ≤ n) (hp : p + n.toNat ≤ h.size) (hs : h.size < 2 ^ 32) :
    (h.request p n).toNat = n.toNat := by
  have hu : u32OfInt n = n.toNat := by
    unfold u32OfInt
    omega
  rw [Handle.request, if_neg]
  rw [hu, u32_of_lt (by omega)]
  omega

-- ---------------------------------------------------------------------------
-- Reading on
-- ---------------------------------------------------------------------------

def fatReads (fat : Fat) : List ℤ → Handle → Fs (List (List UInt8) × Handle)
  | [], h => return ([], h)
  | n :: ns, h => do
    let (l, h) ← fatRead fat h n
    let (ls, h) ← fatReads fat ns h
    return (l :: ls, h)

def readLengths (size : ℕ) : ℕ → List ℤ → List ℕ
  | _, [] => []
  | p, n :: ns => min n.toNat (size - p) :: readLengths size (p + min n.toNat (size - p)) ns

/-- The chain has the clusters for the file, or there is no chain. -/
def Handle.Sound (h : Handle) (fat : Fat) (D : Disk) : Prop :=
  if h.rootFlag then h.firstCluster < 2 ^ 16 else fat.Covers D h.firstCluster h.size

structure ReadExactly (fat : Fat) (D : Disk) (h : Handle) (ns : List ℤ)
    (r : List (List UInt8) × Handle) : Prop where
  lengths : r.1.map List.length = readLengths h.size 0 ns
  bytes : r.1.flatten = h.bytes fat D 0 r.2.position
  position : r.2.position = (r.1.map List.length).sum
  size : r.2.size = h.size
  firstCluster : r.2.firstCluster = h.firstCluster

theorem Handle.Sound.readable (hf : fat.Sized) (hh : h.Sound fat D) (hs : h.size < 2 ^ 32) :
    h.Readable fat D h.size := by
  unfold Handle.Sound at hh
  unfold Handle.Readable
  split
  · rename_i hroot
    rw [if_pos hroot] at hh
    rw [hf.sector]
    unfold maxSectorSize
    omega
  · rename_i hroot
    rwa [if_neg hroot] at hh

theorem Handle.moved_zero (fat : Fat) (D : Disk) (hpos : h.position = 0)
    (hcur : h.curCluster = h.firstCluster) :
    h.moved fat D 0 = h := by
  obtain ⟨size, first, position, cur, root, flags, ds, doff⟩ := h
  dsimp only at hpos hcur
  subst hpos hcur
  simp [Handle.moved, Fat.cluster]

@[simp] theorem Handle.length_bytes (h : Handle) (fat : Fat) (D : Disk) (p n : ℕ) :
    (h.bytes fat D p n).length = n := by
  simp [Handle.bytes]

theorem fatReads_gives (hf : fat.Sized) (h0 : 0 < h.size) (hs : h.size < 2 ^ 31)
    (hh : h.Sound fat D)
    (hn : ∀ n ∈ ns, 0 ≤ n ∧ n < 2 ^ 31) (hp : p ≤ h.size) :
    ∃ ls, ls.map List.length = readLengths h.size p ns ∧
      ls.flatten = h.bytes fat D p (ls.map List.length).sum ∧ p + (ls.map List.length).sum ≤
        h.size ∧
      Gives .univ (On D) (fatReads fat ns (h.moved fat D p)) (ls,
        h.moved fat D (p + (ls.map List.length).sum)) (On D) := by
  induction ns generalizing p with
  | nil => exact ⟨[], rfl, rfl, hp, Gives.pure _ fun _ => id⟩
  | cons n ns ih =>
    obtain ⟨hn0, hns⟩ := List.forall_mem_cons.mp hn
    have hk := Handle.request_min h0 hs hp hn0.1 hn0.2
    obtain ⟨k, hk'⟩ : ∃ k, k = min n.toNat (h.size - p) := ⟨_, rfl⟩
    have hread := fatRead_gives hf (hh.readable hf (by omega)) (by omega) (Set.subset_univ _) hk
      (by omega)
    rw [← hk'] at hread
    obtain ⟨ls, hlen, hbytes, hle, hrest⟩ := ih hns (p := p + k) (by omega)
    refine ⟨h.bytes fat D p k :: ls, ?_, ?_, ?_, ?_⟩
    · rw [List.map_cons, hlen, Handle.length_bytes, readLengths, ← hk']
    · rw [List.flatten_cons, List.map_cons, List.sum_cons, Handle.length_bytes,
        Handle.bytes_add, hbytes]
    · rw [List.map_cons, List.sum_cons, Handle.length_bytes]
      omega
    · rw [List.map_cons, List.sum_cons, Handle.length_bytes, ← Nat.add_assoc]
      exact hread.bind <| hrest.bind <| Gives.pure _ fun _ => id

/-- From the start of a file the calls return its bytes in order, and all they
were asked for up to the end. -/
theorem fat_reads_exact (hf : fat.Sized) (h0 : 0 < h.size) (hs : h.size < 2 ^ 31)
    (hh : h.Sound fat D)
    (hpos : h.position = 0) (hcur : h.curCluster = h.firstCluster) (hn : ∀ n ∈ ns, 0 ≤ n ∧
      n < 2 ^ 31) {c : Cached Sector}
    (hc : On D c) : ∃ r c', (fatReads fat ns h).cached c = .ok (r, c') ∧ On D c' ∧
      ReadExactly fat D h ns r := by
  obtain ⟨ls, hlen, hbytes, -, hrun⟩ := fatReads_gives hf h0 hs hh hn (Nat.zero_le _)
  rw [Handle.moved_zero fat D hpos hcur, Nat.zero_add] at hrun
  obtain ⟨-, c', hrun, hc'⟩ := hrun.run hc
  exact ⟨_, c', hrun, hc', hlen, hbytes, rfl, rfl, rfl⟩

end

def twoClusterDisk (n : ℕ) : Sector :=
  .ofMem <| if n = 1 then writeLE (fun _ => 0) 0 6 0xFF8003FFFFF8 else fun i => .ofNat (n + i)

def twoClusterFile : Handle := ⟨600, 2, 0, 2, false, 0, 2, 0⟩

theorem fourClusters_sized : fourClusters.Sized := ⟨rfl, by decide, by decide⟩

theorem twoClusterFile_sound : twoClusterFile.Sound fourClusters twoClusterDisk := by
  rw [Handle.Sound, if_neg (by decide)]
  intro i hi
  have hi : i = 0 ∨ i = 1 := by
    have : i * 512 < 600 := by simpa [Fat.clusterSize, fourClusters, twoClusterFile] using hi
    omega
  rcases hi with rfl | rfl
  · decide +kernel
  · decide +kernel

theorem fat_reads_exact_600 :
    ∃ r c', (fatReads fourClusters [100, 412, 0, 200] twoClusterFile).cached
      (coldCache twoClusterDisk) =
    .ok (r, c') ∧ On twoClusterDisk c' ∧
      ReadExactly fourClusters twoClusterDisk twoClusterFile [100, 412, 0, 200] r :=
  fat_reads_exact fourClusters_sized (by decide) (by decide) twoClusterFile_sound rfl rfl
    (by decide) (coldCache_on _)

end SkyOS
