import SkyOS.Fs.Disk

/-!
# Mounting

`fat_vol_init` takes every boot sector. The handle can be used just if the fields agree with
each other and with the buffer.
-/

namespace SkyOS

open ByteMem WriteBack

-- ---------------------------------------------------------------------------
-- What a volume should look like
-- ---------------------------------------------------------------------------

namespace Bpb

def totSec (b : Bpb) : ℕ := if b.totalSectors16 = 0 then b.totalSectors32 else b.totalSectors16

/-- None of the subtractions of `uint32`s in `_bpb_cluster_count` and in `fat_vol_init` wraps. -/
structure NoWrap (b : Bpb) : Prop where
  reserved : b.reservedSectorCount ≤ b.totSec
  fats : u32 (b.numFats * b.fatSize) ≤ b.totSec - b.reservedSectorCount
  root : b.rootDirSectors ≤ b.totSec - b.reservedSectorCount - u32 (b.numFats * b.fatSize)
  first : b.fatType ≠ .fat32 → b.rootDirSectors % 2 ^ 16 ≤ b.firstDataSector

end Bpb

/-- The first sector of each region, and its length. On FAT32 the handle does not say where
the root directory of the boot sector is. -/
def Fat.regions (h : Fat) (b : Bpb) : List (ℕ × ℕ) :=
  [(0, h.reservedSectorCount), (h.reservedSectorCount, h.numFats * h.fatSize),
    if h.type = .fat32 then (h.reservedSectorCount + h.numFats * h.fatSize, b.rootDirSectors)
    else (h.rootFirstSector, h.rootSectorCount),
    (h.firstDataSector, h.clusterCount * h.sectorsPerCluster)]

/-- The geometry of `h` can be used with the buffer, on a volume with the boot sector `b`. -/
structure Fat.Usable (h : Fat) (b : Bpb) : Prop where
  sector : h.bytesPerSector = maxSectorSize
  cluster : 1 ≤ h.sectorsPerCluster
  consecutive : (h.regions b).IsChain fun r r' => r.1 + r.2 = r'.1
  disjoint : (h.regions b).Pairwise fun r r' =>
    Disjoint (Set.Ico r.1 (r.1 + r.2)) (Set.Ico r'.1 (r'.1 + r'.2))
  inside : ∀ n, 2 ≤ n → n < h.clusterCount + 2 →
    h.firstDataSector ≤ fatFirstSectorOfCluster h n ∧
      fatFirstSectorOfCluster h n + h.sectorsPerCluster ≤ b.totSec

/-- `fat_vol_init` on the disk `D` divides by no zero, wraps nothing and leaves a geometry that
can be used. It has no other way to end. -/
def Mounts (D : Disk) (c : Cached Sector) : Prop :=
  (readBpb (D 0).mem).NoWrap ∧ ∃ vol c', fatVolInit.cached c = .ok (vol, c') ∧
    vol.fat.Usable (readBpb (D 0).mem)

structure Bpb.Sound (b : Bpb) : Prop where
  sector : b.bytesPerSector = maxSectorSize
  cluster : b.sectorsPerCluster ≠ 0
  room : b.reservedSectorCount + b.numFats * b.fatSize + (b.rootEntryCount * 32 + 511) / 512 ≤
    b.totSec
  root : b.totSec < b.reservedSectorCount + b.numFats * b.fatSize +
      (b.rootEntryCount * 32 + 511) / 512 + 65525 * b.sectorsPerCluster →
    b.reservedSectorCount + b.numFats * b.fatSize < 2 ^ 16

-- ---------------------------------------------------------------------------
-- What fat_vol_init does
-- ---------------------------------------------------------------------------

def Bpb.volume (b : Bpb) : Fat where
  type := b.fatType
  bytesPerSector := b.bytesPerSector
  sectorsPerCluster := b.sectorsPerCluster
  reservedSectorCount := b.reservedSectorCount
  numFats := b.numFats
  firstDataSector := b.firstDataSector
  clusterCount := b.clusterCount
  fatSize := b.fatSize
  root := match b.fatType with
    | .fat32 => b.rootCluster
    | _ => b.rootDirSectors % 2 ^ 16 + u32Sub b.firstDataSector (b.rootDirSectors % 2 ^ 16) % 2 ^
        16 * 2 ^ 16
  lastClusterAlloc := 2

section
variable {D : Disk} {c : Cached Sector} {b : Bpb}

theorem fatVolInit_eq : fatVolInit = do
    getSector 0
    let s ← loadBuf
    nonzero (readBpb s.mem).bytesPerSector
    nonzero (readBpb s.mem).sectorsPerCluster
    return ⟨(readBpb s.mem).volume, fatFileRoot (readBpb s.mem).volume⟩ := by
  unfold fatVolInit
  refine congrArg (getSector 0 >>= ·) (funext fun _ =>
    congrArg (loadBuf >>= ·) (funext fun s => ?_))
  generalize readBpb s.mem = b
  refine congrArg (nonzero b.bytesPerSector >>= ·) (funext fun _ =>
    congrArg (nonzero b.sectorsPerCluster >>= ·) (funext fun _ => ?_))
  unfold Bpb.volume
  -- not by evaluation: the type is decided by a division of numbers that wrap
  generalize b.fatType = t
  cases t with
  | fat12 => rfl
  | fat16 => rfl
  | fat32 => rfl

theorem fatVolInit_run (hc : On D c)
    (hb : (readBpb (D 0).mem).bytesPerSector ≠ 0) (hs : (readBpb (D 0).mem).sectorsPerCluster ≠ 0) :
    ∃ c', fatVolInit.cached c =
      .ok (⟨(readBpb (D 0).mem).volume, fatFileRoot (readBpb (D 0).mem).volume⟩, c') := by
  have hrun :
      Gives .univ (On D) fatVolInit ⟨(readBpb (D 0).mem).volume,
      fatFileRoot (readBpb (D 0).mem).volume⟩ (At 0 D) := by
    rw [fatVolInit_eq]
    refine (gives_get (Set.mem_univ 0)).bind ?_
    refine (gives_load 0).bind ?_
    refine (gives_nonzero hb).bind ?_
    exact (gives_nonzero hs).bind (Gives.pure _ fun _ => id)
  obtain ⟨-, c', hrun, -⟩ := hrun.run hc
  exact ⟨c', hrun⟩

theorem returns_nonzero {P : Cached Sector → Prop} (n : ℕ) : Returns P (nonzero n) fun _ => P := by
  unfold nonzero
  split
  · exact Returns.fail
  · exact Returns.pure fun _ => id

theorem fatVolInit_volume (hc : On D c) (hrun : fatVolInit.cached c = .ok (vol, c')) :
    vol.fat = (readBpb (D 0).mem).volume := by
  have hvol : Returns (On D) fatVolInit fun vol _ => vol.fat = (readBpb (D 0).mem).volume := by
    rw [fatVolInit_eq]
    refine (gives_get (Set.mem_univ 0)).returns.bind fun _ => ?_
    refine Returns.bind ((gives_load (S := .univ) 0).returns.pre fun _ => And.right) fun s => ?_
    refine Returns.bind (returns_nonzero _) fun _ => Returns.bind (returns_nonzero _) fun _ =>
      Returns.pure ?_
    rintro c ⟨rfl, -⟩
    rfl
  exact hvol c hc vol c' hrun

-- ---------------------------------------------------------------------------
-- Regions
-- ---------------------------------------------------------------------------

theorem disjoint_of_consecutive {l : List (ℕ × ℕ)} (h : l.IsChain fun r r' => r.1 + r.2 = r'.1) :
    l.Pairwise fun r r' => Disjoint (Set.Ico r.1 (r.1 + r.2)) (Set.Ico r'.1 (r'.1 + r'.2)) := by
  have hle : l.IsChain fun r r' : ℕ × ℕ => r.1 + r.2 ≤ r'.1 := h.imp fun _ _ => Eq.le
  have : Trans (fun r r' : ℕ × ℕ => r.1 + r.2 ≤ r'.1) (fun r r' : ℕ × ℕ => r.1 + r.2 ≤ r'.1)
      (fun r r' : ℕ × ℕ => r.1 + r.2 ≤ r'.1) :=
    ⟨fun h₁ h₂ => by omega⟩
  refine (List.isChain_iff_pairwise.mp hle).imp fun {r r'} hr => ?_
  exact Set.disjoint_left.mpr fun x h₁ h₂ => absurd (h₁.2.trans_le (hr.trans h₂.1)) (lt_irrefl _)

theorem u32Sub_of_le (hd : d ≤ n) (hn : n < 2 ^ 32) : u32Sub n d = n - d := by
  unfold u32Sub
  omega

/-- What the width of its fields says of a boot sector. -/
structure Bpb.Small (b : Bpb) : Prop where
  cluster : b.sectorsPerCluster < 2 ^ 8
  entries : b.rootEntryCount < 2 ^ 16
  total : b.totSec < 2 ^ 32

theorem readBpb_small (m : Mem) : (readBpb m).Small where
  cluster := readLE_lt m 13 1
  entries := readLE_lt m 17 2
  total := by
    unfold Bpb.totSec
    split
    · exact readLE_lt m 32 4
    · exact (readLE_lt m 19 2).trans (by decide)

theorem Bpb.rootDirSectors_eq (hb : b.bytesPerSector = maxSectorSize) :
    b.rootDirSectors = (b.rootEntryCount * 32 + 511) / 512 := by
  rw [Bpb.rootDirSectors, hb]
  rfl

theorem Bpb.Sound.firstDataSector (h : b.Sound) (hb : b.Small) :
    b.firstDataSector = b.reservedSectorCount + b.numFats * b.fatSize + b.rootDirSectors := by
  have hroom := h.room
  have htotal := hb.total
  rw [← Bpb.rootDirSectors_eq h.sector] at hroom
  exact u32_of_lt (by omega)

theorem Bpb.clusterCount_eq (b : Bpb) :
    b.clusterCount = u32Sub b.totSec b.firstDataSector / b.sectorsPerCluster := rfl

theorem Bpb.Sound.clusterCount (h : b.Sound) (hb : b.Small) :
    b.firstDataSector + b.clusterCount * b.sectorsPerCluster ≤ b.totSec := by
  have hroom := h.room
  rw [← Bpb.rootDirSectors_eq h.sector, ← h.firstDataSector hb] at hroom
  rw [Bpb.clusterCount_eq, u32Sub_of_le hroom hb.total]
  have := Nat.div_mul_le_self (b.totSec - b.firstDataSector) b.sectorsPerCluster
  omega

theorem Bpb.rootDirSectors_lt (hb : b.bytesPerSector = maxSectorSize) (hs : b.Small) :
    b.rootDirSectors < 2 ^ 16 := by
  have := hs.entries
  rw [Bpb.rootDirSectors_eq hb]
  omega

theorem Bpb.fatType_fat32 (b : Bpb) : b.fatType = .fat32 ↔ 65525 ≤ b.clusterCount := by
  unfold Bpb.fatType
  split_ifs with h₁ h₂
  · exact ⟨nofun, fun h => by omega⟩
  · exact ⟨nofun, fun h => by omega⟩
  · exact ⟨fun _ => by omega, fun _ => rfl⟩

theorem Bpb.volume_root (ht : b.fatType ≠ .fat32) :
    b.volume.rootSectorCount = b.rootDirSectors % 2 ^ 16 ∧
    b.volume.rootFirstSector = u32Sub b.firstDataSector (b.rootDirSectors % 2 ^ 16) % 2 ^ 16 := by
  have hroot :
      b.volume.root = b.rootDirSectors % 2 ^ 16 +
      u32Sub b.firstDataSector (b.rootDirSectors % 2 ^ 16) % 2 ^ 16 * 2 ^ 16 := by
    unfold Bpb.volume
    generalize b.fatType = t at ht
    cases t with
    | fat12 => rfl
    | fat16 => rfl
    | fat32 => exact absurd rfl ht
  rw [Fat.rootSectorCount, Fat.rootFirstSector, hroot]
  omega

theorem Bpb.regions_chain (b : Bpb) : ((b.volume.regions b).IsChain fun r r' => r.1 + r.2 = r'.1) ↔
    if b.fatType = .fat32 then b.reservedSectorCount + b.numFats * b.fatSize + b.rootDirSectors =
      b.firstDataSector
    else b.reservedSectorCount + b.numFats * b.fatSize = b.volume.rootFirstSector ∧
      b.volume.rootFirstSector + b.volume.rootSectorCount = b.firstDataSector := by
  have hregions :
      b.volume.regions b =
      [(0, b.reservedSectorCount), (b.reservedSectorCount, b.numFats * b.fatSize),
      if b.fatType = .fat32 then (b.reservedSectorCount + b.numFats * b.fatSize, b.rootDirSectors)
      else (b.volume.rootFirstSector, b.volume.rootSectorCount),
          (b.firstDataSector, b.clusterCount * b.sectorsPerCluster)] := by
    unfold Fat.regions Bpb.volume
    rfl
  rw [hregions]
  simp only [List.isChain_cons_cons, List.isChain_singleton, Nat.zero_add, and_true, true_and]
  split
  · rw [and_iff_right rfl]
  · rfl

theorem Bpb.Sound.inside (h : b.Sound) (hb : b.Small) (hn : 2 ≤ n) (hlt : n < b.clusterCount + 2) :
    b.firstDataSector ≤ fatFirstSectorOfCluster b.volume n ∧
      fatFirstSectorOfCluster b.volume n + b.sectorsPerCluster ≤ b.totSec := by
  have hclusters := h.clusterCount hb
  have htotal := hb.total
  have hspc := Nat.pos_of_ne_zero h.cluster
  have hmul : (n - 2 + 1) * b.sectorsPerCluster ≤ b.clusterCount * b.sectorsPerCluster :=
    Nat.mul_le_mul_right _ (by omega)
  have hcount : b.clusterCount ≤ b.clusterCount * b.sectorsPerCluster :=
    Nat.le_mul_of_pos_right _ hspc
  rw [Nat.succ_mul] at hmul
  have hsub : u32Sub n 2 = n - 2 := by
    unfold u32Sub
    omega
  have hfirst : fatFirstSectorOfCluster b.volume n = (n - 2) * b.sectorsPerCluster +
      b.firstDataSector := by
    change u32 (u32Sub n 2 * b.sectorsPerCluster + b.firstDataSector) = _
    rw [hsub, u32_of_lt (by omega)]
  omega

theorem Bpb.Sound.noWrap (h : b.Sound) (hb : b.Small) : b.NoWrap := by
  have hroom := h.room
  have htotal := hb.total
  have hfirst := h.firstDataSector hb
  rw [← Bpb.rootDirSectors_eq h.sector] at hroom
  have hfats : u32 (b.numFats * b.fatSize) = b.numFats * b.fatSize := u32_of_lt (by omega)
  have hmod := Nat.mod_le b.rootDirSectors (2 ^ 16)
  exact ⟨by omega, by omega, by omega, fun _ => by omega⟩

theorem Bpb.Sound.usable (h : b.Sound) (hb : b.Small) : b.volume.Usable b := by
  have hfirst := h.firstDataSector hb
  have hchain : (b.volume.regions b).IsChain fun r r' => r.1 + r.2 = r'.1 := by
    rw [Bpb.regions_chain]
    split
    · exact hfirst.symm
    · rename_i ht
      obtain ⟨hcount, hplace⟩ := Bpb.volume_root ht
      have hsmall := Bpb.rootDirSectors_lt h.sector hb
      rw [Nat.mod_eq_of_lt hsmall] at hcount hplace
      have hclusters : b.clusterCount < 65525 := not_le.mp fun hle => ht (b.fatType_fat32.mpr hle)
      have hle := (Nat.le_add_right _ _).trans (h.clusterCount hb)
      have hlow : b.reservedSectorCount + b.numFats * b.fatSize < 2 ^ 16 := by
        refine h.root ?_
        rw [← Bpb.rootDirSectors_eq h.sector, ← hfirst]
        rw [Bpb.clusterCount_eq, u32Sub_of_le hle hb.total,
          Nat.div_lt_iff_lt_mul (Nat.pos_of_ne_zero h.cluster)] at hclusters
        omega
      have hlt : b.firstDataSector < 2 ^ 32 := hle.trans_lt hb.total
      rw [u32Sub_of_le (by omega) hlt, show b.firstDataSector -
          b.rootDirSectors = b.reservedSectorCount + b.numFats * b.fatSize by omega,
        Nat.mod_eq_of_lt hlow] at hplace
      rw [hplace, hcount]
      exact ⟨rfl, hfirst.symm⟩
  exact ⟨h.sector, Nat.pos_of_ne_zero h.cluster, hchain, disjoint_of_consecutive hchain,
    fun n hn hlt => h.inside hb hn hlt⟩

/-- A volume that can be used comes from a boot sector whose fields agree. -/
theorem Bpb.Sound.of_usable (hb : b.Small) (hw : b.NoWrap) (hu : b.volume.Usable b) : b.Sound := by
  have hsector : b.bytesPerSector = maxSectorSize := hu.sector
  have hcluster : b.sectorsPerCluster ≠ 0 := Nat.pos_iff_ne_zero.mp hu.cluster
  have hsmall := Bpb.rootDirSectors_lt hsector hb
  have hdata : b.firstDataSector < 2 ^ 32 := u32_lt _
  have hchain := (Bpb.regions_chain b).mp hu.consecutive
  have hfirst : b.reservedSectorCount + b.numFats * b.fatSize + b.rootDirSectors =
      b.firstDataSector ∧
      (b.fatType ≠ .fat32 → b.reservedSectorCount + b.numFats * b.fatSize < 2 ^ 16) := by
    split at hchain
    · rename_i ht
      exact ⟨hchain, fun h => absurd ht h⟩
    · rename_i ht
      obtain ⟨hcount, hplace⟩ := Bpb.volume_root ht
      rw [Nat.mod_eq_of_lt hsmall] at hcount
      have := Nat.mod_lt (u32Sub b.firstDataSector (b.rootDirSectors % 2 ^ 16))
        (show 0 < 2 ^ 16 by decide)
      exact ⟨by omega, fun _ => by omega⟩
  obtain ⟨hfirst, hlow⟩ := hfirst
  have hfats : u32 (b.numFats * b.fatSize) = b.numFats * b.fatSize := u32_of_lt (by omega)
  have hroom : b.reservedSectorCount + b.numFats * b.fatSize + b.rootDirSectors ≤ b.totSec := by
    obtain ⟨h₁, h₂, h₃, -⟩ := hw
    omega
  refine ⟨hsector, hcluster, ?_, fun hlt => hlow fun ht => ?_⟩
  · rwa [← Bpb.rootDirSectors_eq hsector]
  · have hclusters := b.fatType_fat32.mp ht
    rw [Bpb.clusterCount_eq, u32Sub_of_le (by omega) hb.total,
      Nat.le_div_iff_mul_le (Nat.pos_of_ne_zero hcluster)] at hclusters
    rw [← Bpb.rootDirSectors_eq hsector] at hlt
    omega

/-- A mount leaves a geometry that can be used just if the fields of the boot sector agree. -/
theorem mount_usable_iff (hc : On D c) : Mounts D c ↔ (readBpb (D 0).mem).Sound := by
  have hsmall := readBpb_small (D 0).mem
  constructor
  · rintro ⟨hw, vol, c', hrun, hu⟩
    rw [fatVolInit_volume hc hrun] at hu
    exact .of_usable hsmall hw hu
  · intro h
    obtain ⟨c', hrun⟩ := fatVolInit_run hc (by rw [h.sector]; decide) h.cluster
    exact ⟨h.noWrap hsmall, _, c', hrun, h.usable hsmall⟩

end

/-- A volume of 100 sectors of `n` bytes, with two FATs of one sector and 16 entries in the root
directory. -/
def bootDisk (n : ℕ) (_ : ℕ) : Sector := .ofMem <|
  writeLE (writeLE
    (writeLE (writeLE (writeLE (writeLE (writeLE (fun _ => 0) 11 2 n) 13 1 1) 14 2 1) 16 1 2) 17 2
    16) 19 2 100) 22 2 1

theorem mount_usable_boot : Mounts (bootDisk 512) (coldCache (bootDisk 512)) ↔
    (readBpb (bootDisk 512 0).mem).Sound :=
  mount_usable_iff (coldCache_on _)

/-- The sectors are larger than the buffer. -/
theorem mount_large_sectors :
    (∃ vol c', fatVolInit.cached (coldCache (bootDisk 1024)) = .ok (vol, c') ∧
      vol.fat.bytesPerSector = 1024) ∧
    ¬ Mounts (bootDisk 1024) (coldCache (bootDisk 1024)) := by
  have hsector : (readBpb (bootDisk 1024 0).mem).bytesPerSector = 1024 := by decide +kernel
  constructor
  · obtain ⟨c', hrun⟩ :=
        fatVolInit_run (coldCache_on (bootDisk 1024)) (by rw [hsector]; decide) (by decide +kernel)
    exact ⟨_, c', hrun, hsector⟩
  · rintro ⟨-, vol, c', hrun, hu⟩
    have hmax := hu.sector
    rw [fatVolInit_volume (coldCache_on _) hrun] at hmax
    exact absurd (hsector.symm.trans hmax) (by decide)

end SkyOS
