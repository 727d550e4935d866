import SkyOS.Base
import SkyOS.Lib.ByteMem
import SkyOS.Lib.WriteBack

/-!
# FAT volumes

`fs/fat_core.c` over `fs/fat_core.h`, `fs/bpb.h` and `openfat/leaccess.h`. The
device is the only one there is, and it never fails. Indices past the buffer and
divisions by zero have no meaning in C.
-/

namespace SkyOS

open ByteMem WriteBack

-- ---------------------------------------------------------------------------
-- _fat_sector_buf
-- ---------------------------------------------------------------------------

abbrev maxSectorSize : ℕ := 512

abbrev Sector := Fin maxSectorSize → UInt8

abbrev Fs := Prog Sector Stop

def Sector.mem (s : Sector) : Mem := fun i => if h : i < maxSectorSize then s ⟨i, h⟩ else 0

def Sector.ofMem (m : Mem) : Sector := fun i => m i

def stop (e : Stop) : Fs α := .fail e

def inBuf (off n : ℕ) : Fs Unit := if off + n ≤ maxSectorSize then return () else stop .wild

def nonzero (n : ℕ) : Fs Unit := if n = 0 then stop .wild else return ()

def getLe (off n : ℕ) : Fs ℕ := do
  inBuf off n
  return readLE (← loadBuf).mem off n

def putLe (off n v : ℕ) : Fs Unit := do
  inBuf off n
  storeBuf (.ofMem (writeLE (← loadBuf).mem off n v))

def readBuf (off n : ℕ) : Fs (List UInt8) := do
  inBuf off n
  let s ← loadBuf
  return (List.range n).map fun i => s.mem (off + i)

def writeBuf (off n : ℕ) (b : ℕ → UInt8) : Fs Unit := do
  inBuf off n
  let s ← loadBuf
  storeBuf fun i => if off ≤ i.val ∧ i.val < off + n then b (i.val - off) else s i

def clearBuf (n : ℕ) : Fs Unit := writeBuf 0 n fun _ => 0

-- ---------------------------------------------------------------------------
-- struct fat_vol_handle and struct fat_file_handle
-- ---------------------------------------------------------------------------

inductive FatType
  | fat12
  | fat16
  | fat32
  deriving DecidableEq

/-- A volume but for `cwd`. `root` is the union that holds `root_cluster` on
FAT32, and `root_sector_count` and `root_first_sector` elsewhere. -/
structure Fat where
  type : FatType
  bytesPerSector : ℕ
  sectorsPerCluster : ℕ
  reservedSectorCount : ℕ
  numFats : ℕ
  firstDataSector : ℕ
  clusterCount : ℕ
  fatSize : ℕ
  root : ℕ
  lastClusterAlloc : ℕ
  deriving DecidableEq

namespace Fat

def rootCluster (h : Fat) : ℕ := h.root
def rootSectorCount (h : Fat) : ℕ := h.root % 2 ^ 16
def rootFirstSector (h : Fat) : ℕ := h.root / 2 ^ 16

end Fat

structure Handle where
  size : ℕ
  firstCluster : ℕ
  position : ℕ
  curCluster : ℕ
  rootFlag : Bool
  flags : ℕ
  direntSector : ℕ
  direntOffset : ℕ
  deriving DecidableEq

structure Vol where
  fat : Fat
  cwd : Handle
  deriving DecidableEq

def fatEoc (h : Fat) : ℕ :=
  match h.type with
  | .fat12 => 0x0FF8
  | .fat16 => 0xFFF8
  | .fat32 => 0x0FFFFFF8

def fatFirstSectorOfCluster (h : Fat) (n : ℕ) : ℕ :=
  u32 (u32Sub n 2 * h.sectorsPerCluster + h.firstDataSector)

-- ---------------------------------------------------------------------------
-- fs/fat_core.c
-- ---------------------------------------------------------------------------

def fatOffset (h : Fat) (cluster : ℕ) : ℕ :=
  match h.type with
  | .fat12 => u32 (cluster + cluster / 2)
  | .fat16 => u32 (cluster * 2)
  | .fat32 => u32 (cluster * 4)

/-- The two bytes at `offset` of a sector. The second one may be in the next sector. -/
def getFat12 (h : Fat) (sector offset : ℕ) : Fs ℕ := do
  if offset = h.bytesPerSector - 1 then
    let next ← getLe offset 1
    getSector (u32 (sector + 1))
    return next + (← getLe 0 1) <<< 8
  else getLe offset 2

def fatGetNextCluster (h : Fat) (cluster : ℕ) : Fs ℕ := do
  nonzero h.bytesPerSector
  let offset := fatOffset h cluster
  let sector := u32 (h.reservedSectorCount + offset / h.bytesPerSector)
  let offset := offset % h.bytesPerSector
  getSector sector
  match h.type with
  | .fat12 =>
    let next ← getFat12 h sector offset
    if cluster &&& 1 ≠ 0 then return next >>> 4 else return next &&& 0xFFF
  | .fat16 => getLe offset 2
  | .fat32 => return (← getLe offset 4) &&& 0x0FFFFFFF

def fatFileRoot (h : Fat) : Handle :=
  match h.type with
  | .fat32 => ⟨0, h.rootCluster, 0, h.rootCluster, false, 0, 0, 0⟩
  | _ => ⟨u32 (h.rootSectorCount * h.bytesPerSector), h.rootFirstSector, 0, h.rootFirstSector, true,
      0, 0, 0⟩

def fatFileInit (d : Mem) : Handle :=
  let first := readLE d 20 2 <<< 16 ||| readLE d 26 2
  ⟨readLE d 28 4, first, 0, first, false, 0, 0, 0⟩

inductive Whence
  | set
  | cur
  | fromEnd
  | other
  deriving DecidableEq

def followChain (h : Fat) : ℕ → ℕ → Fs ℕ
  | 0, cluster => return cluster
  | n + 1, cluster => do followChain h n (← fatGetNextCluster h cluster)

def fatLseek (fat : Fat) (h : Handle) (offset : ℕ) (whence : Whence) : Fs (ℕ × Handle) := do
  let h := { h with curCluster := h.firstCluster }
  let offset := match whence with
    | .set => some offset
    | .cur => some (u32 (offset + h.position))
    | .fromEnd => some (u32 (offset + h.size))
    | .other => none
  match offset with
  | none => return (2 ^ 32 - 1, h)
  | some offset =>
    let offset := if h.size ≠ 0 ∧ offset > h.size then h.size else offset
    let h := { h with position := offset }
    if h.rootFlag then return (offset, h)
    let clusterSize := fat.sectorsPerCluster * fat.bytesPerSector
    if clusterSize = 0 then stop .hang
    else
      let cluster ← followChain fat (offset / clusterSize) h.curCluster
      return (offset, { h with curCluster := cluster })

def fatFileSectorOffset (fat : Fat) (h : Handle) : Fs (ℕ × ℕ) := do
  nonzero fat.bytesPerSector
  let index := h.position / fat.bytesPerSector
  let offset := h.position % fat.bytesPerSector
  if h.rootFlag then return (u32 (h.curCluster + index), offset)
  else
    nonzero fat.sectorsPerCluster
    return (u32 (fatFirstSectorOfCluster fat h.curCluster + index % fat.sectorsPerCluster), offset)

def u32OfInt (n : ℤ) : ℕ := (n % 2 ^ 32).toNat

def intOfU32 (n : ℕ) : ℤ := if n < 2 ^ 31 then n else n - 2 ^ 32

/-- The loop of `fat_read`, with `n` bytes to go. -/
def fatReadLoop (fat : Fat) : ℕ → ℕ → ℕ → ℕ → Handle → Fs (List UInt8 × Handle)
  | 0, _, _, _, h => return ([], h)
  | fuel + 1, n, sector, offset, h => do
    if n = 0 then return ([], h)
    let chunk := min (fat.bytesPerSector - offset) n
    getSector sector
    let l ← readBuf offset chunk
    let h := { h with position := u32 (h.position + chunk) }
    if h.position % fat.bytesPerSector ≠ 0 then return (l, h)
    let sector := u32 (sector + 1)
    let tmpoff := fat.firstDataSector % fat.sectorsPerCluster
    if !h.rootFlag ∧ sector % fat.sectorsPerCluster = tmpoff then
      let cluster ← fatGetNextCluster fat h.curCluster
      let h := { h with curCluster := cluster }
      if cluster = fatEoc fat then return (l, h)
      let (l', h) ← fatReadLoop fat fuel (n - chunk) (fatFirstSectorOfCluster fat cluster) 0 h
      return (l ++ l', h)
    else
      let (l', h) ← fatReadLoop fat fuel (n - chunk) sector 0 h
      return (l ++ l', h)

/-- The bytes that were read; their number is what the function returns. -/
def fatRead (fat : Fat) (h : Handle) (size : ℤ) : Fs (List UInt8 × Handle) := do
  let (sector, offset) ← fatFileSectorOffset fat h
  let size := if h.size ≠ 0 ∧ u32 (h.position + u32OfInt size) > h.size then
    intOfU32 (u32Sub h.size h.position) else size
  fatReadLoop fat size.toNat size.toNat sector offset h

-- ---------------------------------------------------------------------------
-- fs/bpb.h
-- ---------------------------------------------------------------------------

structure Bpb where
  bytesPerSector : ℕ
  sectorsPerCluster : ℕ
  reservedSectorCount : ℕ
  numFats : ℕ
  rootEntryCount : ℕ
  totalSectors16 : ℕ
  fatSize16 : ℕ
  totalSectors32 : ℕ
  fatSize32 : ℕ
  rootCluster : ℕ
  deriving DecidableEq

def readBpb (m : Mem) : Bpb where
  bytesPerSector := readLE m 11 2
  sectorsPerCluster := readLE m 13 1
  reservedSectorCount := readLE m 14 2
  numFats := readLE m 16 1
  rootEntryCount := readLE m 17 2
  totalSectors16 := readLE m 19 2
  fatSize16 := readLE m 22 2
  totalSectors32 := readLE m 32 4
  fatSize32 := readLE m 36 4
  rootCluster := readLE m 44 4

namespace Bpb

def rootDirSectors (b : Bpb) : ℕ :=
  (b.rootEntryCount * 32 + (b.bytesPerSector - 1)) / b.bytesPerSector

def fatSize (b : Bpb) : ℕ := if b.fatSize16 = 0 then b.fatSize32 else b.fatSize16

def firstDataSector (b : Bpb) : ℕ :=
  u32 (b.reservedSectorCount + b.numFats * b.fatSize + b.rootDirSectors)

def clusterCount (b : Bpb) : ℕ :=
  let totSec := if b.totalSectors16 = 0 then b.totalSectors32 else b.totalSectors16
  u32Sub totSec b.firstDataSector / b.sectorsPerCluster

def fatType (b : Bpb) : FatType :=
  if b.clusterCount < 4085 then .fat12 else if b.clusterCount < 65525 then .fat16 else .fat32

end Bpb

def fatVolInit : Fs Vol := do
  getSector 0
  let bpb := readBpb (← loadBuf).mem
  nonzero bpb.bytesPerSector
  nonzero bpb.sectorsPerCluster
  let type := bpb.fatType
  let rootSectorCount := bpb.rootDirSectors % 2 ^ 16
  let root := match type with
    | .fat32 => bpb.rootCluster
    | _ => rootSectorCount + u32Sub bpb.firstDataSector rootSectorCount % 2 ^ 16 * 2 ^ 16
  let fat : Fat := {
    type
    bytesPerSector := bpb.bytesPerSector
    sectorsPerCluster := bpb.sectorsPerCluster
    reservedSectorCount := bpb.reservedSectorCount
    numFats := bpb.numFats
    firstDataSector := bpb.firstDataSector
    clusterCount := bpb.clusterCount
    fatSize := bpb.fatSize
    root
    lastClusterAlloc := 2 }
  return ⟨fat, fatFileRoot fat⟩

end SkyOS
