import SkyOS.Fs.Direntry

/-!
# Writing

`fs/write.c`.
-/

namespace SkyOS

open ByteMem WriteBack

def u16 (n : ℕ) : ℕ := n % 2 ^ 16

-- ---------------------------------------------------------------------------
-- The FAT
-- ---------------------------------------------------------------------------

def findFree (h : Fat) : ℕ → ℕ → Fs (Option ℕ)
  | 0, _ => return none
  | n + 1, i => do if (← fatGetNextCluster h i) = 0 then return some i else findFree h n (i + 1)

def fatFindFreeCluster (h : Fat) : Fs (ℕ × Fat) := do
  match ← findFree h (h.clusterCount - h.lastClusterAlloc) h.lastClusterAlloc with
  | some i => return (i, { h with lastClusterAlloc := i })
  | none =>
    match ← findFree h (h.lastClusterAlloc - 2) 2 with
    | some i => return (i, { h with lastClusterAlloc := i })
    | none => return (0, h)

def fatSector (h : Fat) (fat offset : ℕ) : ℕ :=
  u32 (h.reservedSectorCount + u32 (fat * h.fatSize) + offset / h.bytesPerSector)

def fat32SetNextCluster (h : Fat) (fat cluster next : ℕ) : Fs Unit := do
  let offset := u32 (cluster * 4)
  nonzero h.bytesPerSector
  let sector := fatSector h fat offset
  let offset := offset % h.bytesPerSector
  getSector sector
  let next := next &&& 0x0FFFFFFF
  let next := next ||| ((← getLe offset 4) &&& 0xF0000000)
  putLe offset 4 next
  putSector sector

def fat16SetNextCluster (h : Fat) (fat cluster next : ℕ) : Fs Unit := do
  let offset := u16 cluster * 2
  nonzero h.bytesPerSector
  let sector := fatSector h fat offset
  let offset := offset % h.bytesPerSector
  getSector sector
  putLe offset 2 (u16 next)
  putSector sector

def fat12SetNextCluster (h : Fat) (fat cluster next : ℕ) : Fs Unit := do
  let cluster := u16 cluster
  let next := u16 next
  let offset := cluster + cluster / 2
  nonzero h.bytesPerSector
  let sector := fatSector h fat offset
  let offset := offset % h.bytesPerSector
  getSector sector
  if offset = h.bytesPerSector - 1 then
    if cluster &&& 1 ≠ 0 then
      let next := u16 (next <<< 4)
      putLe offset 1 (((← getLe offset 1) &&& 0x0F) ||| (next &&& 0xF0))
      putSector sector
      let sector := u32 (sector + 1)
      getSector sector
      putLe 0 1 (next >>> 8)
      putSector sector
    else
      putLe offset 1 (next &&& 0xFF)
      putSector sector
      let sector := u32 (sector + 1)
      getSector sector
      putLe 0 1 (((← getLe 0 1) &&& 0xF0) ||| ((next >>> 8) &&& 0x0F))
      putSector sector
  else
    let old ← getLe offset 2
    if cluster &&& 1 ≠ 0 then putLe offset 2 (u16 (next <<< 4) ||| (old &&& 0xF))
    else putLe offset 2 ((next &&& 0x0FFF) ||| (old &&& 0xF000))
    putSector sector

def fatSetCopy (h : Fat) (cluster next fat : ℕ) : Fs Unit :=
  match h.type with
  | .fat12 => fat12SetNextCluster h fat cluster next
  | .fat16 => fat16SetNextCluster h fat cluster next
  | .fat32 => fat32SetNextCluster h fat cluster next

def fatSetCopies (h : Fat) (cluster next : ℕ) : ℕ → ℕ → Fs Unit
  | 0, _ => return ()
  | n + 1, i => do
    fatSetCopy h cluster next i
    fatSetCopies h cluster next n (i + 1)

def fatSetNextCluster (h : Fat) (cluster next : ℕ) : Fs Unit :=
  fatSetCopies h cluster next h.numFats 0

/-- The writes that clear a new cluster, `n` sectors from `sector` on. -/
def clearSectors : ℕ → ℕ → Fs Unit
  | 0, _ => return ()
  | n + 1, sector => do
    writeSector (u32 sector)
    clearSectors n (sector + 1)

def fatAllocNextCluster (h : Fat) (cluster : ℕ) (clear : Bool) : Fs (ℕ × Fat) := do
  let next ← fatGetNextCluster h cluster
  if next ≠ fatEoc h then return (next, h)
  let (next, h) ← fatFindFreeCluster h
  if next = 0 then return (0, h)
  fatSetNextCluster h next (fatEoc h)
  fatSetNextCluster h cluster next
  if clear then
    let sector := fatFirstSectorOfCluster h next
    flushSector
    clearBuf h.bytesPerSector
    clearSectors h.sectorsPerCluster sector
  return (next, h)

-- ---------------------------------------------------------------------------
-- Files
-- ---------------------------------------------------------------------------

/-- `open` with this flag leaves the directory entry to `fat_file_sync`. -/
abbrev oAsync : ℕ := 0o20000

def fatFileSync (h : Handle) : Fs Unit := do
  getSector h.direntSector
  putLe (h.direntOffset + 28) 4 h.size
  putLe (h.direntOffset + 20) 2 (h.firstCluster >>> 16)
  putLe (h.direntOffset + 26) 2 (h.firstCluster &&& 0xFFFF)
  putSector h.direntSector
  flushSector

def fatWriteChunk (fat : Fat) (sector offset chunk : ℕ) (b : ℕ → UInt8) : Fs Unit := do
  if chunk < fat.bytesPerSector then getSector sector else flushSector
  writeBuf offset chunk b
  putSector sector

/-- The loop of `fat_write`, with `i` bytes of `n` written: how many were written
in the end. -/
def fatWriteLoop (b : ℕ → UInt8) (n : ℕ) : ℕ → ℕ → ℕ → ℕ → Fat → Handle → Fs (ℕ × Fat × Handle)
  | 0, i, _, _, fat, h => return (i, fat, h)
  | fuel + 1, i, sector, offset, fat, h => do
    if n ≤ i then return (i, fat, h)
    let chunk := min (fat.bytesPerSector - offset) (n - i)
    fatWriteChunk fat sector offset chunk fun j => b (i + j)
    let h := { h with position := u32 (h.position + chunk) }
    let i := i + chunk
    if h.position % fat.bytesPerSector ≠ 0 then return (i, fat, h)
    let sector := u32 (sector + 1)
    if !h.rootFlag ∧ sector % fat.sectorsPerCluster = 0 then
      let (next, fat) ← fatAllocNextCluster fat h.curCluster (h.size == 0)
      if next = 0 then return (i, fat, h)
      fatWriteLoop b n fuel i (fatFirstSectorOfCluster fat next) 0 fat { h with curCluster := next }
    else fatWriteLoop b n fuel i sector 0 fat h

/-- The first cluster of a file that was empty. `none` if there is none. -/
def fatFirstAlloc (fat : Fat) (h : Handle) (size : ℤ) : Fs (Option (Fat × Handle)) := do
  if h.curCluster = 0 ∧ size ≠ 0 then
    let (cluster, fat) ← fatFindFreeCluster fat
    let h := { h with firstCluster := cluster }
    if cluster = 0 then return none
    fatSetNextCluster fat cluster (fatEoc fat)
    return some (fat, { h with curCluster := cluster })
  else return some (fat, h)

def fatWrite (fat : Fat) (h : Handle) (b : ℕ → UInt8) (size : ℤ) : Fs (ℕ × Fat × Handle) := do
  match ← fatFirstAlloc fat h size with
  | none => return (0, fat, { h with firstCluster := 0 })
  | some (fat, h) =>
    let size := if h.rootFlag ∧ u32 (h.position + u32OfInt size) > h.size then
      intOfU32 (u32Sub h.size h.position) else size
    let (sector, offset) ← fatFileSectorOffset fat h
    let (i, fat, h) ← fatWriteLoop b size.toNat size.toNat 0 sector offset fat h
    if h.direntSector ≠ 0 ∧ h.position > h.size then
      let h := { h with size := h.position }
      if h.flags &&& oAsync = 0 then fatFileSync h
      return (i, fat, h)
    else return (i, fat, h)

def unlinkRounds : ℕ := 2 ^ 33

def fatChainUnlink (vol : Fat) : ℕ → ℕ → Fs Unit
  | 0, _ => stop .hang
  | fuel + 1, cluster => do
    if cluster = 0 ∨ cluster = fatEoc vol then return ()
    else
      let next ← fatGetNextCluster vol cluster
      fatSetNextCluster vol cluster 0
      fatChainUnlink vol fuel next

def fatUnlink (vol : Vol) (name : CStr) : Fs (ℤ × Vol) := do
  match ← fatOpen vol name 0 with
  | (r, none, vol) => return (r, vol)
  | (_, some h, vol) =>
    if h.direntSector = 0 then return (eIsDir, vol)
    fatChainUnlink vol.fat unlinkRounds h.firstCluster
    getSector h.direntSector
    putLe h.direntOffset 1 0xE5
    putSector h.direntSector
    return (0, vol)

-- ---------------------------------------------------------------------------
-- Names
-- ---------------------------------------------------------------------------

def strrchrDot (name : CStr) : Option ℕ :=
  ((List.range name.length).reverse.find? fun i => name.byte i == 0x2e).map (· + 1)

/-- How many characters the first loop of `build_short_name` copies. -/
def stemLength (name : CStr) : ℕ :=
  ((List.range 8).takeWhile fun i => name.byte i != 0 && name.byte i != 0x2e).length

/-- Three characters from the second one after the dot on, up to a NUL. -/
def suffixChars (name : CStr) (suffix : ℕ) : List UInt8 :=
  ((List.range 3).map fun j => name.byte (suffix + j + 1)).takeWhile (· != 0)

/-- A short name for a long name. `n` is used if the name is too long. -/
def buildShortName (name : CStr) (n : ℕ) : ℕ → UInt8 :=
  let i := stemLength name
  let sname : ℕ → UInt8 := fun j => if j < i then toupper (name.byte j) else 0x20
  let sname := match strrchrDot name with
    | some suffix =>
      let l := suffixChars name suffix
      fun j => if 8 ≤ j ∧ j < 8 + l.length then toupper (l.getD (j - 8) 0) else sname j
    | none => sname
  if (i = 8 ∧ name.byte i ≠ 0x2e) ∨ strrchrDot name ≠ some i then
    let i := min i 6
    Function.update (Function.update sname i 0x7e) (i + 1) (UInt8.ofNat (0x30 + n % 10))
  else sname

def shortCStr (sname : ℕ → UInt8) : CStr := .ofList ((List.range 11).map sname)

/-- The loop over the short names from `i` on: the first one that is not taken, and
the last file that was found under one. -/
def shortNameSearch (name : CStr) : ℕ → ℕ → Option Handle → Vol →
    Fs (Option (ℕ → UInt8) × Option Handle × Vol)
  | 0, _, file, vol => return (none, file, vol)
  | fuel + 1, i, file, vol => do
    let sname := buildShortName name i
    let (r, f, vol) ← fatOpen vol (shortCStr sname) 0
    if r ≠ 0 then return (some sname, file, vol)
    shortNameSearch name fuel (i + 1) f vol

-- ---------------------------------------------------------------------------
-- New files
-- ---------------------------------------------------------------------------

def longEntry (name : CStr) (sname : ℕ → UInt8) (i : ℕ) (last : Bool) : Mem :=
  let char (k j : ℕ) (m : Mem) : Mem := writeLE m k 2 (name.byte (i * 13 + j)).toNat
  let m : Mem := fun _ => 0
  let m := writeLE m 0 1 (if last then (i + 1) ||| 0x40 else i + 1)
  let m := (List.range 5).foldl (fun m j => char (1 + 2 * j) j m) m
  let m := writeLE m 11 1 fatAttrLongName.toNat
  let m := writeLE m 13 1 (fatDirentChksum sname).toNat
  let m := (List.range 6).foldl (fun m j => char (14 + 2 * j) (j + 5) m) m
  (List.range 2).foldl (fun m j => char (28 + 2 * j) (j + 11) m) m

def shortEntry (sname : ℕ → UInt8) (attr : UInt8) (cluster : ℕ) : Mem :=
  let m : Mem := fun i => if i < 11 then sname i else 0
  let m := writeLE m 11 1 attr.toNat
  writeLE (writeLE m 20 2 (cluster >>> 16)) 26 2 (cluster &&& 0xFFFF)

/-- The long name entries from `i` down. `false` if one is not written. -/
def writeLongEntries (name : CStr) (sname : ℕ → UInt8) : ℕ → Bool → Vol → Fs (Bool × Vol)
  | 0, _, vol => return (true, vol)
  | n + 1, last, vol => do
    let (i, fat, cwd) ← fatWrite vol.fat vol.cwd (longEntry name sname n last) direntSize
    if i ≠ direntSize then return (false, ⟨fat, cwd⟩)
    writeLongEntries name sname n false ⟨fat, cwd⟩

/-- The cluster of a new directory; a file has none. `none` if there is none left. -/
def newDirCluster (vol : Vol) (attr : UInt8) : Fs (Option ℕ × Vol) := do
  if attr = fatAttrDirectory then
    let (cluster, fat) ← fatFindFreeCluster vol.fat
    let vol := { vol with fat }
    if cluster = 0 then return (none, vol)
    fatSetNextCluster vol.fat cluster (fatEoc vol.fat)
    return (some cluster, vol)
  else return (some 0, vol)

/-- The file is `none` if there was none under any name that was looked up. -/
def fatDirCreateFile (vol : Vol) (name : CStr) (attr : UInt8) : Fs (ℤ × Option Handle × Vol) := do
  let (r, file, vol) ← fatOpen vol name 0
  if r = 0 then return (-1, file, vol)
  let (sname, file, vol) ← shortNameSearch name 9 1 none vol
  match sname with
  | none => return (-1, file, vol)
  | some sname =>
    if sname 0 = 0x20 then return (-1, file, vol)
    let cwd ← fatDirSeekEmpty vol.fat vol.cwd (name.length / 13 + 2)
    let (ok, vol) ← writeLongEntries name sname (name.length / 13 + 1) true { vol with cwd }
    if !ok then return (-1, file, vol)
    let (cluster, vol) ← newDirCluster vol attr
    match cluster with
    | none => return (-1, file, vol)
    | some cluster =>
      let (i, fat, cwd) ← fatWrite vol.fat vol.cwd (shortEntry sname attr cluster) direntSize
      if i ≠ direntSize then return (-1, file, ⟨fat, cwd⟩)
      let (r, f, vol) ← fatOpen ⟨fat, cwd⟩ name 0
      return (r, f <|> file, vol)

def putSectors : ℕ → ℕ → Fs Unit
  | 0, _ => return ()
  | n + 1, sector => do
    putSector (u32 sector)
    putSectors n (sector + 1)

/-- The entry of a directory at `cluster`, with a name of `n` dots. -/
def dotEntry (n cluster : ℕ) : Mem :=
  shortEntry (fun i => if i < n then 0x2e else 0x20) fatAttrDirectory cluster

def fatMkdir (vol : Vol) (name : CStr) : Fs (ℤ × Vol) := do
  match ← fatDirCreateFile vol name fatAttrDirectory with
  | (r, file, vol) =>
    match file with
    | none => return (r, vol)
    | some dir =>
      if r ≠ 0 then return (r, vol)
      flushSector
      clearBuf vol.fat.bytesPerSector
      putSectors vol.fat.sectorsPerCluster (fatFirstSectorOfCluster vol.fat dir.firstCluster)
      let (_, fat, dir) ← fatWrite vol.fat dir (dotEntry 1 dir.firstCluster) direntSize
      let parent := if !vol.cwd.rootFlag ∧ vol.fat.rootCluster ≠ vol.cwd.firstCluster then
        vol.cwd.firstCluster else 0
      let (_, fat, _) ← fatWrite fat dir (dotEntry 2 parent) direntSize
      return (0, { vol with fat })

def fatCreate (vol : Vol) (name : CStr) (flags : ℕ) (file : Handle) : Fs (ℤ × Handle × Vol) := do
  let (r, f, vol) ← fatDirCreateFile vol name fatAttrArchive
  return (r, { f.getD file with flags }, vol)

end SkyOS
