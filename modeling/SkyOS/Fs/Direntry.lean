import SkyOS.Fs.Core

/-!
# Directories

`fs/direntry.c`. A directory entry has 32 bytes; the fields of `fat_sdirent` and
`fat_ldirent` are read at their offsets.
-/

namespace SkyOS

open ByteMem WriteBack

-- ---------------------------------------------------------------------------
-- Strings
-- ---------------------------------------------------------------------------

structure CStr where
  byte : ℕ → UInt8
  length : ℕ
  nul : byte length = 0
  chars : ∀ i < length, byte i ≠ 0

def CStr.ofList (l : List UInt8) : CStr where
  byte i := (l.takeWhile (· != 0)).getD i 0
  length := (l.takeWhile (· != 0)).length
  nul := by simp
  chars i hi := by
    have hmem := List.mem_takeWhile_imp (List.getElem_mem hi)
    rw [List.getD_eq_getElem _ _ hi]
    simpa using hmem

def tolower (c : UInt8) : UInt8 := if 0x41 ≤ c ∧ c ≤ 0x5a then c + 0x20 else c
def toupper (c : UInt8) : UInt8 := if 0x61 ≤ c ∧ c ≤ 0x7a then c - 0x20 else c

def strEq (name : CStr) (s : ℕ → UInt8) : Bool := (List.range (name.length + 1)).all fun i =>
    name.byte i == s i

-- ---------------------------------------------------------------------------
-- include/openfat.h
-- ---------------------------------------------------------------------------

abbrev fatAttrVolumeId : UInt8 := 0x08
abbrev fatAttrDirectory : UInt8 := 0x10
abbrev fatAttrArchive : UInt8 := 0x20
abbrev fatAttrLongName : UInt8 := 0x0F

abbrev direntSize : ℕ := 32

abbrev eNoEnt : ℤ := -2
abbrev eIo : ℤ := -5
abbrev eIsDir : ℤ := -21

structure Dirent where
  dName : ℕ → UInt8
  fatAttr : UInt8
  fatSname : List UInt8

def entryMem (l : List UInt8) : Mem := fun i => l.getD i 0

def entryAttr (d : Mem) : UInt8 := d 11

-- ---------------------------------------------------------------------------
-- fs/direntry.c
-- ---------------------------------------------------------------------------

def fatDirentChksum (dosname : ℕ → UInt8) : UInt8 :=
  (List.range 11).foldl (fun (sum : UInt8) i =>
    let high : UInt8 := if sum &&& 1 ≠ 0 then 0x80 else 0
    high + (sum >>> 1) + dosname i) 0

/-- `count` characters of the entry from `src` on, to `d_name` from `i` on. The
result says if there was one that is not ASCII, and if the name ended. -/
def asciiFromUtf16 (d : Mem) : ℕ → ℕ → ℤ → (ℕ → UInt8) → Fs (ℕ × (ℕ → UInt8))
  | 0, _, _, name => return (1, name)
  | count + 1, src, i, name => do
    let tmp := readLE d src 2
    if tmp > 127 then return (2, name)
    if i < 0 ∨ 256 ≤ i then stop .wild
    else
      let name := Function.update name i.toNat (UInt8.ofNat tmp)
      if tmp = 0 then return (0, name)
      asciiFromUtf16 d count (src + 2) (i + 1) name

/-- The characters of a long name entry: `csum` and `d_name` after it. -/
def readLongName (d : Mem) (csum : ℕ) (name : ℕ → UInt8) : Fs (ℕ × (ℕ → UInt8)) := do
  let ord := readLE d 0 1
  let checksum := readLE d 13 1
  let (csum, name) := if ord &&& 0x40 ≠ 0 then (checksum, fun i => if i < 256 then 0 else name i)
    else (csum, name)
  let csum := if csum ≠ checksum then 2 ^ 16 - 1 else csum
  let i : ℤ := (((ord &&& 0x3f : ℕ) : ℤ) - 1) * 13
  let (r, name) ← asciiFromUtf16 d 5 1 i name
  if r = 0 then return (csum, name)
  let csum := if r = 2 then 2 ^ 16 - 1 else csum
  let (r, name) ← asciiFromUtf16 d 6 14 (i + 5) name
  if r = 0 then return (csum, name)
  let csum := if r = 2 then 2 ^ 16 - 1 else csum
  let (r, name) ← asciiFromUtf16 d 2 28 (i + 11) name
  if r = 0 then return (csum, name)
  return (if r = 2 then 2 ^ 16 - 1 else csum, name)

def skipSpaces (d : Mem) : ℕ → ℕ → ℕ
  | 0, i => i
  | fuel + 1, i => if d (i + 1) = 0x20 ∧ i + 1 < 11 then skipSpaces d fuel (i + 1) else i + 1

/-- The loop over the characters of a short name, and the number of those written. -/
def shortNameLoop (d : Mem) : ℕ → ℕ → ℕ → (ℕ → UInt8) → ℕ × (ℕ → UInt8)
  | 0, _, j, name => (j, name)
  | fuel + 1, i, j, name =>
    if i < 11 then
      if d i = 0x20 then shortNameLoop d fuel (skipSpaces d 11 i + 1) (j + 1)
        (Function.update name j 0x2e)
      else shortNameLoop d fuel (i + 1) (j + 1) (Function.update name j (tolower (d i)))
    else (j, name)

def readShortName (d : Mem) (name : ℕ → UInt8) : ℕ → UInt8 :=
  let (j, name) := shortNameLoop d 11 0 0 name
  let name := if name (j - 1) = 0x2e then Function.update name (j - 1) 0 else name
  Function.update name j 0

/-- Reading does not change the disk. After as many rounds as there are values of
`position` and `cur_cluster` it goes in circles. -/
def readdirRounds : ℕ := 2 ^ 64

/-- The loop of `fat_readdir`. `none` is the end of the directory. -/
def fatReaddirLoop (fat : Fat) : ℕ → ℕ → Dirent → Handle → Fs (Option Dirent × Dirent × Handle)
  | 0, _, _, _ => stop .hang
  | fuel + 1, csum, ent, h => do
    let (l, h) ← fatRead fat h direntSize
    if l.length ≠ direntSize then return (none, ent, h)
    let d := entryMem l
    if d 0 = 0 then return (none, ent, h)
    if d 0 = 0xe5 ∨ entryAttr d = fatAttrVolumeId then fatReaddirLoop fat fuel csum ent h
    else if entryAttr d = fatAttrLongName then
      let (csum, name) ← readLongName d csum ent.dName
      fatReaddirLoop fat fuel csum { ent with dName := name } h
    else
      let name := if csum ≠ (fatDirentChksum d).toNat then Function.update ent.dName 0 0 else
        ent.dName
      let name := if name 0 = 0 then readShortName d name else name
      let ent : Dirent := ⟨name, entryAttr d, l.take 11⟩
      return (some ent, ent, h)

def fatReaddir (fat : Fat) (h : Handle) (ent : Dirent) : Fs (Option Dirent × Dirent × Handle) :=
  fatReaddirLoop fat readdirRounds (2 ^ 16 - 1) ent h

/-- The loop of `_fat_dir_seek_empty`, with `pos` and the deleted entries in a row. -/
def seekEmptyLoop (fat : Fat) (entries : ℕ) : ℕ → ℕ → ℕ → Handle → Fs (ℕ × Handle)
  | 0, _, _, _ => stop .hang
  | fuel + 1, pos, i, dir => do
    let (l, dir) ← fatRead fat dir direntSize
    if l.length ≠ direntSize then return (pos, dir)
    let d := entryMem l
    if d 0 = 0 then return (pos, dir)
    if d 0 = 0xe5 then
      if i + 1 = entries then return (pos, dir)
      seekEmptyLoop fat entries fuel pos (i + 1) dir
    else seekEmptyLoop fat entries fuel dir.position 0 dir

def fatDirSeekEmpty (fat : Fat) (dir : Handle) (entries : ℕ) : Fs Handle := do
  let (_, dir) ← fatLseek fat dir 0 .set
  let (pos, dir) ← seekEmptyLoop fat entries readdirRounds 0 0 dir
  let (_, dir) ← fatLseek fat dir pos .set
  return dir

/-- The loop of `fat_comparesfn`: `canonname`, and where `name` ends up. -/
def canonLoop (name : CStr) : ℕ → ℕ → ℕ → (ℕ → UInt8) → (ℕ → UInt8) × ℕ
  | 0, _, at_, canon => (canon, at_)
  | fuel + 1, i, at_, canon =>
    let c := name.byte at_
    if i < 11 ∧ c ≠ 0 ∧ c ≠ 0x2f then
      if c = 0x2e ∧ i < 8 then canonLoop name fuel (i + 1) at_ canon
      else
        let at_ := if c = 0x2e ∧ i = 8 then at_ + 1 else at_
        canonLoop name fuel (i + 1) (at_ + 1) (Function.update canon i (toupper (name.byte at_)))
    else (canon, at_)

/-- A name that starts with a dot is copied to an array of 11 characters. -/
def fatComparesfn (name : CStr) (fatname : List UInt8) : Fs Bool := do
  let spaces : ℕ → UInt8 := fun _ => 0x20
  let (canon, at_) ← if name.byte 0 = 0x2e then
      if name.length > 11 then stop .wild
      else pure (fun i => if i < name.length then name.byte i else spaces i, name.length)
    else pure (canonLoop name 11 0 0 spaces)
  let c := name.byte at_
  return (c == 0 || c == 0x2f) && (List.range 11).all fun i => canon i == fatname.getD i 0

def entryMatches (name : CStr) (e : Dirent) : Fs Bool :=
  if strEq name e.dName then return true else fatComparesfn name e.fatSname

/-- The loop of `fat_open` over the entries of `dir`: the file that is found. -/
def fatOpenLoop (fat : Fat) (name : CStr) (flags : ℕ) : ℕ → Dirent → Handle →
    Fs (ℤ × Option Handle × Handle)
  | 0, _, _ => stop .hang
  | fuel + 1, dirent, dir => do
    let (r, dirent, dir) ← fatReaddir fat dir dirent
    match r with
    | none => return (eNoEnt, none, dir)
    | some e =>
      if ← entryMatches name e then
        let (_, dir) ← fatLseek fat dir (2 ^ 32 - direntSize) .cur
        let (sector, offset) ← fatFileSectorOffset fat dir
        let (l, dir) ← fatRead fat dir direntSize
        if l.length ≠ direntSize then return (eIo, none, dir)
        let d := entryMem l
        let file : Handle := { fatFileInit d with flags }
        if entryAttr d &&& fatAttrDirectory = 0 then
          return (0, some { file with direntSector := sector, direntOffset := offset }, dir)
        else if file.firstCluster = 0 then return (0, some (fatFileRoot fat), dir)
        else return (0, some file, dir)
      else fatOpenLoop fat name flags fuel dirent dir

def dotName : CStr := .ofList [0x2e]

/-- The result, the file if it is found, and the volume with `cwd` as it is left. -/
def fatOpen (vol : Vol) (name : CStr) (flags : ℕ) : Fs (ℤ × Option Handle × Vol) := do
  if strEq dotName name.byte then return (0, some vol.cwd, vol)
  else
    let (_, dir) ← fatLseek vol.fat vol.cwd 0 .set
    let (r, file, dir) ← fatOpenLoop vol.fat name flags readdirRounds ⟨fun _ => 0, 0, []⟩ dir
    return (r, file, { vol with cwd := dir })

def fatChdir (vol : Vol) (name : CStr) : Fs (ℤ × Vol) := do
  let (r, file, vol) ← fatOpen vol name 0
  return (r, { vol with cwd := file.getD vol.cwd })

end SkyOS
