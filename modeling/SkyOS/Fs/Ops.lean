import SkyOS.Fs.Write

/-!
# Runs of the file system

Calls of the file system on one volume, with the handles of its callers. Any of
the files may be the working directory itself.
-/

namespace SkyOS

open ByteMem WriteBack

inductive Ref
  | cwd
  | file (i : ℕ)
  deriving DecidableEq

structure FsState where
  vol : Vol
  files : ℕ → Handle

namespace FsState

def handle (st : FsState) : Ref → Handle
  | .cwd => st.vol.cwd
  | .file i => st.files i

def setHandle (st : FsState) (h : Handle) : Ref → FsState
  | .cwd => { st with vol := { st.vol with cwd := h } }
  | .file i => { st with files := Function.update st.files i h }

def setFat (st : FsState) (fat : Fat) : FsState := { st with vol := { st.vol with fat } }

end FsState

/-- A file that is opened or created is put in `files i`. -/
inductive FsOp
  | volInit
  | opens (name : CStr) (flags i : ℕ)
  | chdir (name : CStr)
  | readdir (dir : Ref) (ent : Dirent)
  | read (file : Ref) (size : ℤ)
  | lseek (file : Ref) (offset : ℕ) (whence : Whence)
  | write (file : Ref) (b : ℕ → UInt8) (size : ℤ)
  | create (name : CStr) (flags i : ℕ)
  | mkdir (name : CStr)
  | unlink (name : CStr)
  | sync (file : Ref)

inductive FsResult
  | int (n : ℤ)
  | entry (e : Option Dirent) (ent : Dirent)
  | bytes (l : List UInt8)
  | position (n : ℕ)

def FsOp.run (st : FsState) : FsOp → Fs (FsResult × FsState)
  | volInit => do
    let vol ← fatVolInit
    return (.int 0, { st with vol })
  | opens name flags i => do
    let (r, file, vol) ← fatOpen st.vol name flags
    return (.int r, ⟨vol, Function.update st.files i (file.getD (st.files i))⟩)
  | chdir name => do
    let (r, vol) ← fatChdir st.vol name
    return (.int r, { st with vol })
  | readdir dir ent => do
    let (e, ent, h) ← fatReaddir st.vol.fat (st.handle dir) ent
    return (.entry e ent, st.setHandle h dir)
  | read file size => do
    let (l, h) ← fatRead st.vol.fat (st.handle file) size
    return (.bytes l, st.setHandle h file)
  | lseek file offset whence => do
    let (n, h) ← fatLseek st.vol.fat (st.handle file) offset whence
    return (.position n, st.setHandle h file)
  | write file b size => do
    let (n, fat, h) ← fatWrite st.vol.fat (st.handle file) b size
    return (.int n, (st.setFat fat).setHandle h file)
  | create name flags i => do
    let (r, h, vol) ← fatCreate st.vol name flags (st.files i)
    return (.int r, ⟨vol, Function.update st.files i h⟩)
  | mkdir name => do
    let (r, vol) ← fatMkdir st.vol name
    return (.int r, { st with vol })
  | unlink name => do
    let (r, vol) ← fatUnlink st.vol name
    return (.int r, { st with vol })
  | sync file => do
    fatFileSync (st.handle file)
    return (.int 0, st)

def runOps : List FsOp → FsState → Fs (List FsResult × FsState)
  | [], st => return ([], st)
  | op :: ops, st => do
    let (r, st) ← op.run st
    let (rs, st) ← runOps ops st
    return (r :: rs, st)

def runFs (files : ℕ → Handle) (ops : List FsOp) : Fs (List FsResult × FsState) := do
  let vol ← fatVolInit
  runOps ops ⟨vol, files⟩

def coldCache (dev : ℕ → Sector) : Cached Sector := ⟨none, false, fun _ => 0, dev⟩

end SkyOS
