import SkyOS.Mm.Pmm
import SkyOS.Lib.ByteMem

/-!
# Sv39 page tables

`mm/vms.c` over `include/vms.h`. Tables are pages of physical memory, which the
kernel sees one to one. `kalloc` is a parameter of `map`, with the state it
keeps: what `map` does depends only on the pages it is handed.
-/

namespace SkyOS

open ByteMem

-- ---------------------------------------------------------------------------
-- include/vms.h
-- ---------------------------------------------------------------------------

abbrev sv39AddressingMode : ℕ := 8

abbrev sv39UserSpAddr : ℕ := 0x4000000000

abbrev pteV : ℕ := 0b1
abbrev pteR : ℕ := 0b10
abbrev pteW : ℕ := 0b100
abbrev pteX : ℕ := 0b1000
abbrev pteU : ℕ := 0b10000

def valid (pte : ℕ) : Bool := pte &&& 0b1 != 0
def readable (pte : ℕ) : Bool := pte &&& 0b10 != 0
def writable (pte : ℕ) : Bool := pte &&& 0b100 != 0
def executable (pte : ℕ) : Bool := pte &&& 0b1000 != 0

def align (a : ℕ) : Bool := a &&& 0xfff == 0

def pte2ppn (pte : ℕ) : ℕ := (pte >>> 10) &&& 0xffffffffff
def pte2ppn0 (pte : ℕ) : ℕ := pte2ppn pte &&& 0x1ff
def pte2ppn1 (pte : ℕ) : ℕ := (pte2ppn pte >>> 9) &&& 0x1ff
def pte2ppn2 (pte : ℕ) : ℕ := (pte2ppn pte >>> 9) &&& 0x3ffffff

abbrev offsetShift : ℕ := 12
abbrev pxMask : ℕ := 0x1FF

def pxShift (level : ℕ) : ℕ := offsetShift + 9 * level

def px (level va : ℕ) : ℕ := (va >>> pxShift level) &&& pxMask

def offset (addr : ℕ) : ℕ := addr &&& (pgSize - 1)

-- ---------------------------------------------------------------------------
-- mm/vms.c
-- ---------------------------------------------------------------------------

def readPte (m : Mem) (p : ℕ) : ℕ := readLE m p 8

def writePte (m : Mem) (p v : ℕ) : Mem := writeLE m p 8 v

/-- Physical memory and the state of the allocator. -/
structure Phys (σ : Type) where
  mem : Mem
  heap : σ

section
variable {σ : Type} (kalloc : ℕ → σ → Run (ℕ × σ))

/-- The entry `map` writes for a table at `a`, a `pg_table` of the next level. -/
def tablePte (a perm : ℕ) : ℕ := ((a >>> 12) <<< 10) ||| (pteV ||| perm)

def leafPte (pa0 perm : ℕ) : ℕ :=
  ((pa0 >>> 12) <<< 10) ||| (pteX ||| pteW ||| pteR ||| pteV ||| perm)

def mapLevel (va0 pa0 perm : ℕ) : ℕ → ℕ → Phys σ → Run (Phys σ)
  | 0, a, s =>
    let p := a + 8 * px 0 va0
    if valid (readPte s.mem p) then throw (.panic "double map")
    else return { s with mem := writePte s.mem p (leafPte pa0 perm) }
  | level + 1, a, s =>
    let p := a + 8 * px (level + 1) va0
    if valid (readPte s.mem p) then
      mapLevel va0 pa0 perm level (pte2ppn (readPte s.mem p) <<< 12) s
    else do
      let (a, heap) ← kalloc pgSize s.heap
      mapLevel va0 pa0 perm level a ⟨writePte s.mem p (tablePte a perm), heap⟩

def mapPage (pg perm va0 pa0 : ℕ) (s : Phys σ) : Run (Phys σ) :=
  mapLevel kalloc va0 pa0 perm 2 pg s

def mapLoop (pg last perm : ℕ) : ℕ → ℕ → ℕ → Phys σ → Run (Phys σ)
  | 0, _, _, _ => throw .hang
  | fuel + 1, va0, pa0, s =>
    if va0 < last then do
      let s ← mapPage kalloc pg perm va0 pa0 s
      mapLoop pg last perm fuel (u64 (va0 + pgSize)) (u64 (pa0 + pgSize)) s
    else return s

/-- `va0` has `2 ^ 52` values. A loop that is not over after as many rounds has
come back to one of them and never ends. -/
def map (pg va pa size perm : ℕ) (s : Phys σ) : Run (Phys σ) :=
  mapLoop kalloc pg (u64 (va + size)) perm (2 ^ 52 + 1) va pa s

def kmap (pg va pa size : ℕ) (s : Phys σ) : Run (Phys σ) := map kalloc pg va pa size 0 s

def kPgtableInit (L : Layout) (s : Phys σ) : Run (ℕ × Phys σ) := do
  let (kPgtable, heap) ← kalloc pgSize s.heap
  if !align kPgtable then throw (.panic "allocate a unaligned page table")
  let s ← kmap kalloc kPgtable kernelStart kernelStart (L.kernelEnd + memSize - kernelStart)
    { s with heap }
  return (kPgtable, s)

end

/-- The loop of `trans`, in the table `a`. The entry it ends at is returned by
address. -/
def transLevel (m : Mem) (va : ℕ) : ℕ → ℕ → Run ℕ
  | level, a =>
    let p := a + 8 * px level va
    let pte := readPte m p
    if !valid pte || !readable pte && writable pte then throw (.panic "access fault")
    else match level with
      | 0 => return p
      | level + 1 => transLevel m va level (pte2ppn pte <<< 12)

def trans (m : Mem) (pg va : ℕ) : Run ℕ := transLevel m va 2 pg

/-- How the walk for `va` ends: at which entry, and what it holds. -/
def walk (m : Mem) (pg va : ℕ) : Run (ℕ × ℕ) := do
  let p ← trans m pg va
  return (p, readPte m p)

end SkyOS
