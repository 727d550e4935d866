import SkyOS.Mm.Vms

/-!
# The hart

Registers, the control registers that `arch/isa.c` reads and writes, and how a
load by the kernel goes through the table that `satp` names. Accessed and dirty
bits are left to the hardware.
-/

namespace SkyOS

open ByteMem

/-- The general registers but `zero`, in the order of `struct context`. -/
inductive Reg
  | ra | sp | gp | tp | t0 | t1 | t2 | s0 | s1
  | a0 | a1 | a2 | a3 | a4 | a5 | a6 | a7
  | s2 | s3 | s4 | s5 | s6 | s7 | s8 | s9 | s10 | s11
  | t3 | t4 | t5 | t6
  deriving DecidableEq

structure Csr where
  sstatus : ℕ
  sie : ℕ
  stvec : ℕ
  sscratch : ℕ
  sepc : ℕ
  scause : ℕ
  stval : ℕ
  satp : ℕ
  deriving DecidableEq

-- ---------------------------------------------------------------------------
-- include/isa.h
-- ---------------------------------------------------------------------------

abbrev sstatusSie : ℕ := 1 <<< 1
abbrev sstatusSpie : ℕ := 1 <<< 5
abbrev sstatusSpp : ℕ := 1 <<< 8
abbrev sstatusSum : ℕ := 1 <<< 18

def setBit (v bit : ℕ) : ℕ := v ||| bit

def clearBit (v bit : ℕ) : ℕ := v ^^^ (v &&& bit)

theorem setBit_testBit (v i j : ℕ) :
    (setBit v (1 <<< i)).testBit j = (v.testBit j || decide (i = j)) := by
  rw [setBit, Nat.testBit_or, Nat.one_shiftLeft, Nat.testBit_two_pow]

theorem clearBit_testBit (v i j : ℕ) :
    (clearBit v (1 <<< i)).testBit j = (v.testBit j && !decide (i = j)) := by
  rw [clearBit, Nat.testBit_xor, Nat.testBit_and, Nat.one_shiftLeft, Nat.testBit_two_pow]
  cases v.testBit j <;> simp

theorem and_bit (v i : ℕ) : v &&& 1 <<< i = 0 ↔ v.testBit i = false := by
  rw [Nat.one_shiftLeft, Nat.and_two_pow]
  cases v.testBit i <;> simp

namespace Csr

def sstatusSet (c : Csr) (v : ℕ) : Csr := { c with sstatus := v }
def satpSet (c : Csr) (v : ℕ) : Csr := { c with satp := v }

end Csr

-- ---------------------------------------------------------------------------
-- Loads
-- ---------------------------------------------------------------------------

def satpOf (pg : ℕ) : ℕ := (sv39AddressingMode <<< 60) + (pg >>> 12)

def satpRoot (satp : ℕ) : ℕ := (satp % 2 ^ 44) <<< 12

def canonical (va : ℕ) : Bool := va / 2 ^ 38 == 0 || va / 2 ^ 38 == 2 ^ 26 - 1

/-- The walk of the hardware for a load, in the table `a`, where `refused` are the pages that the
mode has no access to. A leaf above the last level is a superpage. -/
def walkLevel (m : Mem) (refused : ℕ → Bool) (va : ℕ) : ℕ → ℕ → Run ℕ
  | level, a =>
    let pte := readPte m (a + 8 * px level va)
    let ppn := (pte >>> 10) % 2 ^ 44
    if !valid pte || !readable pte && writable pte then throw (.pageFault va)
    else if readable pte || executable pte then
      if !readable pte || refused pte || ppn % 2 ^ (9 * level) != 0 then throw (.pageFault va)
      else return ppn <<< 12 + va % 2 ^ (12 + 9 * level)
    else match level with
      | 0 => throw (.pageFault va)
      | level + 1 => walkLevel m refused va level (ppn <<< 12)

/-- In supervisor mode: the pages of user mode are for it if `sum` is set. -/
def loadLevel (m : Mem) (sum : Bool) (va level a : ℕ) : Run ℕ :=
  walkLevel m (fun pte => pte &&& pteU != 0 && !sum) va level a

/-- The physical address of a byte that the kernel loads from `va`. -/
def loadAddr (m : Mem) (c : Csr) (va : ℕ) : Run ℕ :=
  if canonical va then loadLevel m (c.sstatus &&& sstatusSum != 0) va 2 (satpRoot c.satp)
  else throw (.pageFault va)

/-- `memcpy` from `src`, seen through the table in use, to kernel memory. -/
def copyIn (c : Csr) (dst src : ℕ) : ℕ → Mem → Run Mem
  | 0, m => .ok m
  | n + 1, m => do
    let m ← copyIn c dst src n m
    let pa ← loadAddr m c (u64 (src + n))
    return Function.update m (dst + n) (m pa)

end SkyOS
