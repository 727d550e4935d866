import SkyOS.Arch.Cpu

/-!
# Processes

`proc/sched.c` over `include/sched.h`, and the system calls of
`proc/syscall.c` that work on processes. What only the log and the console see
is left out, and so are the fields of `task_struct` that nothing reads.
-/

namespace SkyOS

open ByteMem

-- ---------------------------------------------------------------------------
-- include/sched.h
-- ---------------------------------------------------------------------------

abbrev nrTask : ℕ := 64

inductive TaskState
  | running
  | sleeping
  | stopped
  | zombie
  deriving DecidableEq

abbrev taskInitialCounter : ℕ := 256

abbrev maxVmaNum : ℕ := 5

/-- `struct context`: the general registers and `sepc`. -/
structure Context where
  reg : Reg → ℕ
  sepc : ℕ

def Context.set (c : Context) (r : Reg) (v : ℕ) : Context :=
  { c with reg := Function.update c.reg r v }

@[simp] theorem Context.set_self (c : Context) (r : Reg) (v : ℕ) :
    (c.set r v).reg r = v := by simp [Context.set]

@[simp] theorem Context.set_ne (c : Context) (v : ℕ) (h : r ≠ r') :
    (c.set r' v).reg r = c.reg r := by
  simp [Context.set, h]

structure Vma where
  memStart : ℕ
  memRange : ℕ
  flags : ℕ
  deriving DecidableEq

structure Task where
  filename : ℕ → UInt8
  pid : ℕ
  fpid : ℕ
  state : TaskState
  context : Context
  pgtable : ℕ
  memMap : ℕ → Vma
  counter : ℕ

/-- Memory, the variables of the kernel, and the control registers. A pointer
into `task` is an index. -/
structure Kernel where
  phys : Phys Buddy
  kPgtable : ℕ
  task : ℕ → Task
  pidmap : ℕ → ℕ
  currentTask : Option ℕ
  jiffies : ℕ
  csr : Csr

namespace Kernel

def setTask (k : Kernel) (p : ℕ) (t : Task) : Kernel :=
  { k with task := Function.update k.task p t }

def setMem (k : Kernel) (m : Mem) : Kernel := { k with phys := { k.phys with mem := m } }

def current (k : Kernel) : Run ℕ :=
  match k.currentTask with
  | some p => .ok p
  | none => .error (.pageFault 0)

def alloc (L : Layout) (size : ℕ) (k : Kernel) : Run (ℕ × Kernel) := do
  let (a, heap) ← kalloc L size k.phys.heap
  return (a, { k with phys := { k.phys with heap } })

end Kernel

-- ---------------------------------------------------------------------------
-- Process creation
-- ---------------------------------------------------------------------------

def allocPgtable (L : Layout) (k : Kernel) : Run (ℕ × Kernel) := do
  let (t, k) ← k.alloc L pgSize
  if !align t then throw (.panic "allocate a unaligned page table")
  let m := fill k.phys.mem t 0 pgSize
  return (t, k.setMem (copy m t k.kPgtable pgSize))

def allocPid (k : Kernel) : Run (ℕ × Kernel) :=
  match (List.range nrTask).find? fun i => k.pidmap i == 0 with
  | some i => .ok (i, { k with pidmap := Function.update k.pidmap i 1 })
  | none => .error (.panic "no free pid")

def allocProcess (L : Layout) (k : Kernel) : Run (ℕ × Kernel) := do
  let (pid, k) ← allocPid k
  let k := k.setTask pid { k.task pid with pid := pid, state := .running }
  let (pgtable, k) ← allocPgtable L k
  let t := k.task pid
  return (pid, k.setTask pid { t with
    pgtable := pgtable
    counter := taskInitialCounter
    context := t.context.set .sp sv39UserSpAddr })

-- ---------------------------------------------------------------------------
-- User memory
-- ---------------------------------------------------------------------------

/-- The first region that is not in use is taken. If there is none, nothing is
recorded. -/
def vmaInsert (va size flag : ℕ) (t : Task) : Task :=
  match (List.range maxVmaNum).find? fun i => (t.memMap i).memRange == 0 with
  | some i => { t with memMap := Function.update t.memMap i ⟨va, size, flag⟩ }
  | none => t

def umap (L : Layout) (p va pa size : ℕ) (k : Kernel) : Run Kernel := do
  let k := k.setTask p (vmaInsert va size pteU (k.task p))
  let phys ← map (kalloc L) (k.task p).pgtable va pa size pteU k.phys
  return { k with phys }

def copyVma (L : Layout) (p current i : ℕ) (k : Kernel) : Run Kernel := do
  let vma := (k.task current).memMap i
  if vma.memRange ≠ 0 then
    let (pa, k) ← k.alloc L vma.memRange
    let m ← copyIn k.csr pa vma.memStart (u32 vma.memRange) k.phys.mem
    umap L p vma.memStart pa vma.memRange (k.setMem m)
  else return k

def copyMemFrom (L : Layout) (p current : ℕ) (k : Kernel) : Run Kernel := do
  let k := { k with csr := k.csr.sstatusSet (setBit k.csr.sstatus sstatusSum) }
  let k ← (List.range maxVmaNum).foldlM (fun k i => copyVma L p current i k) k
  return { k with csr := k.csr.sstatusSet (clearBit k.csr.sstatus sstatusSum) }

-- ---------------------------------------------------------------------------
-- proc/syscall.c
-- ---------------------------------------------------------------------------

def sysFork (L : Layout) (k : Kernel) : Run (ℕ × Kernel) := do
  let (p, k) ← allocProcess L k
  let current ← k.current
  let parent := k.task current
  let k := k.setTask p { k.task p with
    filename := parent.filename
    fpid := parent.pid
    state := .running
    context := parent.context.set .a0 0 }
  let k := k.setTask current { k.task current with
    context := (k.task current).context.set .a0 (k.task p).pid }
  let k ← copyMemFrom L p current k
  return ((k.task p).pid, k)

-- ---------------------------------------------------------------------------
-- Scheduling
-- ---------------------------------------------------------------------------

def Task.runnable (t : Task) : Bool := t.pgtable != 0 && t.state == .running

/-- The first task that has more ticks left than the current one. Without a
current task its `counter` is looked for at `NULL`. -/
def schedule (k : Kernel) : Run (Bool × Kernel) :=
  match k.currentTask with
  | none =>
    match (List.range nrTask).find? fun i => (k.task i).runnable with
    | some _ => .error (.pageFault 0)
    | none => .ok (false, k)
  | some current =>
    match (List.range nrTask).find? fun i =>
        (k.task i).runnable && i != current && (k.task i).counter > (k.task current).counter with
    | some next => .ok (true, { k with currentTask := some next })
    | none => .ok (false, k)

def switchTo (k : Kernel) : Run Kernel := do
  let csr := k.csr.sstatusSet (clearBit k.csr.sstatus sstatusSpp)
  let current ← k.current
  return { k with csr := csr.satpSet (satpOf (k.task current).pgtable) }

/-- Up to the call of `trap_return_2`. The next interrupt is ordered from the
firmware. -/
def doTimer (k : Kernel) : Run Kernel := do
  let statusSpp := (k.csr.sstatus &&& sstatusSpp) >>> 8
  let k := { k with jiffies := u64 (k.jiffies + 1) }
  let current ← k.current
  let t := k.task current
  let k := k.setTask current { t with counter := u64Dec t.counter }
  if statusSpp = 0 then
    let (switched, k) ← schedule k
    if switched then switchTo k else return k
  else return k

end SkyOS
