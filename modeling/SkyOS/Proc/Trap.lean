import SkyOS.Proc.Sched
import SkyOS.Lib.Spill

/-!
# Traps

`trap_entry` and `trap_return` of `arch/entry.S`, instruction by instruction,
and between them `proc/trap.c` and `proc/syscall.c`. The kernel's own registers
between the two are the compiler's business: `trap_return` loads all but `a0`.
-/

namespace SkyOS

-- ---------------------------------------------------------------------------
-- The hart
-- ---------------------------------------------------------------------------

inductive Mode
  | user
  | supervisor
  deriving DecidableEq

/-- Where the linker puts what the handler uses. `kernel_stack_top` is the
address of `sscratch_stack`, and `trapReturn i` that of instruction `i` of
`trap_return`. -/
structure Image extends Layout where
  sscratchStack : ℕ
  trapReturn : ℕ → ℕ
  stack_ge : kernelStart ≤ sscratchStack
  stack_le : sscratchStack + 4096 ≤ kernelEnd
  stack_dvd : 8 ∣ sscratchStack
  text_ge : ∀ i, kernelStart ≤ trapReturn i
  text_lt : ∀ i, trapReturn i < kernelEnd

/-- The hart and the kernel. `word` holds the doublewords of `sscratch_stack`
by their addresses. -/
structure Machine where
  mode : Mode
  reg : Reg → ℕ
  pc : ℕ
  word : ℕ → ℕ
  kernel : Kernel

namespace Machine

def setReg (m : Machine) (r : Reg) (v : ℕ) : Machine := { m with reg := Function.update m.reg r v }

def csr (m : Machine) : Csr := m.kernel.csr

def setCsr (m : Machine) (c : Csr) : Machine := { m with kernel := { m.kernel with csr := c } }

def take (cause : ℕ) (m : Machine) : Machine :=
  let s := m.csr.sstatus
  let s := if m.mode = .user then clearBit s sstatusSpp else setBit s sstatusSpp
  let s := if s &&& sstatusSie = 0 then clearBit s sstatusSpie else setBit s sstatusSpie
  { m.setCsr { m.csr with sstatus := clearBit s sstatusSie, sepc := m.pc, scause := cause } with
    mode := .supervisor
    pc := m.csr.stvec }

def sret (m : Machine) : Machine :=
  let s := m.csr.sstatus
  let mode := if s &&& sstatusSpp = 0 then .user else .supervisor
  let s := if s &&& sstatusSpie = 0 then clearBit s sstatusSie else setBit s sstatusSie
  { m.setCsr { m.csr with sstatus := clearBit (setBit s sstatusSpie) sstatusSpp } with
    mode := mode
    pc := m.csr.sepc }

end Machine

-- ---------------------------------------------------------------------------
-- arch/entry.S
-- ---------------------------------------------------------------------------

inductive TrapCsr
  | sepc
  | sscratch
  deriving DecidableEq

/-- The instructions of the handler. Loads and stores are at an offset from `a0`. -/
inductive Instr
  | csrrwA0Sscratch
  | sd (rs : Reg) (off : ℕ)
  | ld (rd : Reg) (off : ℕ)
  | csrr (rd : Reg) (c : TrapCsr)
  | csrw (c : TrapCsr) (rs : Reg)
  | laSpKernelStackTop
  deriving DecidableEq

def TrapCsr.get (c : Csr) : TrapCsr → ℕ
  | .sepc => c.sepc
  | .sscratch => c.sscratch

def TrapCsr.set (c : Csr) (v : ℕ) : TrapCsr → Csr
  | .sepc => { c with sepc := v }
  | .sscratch => { c with sscratch := v }

/-- The doubleword at `a` is in `sscratch_stack`. Elsewhere in the kernel's
range it is some other object, and outside the range the access traps. -/
def saveArea (I : Image) (a : ℕ) : Run Unit :=
  if I.sscratchStack ≤ a ∧ a + 8 ≤ I.sscratchStack + 4096 ∧ 8 ∣ a then .ok ()
  else if kernelStart ≤ a ∧ a < I.kernelEnd + memSize then .error .wild
  else .error (.pageFault (u64 a))

def Instr.exec (I : Image) (m : Machine) : Instr → Run Machine
  | .csrrwA0Sscratch =>
    .ok ((m.setReg .a0 m.csr.sscratch).setCsr { m.csr with sscratch := m.reg .a0 })
  | .sd rs off => do
    let a := m.reg .a0 + off
    saveArea I a
    return { m with word := Function.update m.word a (m.reg rs) }
  | .ld rd off => do
    let a := m.reg .a0 + off
    saveArea I a
    return m.setReg rd (m.word a)
  | .csrr rd c => .ok (m.setReg rd (c.get m.csr))
  | .csrw c rs => .ok (m.setCsr (c.set m.csr (m.reg rs)))
  | .laSpKernelStackTop => .ok (m.setReg .sp I.sscratchStack)

def runInstrs (I : Image) (m : Machine) (l : List Instr) : Run Machine := l.foldlM (Instr.exec I) m

def trapEntry : List Instr :=
  [.csrrwA0Sscratch,
   .sd .ra 0, .sd .sp 8, .sd .gp 16, .sd .tp 24, .sd .t0 32, .sd .t1 40, .sd .t2 48, .sd .s0 56,
     .sd .s1 64,
   .sd .a1 80, .sd .a2 88, .sd .a3 96, .sd .a4 104, .sd .a5 112, .sd .a6 120, .sd .a7 128,
   .sd .s2 136, .sd .s3 144, .sd .s4 152, .sd .s5 160, .sd .s6 168, .sd .s7 176, .sd .s8 184,
     .sd .s9 192,
   .sd .s10 200, .sd .s11 208, .sd .t3 216, .sd .t4 224, .sd .t5 232, .sd .t6 240,
   .csrr .t0 .sepc, .sd .t0 248, .csrr .t0 .sscratch, .sd .t0 72,
   .laSpKernelStackTop]

def trapReturn : List Instr :=
  [.ld .t0 72, .csrw .sscratch .t0, .ld .t0 248, .csrw .sepc .t0,
   .ld .ra 0, .ld .sp 8, .ld .gp 16, .ld .tp 24, .ld .t0 32, .ld .t1 40, .ld .t2 48, .ld .s0 56,
     .ld .s1 64,
   .ld .a1 80, .ld .a2 88, .ld .a3 96, .ld .a4 104, .ld .a5 112, .ld .a6 120, .ld .a7 128,
   .ld .s2 136, .ld .s3 144, .ld .s4 152, .ld .s5 160, .ld .s6 168, .ld .s7 176, .ld .s8 184,
     .ld .s9 192,
   .ld .s10 200, .ld .s11 208, .ld .t3 216, .ld .t4 224, .ld .t5 232, .ld .t6 240,
   .csrrwA0Sscratch]

-- ---------------------------------------------------------------------------
-- struct context in memory
-- ---------------------------------------------------------------------------

def contextOffsets : List (Reg × ℕ) :=
  [(.ra, 0), (.sp, 8), (.gp, 16), (.tp, 24), (.t0, 32), (.t1, 40), (.t2, 48), (.s0, 56), (.s1, 64),
   (.a0, 72), (.a1, 80), (.a2, 88), (.a3, 96), (.a4, 104), (.a5, 112), (.a6, 120), (.a7, 128),
   (.s2, 136), (.s3, 144), (.s4, 152), (.s5, 160), (.s6, 168), (.s7, 176), (.s8, 184), (.s9, 192),
   (.s10, 200), (.s11, 208), (.t3, 216), (.t4, 224), (.t5, 232), (.t6, 240)]

abbrev contextSepc : ℕ := 248

def Context.load (w : ℕ → ℕ) (a : ℕ) : Context where
  reg := Spill.load w a contextOffsets fun _ => 0
  sepc := w (a + contextSepc)

def Context.store (c : Context) (a : ℕ) (w : ℕ → ℕ) : ℕ → ℕ :=
  Function.update (Spill.store c.reg a contextOffsets w) (a + contextSepc) c.sepc

-- ---------------------------------------------------------------------------
-- proc/syscall.c
-- ---------------------------------------------------------------------------

abbrev syscallGetpid : ℕ := 8
abbrev syscallFork : ℕ := 32
abbrev syscallWrite : ℕ := 64

def cString (l : List UInt8) : List UInt8 := l.takeWhile (· != 0)

def loadBytes (m : ByteMem.Mem) (c : Csr) (src : ℕ) : ℕ → Run (List UInt8)
  | 0 => .ok []
  | n + 1 => do
    let l ← loadBytes m c src n
    let pa ← loadAddr m c (u64 (src + n))
    return l ++ [m pa]

/-- What is printed. `memcpy` takes a 32-bit length, and `internal_buffer` has
256 bytes: past them it is the kernel stack that is written. -/
def sysWrite (fd buf len : ℕ) (k : Kernel) : Run (List UInt8 × Kernel) :=
  if fd = 0 then do
    let k := { k with csr := k.csr.sstatusSet (setBit k.csr.sstatus sstatusSum) }
    let l ← loadBytes k.phys.mem k.csr buf (min (u32 len) 256)
    if len ≥ 256 then throw .wild
    return (cString l, { k with csr := k.csr.sstatusSet (clearBit k.csr.sstatus sstatusSum) })
  else return ([], k)

def sysGetpid (k : Kernel) : Run Kernel := do
  let current ← k.current
  let t := k.task current
  return k.setTask current { t with context := t.context.set .a0 t.pid }

/-- The entries of `syscall_names`. The call that logs reads one of them. -/
abbrev syscallNames : ℕ := 65

def syscall (L : Layout) (k : Kernel) : Run (List UInt8 × Kernel) := do
  let current ← k.current
  let t := (k.task current).context.reg
  let syscallNum := t .a7
  if syscallNum ≥ syscallNames then throw .wild
  if syscallNum = syscallGetpid then return ([], ← sysGetpid k)
  else if syscallNum = syscallFork then return ([], (← sysFork L k).2)
  else if syscallNum = syscallWrite then sysWrite (t .a0) (t .a1) (t .a2) k
  else throw (.panic "unexpected syscall number: %d")

-- ---------------------------------------------------------------------------
-- proc/trap.c
-- ---------------------------------------------------------------------------

abbrev sTimerInt : ℕ := 5
abbrev syscallFromUMode : ℕ := 8

def handleInterrupt (code : ℕ) (k : Kernel) : Run Kernel :=
  if code = sTimerInt then doTimer k else .error (.panic "unexpected interrupt code: %s")

def handleException (L : Layout) (code : ℕ) (k : Kernel) : Run (List UInt8 × Kernel) :=
  if code = syscallFromUMode then syscall L k else .error (.panic "unexpected exception code: %s")

def trapStart (L : Layout) (sscratchStackPtr : ℕ) (w : ℕ → ℕ) (k : Kernel) :
    Run (List UInt8 × Kernel) := do
  let code := k.csr.scause &&& 0xff
  let inter := k.csr.scause &&& 1 <<< 63 != 0
  let current ← k.current
  let context := Context.load w sscratchStackPtr
  let k := k.setTask current { k.task current with context }
  if inter then return ([], ← handleInterrupt code k)
  else
    let t := k.task current
    let k := k.setTask current { t with context :=
      { t.context with sepc := u64 (t.context.sepc + 4) } }
    handleException L code k

def trapReturn2 (I : Image) (m : Machine) : Run Machine := do
  let current ← m.kernel.current
  let word := (m.kernel.task current).context.store I.sscratchStack m.word
  return { m with word, reg := Function.update m.reg .a0 I.sscratchStack }

-- ---------------------------------------------------------------------------
-- A whole trap
-- ---------------------------------------------------------------------------

def trap (I : Image) (cause : ℕ) (m : Machine) : Run (List UInt8 × Machine) := do
  let m ← runInstrs I (m.take cause) trapEntry
  let (out, k) ← trapStart I.toLayout (m.reg .a0) m.word m.kernel
  let m ← trapReturn2 I { m with kernel := k }
  let m ← runInstrs I m trapReturn
  return (out, m.sret)

abbrev timerCause : ℕ := 1 <<< 63 + sTimerInt

end SkyOS
