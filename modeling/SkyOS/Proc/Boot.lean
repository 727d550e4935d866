import SkyOS.Proc.TrapLaws

/-!
# Interrupts while booting

`trap_init` lets timer interrupts in. From then on one may be taken before any
instruction that `main` runs, up to the `sret` that starts the first process.
-/

namespace SkyOS

open ByteMem

-- ---------------------------------------------------------------------------
-- The code between trap_init and the first sret
-- ---------------------------------------------------------------------------

/-- Where the hart is: before `current_task` is set, in `switch_to` after `i`
writes of control registers, in the `memcpy` of `trap_return_2` after `i` bytes,
before the instruction `i` of `trap_return`, in the process, or nowhere. -/
inductive BootPoint
  | booting
  | switching (i : ℕ)
  | copying (i : ℕ)
  | returning (i : ℕ)
  | started
  | stuck
  deriving DecidableEq

abbrev atSret : BootPoint := .returning trapReturn.length

def BootPoint.compiled : BootPoint → Prop
  | .booting | .switching _ | .copying _ => True
  | _ => False

def BootPoint.final (o : BootPoint) : Prop := o = .started ∨ o = .stuck

def OnStack (I : Image) (reg : Reg → ℕ) : Prop := kernelStart ≤ reg .sp ∧ reg .sp < I.kernelEnd

abbrev contextSize : ℕ := 256

def Context.storeByte (c : Context) (a i : ℕ) (w : ℕ → ℕ) : ℕ → ℕ :=
  let d := a + 8 * (i / 8)
  Function.update w d (Spill.putByte (w d) (i % 8) (c.store a w d))

-- ---------------------------------------------------------------------------
-- Runs
-- ---------------------------------------------------------------------------

/-- An interrupt that was taken, and the hart before and after it. -/
structure Interrupt where
  point : BootPoint
  before : Machine
  after : Run Machine

/-- Runs from `trap_init` on, with the interrupts taken, the last one first. `e`
is what `execve` finds for `sepc`. -/
inductive BootRun (I : Image) (e : ℕ) : List Interrupt → BootPoint → Machine → Prop
  | init : OnStack I reg → k.csr.sscratch = I.sscratchStack → k.currentTask = none →
      (∀ q, (k.task q).context = ⟨fun _ => 0, 0⟩) → (∀ a, w a < 256 ^ 8) →
      BootRun I e [] .booting ⟨.supervisor, reg, pc, w, k⟩
  | code : BootRun I e t o m → o.compiled → OnStack I reg → BootRun I e t o { m with reg, pc }
  | op : BootRun I e t .booting m → ExecOp I.toLayout m.kernel k →
      BootRun I e t .booting { m with kernel := k }
  | store : BootRun I e t .booting m →
      BootRun I e t .booting { m with kernel := m.kernel.setMem mem }
  | current : BootRun I e t .booting m → execve I.toLayout junk filename file k₀ =
      .ok (entered p a s k) →
      e = u64 ((readElfhdr k.phys.mem a).entry + s) →
      m.kernel = k.setTask p { k.task p with context := { (k.task p).context with sepc := e } } →
      BootRun I e t (.switching 0) { m with kernel := { m.kernel with currentTask := some p } }
  | user : BootRun I e t (.switching 0) m →
      BootRun I e t (.switching 1) (m.setCsr (m.csr.sstatusSet (clearBit m.csr.sstatus sstatusSpp)))
  | satp : BootRun I e t (.switching 1) m → m.kernel.currentTask = some p →
      BootRun I e t (.switching 2) (m.setCsr (m.csr.satpSet (satpOf (m.kernel.task p).pgtable)))
  | memcpy : BootRun I e t (.switching 2) m → BootRun I e t (.copying 0) m
  | byte : BootRun I e t (.copying i) m → i < contextSize → m.kernel.currentTask = some p →
      BootRun I e t (.copying (i + 1))
        { m with word := (m.kernel.task p).context.storeByte I.sscratchStack i m.word }
  | call : BootRun I e t (.copying contextSize) m →
      BootRun I e t (.returning 0)
        { m with reg := Function.update m.reg .a0 I.sscratchStack, pc := I.trapReturn 0 }
  | instr : BootRun I e t (.returning i) m → trapReturn[i]? = some ins → ins.exec I m = .ok m' →
      BootRun I e t (.returning (i + 1)) { m' with pc := I.trapReturn (i + 1) }
  | fault : BootRun I e t (.returning i) m → trapReturn[i]? = some ins → ins.exec I m = .error s →
      BootRun I e t .stuck m
  | sret : BootRun I e t atSret m → BootRun I e t .started m.sret
  | timer : BootRun I e t o m → ¬ o.final → trap I timerCause m = .ok (out, m') →
      BootRun I e (⟨o, m, .ok m'⟩ :: t) o m'
  | timerFault : BootRun I e t o m → ¬ o.final → trap I timerCause m = .error s →
      BootRun I e (⟨o, m, .error s⟩ :: t) .stuck m

-- ---------------------------------------------------------------------------
-- What is to be shown
-- ---------------------------------------------------------------------------

/-- The frame was saved, and the interrupted code goes on with its registers. -/
def Interrupt.resumed (x : Interrupt) : Prop := ∃ m', x.after = .ok m' ∧
  m'.reg = x.before.reg ∧ m'.pc = x.before.pc ∧ m'.mode = x.before.mode

/-- The interrupts did no harm: the process starts as `execve` made it. -/
structure Harmless (e : ℕ) (t : List Interrupt) (o : BootPoint) (m : Machine) : Prop where
  resumed : ∀ x ∈ t, x.resumed
  started : o = .started
  mode : m.mode = .user
  entry : m.pc = e
  sp : m.reg .sp = sv39UserSpAddr

end SkyOS
