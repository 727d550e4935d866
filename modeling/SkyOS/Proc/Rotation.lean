import SkyOS.Lib.Turns
import SkyOS.Proc.Choice
import SkyOS.Proc.Slices

/-!
# Whose turn it is

Timer interrupts from user mode charge the current task and let `schedule` choose. As long as
a task has ticks left no counter wraps, and the choice is that of a party with more turns left.
-/

namespace SkyOS

open Turns

def Kernel.FromUser (k : Kernel) : Prop := (k.csr.sstatus &&& sstatusSpp) >>> 8 = 0

/-- Runs of timer interrupts from user mode, with the tasks that were charged. In between,
everything may change that the scheduler does not read. -/
inductive TickRun (k : Kernel) : List ℕ → Kernel → Prop
  | nil : TickRun k [] k
  | tick : TickRun k l k₁ → k₁.currentTask = some p → k₁.FromUser → doTimer k₁ = .ok k' →
      TickRun k (l ++ [p]) k'
  | other : TickRun k l k₁ → SameSlices k₁ k' → TickRun k l k'

def Kernel.ready (k : Kernel) : Finset ℕ := (Finset.range nrTask).filter fun i =>
    (k.task i).runnable

def Kernel.turns (k : Kernel) (p : ℕ) : Turns ℕ := ⟨fun i => (k.task i).counter, p⟩

section
variable {k k' k₁ : Kernel} {p q : ℕ} {l : List ℕ}

theorem mem_ready : i ∈ k.ready ↔ k.Runnable i := by simp [Kernel.ready, Kernel.Runnable]

theorem SameSlices.ready (h : SameSlices k k') : k'.ready = k.ready := by
  exact Finset.filter_congr fun i _ => by rw [Task.runnable, Task.runnable, h.pgtable, h.state]

theorem SameSlices.turns (h : SameSlices k k') (p : ℕ) : k'.turns p = k.turns p := by
  simp only [Kernel.turns, h.counter]

theorem ticked_ready (p : ℕ) (k : Kernel) : (ticked p k).ready = k.ready := by
  refine Finset.filter_congr fun i _ => ?_
  rw [ticked_task]
  split
  · rename_i hi
    subst hi
    rfl
  · rfl

theorem ticked_turns (hpos : 0 < (k.task p).counter) :
    (ticked p k).turns p = (k.turns p).charged := by
  obtain ⟨n, hn⟩ := Nat.exists_eq_add_one.mpr hpos
  simp only [Kernel.turns, charged, Turns.mk.injEq, and_true]
  funext i
  rw [ticked_task]
  by_cases hi : i = p
  · subst hi
    rw [if_pos rfl, Function.update_self, hn, u64Dec_succ, Nat.add_sub_cancel]
  · rw [if_neg hi, Function.update_of_ne hi]

-- ---------------------------------------------------------------------------
-- One interrupt
-- ---------------------------------------------------------------------------

theorem doTimer_schedules (hc : k.currentTask = some p) (hu : k.FromUser) (h : doTimer k = .ok k') :
    ∃ r k₁, schedule (ticked p k) = .ok (r, k₁) ∧ SameSlices k₁ k' := by
  obtain ⟨phys, kPgtable, task, pidmap, currentTask, jiffies, csr⟩ := k
  obtain rfl : currentTask = some p := hc
  have hu : (csr.sstatus &&& sstatusSpp) >>> 8 = 0 := hu
  unfold doTimer at h
  simp only [Kernel.current, ok_bind] at h
  rw [if_pos hu, bind_ok] at h
  obtain ⟨⟨r, k₁⟩, h1, h2⟩ := h
  refine ⟨r, k₁, h1, ?_⟩
  cases r with
  | false =>
    simp only [Bool.false_eq_true, if_false, pure_ok] at h2
    exact h2 ▸ .refl _
  | true =>
    simp only [if_true, switchTo, bind_ok, pure_ok] at h2
    obtain ⟨-, -, rfl⟩ := h2
    exact .csr k₁ _

theorem clearBit_spp (v : ℕ) : (clearBit v sstatusSpp &&& sstatusSpp) >>> 8 = 0 := by
  have hbit : clearBit v sstatusSpp &&& sstatusSpp = 0 := by
    rw [sstatusSpp, and_bit, clearBit_testBit]
    simp
  rw [hbit]
  rfl

theorem doTimer_returns (hc : k.currentTask = some p) (hu : k.FromUser) : ∃ k', doTimer k = .ok k' ∧
    k'.FromUser := by
  obtain ⟨phys, kPgtable, task, pidmap, currentTask, jiffies, csr⟩ := k
  obtain rfl : currentTask = some p := hc
  have hspp : (csr.sstatus &&& sstatusSpp) >>> 8 = 0 := hu
  unfold doTimer
  simp only [Kernel.current, ok_bind]
  rw [if_pos hspp]
  rcases schedule_ends (k := ticked p ⟨phys, kPgtable, task, pidmap, some p, jiffies, csr⟩) rfl with
    ⟨-, hs⟩ | ⟨n, -, -, -, hs⟩
  · exact ⟨_, congrArg (· >>= _) hs, hspp⟩
  · exact ⟨_, congrArg (· >>= _) hs, clearBit_spp _⟩

theorem doTimer_step (hc : k.currentTask = some p) (hu : k.FromUser) (hpos : 0 < (k.task p).counter)
    (h : doTimer k = .ok k') :
    ∃ q, k'.currentTask = some q ∧ Step k.ready (k.turns p) (k'.turns q) ∧ k'.ready = k.ready := by
  obtain ⟨r, k₁, hs, hsame⟩ := doTimer_schedules hc hu h
  have hturns := ticked_turns hpos
  rcases schedule_ends (show (ticked p k).currentTask = some p from hc) with ⟨hmax, hs'⟩ |
    ⟨n, hn, hlt, -, hs'⟩
  · obtain ⟨rfl, rfl⟩ := Prod.mk.inj (Except.ok.inj (hs'.symm.trans hs))
    refine ⟨p, hsame.current.trans hc, ?_, hsame.ready.trans (ticked_ready p k)⟩
    rw [hsame.turns, hturns]
    refine .stay hpos fun i hi => ?_
    rw [← hturns]
    exact hmax i (mem_ready.mp (ticked_ready p k ▸ hi))
  · obtain ⟨rfl, rfl⟩ := Prod.mk.inj (Except.ok.inj (hs'.symm.trans hs))
    refine ⟨n, hsame.current, ?_, hsame.ready.trans (ticked_ready p k)⟩
    rw [hsame.turns, show Kernel.turns { ticked p k with currentTask := some n } n =
        { (ticked p k).turns p with cur := n } from rfl,
      hturns]
    refine .pass n hpos ?_ ?_
    · rw [← ticked_ready p k]
      exact mem_ready.mpr hn
    · rw [← hturns]
      exact hlt

-- ---------------------------------------------------------------------------
-- Many interrupts
-- ---------------------------------------------------------------------------

/-- While a task that can be chosen has ticks left, the interrupts are turns. -/
theorem TickRun.turns (h : TickRun k l k') (hc : k.currentTask = some p)
    (hpos : 0 < (k.task p).counter)
    (hj : k.Runnable j) (hleft : l.dropLast.count j < (k.task j).counter) :
    ∃ q, k'.currentTask = some q ∧ Turns.Run k.ready (k.turns p) l (k'.turns q) ∧
      k'.ready = k.ready := by
  induction h with
  | nil => exact ⟨p, hc, .nil, rfl⟩
  | tick _ hc' hu ht ih =>
    rw [List.dropLast_concat] at hleft
    obtain ⟨q, hq, hrun, hready⟩ := ih ((List.dropLast_sublist _).count_le j |>.trans_lt hleft)
    obtain rfl := Option.some.inj (hq.symm.trans hc')
    have hcount := hrun.count j
    have hawake :=
      hrun.awake hpos (mem_ready.mpr hj) (by simp only [Kernel.turns] at hcount ⊢; omega)
    obtain ⟨q', hq', hstep, hready'⟩ := doTimer_step hq hu hawake ht
    exact ⟨q', hq', hrun.step (hready ▸ hstep), hready'.trans hready⟩
  | other _ hs ih =>
    obtain ⟨q, hq, hrun, hready⟩ := ih hleft
    exact ⟨q, hs.current.trans hq, hs.turns q ▸ hrun, hs.ready.trans hready⟩

/-- A task that has ticks left is charged before the interrupts are more than the ticks that
the other tasks have left. -/
theorem none_starves (h : TickRun k l k') (hc : k.currentTask = some p) (hp : k.Runnable p)
    (hpos : 0 < (k.task p).counter)
    (hj : k.Runnable j) (hleft : 0 < (k.task j).counter) (hl : ∑ i ∈ k.ready.erase j,
      (k.task i).counter < l.length) : j ∈ l := by
  by_contra hno
  have hcount : l.dropLast.count j = 0 := List.count_eq_zero.mpr fun hmem =>
    hno (List.mem_of_mem_dropLast hmem)
  obtain ⟨q, -, hrun, -⟩ := h.turns hc hpos hj (hcount.trans_lt hleft)
  exact absurd (hrun.waits (mem_ready.mpr hp) hno) (not_le.mpr hl)

/-- Tasks that start with the same counter are charged the same number of times, give or take
one, until their ticks are used up. -/
theorem fair_shares (h : TickRun k l k') (hc : k.currentTask = some p) (hp : k.Runnable p)
    (hn : ∀ i, k.Runnable i → (k.task i).counter = n) (hl : l.length ≤ n * k.ready.card)
    (hi : k.Runnable i) (hj : k.Runnable j) :
    l.count i ≤ l.count j + 1 := by
  cases l using List.reverseRecOn with
  | nil => exact Nat.zero_le _
  | append_singleton l q =>
    -- before the last interrupt the ticks are not used up
    have hsome : ∃ m ∈ k.ready, l.count m < (k.task m).counter := by
      by_contra hno
      push Not at hno
      have hsum : ∑ m ∈ k.ready, (k.task m).counter ≤ ∑ m ∈ k.ready, l.count m :=
        Finset.sum_le_sum hno
      rw [Finset.sum_congr rfl fun m hm => hn m (mem_ready.mp hm), Finset.sum_const, smul_eq_mul,
        Nat.mul_comm] at hsum
      have hlen : ∑ m ∈ k.ready, l.count m ≤ l.length :=
        (Finset.sum_le_sum_of_ne_zero fun m _ h =>
            List.mem_toFinset.mpr (List.count_pos_iff.mp (Nat.pos_of_ne_zero h))).trans_eq
          (List.sum_toFinset_count_eq_length l)
      rw [List.length_append, List.length_singleton] at hl
      omega
    obtain ⟨m, hm, hleft⟩ := hsome
    have hpos : 0 < (k.task p).counter := by
      rw [hn p hp, ← hn m (mem_ready.mp hm)]
      omega
    obtain ⟨q', -, hrun, -⟩ := h.turns hc hpos (mem_ready.mp hm) (by rwa [List.dropLast_concat])
    exact hrun.shares (fun i hi => hn i (mem_ready.mp hi)) (mem_ready.mpr hp) (mem_ready.mpr hi)
      (mem_ready.mpr hj)

end

-- ---------------------------------------------------------------------------
-- Two tasks
-- ---------------------------------------------------------------------------

theorem tickRuns (n : ℕ) {k : Kernel} {p : ℕ} (hc : k.currentTask = some p) (hu : k.FromUser)
    (hpos : 0 < (k.task p).counter) (hj : k.Runnable j) (hn : n ≤ (k.task j).counter) :
    ∃ l k', TickRun k l k' ∧ l.length = n ∧ k'.FromUser := by
  induction n with
  | zero => exact ⟨[], k, .nil, rfl, hu⟩
  | succ n ih =>
    obtain ⟨l, k₁, hrun, rfl, hu₁⟩ := ih (by omega)
    have hleft : l.dropLast.count j < (k.task j).counter :=
      (List.count_le_length.trans (by rw [List.length_dropLast]; omega)).trans_lt hn
    obtain ⟨q, hq, -⟩ := hrun.turns hc hpos hj hleft
    obtain ⟨k₂, ht, hu₂⟩ := doTimer_returns hq hu₁
    exact ⟨_, k₂, hrun.tick hq hu₁ ht, by simp, hu₂⟩

theorem none_starves_second : ∃ l k', TickRun (countersKernel [1, 2]) l k' ∧ l.length = 2 ∧
    1 ∈ l := by
  have hrun (i : ℕ) (hi : i < 2) : (countersKernel [1, 2]).Runnable i :=
    countersKernel_runnable.mpr ⟨hi.trans (by decide), hi⟩
  obtain ⟨l, k', h, hlen, -⟩ :=
    tickRuns 2 (k := countersKernel [1, 2]) rfl rfl (by decide) (hrun 1 (by decide)) le_rfl
  refine ⟨l, k', h, hlen, none_starves h rfl (hrun 0 (by decide)) (by decide) (hrun 1 (by decide))
    (by decide) ?_⟩
  rw [hlen]
  decide

theorem fair_shares_three : ∃ l k', TickRun (countersKernel [3, 3, 3]) l k' ∧ l.length = 3 ∧
    l.count 0 ≤ l.count 2 + 1 ∧ l.count 2 ≤ l.count 0 + 1 := by
  have hrun (i : ℕ) (hi : i < 3) : (countersKernel [3, 3, 3]).Runnable i :=
    countersKernel_runnable.mpr ⟨hi.trans (by decide), hi⟩
  have hn (i : ℕ) (hi : (countersKernel [3, 3, 3]).Runnable i) :
      ((countersKernel [3, 3, 3]).task i).counter = 3 := by
    obtain ⟨-, hi⟩ := countersKernel_runnable.mp hi
    have hi : i < 3 := hi
    interval_cases i <;> rfl
  have hcard : (countersKernel [3, 3, 3]).ready.card = 3 := by decide
  obtain ⟨l, k', h, hlen, -⟩ :=
    tickRuns 3 (k := countersKernel [3, 3, 3]) rfl rfl (by decide) (hrun 1 (by decide)) le_rfl
  have hle : l.length ≤ 3 * (countersKernel [3, 3, 3]).ready.card := by
    rw [hlen, hcard]
    decide
  exact ⟨l, k', h, hlen, fair_shares h rfl (hrun 0 (by decide)) hn hle (hrun 0 (by decide))
      (hrun 2 (by decide)),
    fair_shares h rfl (hrun 0 (by decide)) hn hle (hrun 2 (by decide)) (hrun 0 (by decide))⟩

end SkyOS
