import SkyOS.Proc.Sched

/-!
# The task with the most ticks

`schedule` is to find the task with the largest counter. It takes the first one
that beats the current task, so it finds it if nothing else that beats the
current task comes before.
-/

namespace SkyOS

def Kernel.Runnable (k : Kernel) (i : ℕ) : Prop := i < nrTask ∧ (k.task i).runnable = true

def Kernel.Maximal (k : Kernel) (i : ℕ) : Prop := ∀ j, k.Runnable j →
    (k.task j).counter ≤ (k.task i).counter

structure PicksMax (k : Kernel) (r : Bool × Kernel) : Prop where
  next : ∃ i, r.2.currentTask = some i ∧ k.Runnable i ∧ k.Maximal i
  stays : ∀ c, k.currentTask = some c → k.Maximal c → r.2.currentTask = some c
  result : r.1 = true ↔ r.2.currentTask ≠ k.currentTask
  frame : r.2 = { k with currentTask := r.2.currentTask }

/-- The first task in the table with more ticks left than `c` has the most. -/
def Kernel.FirstIsMaximal (k : Kernel) (c : ℕ) : Prop :=
  ∃ m, k.Runnable m ∧ k.Maximal m ∧ ∀ i < m, k.Runnable i → (k.task i).counter ≤ (k.task c).counter

section
variable {k : Kernel} {c : ℕ}

def Kernel.beats (k : Kernel) (c i : ℕ) : Bool :=
  (k.task i).runnable && i != c && (k.task i).counter > (k.task c).counter

theorem beats_iff : k.beats c i = true ↔ (k.task i).runnable = true ∧
    (k.task c).counter < (k.task i).counter := by
  simp only [Kernel.beats, Bool.and_eq_true, bne_iff_ne, decide_eq_true_eq]
  constructor
  · rintro ⟨⟨hrun, -⟩, hlt⟩
    exact ⟨hrun, hlt⟩
  · rintro ⟨hrun, hlt⟩
    refine ⟨⟨hrun, ?_⟩, hlt⟩
    rintro rfl
    exact lt_irrefl _ hlt

theorem schedule_eq (hc : k.currentTask = some c) : schedule k =
    match (List.range nrTask).find? (k.beats c) with
    | some next => .ok (true, { k with currentTask := some next })
    | none => .ok (false, k) := by
  unfold schedule
  rw [hc]
  rfl

/-- Either no task beats the current one, or the first that does is next. -/
theorem schedule_ends (hc : k.currentTask = some c) :
    (k.Maximal c ∧ schedule k = .ok (false, k)) ∨
    ∃ n, k.Runnable n ∧ (k.task c).counter < (k.task n).counter ∧
      (∀ i < n, k.Runnable i → (k.task i).counter ≤ (k.task c).counter) ∧
      schedule k = .ok (true, { k with currentTask := some n }) := by
  rw [schedule_eq hc]
  cases hf : (List.range nrTask).find? (k.beats c) with
  | none =>
    refine .inl ⟨fun j hj => ?_, rfl⟩
    have hno := List.find?_eq_none.mp hf j (List.mem_range.mpr hj.1)
    rw [beats_iff] at hno
    exact not_lt.mp fun hlt => hno ⟨hj.2, hlt⟩
  | some n =>
    obtain ⟨hn, hmem, hbefore⟩ := List.find?_range_eq_some.mp hf
    obtain ⟨hrun, hlt⟩ := beats_iff.mp hn
    refine .inr ⟨n, ⟨List.mem_range.mp hmem, hrun⟩, hlt, fun i hi hri => ?_, rfl⟩
    have hno := hbefore i hi
    rw [Bool.not_eq_true', ← Bool.not_eq_true, beats_iff] at hno
    exact not_lt.mp fun hlt => hno ⟨hri.2, hlt⟩

theorem picksMax_stays (hc : k.currentTask = some c) (hr : k.Runnable c) (hm : k.Maximal c) :
    PicksMax k (false, k) where
  next := ⟨c, hc, hr, hm⟩
  stays d hd _ := hd
  result := by simp
  frame := rfl

theorem picksMax_switch (hc : k.currentTask = some c) (hn : k.Runnable n) (hm : k.Maximal n)
    (hlt : (k.task c).counter < (k.task n).counter) :
    PicksMax k (true, { k with currentTask := some n }) where
  next := ⟨n, rfl, hn, hm⟩
  stays d hd hd' := by
    obtain rfl : c = d := by simpa [hc] using hd
    exact absurd (hd' n hn) (not_le.mpr hlt)
  result := by
    have hne : n ≠ c := by
      rintro rfl
      exact lt_irrefl _ hlt
    simp [hc, hne]
  frame := rfl

/-- `schedule` finds a task with the largest counter exactly if the first that beats the
current one is such a task. -/
theorem schedule_picks_max (hc : k.currentTask = some c) (hr : k.Runnable c) :
    (∃ r, schedule k = .ok r ∧ PicksMax k r) ↔ k.FirstIsMaximal c := by
  rcases schedule_ends hc with ⟨hm, hs⟩ | ⟨n, hn, hlt, hbefore, hs⟩
  · exact ⟨fun _ => ⟨c, hr, hm, fun i _ hi => hm i hi⟩, fun _ => ⟨_, hs, picksMax_stays hc hr hm⟩⟩
  · constructor
    · rintro ⟨r, hs', hp⟩
      obtain rfl := Except.ok.inj (hs.symm.trans hs')
      obtain ⟨i, hi, -, hmax⟩ := hp.next
      obtain rfl : n = i := Option.some.inj hi
      exact ⟨n, hn, hmax, hbefore⟩
    · rintro ⟨m, hm, hmax, hfirst⟩
      -- the task that is chosen does not come before `m`, nor `m` before it
      have hnm : n = m := by
        rcases lt_trichotomy n m with h | h | h
        · exact absurd (hfirst n h hn) (not_le.mpr hlt)
        · exact h
        · exact absurd (hbefore m h hm) (not_le.mpr (hlt.trans_le (hmax n hn)))
      exact ⟨_, hs, picksMax_switch hc hn (hnm ▸ hmax) hlt⟩

end

-- ---------------------------------------------------------------------------
-- Two tasks that beat the current one
-- ---------------------------------------------------------------------------

def countersKernel (l : List ℕ) : Kernel where
  phys := ⟨fun _ => 0, zeroed⟩
  kPgtable := 0
  task i := ⟨fun _ => 0, i, 0, .running, ⟨fun _ => 0, 0⟩, if i < l.length then pgSize else 0,
    fun _ => ⟨0, 0, 0⟩, l.getD i 0⟩
  pidmap i := if i < l.length then 1 else 0
  currentTask := some 0
  jiffies := 0
  csr := ⟨0, 0, 0, 0, 0, 0, 0, 0⟩

theorem countersKernel_runnable : (countersKernel l).Runnable i ↔ i < nrTask ∧ i < l.length := by
  simp [countersKernel, Kernel.Runnable, Task.runnable]

theorem schedule_picks_max_third : (∃ r, schedule (countersKernel [2, 1, 3]) = .ok r ∧
      PicksMax (countersKernel [2, 1, 3]) r) ↔ (countersKernel [2, 1, 3]).FirstIsMaximal 0 :=
  schedule_picks_max rfl (countersKernel_runnable.mpr (by decide))

/-- The second task is chosen, and the third one has more ticks left. -/
theorem schedule_takes_first : ¬ ∃ r, schedule (countersKernel [1, 2, 3]) = .ok r ∧
    PicksMax (countersKernel [1, 2, 3]) r := by
  rintro ⟨r, hs, hp⟩
  have hfirst : schedule (countersKernel [1, 2, 3]) =
      .ok (true, { countersKernel [1, 2, 3] with currentTask := some 1 }) := by
    rw [schedule_eq rfl, show (List.range nrTask).find? ((countersKernel [1, 2, 3]).beats 0) =
      some 1 by decide]
  obtain rfl := Except.ok.inj (hfirst.symm.trans hs)
  obtain ⟨i, hi, -, hmax⟩ := hp.next
  obtain rfl : 1 = i := Option.some.inj hi
  have hle := hmax 2 (countersKernel_runnable.mpr (by decide))
  exact absurd hle (by decide)

end SkyOS
