import SkyOS.Proc.FirstProcess

/-!
# Time slices

A process starts with `TASK_INITIAL_COUNTER` ticks, and every timer interrupt
takes one from the process it interrupts. Nothing looks at the counter before
it is decremented.
-/

namespace SkyOS

structure SameSlices (k k' : Kernel) : Prop where
  counter : ∀ p, (k'.task p).counter = (k.task p).counter
  pgtable : ∀ p, (k'.task p).pgtable = (k.task p).pgtable
  state : ∀ p, (k'.task p).state = (k.task p).state
  pid : ∀ p, (k'.task p).pid = (k.task p).pid
  pidmap : k'.pidmap = k.pidmap
  current : k'.currentTask = k.currentTask

/-- Runs of process creations and timer interrupts, each taken in a state with
`ok`. `c` counts the interrupts charged to each process since it was made. -/
inductive SliceRun (L : Layout) (ok : Kernel → Prop) : Kernel → (ℕ → ℕ) → Prop
  | boot : (∀ p, k.pidmap p = 0) → (∀ p, (k.task p).pgtable = 0) → k.currentTask = none →
      SliceRun L ok k fun _ => 0
  | exec : SliceRun L ok k c → execve L junk name file k = .ok k' → k'.currentTask = some p →
      SliceRun L ok k' (Function.update c p 0)
  | fork : SliceRun L ok k c → sysFork L k = .ok (p, k') → SliceRun L ok k' (Function.update c p 0)
  | tick : SliceRun L ok k c → ok k → k.currentTask = some p → doTimer k = .ok k' →
      SliceRun L ok k' (Function.update c p (c p + 1))
  | other : SliceRun L ok k c → SameSlices k k' → SliceRun L ok k' c

def TickLeft (k : Kernel) : Prop := ∀ p, k.currentTask = some p → 0 < (k.task p).counter

structure Accounted (k : Kernel) (c : ℕ → ℕ) : Prop where
  slice : ∀ p, k.pidmap p ≠ 0 → (k.task p).counter + c p = taskInitialCounter
  current : ∀ p, k.currentTask = some p → k.pidmap p ≠ 0
  tables : ∀ p, (k.task p).pgtable ≠ 0 → k.pidmap p ≠ 0

section
variable {L : Layout} {k k' k₁ : Kernel} {c : ℕ → ℕ}

-- ---------------------------------------------------------------------------
-- Calls that leave the slices alone
-- ---------------------------------------------------------------------------

theorem SameSlices.refl (k : Kernel) : SameSlices k k :=
  ⟨fun _ => rfl, fun _ => rfl, fun _ => rfl, fun _ => rfl, rfl, rfl⟩

theorem SameSlices.trans (h : SameSlices k k₁) (h' : SameSlices k₁ k') : SameSlices k k' :=
  ⟨fun p => (h'.counter p).trans (h.counter p), fun p => (h'.pgtable p).trans (h.pgtable p),
    fun p => (h'.state p).trans (h.state p), fun p => (h'.pid p).trans (h.pid p),
    h'.pidmap.trans h.pidmap, h'.current.trans h.current⟩

theorem SameSlices.phys (k : Kernel) (s : Phys Buddy) : SameSlices k { k with phys := s } :=
  ⟨fun _ => rfl, fun _ => rfl, fun _ => rfl, fun _ => rfl, rfl, rfl⟩

theorem SameSlices.csr (k : Kernel) (s : Csr) : SameSlices k { k with csr := s } :=
  ⟨fun _ => rfl, fun _ => rfl, fun _ => rfl, fun _ => rfl, rfl, rfl⟩

theorem SameSlices.setTask (k : Kernel) {p : ℕ} {t : Task} (h1 : t.counter = (k.task p).counter)
    (h2 : t.pgtable = (k.task p).pgtable) (h3 : t.state = (k.task p).state)
    (h4 : t.pid = (k.task p).pid) :
    SameSlices k (k.setTask p t) := by
  constructor <;> try rfl
  all_goals
    intro q
    by_cases hq : q = p
    · subst hq
      simpa [Kernel.setTask]
    · simp [Kernel.setTask, Function.update_of_ne hq]

theorem SameSlices.vmaInsert (k : Kernel) (p va size flag : ℕ) :
    SameSlices k (k.setTask p (vmaInsert va size flag (k.task p))) := by
  refine .setTask k ?_ ?_ ?_ ?_ <;> unfold SkyOS.vmaInsert <;> split <;> rfl

theorem SameSlices.alloc (h : k.alloc L size = .ok (a, k')) : SameSlices k k' := by
  obtain ⟨heap, -, rfl⟩ := alloc_ok.mp h
  exact .phys k _

theorem SameSlices.umap (h : umap L p va pa size k = .ok k') : SameSlices k k' := by
  simp only [SkyOS.umap, bind_ok, pure_ok] at h
  obtain ⟨phys, -, rfl⟩ := h
  exact (SameSlices.vmaInsert k p va size pteU).trans (.phys _ _)

theorem SameSlices.copyVma (h : copyVma L p q i k = .ok k') : SameSlices k k' := by
  by_cases hv : ((k.task q).memMap i).memRange = 0
  · rw [copyVma_skip hv, Except.ok.injEq] at h
    exact h ▸ .refl k
  · obtain ⟨pa, k₁, m, ha, -, hu⟩ := copyVma_inv h hv
    exact (SameSlices.alloc ha).trans ((SameSlices.phys k₁ _).trans (.umap hu))

theorem SameSlices.copyVmas (h : copyVmas L p q n k = .ok k') : SameSlices k k' := by
  induction n generalizing k' with
  | zero =>
    rw [SkyOS.copyVmas, List.range_zero, List.foldlM_nil, pure_ok] at h
    exact h ▸ .refl k
  | succ n ih =>
    rw [copyVmas_succ, bind_ok] at h
    obtain ⟨k₁, h1, h2⟩ := h
    exact (ih h1).trans (.copyVma h2)

theorem SameSlices.loadOps (h : LoadOps L k k') : SameSlices k k' := by
  induction h with
  | refl => exact .refl k
  | tail _ h1 ih =>
    refine ih.trans ?_
    cases h1 with
    | alloc ha => exact .alloc ha
    | store => exact .phys _ _
    | umap hu => exact .umap hu

-- ---------------------------------------------------------------------------
-- Creations
-- ---------------------------------------------------------------------------

theorem execve_slices (h : execve L junk name file k = .ok k') :
    ∃ p k₁, allocProcess L k = .ok (p, k₁) ∧
    SameSlices { k₁ with currentTask := some p } k' := by
  obtain ⟨p, k₁, a, k₂, o, k₃, stack, k₄, k₅, h1, h2, -, h3, h4, -, h5, rfl⟩ := execve_ok.mp h
  have hnamed : SameSlices k₁ (named p name k₁) := .setTask k₁ rfl rfl rfl rfl
  have hall := hnamed.trans ((SameSlices.alloc h2).trans ((SameSlices.phys k₂ _).trans
    ((SameSlices.loadOps (loadSegments_ops h3)).trans ((SameSlices.alloc h4).trans (.umap h5)))))
  have hlast : SameSlices k₅ (k₅.setTask p _) := .setTask k₅ (t := { k₅.task p with
    context := { (k₅.task p).context with sepc := u64 ((readElfhdr k₅.phys.mem a).entry + o) } })
      rfl rfl rfl rfl
  have hall := hall.trans hlast
  exact ⟨p, k₁, h1, ⟨hall.counter, hall.pgtable, hall.state, hall.pid, hall.pidmap, rfl⟩⟩

theorem forkTasks_slices (p q : ℕ) (k : Kernel) (hp : (k.task p).state = .running) :
    SameSlices k (withSum (forkTasks p q k)) := by
  constructor <;> try rfl
  all_goals
    intro r
    by_cases hq : r = q <;> by_cases hr : r = p <;> by_cases hqp : q = p <;>
      simp_all [withSum, forkTasks, Kernel.setTask]

/-- `sys_fork` makes the process it returns, and changes no other slice. -/
theorem sysFork_slices (h : sysFork L k = .ok (p, k')) : ∃ k₁, allocProcess L k = .ok (p, k₁) ∧
    SameSlices k₁ k' := by
  obtain ⟨p', k₁, q, k₂, h1, -, h2, rfl, rfl⟩ := sysFork_inv h
  obtain ⟨-, t, heap, -, -, rfl⟩ := allocProcess_ok.mp h1
  have hs : SameSlices (withProcess k p' t heap) k₂ :=
    (forkTasks_slices p' q _ (by simp [withProcess])).trans (.copyVmas h2)
  have hpid : (k₂.task p').pid = p' := by rw [hs.pid]; simp [withProcess]
  rw [hpid]
  exact ⟨_, h1, hs.trans (.csr k₂ _)⟩

theorem Accounted.same (h : Accounted k c) (hs : SameSlices k k') : Accounted k' c := by
  refine ⟨fun p hp => ?_, fun p hp => ?_, fun p hp => ?_⟩
  · rw [hs.counter]
    exact h.slice p (hs.pidmap ▸ hp)
  · rw [hs.pidmap]
    exact h.current p (hs.current ▸ hp)
  · rw [hs.pidmap]
    exact h.tables p (hs.pgtable p ▸ hp)

theorem Accounted.created (h : Accounted k c) (ha : allocProcess L k = .ok (p, k')) :
    Accounted k' (Function.update c p 0) ∧ k'.pidmap p ≠ 0 := by
  obtain ⟨-, t, heap, -, -, rfl⟩ := allocProcess_ok.mp ha
  refine ⟨⟨fun q hq => ?_, fun q hq => ?_, fun q hq => ?_⟩, by simp [withProcess]⟩ <;>
    by_cases hqp : q = p
  · subst hqp
    simp [withProcess]
  · simp only [withProcess, Function.update_of_ne hqp] at hq ⊢
    exact h.slice q hq
  · subst hqp
    simp [withProcess]
  · simp only [withProcess, Function.update_of_ne hqp] at hq ⊢
    exact h.current q hq
  · subst hqp
    simp [withProcess]
  · simp only [withProcess, Function.update_of_ne hqp] at hq ⊢
    exact h.tables q hq

-- ---------------------------------------------------------------------------
-- Ticks
-- ---------------------------------------------------------------------------

/-- Who runs next: the first process with more ticks left than the current one. -/
theorem schedule_cases (h : schedule k = .ok (r, k')) (hc : k.currentTask = some p) :
    (r = false ∧ k' = k ∧ ∀ q < nrTask, (k.task q).runnable →
      (k.task q).counter ≤ (k.task p).counter) ∨
    ∃ q < nrTask, r = true ∧ k' = { k with currentTask := some q } ∧ (k.task q).runnable ∧
      (k.task p).counter < (k.task q).counter := by
  unfold schedule at h
  rw [hc] at h
  simp only at h
  split at h
  · rename_i q hq
    rw [Except.ok.injEq, Prod.mk.injEq] at h
    have hmem := List.mem_of_find?_eq_some hq
    have hsat := List.find?_some hq
    simp only [Bool.and_eq_true, decide_eq_true_eq] at hsat
    exact .inr ⟨q, List.mem_range.mp hmem, h.1.symm, h.2.symm, hsat.1.1, hsat.2⟩
  · rename_i hno
    rw [Except.ok.injEq, Prod.mk.injEq] at h
    refine .inl ⟨h.1.symm, h.2.symm, fun q hq hrun => ?_⟩
    have hno := List.find?_eq_none.mp hno q (List.mem_range.mpr hq)
    by_contra hlt
    have hne : q ≠ p := by
      rintro rfl
      exact hlt le_rfl
    simp [hrun, hne] at hno
    omega

def ticked (p : ℕ) (k : Kernel) : Kernel :=
  { k with jiffies := u64 (k.jiffies + 1) }.setTask p { k.task p with
    counter := u64Dec (k.task p).counter }

/-- A timer interrupt charges the current process, and then either it or, from
user mode, the choice of `schedule` is current. -/
theorem doTimer_cases (h : doTimer k = .ok k') (hc : k.currentTask = some p) :
    SameSlices (ticked p k) k' ∨ ∃ k₁, schedule (ticked p k) = .ok (true, k₁) ∧
      SameSlices k₁ k' := by
  obtain ⟨phys, kPgtable, task, pidmap, currentTask, jiffies, csr⟩ := k
  obtain rfl : currentTask = some p := hc
  unfold doTimer at h
  simp only [Kernel.current, ok_bind] at h
  split at h
  · rw [bind_ok] at h
    obtain ⟨⟨r, k₁⟩, h1, h2⟩ := h
    have h1 : schedule (ticked p ⟨phys, kPgtable, task, pidmap, some p, jiffies, csr⟩) =
      .ok (r, k₁) := h1
    cases r with
    | false =>
      rcases schedule_cases h1 rfl with ⟨-, rfl, -⟩ | ⟨q, -, hr, -⟩
      · simp only [Bool.false_eq_true, if_false, pure_ok] at h2
        exact .inl (h2 ▸ .refl _)
      · cases hr
    | true =>
      refine .inr ⟨k₁, h1, ?_⟩
      simp only [if_true, switchTo, bind_ok, pure_ok] at h2
      obtain ⟨-, -, rfl⟩ := h2
      exact .csr k₁ _
  · rw [pure_ok] at h
    exact .inl (h ▸ .refl _)

theorem ticked_task (p : ℕ) (k : Kernel) (q : ℕ) : (ticked p k).task q =
    if q = p then { k.task p with counter := u64Dec (k.task p).counter } else k.task q := by
  by_cases hq : q = p
  · subst hq
    simp [ticked, Kernel.setTask]
  · simp [ticked, Kernel.setTask, hq]

theorem Accounted.ticked (h : Accounted k c) (hc : k.currentTask = some p)
    (hl : 0 < (k.task p).counter) :
    Accounted (ticked p k) (Function.update c p (c p + 1)) := by
  refine ⟨fun q hq => ?_, h.current, fun q hq => ?_⟩
  · have hq : k.pidmap q ≠ 0 := hq
    have hs := h.slice q hq
    rw [ticked_task]
    by_cases hqp : q = p
    · subst hqp
      obtain ⟨n, hn⟩ := Nat.exists_eq_add_one.mpr hl
      simp only [if_true, Function.update_self, hn, u64Dec_succ]
      omega
    · rw [if_neg hqp, Function.update_of_ne hqp]
      exact hs
  · rw [ticked_task] at hq
    by_cases hqp : q = p
    · subst hqp
      exact h.current q hc
    · rw [if_neg hqp] at hq
      exact h.tables q hq

theorem Accounted.scheduled (h : Accounted k c) (hs : schedule k = .ok (true, k')) :
    Accounted k' c := by
  cases hc : k.currentTask with
  | none =>
    unfold schedule at hs
    rw [hc] at hs
    simp only at hs
    split at hs <;> cases hs
  | some p =>
    rcases schedule_cases hs hc with ⟨hr, -⟩ | ⟨q, -, -, rfl, hrun, -⟩
    · cases hr
    · refine ⟨h.slice, fun r hr => ?_, h.tables⟩
      obtain rfl : q = r := by simpa using hr
      simp only [Task.runnable, Bool.and_eq_true, bne_iff_ne] at hrun
      exact h.tables q hrun.1

theorem sliceRun_accounted (hr : SliceRun L TickLeft k c) : Accounted k c := by
  induction hr with
  | boot h1 h2 h3 => exact ⟨fun p hp => absurd (h1 p) hp, fun p hp => by simp [h3] at hp,
      fun p hp => absurd (h2 p) hp⟩
  | exec _ he hp ih =>
    obtain ⟨p, k₁, ha, hs⟩ := execve_slices he
    obtain rfl : p = _ := by simpa [hs.current] using hp
    obtain ⟨h1, h2⟩ := ih.created ha
    refine Accounted.same (k := { k₁ with currentTask := some p }) ⟨h1.slice, fun q hq => ?_,
      h1.tables⟩ hs
    obtain rfl : p = q := by simpa using hq
    exact h2
  | fork _ hf ih =>
    obtain ⟨k₁, ha, hs⟩ := sysFork_slices hf
    exact (ih.created ha).1.same hs
  | tick _ hl hc ht ih =>
    have h := ih.ticked hc (hl _ hc)
    rcases doTimer_cases ht hc with hs | ⟨k₁, hsch, hs⟩
    · exact h.same hs
    · exact (h.scheduled hsch).same hs
  | other _ hs ih => exact ih.same hs

-- ---------------------------------------------------------------------------
-- The choice of the scheduler
-- ---------------------------------------------------------------------------

/-- `schedule` does not choose a process that has used up its slice while
another one has ticks left. -/
def Fair (k : Kernel) (c : ℕ → ℕ) : Prop :=
  ∀ r k' p q, schedule k = .ok (r, k') → k'.currentTask = some p → taskInitialCounter ≤ c p →
    q < nrTask → (k.task q).runnable → taskInitialCounter ≤ c q

theorem Accounted.fair (h : Accounted k c) : Fair k c := by
  intro r k' p q hs hp hused hq hrun
  have hlive : ∀ {q}, (k.task q).runnable → k.pidmap q ≠ 0 := fun hrun => by
    simp only [Task.runnable, Bool.and_eq_true, bne_iff_ne] at hrun
    exact h.tables _ hrun.1
  have hsq := h.slice q (hlive hrun)
  cases hc : k.currentTask with
  | none =>
    unfold schedule at hs
    rw [hc] at hs
    simp only at hs
    split at hs
    · cases hs
    · rw [Except.ok.injEq, Prod.mk.injEq] at hs
      rw [← hs.2, hc] at hp
      cases hp
  | some p₀ =>
    rcases schedule_cases hs hc with ⟨-, rfl, hall⟩ | ⟨n, -, -, rfl, hn, hlt⟩
    · obtain rfl : p₀ = p := by simpa [hc] using hp
      have h1 := hall q hq hrun
      have h2 := h.slice p₀ (h.current p₀ hc)
      omega
    · obtain rfl : n = p := by simpa using hp
      have h2 := h.slice n (hlive hn)
      omega

/-- In every run whose timer interrupts all find the current process with a
tick left, a process has its initial slice less the interrupts it was charged,
and the scheduler is fair, also between the charge and the choice. -/
theorem slices_add_up (hr : SliceRun L TickLeft k c) :
    (∀ p, k.pidmap p ≠ 0 → (k.task p).counter + c p = taskInitialCounter) ∧ Fair k c ∧
      ∀ p, k.currentTask = some p → TickLeft k →
        Fair (ticked p k) (Function.update c p (c p + 1)) := by
  have h := sliceRun_accounted hr
  exact ⟨h.slice, h.fair, fun p hc hl => (h.ticked hc (hl p hc)).fair⟩

-- ---------------------------------------------------------------------------
-- One process
-- ---------------------------------------------------------------------------

structure Alone (k : Kernel) (p : ℕ) : Prop where
  current : k.currentTask = some p
  others : ∀ q, q ≠ p → (k.task q).pgtable = 0

theorem Alone.ticked (h : Alone k p) : Alone (ticked p k) p :=
  ⟨h.current, fun q hq => by rw [ticked_task, if_neg hq]; exact h.others q hq⟩

theorem Alone.doTimer (h : Alone k p) : doTimer k = .ok (SkyOS.ticked p k) := by
  obtain ⟨phys, kPgtable, task, pidmap, currentTask, jiffies, csr⟩ := k
  obtain rfl : currentTask = some p := h.current
  unfold SkyOS.doTimer
  simp only [Kernel.current, ok_bind]
  split
  · have hs : schedule (SkyOS.ticked p ⟨phys, kPgtable, task, pidmap, some p, jiffies, csr⟩) =
        .ok (false, SkyOS.ticked p ⟨phys, kPgtable, task, pidmap, some p, jiffies, csr⟩) := by
      unfold schedule
      simp only [show (SkyOS.ticked p ⟨phys, kPgtable, task, pidmap, some p, jiffies,
        csr⟩).currentTask = some p from rfl]
      rw [List.find?_eq_none.mpr]
      intro q _
      by_cases hq : q = p
      · simp [hq]
      · simp [Task.runnable, h.ticked.others q hq]
    exact (congrArg (· >>= _) hs).trans rfl
  · rfl

theorem Alone.ticks (h : Alone k p) (hr : SliceRun L (fun _ => True) k c) (n : ℕ) :
    ∃ k' c', SliceRun L (fun _ => True) k' c' ∧ Alone k' p ∧ k'.pidmap = k.pidmap ∧ c' p = c p + n ∧
      (k'.task p).counter = u64Dec^[n] (k.task p).counter := by
  induction n with
  | zero => exact ⟨k, c, hr, h, rfl, rfl, rfl⟩
  | succ n ih =>
    obtain ⟨k', c', hr', h', hpid, hc, hk⟩ := ih
    refine ⟨_, _, hr'.tick trivial h'.current h'.doTimer, h'.ticked, hpid, ?_, ?_⟩
    · rw [Function.update_self, hc]
      omega
    · rw [ticked_task, if_pos rfl, Function.iterate_succ_apply', ← hk]

theorem u64Dec_iterate (h : n ≤ m) : u64Dec^[n] m = m - n := by
  induction n with
  | zero => rfl
  | succ n ih =>
    obtain ⟨j, hj⟩ := Nat.exists_eq_add_of_lt h
    rw [Function.iterate_succ_apply', ih (by omega), show m - n = j + 1 by omega, u64Dec_succ]
    omega

theorem one_process (L : Layout) (b : Buddy) (ok : Kernel → Prop) : ∃ k c, SliceRun L ok k c ∧
    Alone k 0 ∧
    k.pidmap 0 ≠ 0 ∧ c 0 = 0 ∧ (k.task 0).counter = taskInitialCounter := by
  obtain ⟨k, k₅, a, D, -, h0, hcur, -, -, he, -⟩ :=
    starts L b 0 (fun _ => 0) ⟨0, 0, 0, 0, 0, 0, 0, 0⟩
  have hboot : SliceRun L ok k fun _ => 0 := .boot (fun p => (h0 p).1) (fun p => (h0 p).2) hcur
  obtain ⟨p, k₁, ha, hs⟩ := execve_slices he
  obtain rfl : p = 0 := (Option.some.inj hs.current).symm
  obtain ⟨-, t, heap, -, -, rfl⟩ := allocProcess_ok.mp ha
  refine ⟨_, _, hboot.exec he rfl, ⟨rfl, fun q hq => ?_⟩, ?_, Function.update_self _ _ _, ?_⟩
  · rw [hs.pgtable]
    simpa [withProcess, Function.update_of_ne hq] using (h0 q).2
  · rw [hs.pidmap]
    simp [withProcess]
  · rw [hs.counter]
    simp only [withProcess, Function.update_self]

end

theorem slices_add_up_first : ∃ k c, SliceRun sampleLayout TickLeft k c ∧
    (∀ p, k.pidmap p ≠ 0 → (k.task p).counter + c p = taskInitialCounter) ∧ Fair k c ∧
      ∀ p, k.currentTask = some p → TickLeft k →
        Fair (ticked p k) (Function.update c p (c p + 1)) := by
  obtain ⟨k, c, hr, -⟩ := one_process sampleLayout zeroed TickLeft
  exact ⟨k, c, hr, slices_add_up hr⟩

/-- The 257th interrupt finds no tick left and wraps the counter. -/
theorem counter_wraps : ∃ k c, SliceRun sampleLayout (fun _ => True) k c ∧ k.pidmap 0 ≠ 0 ∧
    c 0 = 257 ∧
    (k.task 0).counter = 2 ^ 64 - 1 ∧ (k.task 0).counter + c 0 ≠ taskInitialCounter := by
  obtain ⟨k, c, hr, h, hpid, hc, hk⟩ := one_process sampleLayout zeroed fun _ => True
  obtain ⟨k', c', hr', -, hpid', hc', hk'⟩ := h.ticks hr 257
  have hwrap : (k'.task 0).counter = 2 ^ 64 - 1 := by
    rw [hk', hk, Function.iterate_succ_apply', u64Dec_iterate (by decide)]
    rfl
  exact ⟨k', c', hr', hpid' ▸ hpid, by rw [hc', hc], hwrap,
    by rw [hwrap]; simp only [taskInitialCounter]; omega⟩

end SkyOS
