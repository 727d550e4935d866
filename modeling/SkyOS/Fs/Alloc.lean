import SkyOS.Fs.Disk

/-!
# Free clusters

`fat_find_free_cluster` goes round from `last_cluster_alloc` and finds the first
free cluster there is below `cluster_count`. Clusters are numbered from 2 on, so
that the last two of a volume are left out.
-/

namespace SkyOS

open ByteMem WriteBack

namespace Fat

def firstFree (h : Fat) (D : Disk) (n i : ℕ) : Option ℕ := (List.range' i n).find? fun c =>
    h.next D c = 0

def freeCluster (h : Fat) (D : Disk) : ℕ × Fat :=
  match h.firstFree D (h.clusterCount - h.lastClusterAlloc) h.lastClusterAlloc with
  | some c => (c, { h with lastClusterAlloc := c })
  | none =>
    match h.firstFree D (h.lastClusterAlloc - 2) 2 with
    | some c => (c, { h with lastClusterAlloc := c })
    | none => (0, h)

structure AllocatorRight (h : Fat) (D : Disk) (r : ℕ × Fat) : Prop where
  sound : r.1 ≠ 0 → h.IsData r.1 ∧ h.next D r.1 = 0 ∧ r.2 = { h with lastClusterAlloc := r.1 }
  complete : r.1 = 0 ↔ ∀ c, h.IsData c → h.next D c ≠ 0
  full : r.1 = 0 → r.2 = h

end Fat

section
variable {S : Set ℕ} {h : Fat} {D : Disk}

theorem findFree_gives (hb : h.bytesPerSector = maxSectorSize) (n i : ℕ) :
    Gives .univ (On D) (findFree h n i) (h.firstFree D n i) (On D) := by
  induction n generalizing i with
  | zero => exact .pure _ fun _ => id
  | succ n ih =>
    refine (fatGetNextCluster_gives hb (Set.subset_univ _)).bind ?_
    rw [Fat.firstFree, List.range'_succ, List.find?_cons]
    by_cases hfree : h.next D i = 0
    · rw [if_pos hfree, decide_eq_true hfree]
      exact Gives.pure _ fun _ => id
    · rw [if_neg hfree, decide_eq_false hfree]
      exact ih (i + 1)

theorem fatFindFreeCluster_gives (hb : h.bytesPerSector = maxSectorSize) :
    Gives .univ (On D) (fatFindFreeCluster h) (h.freeCluster D) (On D) := by
  refine (findFree_gives hb _ _).bind ?_
  unfold Fat.freeCluster
  cases h.firstFree D (h.clusterCount - h.lastClusterAlloc) h.lastClusterAlloc with
  | some c => exact Gives.pure _ fun _ => id
  | none =>
    refine (findFree_gives hb _ _).bind ?_
    cases h.firstFree D (h.lastClusterAlloc - 2) 2 with
    | some c => exact Gives.pure _ fun _ => id
    | none => exact Gives.pure _ fun _ => id

-- ---------------------------------------------------------------------------
-- What is found
-- ---------------------------------------------------------------------------

theorem Fat.firstFree_some (hf : h.firstFree D n i = some c) : i ≤ c ∧ c < i + n ∧
    h.next D c = 0 := by
  have hc := List.find?_some hf
  have hm := List.mem_of_find?_eq_some hf
  rw [List.mem_range'_1] at hm
  exact ⟨hm.1, hm.2, by simpa using hc⟩

theorem Fat.firstFree_none : h.firstFree D n i = none ↔ ∀ c, i ≤ c → c < i + n →
    h.next D c ≠ 0 := by
  simp only [Fat.firstFree, List.find?_eq_none, List.mem_range'_1, decide_eq_true_eq, and_imp]

theorem Fat.freeCluster_zero (hl : h.IsData h.lastClusterAlloc) : (h.freeCluster D).1 = 0 ↔
    ∀ c, 2 ≤ c → c < max h.clusterCount h.lastClusterAlloc → h.next D c ≠ 0 := by
  obtain ⟨hl, hlt⟩ := hl
  unfold Fat.freeCluster
  cases h1 : h.firstFree D (h.clusterCount - h.lastClusterAlloc) h.lastClusterAlloc with
  | some c =>
    obtain ⟨hle, hc, hfree⟩ := Fat.firstFree_some h1
    exact ⟨fun h0 => absurd (show c = 0 from h0) (by omega),
      fun hall => absurd hfree (hall c (by omega) (by omega))⟩
  | none =>
    have h1 := Fat.firstFree_none.mp h1
    cases h2 : h.firstFree D (h.lastClusterAlloc - 2) 2 with
    | some c =>
      obtain ⟨hle, hc, hfree⟩ := Fat.firstFree_some h2
      exact ⟨fun h0 => absurd (show c = 0 from h0) (by omega),
        fun hall => absurd hfree (hall c hle (by omega))⟩
    | none =>
      have h2 := Fat.firstFree_none.mp h2
      refine ⟨fun _ c hc hm => ?_, fun _ => rfl⟩
      rcases Nat.lt_or_ge c h.lastClusterAlloc with hlt | hge
      · exact h2 c hc (by omega)
      · exact h1 c hge (by omega)

theorem Fat.freeCluster_sound (hl : h.IsData h.lastClusterAlloc) (hc : (h.freeCluster D).1 ≠ 0) :
    h.IsData (h.freeCluster D).1 ∧ h.next D (h.freeCluster D).1 = 0 ∧
      (h.freeCluster D).2 = { h with lastClusterAlloc := (h.freeCluster D).1 } := by
  obtain ⟨hl, hlt⟩ := hl
  unfold Fat.freeCluster at hc ⊢
  cases h1 : h.firstFree D (h.clusterCount - h.lastClusterAlloc) h.lastClusterAlloc with
  | some c =>
    obtain ⟨hle, hc, hfree⟩ := Fat.firstFree_some h1
    have hc : c < h.clusterCount + 2 := by omega
    exact ⟨⟨hl.trans hle, hc⟩, hfree, rfl⟩
  | none =>
    cases h2 : h.firstFree D (h.lastClusterAlloc - 2) 2 with
    | some c =>
      obtain ⟨hle, hc, hfree⟩ := Fat.firstFree_some h2
      have hc : c < h.clusterCount + 2 := by omega
      exact ⟨⟨hle, hc⟩, hfree, rfl⟩
    | none =>
      rw [h1, h2] at hc
      exact absurd rfl hc

theorem Fat.freeCluster_full (hc : (h.freeCluster D).1 = 0) (hl : h.IsData h.lastClusterAlloc) :
    (h.freeCluster D).2 = h := by
  unfold Fat.freeCluster at hc ⊢
  cases h1 : h.firstFree D (h.clusterCount - h.lastClusterAlloc) h.lastClusterAlloc with
  | some c =>
    rw [h1] at hc
    have := hl.1
    have := (Fat.firstFree_some h1).1
    exact absurd (show c = 0 from hc) (by omega)
  | none =>
    cases h2 : h.firstFree D (h.lastClusterAlloc - 2) 2 with
    | some c =>
      rw [h1, h2] at hc
      have := (Fat.firstFree_some h2).1
      exact absurd (show c = 0 from hc) (by omega)
    | none => rfl

/-- The allocator is right unless the only free clusters are among the last two. -/
theorem allocator_right_iff (hb : h.bytesPerSector = maxSectorSize)
    (hl : h.IsData h.lastClusterAlloc)
    {c : Cached Sector} (hc : On D c) : ∃ r c', (fatFindFreeCluster h).cached c = .ok (r, c') ∧
      On D c' ∧
      (h.AllocatorRight D r ↔ (∃ i, 2 ≤ i ∧ i < max h.clusterCount h.lastClusterAlloc ∧
        h.next D i = 0) ∨
        ∀ i, h.IsData i → h.next D i ≠ 0) := by
  obtain ⟨-, c', hrun, hc'⟩ := (fatFindFreeCluster_gives hb).run hc
  refine ⟨_, c', hrun, hc', ?_, ?_⟩
  · intro hr
    by_cases h0 : (h.freeCluster D).1 = 0
    · exact .inr (hr.complete.mp h0)
    · left
      by_contra hno
      push Not at hno
      exact h0 ((Fat.freeCluster_zero hl).mpr hno)
  · intro hcond
    refine ⟨Fat.freeCluster_sound hl, ?_, fun h0 => Fat.freeCluster_full h0 hl⟩
    rw [Fat.freeCluster_zero hl]
    obtain ⟨hl, hlt⟩ := hl
    refine ⟨fun hno => ?_, fun hall i hi hm => hall i ⟨hi, by omega⟩⟩
    rcases hcond with ⟨i, hi, hm, hfree⟩ | hall
    · exact absurd hfree (hno i hi hm)
    · exact hall

end

def lastTwoFree (n : ℕ) : Sector :=
  .ofMem (if n = 1 then writeLE (fun _ => 0) 0 6 0xFF8FF8FFFFF8 else fun _ => 0)

def allFree (n : ℕ) : Sector :=
  .ofMem (if n = 1 then writeLE (fun _ => 0) 0 3 0xFFFFF8 else fun _ => 0)

theorem allocator_right_allFree : ∃ r c',
    (fatFindFreeCluster fourClusters).cached (coldCache allFree) = .ok (r, c') ∧ On allFree c' ∧
    (fourClusters.AllocatorRight allFree r ↔
      (∃ i, 2 ≤ i ∧ i < max fourClusters.clusterCount fourClusters.lastClusterAlloc ∧
        fourClusters.next allFree i = 0) ∨
        ∀ i, fourClusters.IsData i → fourClusters.next allFree i ≠ 0) :=
  allocator_right_iff rfl (by decide) (coldCache_on allFree)

/-- Two clusters are free, and none is found. -/
theorem allocator_misses_last : fourClusters.IsData 4 ∧ fourClusters.next lastTwoFree 4 = 0 ∧
    ∃ r c', (fatFindFreeCluster fourClusters).cached (coldCache lastTwoFree) = .ok (r, c') ∧
      ¬ fourClusters.AllocatorRight lastTwoFree r := by
  have hfree : fourClusters.next lastTwoFree 4 = 0 := by decide +kernel
  obtain ⟨-, c', hrun, -⟩ :=
    (fatFindFreeCluster_gives (h := fourClusters) rfl).run (coldCache_on lastTwoFree)
  refine ⟨by decide, hfree, _, c', hrun, fun hr => ?_⟩
  have hzero : (fourClusters.freeCluster lastTwoFree).1 = 0 := by decide +kernel
  exact hr.complete.mp hzero 4 (by decide) hfree

end SkyOS
