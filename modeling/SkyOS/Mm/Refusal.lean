import SkyOS.Mm.Aligned

/-!
# Releases that are refused

`buddy_free_page` tells a page that heads no held block by its entry. Merging
leaves a free tail where a block was headed, but `buddy_init` marks no page a
tail: an entry that has never headed a block reads as memory left it. A run is
taken here with the pages that have headed a block so far.
-/

namespace SkyOS

def freePage (p : ℕ) : EStateM Stop Buddy Unit := do
  let s ← get
  if (s.pages p).flag = pgTail then
    throw (.panic "[buddy]: free a tail page, this is not allowed.\n")
  if (s.pages p).free = 1 then
    throw (.panic "[buddy]: free a free page.\n")
  modify fun s => s.setPage p { s.pages p with free := 1 }
  modify fun s => s.append p (s.pages p).order
  modify fun s => s.setNr (s.pages p).order (u64 (s.nr (s.pages p).order + 1))
  modify (mergeLoop p buddyMaxOrder)

def Refused (p : ℕ) (s : Buddy) : Prop := ∃ msg, freePage p s = .error (.panic msg) s

/-- A run, and the pages that have headed a block in the course of it. -/
inductive Heap.History (b : Buddy) : Heap → Set ℕ → Prop
  | init : History b ⟨buddyInit b, []⟩ {i | Heap.IsHead ⟨buddyInit b, []⟩ i}
  | step : History b H T → Step H H' → History b H' (T ∪ {i | H'.IsHead i})

theorem Heap.History.reach (h : Heap.History b H T) : Heap.Reach b H := by
  induction h with
  | init => exact .init
  | step _ hs ih => exact .step ih hs

theorem Heap.Reach.history (h : Heap.Reach b H) : ∃ T, Heap.History b H T := by
  induction h with
  | init => exact ⟨_, .init⟩
  | step _ hs ih =>
    obtain ⟨T, hT⟩ := ih
    exact ⟨_, .step hT hs⟩

-- ---------------------------------------------------------------------------
-- The two tests
-- ---------------------------------------------------------------------------

section
variable {s s' : Buddy} {p : ℕ}

theorem freePage_tail (h : (s.pages p).flag = pgTail) :
    freePage p s = .error (.panic "[buddy]: free a tail page, this is not allowed.\n") s := by
  simp [freePage, bind, EStateM.bind, get, getThe, MonadStateOf.get, EStateM.get, h, throw,
      throwThe,
    MonadExceptOf.throw, EStateM.throw]

theorem freePage_free (ht : (s.pages p).flag ≠ pgTail) (h : (s.pages p).free = 1) :
    freePage p s = .error (.panic "[buddy]: free a free page.\n") s := by
  simp [freePage, bind, EStateM.bind, get, getThe, MonadStateOf.get, EStateM.get, h, ht, throw,
      throwThe,
    MonadExceptOf.throw, EStateM.throw]

theorem freePage_taken (ht : (s.pages p).flag ≠ pgTail) (h : (s.pages p).free ≠ 1) :
    ∃ s', freePage p s = .ok () s' ∧ buddyFreePage p s = .ok s' := by
  refine ⟨mergeLoop p buddyMaxOrder (give s p (s.pages p).order), ?_, ?_⟩
  · simp [freePage, bind, EStateM.bind, get, getThe, MonadStateOf.get, EStateM.get, h, ht,
      modify, modifyGet, MonadStateOf.modifyGet, EStateM.modifyGet, give, Buddy.setPage,
        Buddy.append, Buddy.setNr]
  · simp [buddyFreePage, ht, h, give, Buddy.setPage, Buddy.append, Buddy.setNr]

theorem freePage_ok : freePage p s = .ok () s' ↔ buddyFreePage p s = .ok s' := by
  by_cases ht : (s.pages p).flag = pgTail
  · rw [freePage_tail ht]
    simp [buddyFreePage, ht, throw, throwThe, MonadExceptOf.throw, bind, Except.bind]
  · by_cases h : (s.pages p).free = 1
    · rw [freePage_free ht h]
      simp [buddyFreePage, ht, h, throw, throwThe, MonadExceptOf.throw, bind, Except.bind]
    · obtain ⟨s₁, h1, h2⟩ := freePage_taken ht h
      rw [h1, h2]
      simp

theorem refused_iff : Refused p s ↔ (s.pages p).flag = pgTail ∨ (s.pages p).free = 1 := by
  constructor
  · rintro ⟨msg, hr⟩
    by_contra hno
    push Not at hno
    obtain ⟨s', hs, -⟩ := freePage_taken hno.1 hno.2
    rw [hs] at hr
    cases hr
  · intro h
    by_cases ht : (s.pages p).flag = pgTail
    · exact ⟨_, freePage_tail ht⟩
    · exact ⟨_, freePage_free ht (h.resolve_left ht)⟩

end

-- ---------------------------------------------------------------------------
-- Entries in the course of a run
-- ---------------------------------------------------------------------------

section
variable {s s' : Buddy} {ls : ℕ → List ℕ} {B B' : Set Block} {T : Set ℕ} {H : Heap}

theorem Partition.isHead_iff (h : Partition H ls B) : H.IsHead i ↔ ∃ c ∈ B, c.start = i := by
  rw [Heap.IsHead, h.live, h.rep.freeBlocks]
  constructor
  · rintro (⟨k, hk⟩ | ⟨k, hk⟩)
    · exact ⟨_, hk, rfl⟩
    · exact ⟨⟨i, k, true⟩, hk, rfl⟩
  · rintro ⟨⟨i, k, f⟩, hc, rfl⟩
    cases f with
    | true => exact .inr ⟨k, hc⟩
    | false => exact .inl ⟨k, hc⟩

/-- The pages `T` have headed a block. Those that head none any more are free
tails, and the others are as `buddy_init` left them. -/
structure Worn (b s : Buddy) (B : Set Block) (T : Set ℕ) : Prop where
  heads : ∀ c ∈ B, c.start ∈ T
  tail : ∀ i ∈ T, (∀ c ∈ B, c.start ≠ i) → (s.pages i).flag = pgTail ∧ (s.pages i).free = 1
  new : ∀ i ∉ T, s.pages i = (clearPages b).pages i

theorem Worn.moved (h : Worn b s B T) (hm : Moved B B' s s') :
    Worn b s' B' (T ∪ {i | ∃ c ∈ B', c.start = i}) := by
  constructor
  · exact fun c hc => .inr ⟨c, hc, rfl⟩
  · rintro i (hi | ⟨c, hc, he⟩) hno
    · by_cases hB : ∃ c ∈ B, c.start = i
      · obtain ⟨c, hc, rfl⟩ := hB
        exact hm.tail c hc hno
      · push Not at hB
        rw [hm.kept i hB hno]
        exact h.tail i hi hB
    · exact absurd he (hno c hc)
  · intro i hi
    rw [Set.mem_union, not_or] at hi
    rw [hm.kept i (fun c hc he => hi.1 (he ▸ h.heads c hc)) fun c hc he => hi.2 ⟨c, hc, he⟩]
    exact h.new i hi.1

theorem buddyInit_new (b : Buddy) (h0 : i ≠ 0) (h1 : i ≠ buddyMaxOrderNrPages) :
    (buddyInit b).pages i = (clearPages b).pages i := by
  obtain ⟨-, -, h⟩ := buddyListsInit_ok b
  simp only [buddyInit, buddyPagesInit_eq, initChunk, Buddy.setPage, Buddy.append, Buddy.setNr,
      clearPages, h,
    Function.update_of_ne h0, Function.update_of_ne h1]

theorem worn_init (b : Buddy) :
    Worn b (buddyInit b) initBlocks {i | ∃ c ∈ initBlocks, c.start = i} := by
  constructor
  · exact fun c hc => ⟨c, hc, rfl⟩
  · rintro i ⟨c, hc, he⟩ hno
    exact absurd he (hno c hc)
  · intro i hi
    refine buddyInit_new b ?_ ?_
    · rintro rfl
      exact hi ⟨_, .inl rfl, rfl⟩
    · rintro rfl
      exact hi ⟨_, .inr rfl, rfl⟩

theorem worn_step (h : Partition H ls B) (hw : Worn b H.buddy B T) (hQ : Quiet H.buddy)
    (hs : Heap.Step H H') :
    ∃ ls' B', Partition H' ls' B' ∧ Worn b H'.buddy B' (T ∪ {i | H'.IsHead i}) := by
  suffices ∃ ls' B', Partition H' ls' B' ∧ Moved B B' H.buddy H'.buddy by
    obtain ⟨ls', B', h', hm⟩ := this
    refine ⟨ls', B', h', ?_⟩
    simp only [h'.isHead_iff]
    exact hw.moved hm
  cases hs with
  | alloc ha =>
    obtain ⟨m, -, -, -, h', hm⟩ := partition_alloc h ha
    exact ⟨_, _, h', hm⟩
  | free hp hf =>
    obtain ⟨k, hk⟩ := (h.live _).mp hp
    obtain ⟨m, ls', s', h1, -, -, -, -, h', hm⟩ := partition_free h hk hQ.quietFor
    rw [hf, Except.ok.injEq] at h1
    subst h1
    exact ⟨_, _, h', hm⟩

theorem history_worn (hb : Quiet b) (hr : Heap.History b H T) :
    ∃ ls B, Partition H ls B ∧ Worn b H.buddy B T := by
  induction hr with
  | init =>
    have h := partition_init b
    refine ⟨_, _, h, ?_⟩
    simp only [h.isHead_iff]
    exact worn_init b
  | step hr hs ih =>
    obtain ⟨ls, B, h, hw⟩ := ih
    exact worn_step h hw (reach_partition hb hr.reach).2 hs

end

/-- In every state reached, a page that heads no held block is refused exactly
if it has headed a block before, or memory happened to mark it. -/
theorem free_refused (hb : Quiet b) (hr : Heap.History b H T) (hi : i ∉ H.live) :
    Refused i H.buddy ↔
      i ∈ T ∨ ((clearPages b).pages i).flag = pgTail ∨ ((clearPages b).pages i).free = 1 := by
  obtain ⟨ls, B, h, hw⟩ := history_worn hb hr
  rw [refused_iff]
  by_cases hT : i ∈ T
  · refine iff_of_true ?_ (.inl hT)
    by_cases hB : ∃ c ∈ B, c.start = i
    · -- a head that is not held is free
      obtain ⟨⟨i, k, f⟩, hc, rfl⟩ := hB
      cases f with
      | true => exact .inr (by rw [h.rep.page _ hc]; rfl)
      | false => exact absurd ((h.live _).mpr ⟨k, hc⟩) hi
    · push Not at hB
      exact .inl (hw.tail i hT hB).1
  · rw [hw.new i hT]
    simp [hT]

/-- A page is served and released again. Page 1 has headed a block in between,
and is refused after the merge too. -/
theorem free_refused_head : ∃ s₁ s₂ T, buddyAllocate pgSize (buddyInit zeroed) = .ok (0, s₁) ∧
    buddyFreePage 0 s₁ = .ok s₂ ∧ Heap.History zeroed ⟨s₂, [0].erase 0⟩ T ∧ 1 ∈ T ∧
    Refused 1 s₂ := by
  obtain ⟨s₁, ha, hr, hp⟩ := init_alloc zeroed pgSize (by decide)
  obtain ⟨-, -, s₂, hf, -⟩ := buddyFreePage_ok hr (i := 0) (.inr (.inl rfl))
    (zeroed_quiet.of_past hp).quietFor
  have h₁ := Heap.History.init.step (.alloc ha)
  have h₂ := h₁.step (.free (List.mem_singleton.mpr rfl) hf)
  -- the first split leaves page 1 at the head of a free block
  have hhead : Heap.IsHead ⟨s₁, [0]⟩ 1 := by
    refine .inr ⟨0, ?_⟩
    rw [hr.freeBlocks]
    exact .inr (.inr ⟨0, by decide, by decide, rfl⟩)
  exact ⟨s₁, s₂, _, ha, hf, h₂, .inl (.inr hhead),
    (free_refused zeroed_quiet h₂ List.not_mem_nil).mpr (.inl (.inl (.inr hhead)))⟩

/-- Page 1 lies inside the first block that `buddy_init` sets up, and its
release is served. -/
theorem interior_accepted : Heap.Reach zeroed ⟨buddyInit zeroed, []⟩ ∧ 1 < npage ∧
    ¬ Refused 1 (buddyInit zeroed) := by
  refine ⟨.init, by decide, ?_⟩
  rw [refused_iff, buddyInit_new zeroed (by decide) (by decide)]
  decide

end SkyOS
