import SkyOS.Mm.BuddyRuns

/-!
# What the allocator looks at

`buddy_allocate` once more, with a record of the entries of `buddy_lists` it
uses and of the state it leaves behind when it stops, and the pages that the
merge loop of `buddy_free_page` looks at. Both can look one past the end of
their array.
-/

namespace SkyOS

open CircList Tiling

-- ---------------------------------------------------------------------------
-- buddy_allocate
-- ---------------------------------------------------------------------------

/-- The allocator, and the indices of `buddy_lists` that have been used. -/
structure Probe where
  buddy : Buddy
  used : List ℕ

abbrev Probed := EStateM Stop Probe

def use (k : ℕ) : Probed Unit := modify fun t => { t with used := k :: t.used }

def useNr (k : ℕ) : Probed ℕ := do
  use k
  if k ≥ buddyMaxOrder then throw .wild
  return (← get).buddy.nr k

def orderOf (p : ℕ) : Probed ℕ := return ((← get).buddy.pages p).order

def onBuddy (f : Buddy → Run (α × Buddy)) : Probed α := fun t =>
  match f t.buddy with
  | .ok (a, s) => .ok a { t with buddy := s }
  | .error e => .error e t

def splitLoopProbed (orderSmall : ℕ) : ℕ → Probed ℕ
  | 0 => throw .wild
  | tmp + 1 => do
    use (tmp + 1)
    use tmp
    let p ← onBuddy (splitChunk (tmp + 1))
    if tmp > orderSmall then splitLoopProbed orderSmall tmp else return p

def detach (p orderSmall : ℕ) (s : Buddy) : Buddy :=
  let s := s.setPage p { s.pages p with free := 0 }
  let s := s.del (.page p)
  s.setNr orderSmall (u64Dec (s.nr orderSmall))

def buddySplitProbed (orderLarge orderSmall : ℕ) : Probed ℕ := do
  if (← useNr orderLarge) = 0 then
    throw (.panic "[buddy]: split. # of order_large should not be 0.\n")
  if orderLarge = 0 then
    throw (.panic "[buddy]: split. order_large should larger than 0.\n")
  let p ← splitLoopProbed orderSmall orderLarge
  if (← orderOf p) ≠ orderSmall then
    throw (.panic "[buddy] unexpected order\n")
  use orderSmall
  onBuddy fun s => .ok (p, detach p orderSmall s)

def findOrderProbed : ℕ → ℕ → Probed ℕ
  | 0, _ => throw allocFail
  | fuel + 1, order => do
    if (← useNr order) = 0 then
      if order + 1 > buddyMaxOrder then throw allocFail else findOrderProbed fuel (order + 1)
    else return order

def buddyAllocateProbed (size : ℕ) : Probed ℕ := do
  let order := size2order size
  if order ≥ buddyMaxOrder then throw allocFail
  if (← useNr order) > 0 then
    onBuddy fun s => do
      let lh := s.links.next (.list order)
      let s := s.del lh
      let s := s.setNr order (u64Dec (s.nr order))
      let p ← le2page lh
      return (p, s.setPage p { s.pages p with free := 0 })
  else
    let large ← findOrderProbed buddyMaxOrder (order + 1)
    buddySplitProbed large order

def Probes (x : Probed α) (s s' : Buddy) (a : α) (n : ℕ) : Prop :=
  ∀ r, ∃ r', x ⟨s, r⟩ = .ok a ⟨s', r'⟩ ∧ ∀ k ∈ r', k ∈ r ∨ k ≤ n

theorem Probes.bind {x : Probed α} {f : α → Probed β} (h : Probes x s s₁ a n)
    (h' : Probes (f a) s₁ s₂ b n) :
    Probes (x >>= f) s s₂ b n := by
  intro r
  obtain ⟨r₁, h1, hr1⟩ := h r
  obtain ⟨r₂, h2, hr2⟩ := h' r₁
  refine ⟨r₂, ?_, fun k hk => ?_⟩
  · show (EStateM.bind x f) ⟨s, r⟩ = _
    simp only [EStateM.bind, h1, h2]
  · rcases hr2 k hk with hk | hk
    · exact hr1 k hk
    · exact .inr hk

theorem Probes.pure (a : α) (s : Buddy) (n : ℕ) : Probes (pure a) s s a n := fun r =>
  ⟨r, rfl, fun _ hk => .inl hk⟩

theorem probes_use (h : k ≤ n) (s : Buddy) : Probes (use k) s s () n := fun r =>
  ⟨k :: r, rfl, fun j hj => by
    rcases List.mem_cons.mp hj with rfl | hj
    · exact .inr h
    · exact .inl hj⟩

theorem Probes.mono (h : Probes x s s' a n) (hn : n ≤ m) : Probes x s s' a m := fun r => by
  obtain ⟨r', h1, h2⟩ := h r
  exact ⟨r', h1, fun k hk => (h2 k hk).imp_right fun h => h.trans hn⟩

theorem probes_useNr (hk : k < buddyMaxOrder) (h : k ≤ n) (s : Buddy) :
    Probes (useNr k) s s (s.nr k) n := by
  refine (probes_use h s).bind ?_
  rw [if_neg (by omega)]
  exact fun r => ⟨r, rfl, fun _ hk => .inl hk⟩

theorem probes_onBuddy {f : Buddy → Run (α × Buddy)} (h : f s = .ok (a, s')) (n : ℕ) :
    Probes (onBuddy f) s s' a n := fun r => ⟨r, by simp only [onBuddy, h], fun _ hk => .inl hk⟩

theorem probes_orderOf (p : ℕ) (s : Buddy) (n : ℕ) : Probes (orderOf p) s s (s.pages p).order n :=
  fun r =>
  ⟨r, rfl, fun _ hk => .inl hk⟩

theorem probes_splitLoop (h : splitLoop small n s = .ok (p, s')) :
    Probes (splitLoopProbed small n) s s' p n := by
  induction n generalizing s with
  | zero => simp [splitLoop] at h
  | succ n ih =>
    rw [splitLoop, bind_ok] at h
    obtain ⟨⟨q, s₁⟩, h1, h2⟩ := h
    refine (probes_use le_rfl s).bind
      ((probes_use (Nat.le_succ n) s).bind ((probes_onBuddy h1 _).bind ?_))
    simp only at h2
    split
    · rename_i hlt
      rw [if_pos hlt] at h2
      exact (ih h2).mono (Nat.le_succ n)
    · rename_i hlt
      rw [if_neg hlt, pure_ok, Prod.mk.injEq] at h2
      obtain ⟨rfl, rfl⟩ := h2
      exact Probes.pure _ _ _

theorem probes_buddySplit (hl : large < buddyMaxOrder) (hle : small ≤ large)
    (h : buddySplit large small s = .ok (p, s')) :
    Probes (buddySplitProbed large small) s s' p large := by
  unfold buddySplit at h
  by_cases hnr : s.nr large = 0
  · rw [if_pos hnr] at h
    cases h
  by_cases h0 : large = 0
  · rw [if_neg hnr, if_pos h0] at h
    cases h
  rw [if_neg hnr, if_neg h0, bind_ok] at h
  obtain ⟨⟨q, s₁⟩, h1, h2⟩ := h
  simp only at h2
  by_cases ho : (s₁.pages q).order ≠ small
  · rw [if_pos ho] at h2
    cases h2
  rw [if_neg ho, pure_ok, Prod.mk.injEq] at h2
  obtain ⟨rfl, rfl⟩ := h2
  refine (probes_useNr hl le_rfl s).bind ?_
  rw [if_neg hnr, if_neg h0]
  refine (probes_splitLoop h1).bind ((probes_orderOf q s₁ large).bind ?_)
  rw [if_neg ho]
  exact (probes_use hle s₁).bind (probes_onBuddy rfl large)

theorem probes_findOrder (hm : m < buddyMaxOrder) (hnr : s.nr m ≠ 0) (hle : o ≤ m)
    (h0 : ∀ j, o ≤ j → j < m → s.nr j = 0) (hf : m - o < n) :
    Probes (findOrderProbed n o) s s m m := by
  induction n generalizing o with
  | zero => omega
  | succ n ih =>
    refine (probes_useNr (by omega) hle s).bind ?_
    rcases Nat.eq_or_lt_of_le hle with rfl | hlt
    · rw [if_neg hnr]
      exact Probes.pure _ _ _
    · rw [if_pos (h0 o le_rfl hlt), if_neg (by omega)]
      exact ih (by omega) (fun j h1 h2 => h0 j (by omega) h2) (by omega)

theorem findOrderProbed_none (hle : o ≤ buddyMaxOrder)
    (h0 : ∀ j, o ≤ j → j < buddyMaxOrder → s.nr j = 0)
    (hf : buddyMaxOrder - o < n) (r : List ℕ) :
    ∃ r', findOrderProbed n o ⟨s, r⟩ = .error .wild ⟨s, r'⟩ ∧ buddyMaxOrder ∈ r' := by
  induction n generalizing o r with
  | zero => omega
  | succ n ih =>
    rcases Nat.eq_or_lt_of_le hle with rfl | hlt
    · exact ⟨buddyMaxOrder :: r, rfl, by simp⟩
    · obtain ⟨r₁, h1, -⟩ := probes_useNr hlt le_rfl s r
      obtain ⟨r', h2, h3⟩ :=
        ih (o := o + 1) (by omega) (fun j h1 h2 => h0 j (by omega) h2) (by omega) r₁
      refine ⟨r', ?_, h3⟩
      rw [← h2]
      show EStateM.bind (useNr o) _ ⟨s, r⟩ = _
      simp only [EStateM.bind, h1, h0 o le_rfl hlt, if_true]
      rw [if_neg (by omega)]

-- ---------------------------------------------------------------------------
-- When allocation is clean
-- ---------------------------------------------------------------------------

def Buddy.CanServe (s : Buddy) (size : ℕ) : Prop :=
  ∃ m, size2order size ≤ m ∧ m < buddyMaxOrder ∧ s.nr m ≠ 0

/-- How `buddy_allocate` should end: with a block of the order of the request,
from the first chunk of the lowest list that can serve it, or, when none can,
at `fail` with nothing changed. No entry behind `buddy_lists` is used. -/
structure CleanEnd (s : Buddy) (size : ℕ) (e : EStateM.Result Stop Probe ℕ) : Prop where
  served : s.CanServe size → ∃ m p t, e = .ok p t ∧ size2order size ≤ m ∧ m < buddyMaxOrder ∧
    s.nr m ≠ 0 ∧ (∀ j, size2order size ≤ j → j < m → s.nr j = 0) ∧
    s.links.next (.list m) = .page p ∧ t.buddy.pages p = ⟨size2order size, 0, pgHead⟩ ∧
    buddyAllocate size s = .ok (p, t.buddy)
  failed : ¬ s.CanServe size → ∃ t, e = .error allocFail t ∧ t.buddy = s
  inside : ∀ t, (∃ p, e = .ok p t) ∨ (∃ x, e = .error x t) → ∀ k ∈ t.used, k < buddyMaxOrder

theorem buddyAllocateProbed_large (h : buddyMaxOrder ≤ size2order size) (t : Probe) :
    buddyAllocateProbed size t = .error allocFail t := by
  unfold buddyAllocateProbed
  rw [if_pos h]
  rfl

theorem buddyAllocateProbed_ok (h : Rep s ls B) (ha : buddyAllocate size s = .ok (p, s')) :
    ∃ m, size2order size ≤ m ∧ m < buddyMaxOrder ∧ s.nr m ≠ 0 ∧
      (∀ j, size2order size ≤ j → j < m → s.nr j = 0) ∧ s.links.next (.list m) = .page p ∧
      s'.pages p = ⟨size2order size, 0, pgHead⟩ ∧
      Probes (buddyAllocateProbed size) s s' p m := by
  obtain ⟨m, l, hm, hle, hl, he, hrep, -⟩ := buddyAllocate_inv h ha
  have hnr : s.nr m ≠ 0 := by simp [h.nr m hm, hl]
  have h0 : ∀ j, size2order size ≤ j → j < m → s.nr j = 0 := fun j h1 h2 => by
    simp [h.nr j (by omega), he j h1 h2]
  have hpage : s'.pages p = ⟨size2order size, 0, pgHead⟩ :=
    hrep.page ⟨p, size2order size, false⟩ (.inr (.inl rfl))
  refine ⟨m, hle, hm, hnr, h0, h.ringed.first hm hl, hpage, ?_⟩
  unfold buddyAllocate at ha
  unfold buddyAllocateProbed
  have hlt : ¬ size2order size ≥ buddyMaxOrder := by omega
  rw [if_neg hlt] at ha ⊢
  refine (probes_useNr (by omega) hle s).bind ?_
  by_cases hpos : s.nr (size2order size) > 0
  · rw [if_pos hpos] at ha ⊢
    exact probes_onBuddy ha m
  · rw [if_neg hpos] at ha ⊢
    have hlt : size2order size < m := by
      rcases Nat.eq_or_lt_of_le hle with rfl | hlt
      · omega
      · exact hlt
    have hf : findOrder s buddyMaxOrder (size2order size + 1) = .ok m :=
      findOrder_ok hm hnr hlt (fun j h1 h2 => h0 j (by omega) h2) (by omega)
    rw [hf, ok_bind] at ha
    exact (probes_findOrder hm hnr hlt (fun j h1 h2 => h0 j (by omega) h2) (by omega)).bind
      (probes_buddySplit hm hle ha)

theorem buddyAllocateProbed_none (hlt : size2order size < buddyMaxOrder) (hno : ¬ s.CanServe size)
    (r : List ℕ) :
    ∃ r', buddyAllocateProbed size ⟨s, r⟩ = .error .wild ⟨s, r'⟩ ∧ buddyMaxOrder ∈ r' := by
  have h0 : ∀ j, size2order size ≤ j → j < buddyMaxOrder → s.nr j = 0 := fun j h1 h2 => by
    by_contra hne
    exact hno ⟨j, h1, h2, hne⟩
  obtain ⟨r₁, h1, -⟩ := probes_useNr hlt le_rfl s r
  obtain ⟨r', h2, h3⟩ :=
      findOrderProbed_none (n := buddyMaxOrder) (o := size2order size + 1) (by omega)
    (fun j h1 h2 => h0 j (by omega) h2) (by omega) r₁
  refine ⟨r', ?_, h3⟩
  unfold buddyAllocateProbed
  rw [if_neg (by omega)]
  show EStateM.bind (useNr (size2order size)) _ ⟨s, r⟩ = _
  simp only [EStateM.bind, h1, h0 _ le_rfl hlt, gt_iff_lt, Nat.lt_irrefl, if_false]
  show EStateM.bind (findOrderProbed buddyMaxOrder (size2order size + 1)) _ ⟨s, r₁⟩ = _
  simp only [EStateM.bind, h2]

theorem canServe_ok (h : Rep s ls B) (hc : s.CanServe size) : ∃ p s', buddyAllocate size s =
    .ok (p, s') := by
  obtain ⟨m, hle, hm, hne⟩ := hc
  exact buddyAllocate_served h ⟨m, hle, hm, fun he => hne (by simp [h.nr m hm, he])⟩

theorem cleanEnd_iff (h : Rep s ls B) (size : ℕ) :
    CleanEnd s size (buddyAllocateProbed size ⟨s, []⟩) ↔
    s.CanServe size ∨ buddyMaxOrder ≤ size2order size := by
  constructor
  · intro hc
    by_contra hcon
    push Not at hcon
    obtain ⟨r', h1, h2⟩ := buddyAllocateProbed_none hcon.2 hcon.1 []
    have := hc.inside _ (.inr ⟨_, h1⟩) _ h2
    omega
  · intro hc
    by_cases hs : s.CanServe size
    · obtain ⟨p, s', ha⟩ := canServe_ok h hs
      obtain ⟨m, h1, h2, h3, h4, h5, h6, hpr⟩ := buddyAllocateProbed_ok h ha
      obtain ⟨r', he, hr⟩ := hpr []
      refine ⟨fun _ => ⟨m, p, ⟨s', r'⟩, he, h1, h2, h3, h4, h5, h6, ha⟩,
        fun hno => absurd hs hno, ?_⟩
      rintro t (⟨q, hq⟩ | ⟨x, hx⟩) k hk
      · rw [he] at hq
        cases hq
        have := (hr k hk).resolve_left (by simp)
        omega
      · rw [he] at hx
        cases hx
    · have hlarge := hc.resolve_left hs
      have he := buddyAllocateProbed_large hlarge ⟨s, []⟩
      refine ⟨fun hs' => absurd hs' hs, fun _ => ⟨_, he, rfl⟩, ?_⟩
      rintro t (⟨q, hq⟩ | ⟨x, hx⟩) k hk
      · rw [he] at hq
        cases hq
      · rw [he] at hx
        cases hx
        simp at hk

/-- In every state with the allocator's invariant `buddy_allocate` ends cleanly
exactly when a list can serve the request or the request is larger than any
chunk. Else the search for a list runs on to `buddy_lists[14]`. -/
theorem allocate_clean (h : Rep s ls B) (size : ℕ) :
    CleanEnd s size (buddyAllocateProbed size ⟨s, []⟩) ↔
    s.CanServe size ∨ buddyMaxOrder ≤ size2order size := cleanEnd_iff h size

/-- One of the two chunks of the largest order is held. A page comes from the other. -/
theorem allocate_clean_init : ∃ s, buddyAllocate (2 ^ 25) (buddyInit zeroed) = .ok (0, s) ∧
    CleanEnd s pgSize (buddyAllocateProbed pgSize ⟨s, []⟩) := by
  obtain ⟨s, ha, hr, -⟩ := init_alloc zeroed (2 ^ 25) (by decide)
  refine ⟨s, ha, (allocate_clean hr pgSize).mpr (.inl ⟨13, by decide, by decide, ?_⟩)⟩
  rw [hr.nr 13 (by decide)]
  decide

/-- Both chunks of the largest order are held. The next request, for a page,
uses `buddy_lists[14]`. -/
theorem empty_lists_overrun : ∃ s₁ s₂, buddyAllocate (2 ^ 25) (buddyInit zeroed) = .ok (0, s₁) ∧
    buddyAllocate (2 ^ 25) s₁ = .ok (buddyMaxOrderNrPages, s₂) ∧ (∃ ls B, Rep s₂ ls B) ∧
    ¬ CleanEnd s₂ pgSize (buddyAllocateProbed pgSize ⟨s₂, []⟩) := by
  have hsz : size2order (2 ^ 25) = 13 := by decide
  obtain ⟨s₁, ha1, hr1, -⟩ := init_alloc zeroed (2 ^ 25) (by decide)
  rw [hsz] at hr1
  obtain ⟨s₂, ha2, hr2, -⟩ := buddyAllocate_ok hr1 (m := 13) (by decide) hsz.le (i :=
      buddyMaxOrderNrPages) (l := [])
    rfl fun j h1 h2 => by omega
  rw [hsz] at hr2
  refine ⟨s₁, s₂, ha1, ha2, ⟨_, _, hr2⟩, fun hc => ?_⟩
  rcases (cleanEnd_iff hr2 pgSize).mp hc with ⟨m, -, hm, hne⟩ | hlarge
  · refine hne ?_
    rw [hr2.nr m hm]
    by_cases h13 : m = 13
    · subst h13
      rfl
    · simp only [carveLists, if_neg h13, initLists]
      rw [if_neg (by omega), if_neg (by omega), if_neg (show ¬ m = buddyMaxOrder - 1 from h13)]
      rfl
  · exact absurd hlarge (by decide)

-- ---------------------------------------------------------------------------
-- buddy_free_page
-- ---------------------------------------------------------------------------

/-- What `get_buddy_page` returns in the rounds of the merge loop. -/
def mergeLooks (p : ℕ) : ℕ → Buddy → List ℕ
  | 0, _ => []
  | fuel + 1, s =>
    if (s.pages p).order < buddyMaxOrder - 1 then
      let buddyP := getBuddyPage s p
      buddyP :: if mergeable s (s.pages p).order buddyP then
        mergeLooks p fuel (mergeBuddy p buddyP s) else []
    else []

/-- What `get_buddy_page` returns in `buddy_free_page`, up to the merge loop as
there. -/
def freeLooks (p : ℕ) (s : Buddy) : List ℕ :=
  let s := s.setPage p { s.pages p with free := 1 }
  let s := s.append p (s.pages p).order
  let s := s.setNr (s.pages p).order (u64 (s.nr (s.pages p).order + 1))
  mergeLooks p buddyMaxOrder s

/-- The free blocks behind `p` that the release of `p` in `s` merges with, one
of each order, do not reach the end of `pages` below the largest order. -/
def StaysInside (s : Buddy) (p : ℕ) : Prop :=
  ∀ j < buddyMaxOrder - 1, (s.pages p).order ≤ j →
    (∀ t < j, (s.pages p).order ≤ t → mergeable s t (p + 2 ^ t)) → p + 2 ^ j ≠ npage

inductive Heap.InsideReach (b : Buddy) : Heap → Prop
  | init : InsideReach b ⟨buddyInit b, []⟩
  | alloc : InsideReach b ⟨s, l⟩ → buddyAllocate size s = .ok (p, s') → InsideReach b ⟨s', p :: l⟩
  | free : InsideReach b ⟨s, l⟩ → p ∈ l → StaysInside s p → buddyFreePage p s = .ok s' →
      InsideReach b ⟨s', l.erase p⟩

/-- The block `⟨i, k⟩` does not grow to the end of `pages` below the largest order. -/
def EndsInside (B : Set Block) (i k : ℕ) : Prop :=
  ∀ j < buddyMaxOrder - 1, k ≤ j → (∀ t, k ≤ t → t < j → ⟨i + 2 ^ t, t, true⟩ ∈ B) →
    i + 2 ^ j ≠ npage

section
variable {s : Buddy} {ls : ℕ → List ℕ} {B : Set Block} {i k n : ℕ}

theorem EndsInside.quietFor (h : EndsInside B i k) : QuietFor s B i k := fun j h1 h2 h3 h4 =>
  absurd h4 (h j h1 h2 h3)

theorem mergeLooks_iff (h : Rep s ls B) (hi : ⟨i, k, true⟩ ∈ B) (hf : buddyMaxOrder - 1 - k < n) :
    (∀ x ∈ mergeLooks i n s, x < npage) ↔ EndsInside B i k := by
  induction n generalizing s ls B k with
  | zero => omega
  | succ n ih =>
    have hM := buddyMaxOrder_eq
    have hpi : s.pages i = ⟨k, 1, pgHead⟩ := h.page _ hi
    have hend : i + 2 ^ k ≤ npage := h.end_le hi
    simp only [mergeLooks, getBuddyPage, hpi, Nat.one_shiftLeft]
    by_cases hk : k < buddyMaxOrder - 1
    · rw [if_pos hk, List.forall_mem_cons]
      rcases Nat.eq_or_lt_of_le hend with he | hlt
      · -- the first look is past the end
        exact ⟨fun hl => absurd hl.1 (by omega),
          fun hl => absurd he (hl k hk le_rfl fun t h1 h2 => by omega)⟩
      · have hcan := mergeable_iff h hi fun he => by omega
        by_cases hq : ⟨i + 2 ^ k, k, true⟩ ∈ B
        · rw [if_pos (hcan.mpr hq)]
          obtain ⟨hr, -⟩ := mergeBuddy_ok h hi hq (by omega)
          have hmem : ∀ j, k + 1 ≤ j →
              (⟨i + 2 ^ j, j, true⟩ ∈ join B i k ↔ ⟨i + 2 ^ j, j, true⟩ ∈ B) := by
            intro j hj
            simp [join, show j ≠ k by omega]
          rw [ih hr (.inr rfl) (by omega)]
          constructor
          · rintro ⟨-, hl⟩ j h1 h2 h3
            rcases Nat.eq_or_lt_of_le h2 with rfl | h2
            · omega
            · exact hl j h1 h2 fun t h4 h5 => (hmem t h4).mpr (h3 t (by omega) h5)
          · refine fun hl => ⟨hlt, fun j h1 h2 h3 => hl j h1 (by omega) fun t h4 h5 => ?_⟩
            rcases Nat.eq_or_lt_of_le h4 with rfl | h4
            · exact hq
            · exact (hmem t h4).mp (h3 t h4 h5)
        · rw [if_neg (mt hcan.mp hq)]
          constructor
          · rintro - j h1 h2 h3
            rcases Nat.eq_or_lt_of_le h2 with rfl | h2
            · omega
            · exact absurd (h3 k le_rfl h2) hq
          · exact fun _ => ⟨hlt, by simp⟩
    · rw [if_neg hk]
      exact ⟨fun _ j h1 h2 => by omega, fun _ => by simp⟩

/-- Behind a held block the blocks the release merges with are free blocks. -/
theorem staysInside_iff (h : Rep s ls B) (hi : ⟨i, k, false⟩ ∈ B) : StaysInside s i ↔
    EndsInside B i k := by
  have hord : (s.pages i).order = k := by rw [h.page _ hi, Block.page]
  rw [StaysInside, hord]
  constructor
  · intro hs j h1 h2 h3
    exact hs j h1 h2 fun t h4 h5 => (h.mergeable_start (h3 t h5 h4)).mpr ⟨rfl, rfl⟩
  · intro he j h1 h2 h3 hend
    refine he j h1 h2 (fun t h4 h5 => ?_) hend
    -- a block starts at `i + 2 ^ t`, where the one before it ends
    induction t, h4 using Nat.le_induction with
    | base =>
      have hpow := Nat.pow_lt_pow_right (show 1 < 2 by omega) h5
      obtain ⟨⟨c, o, f⟩, hc, hcs⟩ := h.tiles.next hi (by simp only [Block.len]; omega)
      obtain rfl : c = i + 2 ^ k := hcs
      obtain ⟨ho, hf⟩ := (h.mergeable_start hc).mp (h3 k h5 le_rfl)
      obtain rfl : o = k := ho
      obtain rfl : f = true := hf
      exact hc
    | succ t h4 ih =>
      have hpow := Nat.pow_lt_pow_right (show 1 < 2 by omega) h5
      have hdouble : i + 2 ^ t + 2 ^ t = i + 2 ^ (t + 1) := by ring
      obtain ⟨⟨c, o, f⟩, hc, hcs⟩ := h.tiles.next (ih (by omega)) (by simp only [Block.len]; omega)
      obtain rfl : c = i + 2 ^ (t + 1) := hcs.trans hdouble
      obtain ⟨ho, hf⟩ := (h.mergeable_start hc).mp (h3 (t + 1) h5 (by omega))
      obtain rfl : o = t + 1 := ho
      obtain rfl : f = true := hf
      exact hc

theorem freeLooks_iff (h : Rep s ls B) (hi : ⟨i, k, false⟩ ∈ B) :
    (∀ x ∈ freeLooks i s, x < npage) ↔ StaysInside s i := by
  have hpi : s.pages i = ⟨k, 0, pgHead⟩ := h.page _ hi
  have hgive : freeLooks i s = mergeLooks i buddyMaxOrder (give s i k) := by
    simp [freeLooks, hpi, give, Buddy.setPage, Buddy.append, Buddy.setNr]
  rw [hgive, mergeLooks_iff (give_ok h hi) (.inr rfl) (by have := buddyMaxOrder_eq; omega),
    staysInside_iff h hi]
  have hmem : ∀ j, ⟨i + 2 ^ j, j, true⟩ ∈ {b | b ∈ B ∧ b ≠ ⟨i, k, false⟩ ∨ b = ⟨i, k, true⟩} ↔
      ⟨i + 2 ^ j, j, true⟩ ∈ B := by
    intro j
    have := Nat.two_pow_pos j
    simp
  simp only [EndsInside, hmem]

end

/-- In every state that runs which stay inside reach, the release of a held
block looks at entries of `pages` only exactly when it stays inside. -/
theorem free_looks_inside (hr : Heap.InsideReach b H) (hp : p ∈ H.live) :
    (∀ x ∈ freeLooks p H.buddy, x < npage) ↔ StaysInside H.buddy p := by
  have key : ∃ ls B, Partition H ls B := by
    clear hp
    induction hr with
    | init => exact ⟨_, _, partition_init b⟩
    | alloc _ ha ih =>
      obtain ⟨ls, B, h⟩ := ih
      obtain ⟨m, -, -, -, h', -⟩ := partition_alloc h ha
      exact ⟨_, _, h'⟩
    | free _ hl hs hf ih =>
      obtain ⟨ls, B, h⟩ := ih
      obtain ⟨k, hk⟩ := (h.live _).mp hl
      obtain ⟨m, ls', s', h1, -, -, -, -, h', -⟩ :=
        partition_free h hk ((staysInside_iff h.rep hk).mp hs).quietFor
      rw [hf, Except.ok.injEq] at h1
      subst h1
      exact ⟨_, _, h'⟩
  obtain ⟨ls, B, h⟩ := key
  obtain ⟨k, hk⟩ := (h.live p).mp hp
  exact freeLooks_iff h.rep hk

theorem free_looks_inside_first : ∃ s, Heap.InsideReach zeroed ⟨s, [0]⟩ ∧
    ((∀ x ∈ freeLooks 0 s, x < npage) ↔ StaysInside s 0) := by
  obtain ⟨s, ha, -⟩ := init_alloc zeroed pgSize (by decide)
  have hr : Heap.InsideReach zeroed ⟨s, [0]⟩ := .alloc .init ha
  exact ⟨s, hr, free_looks_inside hr (by simp)⟩

/-- The release of the last block of order 12 looks at `pages[npage]`. -/
theorem last_block_looks_outside : ∃ s₁ s₂ s₃, buddyAllocate (2 ^ 25) (buddyInit zeroed) =
    .ok (0, s₁) ∧
    buddyAllocate (2 ^ 24) s₁ = .ok (8192, s₂) ∧ buddyAllocate (2 ^ 24) s₂ = .ok (12288, s₃) ∧
    Heap.Reach zeroed ⟨s₃, [12288, 8192, 0]⟩ ∧ ¬ ∀ x ∈ freeLooks 12288 s₃, x < npage := by
  have hsz : size2order (2 ^ 25) = 13 := by decide
  have hsz' : size2order (2 ^ 24) = 12 := by decide
  obtain ⟨s₁, ha1, hr1, -⟩ := init_alloc zeroed (2 ^ 25) (by decide)
  rw [hsz] at hr1
  obtain ⟨s₂, ha2, hr2, -⟩ :=
      buddyAllocate_ok hr1 (m := 13) (by decide) (hsz'.le.trans (by decide)) (i := 8192)
    (l := []) rfl fun j h1 h2 => by
      obtain rfl : j = 12 := by omega
      rfl
  rw [hsz'] at hr2
  obtain ⟨s₃, ha3, hr3, -⟩ := buddyAllocate_ok hr2 (m := 12) (by decide) hsz'.le (i :=
      12288) (l := [])
    rfl fun j h1 h2 => by omega
  rw [hsz'] at hr3
  refine ⟨s₁, s₂, s₃, ha1, ha2, ha3,
    .step (.step (.step .init (.alloc ha1)) (.alloc ha2)) (.alloc ha3), fun hx => ?_⟩
  have hheld : ⟨12288, 12, false⟩ ∈ carve (carve (carve initBlocks 0 13 13) 8192 12 13) 12288 12
    12 := .inr (.inl rfl)
  have hin := (staysInside_iff hr3 hheld).mp ((freeLooks_iff hr3 hheld).mp hx)
  exact hin 12 (by decide) le_rfl (fun t h1 h2 => by omega) (by rw [npage_eq]; norm_num)

end SkyOS
