import SkyOS.Mm.FreeLaws

/-!
# Runs of the allocator

`buddy_init` on whatever memory holds, then any order of allocations and of
releases of blocks that are held. `Partition` is what the allocator owes its
callers. It holds after `buddy_init` and each call keeps it, so it holds after
every run.
-/

namespace SkyOS

open CircList Tiling

-- ---------------------------------------------------------------------------
-- buddy_init
-- ---------------------------------------------------------------------------

def initLists : ℕ → List ℕ :=
  fun k => if k = buddyMaxOrder - 1 then [0, buddyMaxOrderNrPages] else []

theorem buddyMaxOrderNrPages_eq : buddyMaxOrderNrPages = 2 ^ 13 := rfl

theorem buddyPagesInit_eq (s : Buddy) :
    buddyPagesInit s = initChunk buddyMaxOrderNrPages (initChunk 0 (clearPages s)) := rfl

def initBlocks : Set Block :=
  {b | b = ⟨0, buddyMaxOrder - 1, true⟩ ∨ b = ⟨buddyMaxOrderNrPages, buddyMaxOrder - 1, true⟩}

def resetList (s : Buddy) (i : ℕ) : Buddy :=
  { s with links := initListHead s.links (.list i) }.setNr i 0

theorem resetLists_ok (s : Buddy) (n : ℕ) :
    (∀ k < n, ((List.range n).foldl resetList s).links.Adj (.list k) (.list k) ∧
      ((List.range n).foldl resetList s).nr k = 0) ∧
      ((List.range n).foldl resetList s).pages = s.pages := by
  induction n with
  | zero => simp
  | succ n ih =>
    simp only [List.range_succ, List.foldl_append, List.foldl_cons, List.foldl_nil]
    refine ⟨fun k hk => ?_, ih.2⟩
    by_cases hkn : k = n
    · subst hkn
      simp [resetList, initListHead, Links.Adj, Links.setNext, Links.setPrev, Buddy.setNr]
    · simpa [resetList, initListHead, Links.Adj, Links.setNext, Links.setPrev, Buddy.setNr, hkn]
        using ih.1 k (by omega)

theorem buddyListsInit_ok (s : Buddy) :
    Ringed (buddyListsInit s).links (fun _ => []) ∧
    (∀ k < buddyMaxOrder, (buddyListsInit s).nr k = 0) ∧
      (buddyListsInit s).pages = s.pages := by
  obtain ⟨h1, h2⟩ := resetLists_ok s buddyMaxOrder
  refine ⟨⟨fun k hk => ⟨?_, by simp⟩, fun j _ k _ hjk => by simp [hjk.symm]⟩,
    fun k hk => (h1 k hk).2, h2⟩
  exact List.isChain_cons_cons.mpr ⟨(h1 k hk).1, List.isChain_singleton _⟩

theorem Ringed.clear (h : Ringed s.links fun _ => []) : Ringed (clearPages s).links fun _ => [] :=
  ⟨fun k hk => (h.ring k hk).congr (by simp [clearPages]) (by simp [clearPages]), h.disjoint⟩

theorem initBlocks_tiles : Tiles Block.start Block.len npage initBlocks := by
  constructor
  · intro b _
    exact b.len_pos
  · rintro b (rfl | rfl) <;> simp [Block.len, npage_eq, buddyMaxOrderNrPages_eq]
  · intro x hx
    rw [npage_eq] at hx
    by_cases hlt : x < 2 ^ 13
    · exact ⟨_, .inl rfl, by simp, by simpa [Block.len] using hlt⟩
    · exact ⟨_, .inr rfl, by simpa [buddyMaxOrderNrPages_eq] using hlt,
        by simpa [Block.len, buddyMaxOrderNrPages_eq] using hx⟩
  · rintro b (rfl | rfl) c (rfl | rfl) x <;> simp [Block.len, buddyMaxOrderNrPages_eq] <;> omega

theorem buddyInit_ok (b : Buddy) : Rep (buddyInit b) initLists initBlocks := by
  obtain ⟨h1, h2, -⟩ := buddyListsInit_ok b
  have h3 := (h1.clear.append (i := 0) (k := 13) (by decide) (by simp)).append
    (i := buddyMaxOrderNrPages) (k := 13) (by decide) fun j _ => by
      by_cases hj : j = 13
      · subst hj; simp
      · simp [hj]
  constructor
  · have : Function.update (Function.update (fun _ => []) 13 [0]) 13 [0, buddyMaxOrderNrPages] =
        initLists := by
      funext k
      by_cases hk : k = 13 <;> simp [initLists, hk]
    rw [← this]
    exact h3
  · intro k hk
    by_cases hk13 : k = 13
    · subst hk13
      simp [buddyInit, buddyPagesInit_eq, initChunk, Buddy.setPage, Buddy.append,
        Buddy.setNr, clearPages, h2, initLists, u64]
    · simp [buddyInit, buddyPagesInit_eq, initChunk, Buddy.setPage, Buddy.append,
        Buddy.setNr, clearPages, h2 k hk, initLists, hk13]
  · intro k _ i
    by_cases hk13 : k = 13 <;> simp [initLists, initBlocks, hk13]
  · rintro b (rfl | rfl) <;> decide
  · rintro b (rfl | rfl) <;>
      simp [buddyInit, buddyPagesInit_eq, initChunk, Buddy.setPage, Buddy.append,
        Buddy.setNr, Block.page]
  · exact initBlocks_tiles

theorem buddyInit_past (b : Buddy) (hj : npage ≤ j) : (buddyInit b).pages j = b.pages j := by
  obtain ⟨-, -, h⟩ := buddyListsInit_ok b
  have h1 : ¬ (j + 1) * sizeofPage ≤ npage := by
    rw [npage_eq, show sizeofPage = 32 from rfl] at *
    omega
  rw [npage_eq] at hj
  simp [buddyInit, buddyPagesInit_eq, initChunk, Buddy.setPage, Buddy.append,
    Buddy.setNr, clearPages, h, h1, show j ≠ 0 by omega, buddyMaxOrderNrPages_eq,
    show j ≠ 8192 by omega]

-- ---------------------------------------------------------------------------
-- Runs
-- ---------------------------------------------------------------------------

/-- The allocator and the heads of the blocks its callers hold. -/
structure Heap where
  buddy : Buddy
  live : List ℕ

inductive Heap.Step : Heap → Heap → Prop
  | alloc : buddyAllocate size s = .ok (p, s') → Step ⟨s, l⟩ ⟨s', p :: l⟩
  | free : p ∈ l → buddyFreePage p s = .ok s' → Step ⟨s, l⟩ ⟨s', l.erase p⟩

inductive Heap.Reach (b : Buddy) : Heap → Prop
  | init : Reach b ⟨buddyInit b, []⟩
  | step : Reach b h → Step h h' → Reach b h'

/-- The pages are the blocks `B`: the free ones are exactly what the lists `ls`
hold, the others exactly the ones held by callers. -/
structure Partition (h : Heap) (ls : ℕ → List ℕ) (B : Set Block) : Prop where
  rep : Rep h.buddy ls B
  live : ∀ i, i ∈ h.live ↔ ∃ k, ⟨i, k, false⟩ ∈ B
  nodup : h.live.Nodup

theorem partition_init (b : Buddy) : Partition ⟨buddyInit b, []⟩ initLists initBlocks :=
  ⟨buddyInit_ok b, by simp [initBlocks], by simp⟩

theorem partition_alloc (h : Partition ⟨s, live⟩ ls B) (ha : buddyAllocate size s = .ok (p, s')) :
    ∃ m, m < buddyMaxOrder ∧ size2order size ≤ m ∧ ⟨p, m, true⟩ ∈ B ∧
      Partition ⟨s', p :: live⟩ (carveLists ls p (size2order size) m)
      (carve B p (size2order size) m) ∧
      Moved B (carve B p (size2order size) m) s s' := by
  obtain ⟨m, l, h1, h2, h3, -, h4, h5⟩ := buddyAllocate_inv h.rep ha
  have hp : ⟨p, m, true⟩ ∈ B := (h.rep.listed m h1 p).mp (by simp [h3])
  refine ⟨m, h1, h2, hp, ⟨h4, fun i => ?_, ?_⟩, h5⟩
  · simp only [List.mem_cons, h.live, carve, leftover, Set.mem_ofPred_eq]
    constructor
    · rintro (rfl | ⟨k, hk⟩)
      · exact ⟨_, .inr (.inl rfl)⟩
      · exact ⟨k, .inl ⟨hk, by simp⟩⟩
    · rintro ⟨k, ⟨hk, -⟩ | hk | ⟨j, -, -, hk⟩⟩
      · exact .inr ⟨k, hk⟩
      · simp only [Block.mk.injEq] at hk
        exact .inl hk.1
      · simp at hk
  · refine List.nodup_cons.mpr ⟨fun hm => ?_, h.nodup⟩
    obtain ⟨k, hk⟩ := (h.live p).mp hm
    simpa using h.rep.eq_of_start hk hp rfl

theorem partition_free (h : Partition ⟨s, live⟩ ls B) (hk : ⟨p, k, false⟩ ∈ B)
    (hQ : QuietFor s B p k) :
    ∃ m ls' s', buddyFreePage p s = .ok s' ∧ k ≤ m ∧ m < buddyMaxOrder ∧
      (∀ j, k ≤ j → j < m → ⟨p + 2 ^ j, j, true⟩ ∈ B) ∧
      (m = buddyMaxOrder - 1 ∨ ⟨p + 2 ^ m, m, true⟩ ∉ B) ∧
      Partition ⟨s', live.erase p⟩ ls' (absorb (freed B p k) p k m) ∧
      Moved B (absorb (freed B p k) p k m) s s' := by
  obtain ⟨m, ls', s', h1, h2, h3, h4, h5, h6, h7⟩ := buddyFreePage_ok h.rep hk hQ
  refine ⟨m, ls', s', h1, h2, h3, h4, h5, ⟨h6, fun i => ?_, h.nodup.erase p⟩, h7⟩
  rw [h.nodup.mem_erase_iff, h.live]
  simp only [absorb, freed, Set.mem_ofPred_eq]
  constructor
  · rintro ⟨hne, j, hj⟩
    exact ⟨j, .inl ⟨.inl ⟨hj, by simp [hne]⟩, by simp, by simp⟩⟩
  · rintro ⟨j, ⟨⟨hj, hne⟩ | hj, -⟩ | hj⟩
    · refine ⟨?_, j, hj⟩
      rintro rfl
      exact hne (h.rep.eq_of_start hj hk rfl)
    · simp at hj
    · simp at hj

theorem partition_step (h : Partition H ls B) (hQ : Quiet H.buddy) (hs : Heap.Step H H') :
    (∃ ls' B', Partition H' ls' B') ∧ Quiet H'.buddy := by
  cases hs with
  | alloc ha =>
    obtain ⟨m, -, -, -, h1, h2⟩ := partition_alloc h ha
    exact ⟨⟨_, _, h1⟩, hQ.of_past (h2.past h.rep h1.rep)⟩
  | free hp hf =>
    obtain ⟨k, hk⟩ := (h.live _).mp hp
    obtain ⟨m, ls', s', h1, -, -, -, -, h2, h3⟩ := partition_free h hk hQ.quietFor
    rw [hf, Except.ok.injEq] at h1
    subst h1
    exact ⟨⟨_, _, h2⟩, hQ.of_past (h3.past h.rep h2.rep)⟩

theorem reach_partition (hb : Quiet b) (hr : Heap.Reach b H) :
    (∃ ls B, Partition H ls B) ∧ Quiet H.buddy := by
  induction hr with
  | init => exact ⟨⟨_, _, partition_init b⟩, hb.of_past fun j hj => buddyInit_past b hj⟩
  | step _ hs ih =>
    obtain ⟨⟨ls, B, h⟩, hQ⟩ := ih
    exact partition_step h hQ hs

def Buddy.freeBlocks (s : Buddy) : Set (ℕ × ℕ) :=
  {b | b.2 < buddyMaxOrder ∧ ∃ ls, Ringed s.links ls ∧ b.1 ∈ ls b.2}

theorem Ringed.unique (h : Ringed L ls) (h' : Ringed L ls') (hk : k < buddyMaxOrder) :
    ls k = ls' k :=
  List.map_injective_iff.mpr (fun _ _ he => ListPtr.page.inj he)
    ((h.ring k hk).unique (h'.ring k hk))

theorem Rep.freeBlocks (h : Rep s ls B) : s.freeBlocks = {b | ⟨b.1, b.2, true⟩ ∈ B} := by
  ext ⟨i, k⟩
  constructor
  · rintro ⟨hk, ls', hr, hi⟩
    rw [hr.unique h.ringed hk] at hi
    exact (h.listed k hk i).mp hi
  · intro hb
    have hk := h.order _ hb
    exact ⟨hk, ls, h.ringed, (h.listed k hk i).mpr hb⟩

def Buddy.span (s : Buddy) (i : ℕ) : Set ℕ := Set.Ico i (i + 2 ^ (s.pages i).order)

theorem Partition.span_eq (h : Partition H ls B) (hb : b ∈ B) :
    H.buddy.span b.start = Set.Ico b.start (b.start + b.len) := by
  simp [Buddy.span, h.rep.page b hb, Block.page, Block.len]

theorem Partition.live_disjoint (h : Partition H ls B) (hi : i ∈ H.live) (hj : j ∈ H.live)
    (hne : i ≠ j) : Disjoint (H.buddy.span i) (H.buddy.span j) := by
  obtain ⟨k, hk⟩ := (h.live i).mp hi
  obtain ⟨n, hn⟩ := (h.live j).mp hj
  rw [show i = (Block.mk i k false).start from rfl, show j = (Block.mk j n false).start from rfl,
    h.span_eq hk, h.span_eq hn, Set.disjoint_left]
  rintro x ⟨h1, h2⟩ ⟨h3, h4⟩
  have := h.rep.tiles.unique _ hk _ hn x h1 h2 h3 h4
  simp only [Block.mk.injEq] at this
  exact hne this.1

theorem Partition.covered (h : Partition H ls B) (hx : x < npage) :
    (∃ i ∈ H.live, x ∈ H.buddy.span i) ∨ ∃ k < buddyMaxOrder, ∃ i ∈ ls k, x ∈ H.buddy.span i := by
  obtain ⟨⟨i, k, f⟩, hb, h1, h2⟩ := h.rep.tiles.cover x hx
  have hspan : x ∈ H.buddy.span i := by
    rw [h.span_eq hb]
    exact ⟨h1, h2⟩
  cases f with
  | false => exact .inl ⟨i, (h.live i).mpr ⟨k, hb⟩, hspan⟩
  | true => exact .inr ⟨k, h.rep.order _ hb, i, (h.rep.listed k (h.rep.order _ hb) i).mpr hb, hspan⟩

/-- In every state reached the free and the held blocks tile the pages, the
lists hold exactly the free ones, no page is held twice and none is lost. -/
theorem heap_partitioned (hb : Quiet b) (hr : Heap.Reach b H) :
    ∃ ls B, Partition H ls B ∧
      (∀ i ∈ H.live, ∀ j ∈ H.live, i ≠ j → Disjoint (H.buddy.span i) (H.buddy.span j)) ∧
      ∀ x < npage, (∃ i ∈ H.live, x ∈ H.buddy.span i) ∨
        ∃ k < buddyMaxOrder, ∃ i ∈ ls k, x ∈ H.buddy.span i := by
  obtain ⟨⟨ls, B, h⟩, -⟩ := reach_partition hb hr
  exact ⟨ls, B, h, fun i hi j hj hne => h.live_disjoint hi hj hne, fun x hx => h.covered hx⟩

def zeroed : Buddy := ⟨fun _ => ⟨0, 0, 0⟩, ⟨fun _ => .null, fun _ => .null⟩, fun _ => 0⟩

theorem zeroed_quiet : Quiet zeroed := by simp [Quiet, mergeable, zeroed]

theorem init_alloc (b : Buddy) (size : ℕ) (h : size2order size < buddyMaxOrder) :
    ∃ s, buddyAllocate size (buddyInit b) = .ok (0, s) ∧
      Rep s (carveLists initLists 0 (size2order size) 13)
      (carve initBlocks 0 (size2order size) 13) ∧
      ∀ j ≥ npage, s.pages j = b.pages j := by
  obtain ⟨s, h1, h2, h3⟩ := buddyAllocate_ok (buddyInit_ok b) (m := 13) (by decide)
    (show size2order size ≤ 13 by have := buddyMaxOrder_eq; omega) (i := 0) rfl fun j _ hj =>
      by simp [initLists, hj.ne]
  exact ⟨s, h1, h2, fun j hj => (h3.past (buddyInit_ok b) h2 j hj).trans (buddyInit_past b hj)⟩

theorem heap_partitioned_first_page :
    ∃ H, Heap.Reach zeroed H ∧ H.live = [0] ∧ ∃ ls B, Partition H ls B ∧
      (∀ i ∈ H.live, ∀ j ∈ H.live, i ≠ j → Disjoint (H.buddy.span i) (H.buddy.span j)) ∧
      ∀ x < npage, (∃ i ∈ H.live, x ∈ H.buddy.span i) ∨
        ∃ k < buddyMaxOrder, ∃ i ∈ ls k, x ∈ H.buddy.span i := by
  obtain ⟨s, h1, -⟩ := init_alloc zeroed pgSize (by decide)
  have hr : Heap.Reach zeroed ⟨s, [0]⟩ := .step .init (.alloc h1)
  exact ⟨_, hr, rfl, heap_partitioned zeroed_quiet hr⟩

end SkyOS
