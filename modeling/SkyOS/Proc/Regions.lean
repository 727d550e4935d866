import SkyOS.Proc.Isolation

/-!
# Regions and their slots

`umap` records the region it maps in the first slot of `mem_map` that is not in
use. When all are, it maps the region and records nothing.
-/

namespace SkyOS

structure UmapCall where
  va : ℕ
  pa : ℕ
  size : ℕ
  deriving DecidableEq

def umaps (L : Layout) (p : ℕ) (calls : List UmapCall) (k : Kernel) : Run Kernel :=
  calls.foldlM (fun k c => umap L p c.va c.pa c.size k) k

-- ---------------------------------------------------------------------------
-- mem_map
-- ---------------------------------------------------------------------------

/-- The slots that are not in use, in the order in which they are taken. -/
def Task.freeSlots (t : Task) : List ℕ := (List.range maxVmaNum).filter fun i =>
    (t.memMap i).memRange == 0

def Task.Records (t : Task) (va size : ℕ) : Prop :=
  ∃ i < maxVmaNum, (t.memMap i).memStart = va ∧ (t.memMap i).memRange = size

/-- The region is recorded, so that `copy_mem_from` copies all of it. -/
structure RegionsComplete (calls : List UmapCall) (t : Task) : Prop where
  recorded : ∀ c ∈ calls, t.Records c.va c.size
  covered : ∀ c ∈ calls, ∀ x, c.va ≤ x → x < c.va + c.size →
    ∃ i < maxVmaNum, (t.memMap i).memStart ≤ x ∧ x < (t.memMap i).memStart + (t.memMap i).memRange

section
variable {t : Task} {va size flag i : ℕ}

theorem vmaInsert_full (h : t.freeSlots = []) : vmaInsert va size flag t = t := by
  rw [vmaInsert, List.find?_eq_none.mpr]
  intro i hi
  have := List.filter_eq_nil_iff.mp h i hi
  simpa using this

theorem vmaInsert_free (h : t.freeSlots = i :: l) :
    vmaInsert va size flag t =
    { t with memMap := Function.update t.memMap i ⟨va, size, flag⟩ } := by
  have hf : (List.range maxVmaNum).find? (fun i => (t.memMap i).memRange == 0) = some i := by
    rw [← List.head?_filter]
    exact congrArg List.head? h
  rw [vmaInsert, hf]

theorem freeSlots_nodup (t : Task) : t.freeSlots.Nodup := List.nodup_range.filter _

theorem mem_freeSlots : i ∈ t.freeSlots ↔ i < maxVmaNum ∧ (t.memMap i).memRange = 0 := by
  simp [Task.freeSlots]

theorem freeSlots_insert (h : t.freeSlots = i :: l) (hs : size ≠ 0) :
    (vmaInsert va size flag t).freeSlots = l := by
  have hnd := freeSlots_nodup t
  rw [h, List.nodup_cons] at hnd
  have hfilter : (vmaInsert va size flag t).freeSlots = t.freeSlots.filter (· != i) := by
    rw [vmaInsert_free h, Task.freeSlots, Task.freeSlots, List.filter_filter]
    refine List.filter_congr fun j _ => ?_
    by_cases hj : j = i
    · simp [hj, hs]
    · simp [hj]
  rw [hfilter, h, List.filter_cons_of_neg (by simp), List.filter_eq_self.mpr]
  intro j hj
  simp only [bne_iff_ne]
  rintro rfl
  exact hnd.1 hj

theorem records_insert (h : t.freeSlots = i :: l) (hs : size' ≠ 0) :
    (vmaInsert va size flag t).Records va' size' ↔ t.Records va' size' ∨ va = va' ∧
      size = size' := by
  obtain ⟨hi, hfree⟩ := mem_freeSlots.mp (h ▸ List.mem_cons_self : i ∈ t.freeSlots)
  rw [vmaInsert_free h]
  constructor
  · rintro ⟨j, hj, hstart, hrange⟩
    by_cases hji : j = i
    · subst hji
      simp only [Function.update_self] at hstart hrange
      exact .inr ⟨hstart, hrange⟩
    · simp only [Function.update_of_ne hji] at hstart hrange
      exact .inl ⟨j, hj, hstart, hrange⟩
  · rintro (⟨j, hj, hstart, hrange⟩ | ⟨rfl, rfl⟩)
    · have hji : j ≠ i := by
        rintro rfl
        exact hs (hrange.symm.trans hfree)
      refine ⟨j, hj, ?_, ?_⟩
      · simpa only [Function.update_of_ne hji] using hstart
      · simpa only [Function.update_of_ne hji] using hrange
    · exact ⟨i, hi, by simp, by simp⟩

theorem records_inserts (calls : List UmapCall) (va : ℕ) (hsize : ∀ c ∈ calls, c.size ≠ 0)
    (hs : size ≠ 0) (t : Task) :
    (calls.foldl (fun t c => vmaInsert c.va c.size pteU t) t).Records va size ↔
      t.Records va size ∨ ∃ c ∈ calls.take t.freeSlots.length, c.va = va ∧ c.size = size := by
  induction calls generalizing t with
  | nil => simp
  | cons c calls ih =>
    have hc := hsize c List.mem_cons_self
    have ih := ih fun d hd => hsize d (List.mem_cons_of_mem c hd)
    rw [List.foldl_cons, ih]
    cases hf : t.freeSlots with
    | nil =>
      rw [vmaInsert_full hf, hf]
      simp
    | cons i l =>
      rw [freeSlots_insert hf hc, records_insert hf hs, List.length_cons, List.take_succ_cons,
        or_assoc]
      simp

end

-- ---------------------------------------------------------------------------
-- Calls of umap
-- ---------------------------------------------------------------------------

theorem umap_task (h : umap L p va pa size k = .ok k') :
    k'.task p = vmaInsert va size pteU (k.task p) := by
  simp only [umap, bind_ok, pure_ok] at h
  obtain ⟨phys, -, rfl⟩ := h
  simp [Kernel.setTask]

theorem umaps_task (h : umaps L p calls k = .ok k') :
    k'.task p = calls.foldl (fun t c => vmaInsert c.va c.size pteU t) (k.task p) := by
  induction calls generalizing k with
  | nil =>
    rw [umaps, List.foldlM_nil, pure_ok] at h
    rw [← h, List.foldl_nil]
  | cons c calls ih =>
    rw [umaps, List.foldlM_cons, bind_ok] at h
    obtain ⟨k₁, h1, h2⟩ := h
    rw [ih h2, umap_task h1, List.foldl_cons]

/-- All regions are recorded exactly if those that find no slot repeat regions
that are. -/
theorem regions_complete (h : umaps L p calls k = .ok k') (hsize : ∀ c ∈ calls, c.size ≠ 0) :
    RegionsComplete calls (k'.task p) ↔ ∀ c ∈ calls, (k.task p).Records c.va c.size ∨
      ∃ c' ∈ calls.take (k.task p).freeSlots.length, c'.va = c.va ∧ c'.size = c.size := by
  have key (c : UmapCall) (hc : c ∈ calls) :=
    records_inserts calls c.va hsize (hsize c hc) (k.task p)
  rw [← umaps_task h] at key
  constructor
  · exact fun hr c hc => (key c hc).mp (hr.recorded c hc)
  · intro hcond
    refine ⟨fun c hc => (key c hc).mpr (hcond c hc), fun c hc x hle hlt => ?_⟩
    obtain ⟨i, hi, hstart, hrange⟩ := (key c hc).mpr (hcond c hc)
    exact ⟨i, hi, by omega, by omega⟩

def pageCalls (va n : ℕ) : List UmapCall := (List.range n).map fun i =>
    ⟨va + i * pgSize, 0x80300000, pgSize⟩

theorem pageCalls_succ (va n : ℕ) :
    pageCalls va (n + 1) = ⟨va, 0x80300000, pgSize⟩ :: pageCalls (va + pgSize) n := by
  rw [pageCalls, pageCalls, List.range_succ_eq_map, List.map_cons, List.map_map]
  simp only [Nat.zero_mul, Nat.add_zero, List.cons.injEq, true_and]
  refine List.map_congr_left fun i _ => ?_
  simp only [Function.comp, UmapCall.mk.injEq, and_true]
  rw [Nat.succ_mul]
  omega

theorem Roomy.umaps (h : Roomy L k T P D (2 * n)) (hp : k.HasSpace (some p)) (hva : pgSize ∣ va)
    (hend : va + n * pgSize ≤ 2 ^ 38)
    (hno : ∀ x, va ≤ x → x < va + n * pgSize → leafAt k.phys.mem (T (some p)) (vpn x) = none) :
    ∃ k', SkyOS.umaps L p (pageCalls va n) k = .ok k' := by
  induction n generalizing k T P va with
  | zero => exact ⟨k, rfl⟩
  | succ n ih =>
    rw [Nat.succ_mul] at hend hno
    have hlen : (pagesOf va 0x80300000 pgSize).length = 1 := by
      have hlt : va + pgSize < 2 ^ 64 := by
        simp only [pgSize] at hend ⊢
        omega
      rw [pagesOf, u64_of_lt hlt, length_pagesFrom]
      simp only [rounds, pgSize]
      omega
    have hfit : va + pgSize ≤ 2 ^ 38 ∧ va + pgSize + n * pgSize ≤ 2 ^ 38 := by
      simp only [pgSize] at hend ⊢
      omega
    obtain ⟨k₁, l, Tp, hu, hr, h₁⟩ :=
        h.umap (m := 2 * n) hp hva (show pgSize ∣ 0x80300000 by decide)
      hfit.1 (by decide) (fun x h1 h2 =>
        hno x h1 (h2.trans_le (Nat.add_le_add_left (Nat.le_add_left _ _) _)))
      (by rw [hlen]; omega)
    have hp₁ : k₁.HasSpace (some p) := by
      rw [Kernel.HasSpace, umap_pidmap hu]
      exact hp
    obtain ⟨k', hk'⟩ :=
        ih h₁ hp₁ (show pgSize ∣ va + pgSize from Nat.dvd_add_self_right.mpr hva) hfit.2
      fun x h1 h2 => by
        rw [grow, if_pos rfl, hr.other _ fun hm => ?_]
        · exact hno x (by omega) (by omega)
        · obtain ⟨v, hv, he⟩ := List.mem_map.mp hm
          obtain ⟨i, hi, rfl⟩ := (mem_range_pages hva hfit.1 (by decide) (by decide)).mp hv
          obtain ⟨c, rfl⟩ := hva
          simp only [vpn, pgSize] at he hi h1 h2 hend
          omega
    refine ⟨k', ?_⟩
    rw [pageCalls_succ, SkyOS.umaps, List.foldlM_cons, hu]
    exact hk'

theorem low_pages (n : ℕ) (hn : n ≤ 100) : ∃ k k' : Kernel, SpaceReach sampleLayout zeroed k ∅ ∧
    k.pidmap 0 ≠ 0 ∧
    (∀ i, ((k.task 0).memMap i).memRange = 0) ∧ umaps sampleLayout 0 (pageCalls 0x1000 n) k =
      .ok k' := by
  obtain ⟨k, T, P, hr, h0, -, h, hempty, hleaf⟩ := two_processes sampleLayout zeroed
  obtain ⟨k', hk'⟩ := Roomy.umaps (n := n) ⟨h.spaces, h.zero, h.room.mono (by omega)⟩ h0
    (show pgSize ∣ 0x1000 by decide) (by simp only [pgSize]; omega) fun x hx hx' =>
        hleaf _ fun hm => by
      obtain ⟨v, hv, he⟩ := List.mem_map.mp hm
      have := kernelRange_slot sampleLayout hv
      rw [he] at this
      simp only [ix2, vpn, pgSize, kernelSlot] at this hx'
      omega
  exact ⟨k, k', hr, h0, hempty, hk'⟩

theorem freeSlots_new {t : Task} (h : ∀ i, (t.memMap i).memRange = 0) :
    t.freeSlots.length = maxVmaNum := by
  simp [Task.freeSlots, h]

theorem pageCalls_size : ∀ c ∈ pageCalls va n, c.size ≠ 0 := by
  intro c hc
  obtain ⟨i, -, rfl⟩ := List.mem_map.mp hc
  exact Nat.two_pow_pos 12 |>.ne'

theorem regions_complete_five : ∃ k k' : Kernel, umaps sampleLayout 0 (pageCalls 0x1000 5) k =
    .ok k' ∧
    (RegionsComplete (pageCalls 0x1000 5) (k'.task 0) ↔ ∀ c ∈ pageCalls 0x1000 5,
      (k.task 0).Records c.va c.size ∨ ∃ c' ∈ (pageCalls 0x1000 5).take (k.task 0).freeSlots.length,
        c'.va = c.va ∧ c'.size = c.size) := by
  obtain ⟨k, k', -, -, -, h⟩ := low_pages 5 (by decide)
  exact ⟨k, k', h, regions_complete h pageCalls_size⟩

/-- The sixth region of a new process is mapped and not recorded. -/
theorem sixth_region_lost : ∃ k k' : Kernel, SpaceReach sampleLayout zeroed k ∅ ∧ k.pidmap 0 ≠ 0 ∧
    (∀ i, ((k.task 0).memMap i).memRange = 0) ∧ umaps sampleLayout 0 (pageCalls 0x1000 6) k =
      .ok k' ∧
    ¬ RegionsComplete (pageCalls 0x1000 6) (k'.task 0) := by
  obtain ⟨k, k', hr, h0, hempty, h⟩ := low_pages 6 (by decide)
  refine ⟨k, k', hr, h0, hempty, h, fun hc => ?_⟩
  have hlast : (⟨0x6000, 0x80300000, pgSize⟩ : UmapCall) ∈ pageCalls 0x1000 6 := by decide
  have hrec := hc.recorded _ hlast
  rw [umaps_task h, records_inserts _ _ pageCalls_size (by decide), freeSlots_new hempty] at hrec
  rcases hrec with ⟨i, -, -, hi⟩ | hrec
  · rw [hempty] at hi
    exact absurd hi (by decide)
  · exact absurd hrec (by decide)

end SkyOS
