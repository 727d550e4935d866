import SkyOS.Mm.MapLaws

/-!
# What map does to a range

The loop of `map` visits the pages of the range in order. A range that ends
past the last address is not visited at all, and one whose last page is the
last page there is does not end.
-/

namespace SkyOS

open ByteMem

section
variable {σ : Type} {kalloc : ℕ → σ → Run (ℕ × σ)} {s t : Phys σ} {pg va pa size perm last : ℕ}
    {T : Shape}

/-- The loop of `map` over given pages, with the address each maps to. -/
def mapPages (kalloc : ℕ → σ → Run (ℕ × σ)) (pg perm : ℕ) : List (ℕ × ℕ) → Phys σ → Run (Phys σ)
  | [], s => .ok s
  | v :: vs, s => mapPage kalloc pg perm v.1 v.2 s >>= mapPages kalloc pg perm vs

abbrev vpns (vs : List (ℕ × ℕ)) : List ℕ := vs.map fun v => vpn v.1

/-- The tree after `map` has written the entries of `vs`. -/
structure RangeMapped (pg : ℕ) (m : Mem) (T : Shape) (m' : Mem) (T' : Shape) (perm : ℕ)
    (vs : List (ℕ × ℕ)) (l : List ℕ) : Prop where
  ext : Ext pg m T m' T' (paths (vpns vs)) l
  here : ∀ v ∈ vs, ∃ p, leafAt m' T' (vpn v.1) = some (p, leafPte v.2 perm)
  other : ∀ d, d ∉ vpns vs → leafAt m' T' d = leafAt m T d

-- ---------------------------------------------------------------------------
-- Lists of pages
-- ---------------------------------------------------------------------------

theorem paths_cons (c : ℕ) (cs : List ℕ) : paths [c] ⊆ paths (c :: cs) ∧
    paths cs ⊆ paths (c :: cs) := by
  constructor
  · rintro n (rfl | hn)
    · exact .inl rfl
    · exact .inr (by simp at hn ⊢; tauto)
  · rintro n (rfl | hn)
    · exact .inl rfl
    · exact .inr (by simp at hn ⊢; tauto)

theorem missing_cons (hT : ∀ n, T' n = none ↔ T n = none ∧ n ∉ nodesOf c) (cs : List ℕ) :
    missing T (c :: cs) = missing T [c] + missing T' cs := by
  rw [missing, missing, missing, ← Finset.card_union_of_disjoint]
  · congr 1
    ext n
    simp only [Finset.mem_filter, Finset.mem_union, List.mem_toFinset, List.flatMap_cons,
      List.flatMap_nil, List.mem_append, List.append_nil, hT]
    tauto
  · refine Finset.disjoint_left.mpr fun n h1 h2 => ?_
    simp only [Finset.mem_filter, List.mem_toFinset, List.flatMap_cons, List.flatMap_nil,
      List.append_nil, hT] at h1 h2
    exact h2.2.2 h1.1

theorem PageMapped.none_iff (h : PageMapped pg m T m' T' c e l) (hT : Tables m pg T) (n : Node) :
    T' n = none ↔ T n = none ∧ n ∉ nodesOf c := by
  constructor
  · intro hn
    refine ⟨?_, fun hmem => ?_⟩
    · cases hTn : T n with
      | none => rfl
      | some a => simp [h.ext.mono n a hTn] at hn
    · obtain ⟨p, hp⟩ := h.here
      obtain ⟨b, hb⟩ : ∃ b, T' (.low (ix2 c) (ix1 c)) = some b := by
        cases hb : T' (.low (ix2 c) (ix1 c)) with
        | none => simp [leafAt, hb] at hp
        | some b => exact ⟨b, rfl⟩
      obtain ⟨a, ha⟩ := h.ext.tables.under _ _ _ hb
      simp only [nodesOf, List.mem_cons, List.not_mem_nil, or_false] at hmem
      rcases hmem with rfl | rfl
      · simp [ha] at hn
      · simp [hb] at hn
  · rintro ⟨hn, hmem⟩
    cases hT'n : T' n with
    | none => rfl
    | some a =>
      rcases h.ext.new n a hT'n with ha | ⟨rfl | hP, -⟩
      · simp [hn] at ha
      · simp [hT.root] at hn
      · exact absurd (by simpa using hP) hmem

theorem PageMapped.missing_cons (h : PageMapped pg m T m' T' c e l) (hT : Tables m pg T)
    (cs : List ℕ) :
    missing T (c :: cs) = missing T [c] + missing T' cs := SkyOS.missing_cons (h.none_iff hT) cs

theorem PageMapped.then_range (h : PageMapped pg m T m' T' (vpn v.1) (leafPte v.2 perm) l)
    (h' : RangeMapped pg m' T' m'' T'' perm vs r) (hv : vpn v.1 ∉ vpns vs) :
    RangeMapped pg m T m'' T'' perm (v :: vs) (l ++ r) := by
  refine ⟨h.ext.trans h'.ext (paths_cons _ _).1 (paths_cons _ _).2, ?_, fun d hd => ?_⟩
  · intro w hw
    rcases List.mem_cons.mp hw with rfl | hw
    · rw [h'.other _ hv]
      exact h.here
    · exact h'.here w hw
  · simp only [vpns, List.map_cons, List.mem_cons, not_or] at hd
    rw [h'.other d hd.2, h.other d hd.1]

/-- `map` on pages that are not mapped, given the tables they are missing. -/
theorem mapPages_ok (h : Tables s.mem pg T) (hperm : KernelPerm perm) (hpa : ∀ v ∈ vs, v.2 < 2 ^ 64)
    (hnd : (vpns vs).Nodup) (hno : ∀ v ∈ vs, leafAt s.mem T (vpn v.1) = none)
    (hd : Draws (kalloc pgSize) s.heap l heap') (hl : l.length = missing T (vpns vs))
    (hnew : NewTables s.mem T l) :
    ∃ m' T', mapPages kalloc pg perm vs s = .ok ⟨m', heap'⟩ ∧
      RangeMapped pg s.mem T m' T' perm vs l := by
  induction vs generalizing s T l with
  | nil =>
    obtain rfl : l = [] := List.length_eq_zero_iff.mp (by simpa [missing] using hl)
    cases hd
    exact ⟨s.mem, T, rfl, .refl h, by simp, fun _ _ => rfl⟩
  | cons v vs ih =>
    simp only [vpns, List.map_cons, List.nodup_cons] at hnd
    have hle : missing T [vpn v.1] ≤ l.length := by
      rw [hl]
      refine Finset.card_le_card (Finset.filter_subset_filter _ ?_)
      simp
    -- the first tables go to the first page
    obtain ⟨heap₁, hd1, hd2⟩ := hd.split (missing T [vpn v.1])
    have hsplit := List.take_append_drop (missing T [vpn v.1]) l
    rw [← hsplit] at hnew
    have hnew1 : NewTables s.mem T (l.take (missing T [vpn v.1])) :=
      ⟨(List.nodup_append'.mp hnew.1).1, fun b hb => hnew.2 b (List.mem_append_left _ hb)⟩
    obtain ⟨m₁, T₁, h1, hp⟩ := mapPage_ok h hperm (hpa v (by simp)) (hno v (by simp)) hd1
      (by simpa using hle) hnew1
    have hcount : missing T (vpns (v :: vs)) = missing T [vpn v.1] + missing T₁ (vpns vs) :=
      hp.missing_cons h (vpns vs)
    obtain ⟨m', T', h2, hr⟩ := ih (s := ⟨m₁, heap₁⟩) hp.ext.tables
      (fun w hw => hpa w (List.mem_cons_of_mem v hw)) hnd.2
      (fun w hw => by
        rw [hp.other]
        · exact hno w (List.mem_cons_of_mem v hw)
        · rintro he
          exact hnd.1 (he ▸ List.mem_map_of_mem hw))
      hd2 (by rw [List.length_drop, hl, hcount]; omega) (NewTables.ext hnew hp.ext)
    refine ⟨m', T', ?_, ?_⟩
    · rw [mapPages, h1]
      exact h2
    · have := hp.then_range hr hnd.1
      rwa [hsplit] at this

/-- If `map` comes back, no page was mapped, and the missing tables were handed
out. -/
theorem mapPages_inv (h : Tables s.mem pg T) (hperm : KernelPerm perm)
    (hpa : ∀ v ∈ vs, v.2 < 2 ^ 64)
    (hm : mapPages kalloc pg perm vs s = .ok t)
    (hnew : FreshFor (kalloc pgSize) s.heap s.mem T (missing T (vpns vs))) :
    (vpns vs).Nodup ∧ (∀ v ∈ vs, leafAt s.mem T (vpn v.1) = none) ∧
      ∃ l heap', Draws (kalloc pgSize) s.heap l heap' ∧ l.length = missing T (vpns vs) := by
  induction vs generalizing s T with
  | nil => exact ⟨by simp, by simp, [], _, .nil, by simp [missing]⟩
  | cons v vs ih =>
    rw [mapPages, bind_ok] at hm
    obtain ⟨t₁, h1, h2⟩ := hm
    have hle : missing T [vpn v.1] ≤ missing T (vpns (v :: vs)) := by
      refine Finset.card_le_card (Finset.filter_subset_filter _ ?_)
      simp
    obtain ⟨hno, l, heap', hd, hl⟩ := mapPage_inv h hperm h1 fun l s' hd hl =>
      hnew l s' hd (hl.trans hle)
    obtain ⟨m', T', h3, hp⟩ := mapPage_ok h hperm (hpa v (by simp)) hno hd hl
      (hnew l _ hd (hl.le.trans hle))
    rw [h1, Except.ok.injEq] at h3
    subst h3
    have hcount : missing T (vpns (v :: vs)) = missing T [vpn v.1] + missing T' (vpns vs) :=
      hp.missing_cons h (vpns vs)
    obtain ⟨hnd, hnos, r, heap'', hd', hr⟩ := ih hp.ext.tables
      (fun w hw => hpa w (List.mem_cons_of_mem v hw)) h2 fun r s' hd' hr =>
        NewTables.ext (hnew (l ++ r) s' (hd.append hd') (by
          rw [List.length_append, hl, hcount]
          omega)) hp.ext
    -- a page number that comes twice would be mapped the second time
    have hv : ∀ w ∈ vs, vpn w.1 ≠ vpn v.1 := by
      intro w hw he
      obtain ⟨p, hp⟩ := hp.here
      have := hnos w hw
      simp [he, hp] at this
    refine ⟨?_, ?_, l ++ r, heap'', hd.append hd', ?_⟩
    · simp only [vpns, List.map_cons, List.nodup_cons, List.mem_map, not_exists, not_and]
      exact ⟨hv, hnd⟩
    · intro w hw
      rcases List.mem_cons.mp hw with rfl | hw
      · exact hno
      · rw [← hp.other _ (hv w hw)]
        exact hnos w hw
    · rw [List.length_append, hl, hr, hcount]

-- ---------------------------------------------------------------------------
-- The loop
-- ---------------------------------------------------------------------------

def pagesFrom (va0 pa0 : ℕ) : ℕ → List (ℕ × ℕ)
  | 0 => []
  | n + 1 => (va0, pa0) :: pagesFrom (va0 + pgSize) (u64 (pa0 + pgSize)) n

def rounds (va0 last : ℕ) : ℕ := (last - va0 + (pgSize - 1)) / pgSize

theorem rounds_pos (h : va0 < last) : rounds va0 last = rounds (va0 + pgSize) last + 1 := by
  simp only [rounds, pgSize]
  omega

theorem rounds_zero (h : ¬ va0 < last) : rounds va0 last = 0 := by
  simp only [rounds, pgSize]
  omega

theorem length_pagesFrom (va0 pa0 n : ℕ) : (pagesFrom va0 pa0 n).length = n := by
  induction n generalizing va0 pa0 with
  | zero => rfl
  | succ n ih => rw [pagesFrom, List.length_cons, ih]

theorem mem_pagesFrom (hpa : pa0 < 2 ^ 64) : v ∈ pagesFrom va0 pa0 n ↔
    ∃ i < n, v = (va0 + i * pgSize, u64 (pa0 + i * pgSize)) := by
  induction n generalizing va0 pa0 with
  | zero => simp [pagesFrom]
  | succ n ih =>
    rw [pagesFrom, List.mem_cons, ih (u64_lt _)]
    have hstep : ∀ i, (va0 + pgSize + i * pgSize, u64 (u64 (pa0 + pgSize) + i * pgSize)) =
        (va0 + (i + 1) * pgSize, u64 (pa0 + (i + 1) * pgSize)) := by
      intro i
      simp only [u64, pgSize, Prod.mk.injEq]
      omega
    constructor
    · rintro (rfl | ⟨i, hi, rfl⟩)
      · exact ⟨0, by omega, by simp [u64_of_lt hpa]⟩
      · exact ⟨i + 1, by omega, hstep i⟩
    · rintro ⟨i, hi, rfl⟩
      cases i with
      | zero => exact .inl (by simp [u64_of_lt hpa])
      | succ i => exact .inr ⟨i, by omega, (hstep i).symm⟩

theorem mapLoop_eq (hv : va0 + rounds va0 last * pgSize < 2 ^ 64) (hf : rounds va0 last < n) :
    mapLoop kalloc pg last perm n va0 pa0 s =
      mapPages kalloc pg perm (pagesFrom va0 pa0 (rounds va0 last)) s := by
  induction n generalizing va0 pa0 s with
  | zero => omega
  | succ n ih =>
    rw [mapLoop]
    by_cases hlt : va0 < last
    · have hr := rounds_pos hlt
      rw [hr] at hv hf
      simp only [pgSize] at hv
      rw [if_pos hlt, hr, pagesFrom, mapPages]
      congr 1
      funext s
      rw [u64_of_lt (show va0 + pgSize < 2 ^ 64 by simp only [pgSize]; omega)]
      exact ih (by simp only [pgSize]; omega) (by omega)
    · rw [if_neg hlt, rounds_zero hlt]
      rfl

theorem mapLoop_inv (hv : va0 < 2 ^ 64)
    (hm : mapLoop kalloc pg last perm n va0 pa0 s = .ok t) :
    va0 + rounds va0 last * pgSize < 2 ^ 64 ∧
      mapPages kalloc pg perm (pagesFrom va0 pa0 (rounds va0 last)) s = .ok t := by
  induction n generalizing va0 pa0 s with
  | zero => simp [mapLoop] at hm
  | succ n ih =>
    rw [mapLoop] at hm
    by_cases hlt : va0 < last
    · rw [if_pos hlt, bind_ok] at hm
      obtain ⟨s₁, h1, h2⟩ := hm
      obtain ⟨h3, h4⟩ := ih (u64_lt _) h2
      -- the next page is no lower, else the loop would come by this one again
      have hnext : va0 + pgSize < 2 ^ 64 := by
        by_contra hcon
        simp only [rounds, u64, pgSize] at h3 hcon
        omega
      rw [u64_of_lt hnext] at h3 h4
      rw [rounds_pos hlt, pagesFrom, mapPages, h1, ok_bind]
      refine ⟨?_, h4⟩
      rwa [Nat.add_mul, Nat.one_mul, Nat.add_comm _ pgSize, ← Nat.add_assoc]
    · rw [if_neg hlt, pure_ok] at hm
      rw [rounds_zero hlt]
      exact ⟨by omega, by rw [hm]; rfl⟩

def pagesOf (va pa size : ℕ) : List (ℕ × ℕ) := pagesFrom va pa (rounds va (u64 (va + size)))

theorem mem_pagesOf (hpa : pa < 2 ^ 64) : v ∈ pagesOf va pa size ↔
    ∃ i, va + i * pgSize < u64 (va + size) ∧ v = (va + i * pgSize, u64 (pa + i * pgSize)) := by
  rw [pagesOf, mem_pagesFrom hpa]
  refine exists_congr fun i => and_congr_left fun _ => ?_
  simp only [rounds, pgSize]
  omega

theorem map_eq (hv : va + rounds va (u64 (va + size)) * pgSize < 2 ^ 64) :
    map kalloc pg va pa size perm s = mapPages kalloc pg perm (pagesOf va pa size) s :=
  mapLoop_eq hv (by
    have := u64_lt (va + size)
    simp only [rounds, pgSize]
    omega)

theorem map_inv (hv : va < 2 ^ 64) (hm : map kalloc pg va pa size perm s = .ok t) :
    va + rounds va (u64 (va + size)) * pgSize < 2 ^ 64 ∧
      mapPages kalloc pg perm (pagesOf va pa size) s = .ok t := mapLoop_inv hv hm

theorem pagesOf_lt (hpa : pa < 2 ^ 64) (hv : v ∈ pagesOf va pa size) : v.2 < 2 ^ 64 := by
  obtain ⟨i, -, rfl⟩ := (mem_pagesFrom hpa).mp hv
  exact u64_lt _

end

end SkyOS
