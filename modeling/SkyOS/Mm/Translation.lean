import SkyOS.Mm.RangeLaws

/-!
# The translation map builds

A table is `Built` by calls of `map` that got fresh pages for the tables they
were missing. Over such a table `map` does what it is asked to, and changes the
outcome of no walk for an address that agrees with none of the range in its 39
low bits. The other bits no walk looks at.
-/

namespace SkyOS

open ByteMem

def shapeOf (m : Mem) (pg : ℕ) : Shape
  | .root => some pg
  | .mid i => if valid (entry m pg i) then some (pte2ppn (entry m pg i) <<< 12) else none
  | .low i j =>
    if valid (entry m pg i) then
      let a := pte2ppn (entry m pg i) <<< 12
      if valid (entry m a j) then some (pte2ppn (entry m a j) <<< 12) else none
    else none

def tablesMissing (m : Mem) (pg va pa size : ℕ) : ℕ :=
  missing (shapeOf m pg) (vpns (pagesOf va pa size))

/-- Pages that hold zeros and are none of `frames`. -/
structure FreshPages (m : Mem) (frames l : List ℕ) : Prop where
  nodup : l.Nodup
  page : ∀ b ∈ l, pgSize ∣ b ∧ b < 2 ^ 52
  new : ∀ b ∈ l, b ∉ frames
  zero : ∀ b ∈ l, ∀ x, InPage b x → m x = 0

/-- `frames` are the tables of `pg`: an empty root to begin with, and what calls
of `map` got for them. What else happens leaves them alone. -/
inductive Built {σ : Type} (kalloc : ℕ → σ → Run (ℕ × σ)) (pg : ℕ) : List ℕ → Phys σ → Prop
  | root : pgSize ∣ pg → (∀ x, InPage pg x → s.mem x = 0) → Built kalloc pg [pg] s
  | map : Built kalloc pg frames s → KernelPerm perm → va < 2 ^ 64 → pa < 2 ^ 64 →
      Draws (kalloc pgSize) s.heap l t.heap → l.length = tablesMissing s.mem pg va pa size →
      FreshPages s.mem frames l → map kalloc pg va pa size perm s = .ok t →
      Built kalloc pg (frames ++ l) t
  | other : Built kalloc pg frames s → (∀ b ∈ frames, ∀ x, InPage b x → t.mem x = s.mem x) →
      Built kalloc pg frames t

-- ---------------------------------------------------------------------------
-- Built tables
-- ---------------------------------------------------------------------------

section
variable {σ : Type} {kalloc : ℕ → σ → Run (ℕ × σ)} {s t : Phys σ} {pg va pa size perm : ℕ}

theorem Draws.prefix {next : σ → Run (ℕ × σ)} {s s₁ s₂ : σ} (h : Draws next s l s₁)
    (h' : Draws next s r s₂) (hle : l.length ≤ r.length) : l <+: r := by
  induction h generalizing r with
  | nil => exact List.nil_prefix
  | cons ha _ ih =>
    cases h' with
    | nil => simp at hle
    | cons ha' h' =>
      rw [ha, Except.ok.injEq, Prod.mk.injEq] at ha'
      obtain ⟨rfl, rfl⟩ := ha'
      exact List.cons_prefix_cons.mpr ⟨rfl, ih h' (by simpa using hle)⟩

theorem Draws.functional {next : σ → Run (ℕ × σ)} {s s₁ s₂ : σ} (h : Draws next s l s₁)
    (h' : Draws next s r s₂) (hle : l.length = r.length) : l = r ∧ s₁ = s₂ := by
  induction h generalizing r with
  | nil =>
    cases h' with
    | nil => exact ⟨rfl, rfl⟩
    | cons => simp at hle
  | cons ha _ ih =>
    cases h' with
    | nil => simp at hle
    | cons ha' h' =>
      rw [ha, Except.ok.injEq, Prod.mk.injEq] at ha'
      obtain ⟨rfl, rfl⟩ := ha'
      obtain ⟨rfl, rfl⟩ := ih h' (by simpa using hle)
      exact ⟨rfl, rfl⟩

theorem NewTables.freshFor {next : σ → Run (ℕ × σ)} {s s' : σ} (h : NewTables m T l)
    (hd : Draws next s l s') : FreshFor next s m T l.length := by
  intro r s'' hd' hle
  have hpre := hd'.prefix hd hle
  exact ⟨h.1.sublist hpre.sublist, fun b hb => h.2 b (hpre.subset hb)⟩

theorem FreshPages.newTables (h : FreshPages m frames l) (hT : ∀ n a, T n = some a → a ∈ frames) :
    NewTables m T l :=
  ⟨h.nodup, fun b hb => ⟨(h.page b hb).1, (h.page b hb).2, blank_zero (h.zero b hb),
    fun n hn => h.new b hb (hT n b hn)⟩⟩

theorem Tables.shapeOf_none (h : Tables m pg T) (hc : c < 2 ^ 27) (hn : n ∈ nodesOf c) :
    shapeOf m pg n = none ↔ T n = none := by
  have h2 := h.mid _ (ix2_lt hc)
  simp only [nodesOf, List.mem_cons, List.not_mem_nil, or_false] at hn
  cases ha : T (.mid (ix2 c)) with
  | none =>
    have hlow : T (.low (ix2 c) (ix1 c)) = none := by
      cases hl : T (.low (ix2 c) (ix1 c)) with
      | none => rfl
      | some b =>
        obtain ⟨a, ha'⟩ := h.under _ _ _ hl
        simp [ha] at ha'
    rw [ha] at h2
    have h2 : valid (entry m pg (ix2 c)) = false := h2
    rcases hn with rfl | rfl
    · simp [shapeOf, h2, ha]
    · simp [shapeOf, h2, hlow]
  | some a =>
    have h1 := h.low _ (ix2_lt hc) a ha _ (ix1_lt c)
    rw [ha] at h2
    obtain ⟨hv2, -, hp2⟩ := h2
    rcases hn with rfl | rfl
    · simp [shapeOf, hv2, ha]
    · cases hb : T (.low (ix2 c) (ix1 c)) with
      | none =>
        rw [hb] at h1
        have h1 : valid (entry m a (ix1 c)) = false := h1
        simp [shapeOf, hv2, hp2, h1]
      | some b =>
        rw [hb] at h1
        obtain ⟨hv1, -, -⟩ := h1
        simp [shapeOf, hv2, hp2, hv1]

theorem Tables.tablesMissing_eq (h : Tables m pg T) :
    tablesMissing m pg va pa size = missing T (vpns (pagesOf va pa size)) := by
  rw [tablesMissing, missing, missing]
  congr 1
  refine Finset.filter_congr fun n hn => ?_
  simp only [List.mem_toFinset, List.mem_flatMap, List.mem_map] at hn
  obtain ⟨c, ⟨v, -, rfl⟩, hn⟩ := hn
  exact h.shapeOf_none (vpn_lt v.1) hn

def rootOnly (pg : ℕ) : Shape := fun n => if n = .root then some pg else none

theorem rootOnly_some : rootOnly pg n = some a ↔ n = .root ∧ a = pg := by
  simp [rootOnly, eq_comm]

theorem leafAt_rootOnly (m : Mem) (pg c : ℕ) : leafAt m (rootOnly pg) c = none := by
  simp [leafAt, rootOnly]

theorem tables_blank (hpg : pgSize ∣ pg) (h : Blank m pg) : Tables m pg (rootOnly pg) := by
  refine ⟨by simp [rootOnly], fun i hi => ?_, fun i _ a ha => by simp [rootOnly] at ha,
    fun i j b hb => by simp [rootOnly] at hb, fun i j b hb => by simp [rootOnly] at hb,
    fun n a hn => ?_, fun n n' a hn hn' => ?_⟩
  · simpa [rootOnly, Slot] using h i hi
  · exact (rootOnly_some.mp hn).2 ▸ hpg
  · rw [(rootOnly_some.mp hn).1, (rootOnly_some.mp hn').1]

theorem map_success (h : Tables s.mem pg T) (hperm : KernelPerm perm) (hva : va < 2 ^ 64)
    (hpa : pa < 2 ^ 64) (hm : map kalloc pg va pa size perm s = .ok t)
    (hnew : FreshFor (kalloc pgSize) s.heap s.mem T (missing T (vpns (pagesOf va pa size)))) :
    (vpns (pagesOf va pa size)).Nodup ∧
      (∀ v ∈ pagesOf va pa size, leafAt s.mem T (vpn v.1) = none) ∧
      ∃ l T', Draws (kalloc pgSize) s.heap l t.heap ∧
        l.length = missing T (vpns (pagesOf va pa size)) ∧
        RangeMapped pg s.mem T t.mem T' perm (pagesOf va pa size) l := by
  obtain ⟨-, hm⟩ := map_inv hva hm
  obtain ⟨hnd, hno, l, heap', hd, hl⟩ :=
    mapPages_inv h hperm (fun v hv => pagesOf_lt hpa hv) hm hnew
  obtain ⟨m', T', h1, hr⟩ := mapPages_ok h hperm (fun v hv => pagesOf_lt hpa hv) hnd hno hd hl
    (hnew l heap' hd hl.le)
  rw [hm, Except.ok.injEq] at h1
  subst h1
  exact ⟨hnd, hno, l, T', hd, hl, hr⟩

theorem Ext.frames_mem (h : Ext pg m T m' T' P l) (hT : ∀ n a, T n = some a → a ∈ frames) :
    ∀ n a, T' n = some a → a ∈ frames ++ l := by
  intro n a hn
  rcases h.new n a hn with hn | ⟨-, ha⟩
  · exact List.mem_append_left l (hT n a hn)
  · exact List.mem_append_right frames ha

theorem built_tables (h : Built kalloc pg frames s) :
    ∃ T, Tables s.mem pg T ∧ ∀ n a, T n = some a → a ∈ frames := by
  induction h with
  | root hpg hz =>
    refine ⟨_, tables_blank hpg (blank_zero hz), fun n a hn => ?_⟩
    simp [(rootOnly_some.mp hn).2]
  | map _ hperm hva hpa hd hl hf hm ih =>
    obtain ⟨T, hT, hfr⟩ := ih
    rw [hT.tablesMissing_eq] at hl
    obtain ⟨-, -, r, T', hd', hr, hmap⟩ := map_success hT hperm hva hpa hm
      (hl ▸ (hf.newTables hfr).freshFor hd)
    obtain ⟨rfl, -⟩ := hd.functional hd' (hl.trans hr.symm)
    exact ⟨T', hmap.ext.tables, hmap.ext.frames_mem hfr⟩
  | other _ hm ih =>
    obtain ⟨T, hT, hfr⟩ := ih
    exact ⟨T, hT.frame fun n a hn => hm a (hfr n a hn), hfr⟩

-- ---------------------------------------------------------------------------
-- Ranges
-- ---------------------------------------------------------------------------

theorem Tables.walk_ok_iff (h : Tables m pg T) : walk m pg x = .ok r ↔
    leafAt m T (vpn x) = some r := by
  rw [h.walk_eq]
  cases leafAt m T (vpn x) <;> simp

theorem Tables.walk_congr (h : Tables m pg T) (h' : Tables m' pg T')
    (hl : leafAt m' T' (vpn x) = leafAt m T (vpn x)) : walk m' pg x = walk m pg x := by
  rw [h.walk_eq, h'.walk_eq, hl]

def rangeEnd (va size : ℕ) : ℕ := (va + size + (pgSize - 1)) / pgSize * pgSize

section
variable (hva : pgSize ∣ va) (hvs : va + size ≤ 2 ^ 38)
include hva hvs

theorem range_rounds : u64 (va + size) = va + size ∧
    va + rounds va (u64 (va + size)) * pgSize = rangeEnd va size := by
  have hlt : va + size < 2 ^ 64 := by omega
  obtain ⟨k, rfl⟩ := hva
  refine ⟨u64_of_lt hlt, ?_⟩
  rw [u64_of_lt hlt]
  simp only [rounds, rangeEnd, pgSize] at *
  omega

theorem mem_range_pages (hpa : pgSize ∣ pa) (hps : pa + size ≤ 2 ^ 52) :
    v ∈ pagesOf va pa size ↔ ∃ i, va + i * pgSize < va + size ∧
      v = (va + i * pgSize, pa + i * pgSize) := by
  obtain ⟨h1, -⟩ := range_rounds hva hvs
  have hlt : pa < 2 ^ 64 := by omega
  rw [pagesOf, h1, mem_pagesFrom hlt]
  refine exists_congr fun i => ?_
  have hi : i < rounds va (va + size) ↔ va + i * pgSize < va + size := by
    simp only [rounds, pgSize]
    omega
  rw [hi]
  refine and_congr_right fun hi => ?_
  rw [u64_of_lt (show pa + i * pgSize < 2 ^ 64 by simp only [pgSize] at *; omega)]

theorem range_nodup (pa : ℕ) : (vpns (pagesOf va pa size)).Nodup := by
  obtain ⟨h1, h2⟩ := range_rounds hva hvs
  have key : ∀ n va0 pa0, va0 + n * pgSize ≤ 2 ^ 39 → (vpns (pagesFrom va0 pa0 n)).Nodup ∧
      ∀ c ∈ vpns (pagesFrom va0 pa0 n), va0 / pgSize ≤ c := by
    intro n
    induction n with
    | zero => intro va0 pa0 _; simp [pagesFrom]
    | succ n ih =>
      intro va0 pa0 hle
      simp only [pgSize] at hle
      obtain ⟨h3, h4⟩ := ih (va0 + pgSize) (u64 (pa0 + pgSize)) (by simp only [pgSize]; omega)
      have hv : vpn va0 = va0 / pgSize := by
        simp only [vpn, pgSize]
        omega
      refine ⟨?_, fun c hc => ?_⟩
      · rw [pagesFrom, vpns, List.map_cons, List.nodup_cons]
        refine ⟨fun hm => ?_, h3⟩
        have := h4 _ hm
        rw [hv] at this
        simp only [pgSize] at this
        omega
      · rw [pagesFrom, vpns, List.map_cons, List.mem_cons] at hc
        rcases hc with rfl | hc
        · exact hv.ge
        · have := h4 c hc
          simp only [pgSize] at this ⊢
          omega
  refine (key _ va pa ?_).1
  rw [h2, rangeEnd]
  simp only [pgSize]
  omega

/-- An address of the range is in the page of its distance from the start. -/
theorem vpn_range (hx : va ≤ x) (hlt : x < rangeEnd va size) :
    vpn x = vpn (va + (x - va) / pgSize * pgSize) ∧ va + (x - va) / pgSize * pgSize <
      va + size := by
  obtain ⟨k, rfl⟩ := hva
  simp only [vpn, rangeEnd, pgSize] at *
  omega

theorem vpn_outside (hx : ¬ (va ≤ x % 2 ^ 39 ∧ x % 2 ^ 39 < rangeEnd va size))
    (hi : va + i * pgSize < va + size) : vpn x ≠ vpn (va + i * pgSize) := by
  obtain ⟨k, rfl⟩ := hva
  simp only [vpn, rangeEnd, pgSize] at *
  omega

end

/-- `map` on a range none of which is mapped, given the tables it is missing. -/
theorem map_ok (h : Tables s.mem pg T) (hperm : KernelPerm perm) (hva : pgSize ∣ va)
    (hpa : pgSize ∣ pa) (hvs : va + size ≤ 2 ^ 38) (hps : pa + size ≤ 2 ^ 52)
    (hno : ∀ x, va ≤ x → x < va + size → leafAt s.mem T (vpn x) = none)
    (hd : Draws (kalloc pgSize) s.heap l heap')
    (hl : l.length = missing T (vpns (pagesOf va pa size)))
    (hnew : NewTables s.mem T l) :
    ∃ m' T', map kalloc pg va pa size perm s = .ok ⟨m', heap'⟩ ∧
      RangeMapped pg s.mem T m' T' perm (pagesOf va pa size) l := by
  obtain ⟨h1, h2⟩ := range_rounds hva hvs
  rw [map_eq]
  · refine mapPages_ok h hperm (fun v hv => pagesOf_lt (by omega) hv) (range_nodup hva hvs pa)
      (fun v hv => ?_) hd hl hnew
    obtain ⟨i, hi, rfl⟩ := (mem_range_pages hva hvs hpa hps).mp hv
    exact hno _ (by omega) hi
  · rw [h2, rangeEnd]
    simp only [pgSize]
    omega

theorem RangeMapped.walk_inside (h : RangeMapped pg m T m' T' perm (pagesOf va pa size) l)
    (hperm : KernelPerm perm) (hva : pgSize ∣ va) (hpa : pgSize ∣ pa) (hvs : va + size ≤ 2 ^ 38)
    (hps : pa + size ≤ 2 ^ 52) (hx : va ≤ x) (hlt : x < rangeEnd va size) :
    ∃ p e, walk m' pg x = .ok (p, e) ∧ pte2ppn e = (pa + (x - va)) >>> 12 ∧
      e &&& 0x3ff = pteV ||| pteR ||| pteW ||| pteX ||| perm := by
  obtain ⟨hvpn, hi⟩ := vpn_range hva hvs hx hlt
  obtain ⟨p, hp⟩ := h.here _ ((mem_range_pages hva hvs hpa hps).mpr ⟨_, hi, rfl⟩)
  rw [← hvpn] at hp
  refine ⟨p, _, h.ext.tables.walk_ok_iff.mpr hp, ?_, ?_⟩
  · rw [leafPte_ppn hperm (by omega), Nat.shiftRight_eq_div_pow]
    obtain ⟨k, rfl⟩ := hpa
    simp only [pgSize]
    omega
  · rw [show 0x3ff = 2 ^ 10 - 1 by decide, Nat.and_two_pow_sub_one_eq_mod, leafPte_flags hperm]
    rcases hperm with rfl | rfl <;> decide

theorem RangeMapped.walk_outside (h : RangeMapped pg m T m' T' perm (pagesOf va pa size) l)
    (hT : Tables m pg T) (hva : pgSize ∣ va) (hpa : pgSize ∣ pa) (hvs : va + size ≤ 2 ^ 38)
    (hps : pa + size ≤ 2 ^ 52) (hx : ¬ (va ≤ x % 2 ^ 39 ∧ x % 2 ^ 39 < rangeEnd va size)) :
    walk m' pg x = walk m pg x := by
  refine hT.walk_congr h.ext.tables (h.other _ fun hm => ?_)
  obtain ⟨v, hv, he⟩ := List.mem_map.mp hm
  obtain ⟨i, hi, rfl⟩ := (mem_range_pages hva hvs hpa hps).mp hv
  exact vpn_outside hva hvs hx hi he.symm

-- ---------------------------------------------------------------------------
-- The translation
-- ---------------------------------------------------------------------------

/-- On a range none of which is mapped `map` comes back, every address of the
range translates as asked, and a walk for an address whose 39 low bits are
outside the range ends as before. -/
theorem map_translates (hb : Built kalloc pg frames s) (hperm : KernelPerm perm) (hva : pgSize ∣ va)
    (hpa : pgSize ∣ pa) (hvs : va + size ≤ 2 ^ 38) (hps : pa + size ≤ 2 ^ 52)
    (hno : ∀ x, va ≤ x → x < va + size → ∀ r, walk s.mem pg x ≠ .ok r)
    (hd : Draws (kalloc pgSize) s.heap l heap') (hl : l.length = tablesMissing s.mem pg va pa size)
    (hf : FreshPages s.mem frames l) :
    ∃ m', map kalloc pg va pa size perm s = .ok ⟨m', heap'⟩ ∧
      (∀ x, va ≤ x → x < rangeEnd va size → ∃ p e, walk m' pg x = .ok (p, e) ∧
        pte2ppn e = (pa + (x - va)) >>> 12 ∧
        e &&& 0x3ff = pteV ||| pteR ||| pteW ||| pteX ||| perm) ∧
      ∀ x, ¬ (va ≤ x % 2 ^ 39 ∧ x % 2 ^ 39 < rangeEnd va size) →
        walk m' pg x = walk s.mem pg x := by
  obtain ⟨T, hT, hfr⟩ := built_tables hb
  rw [hT.tablesMissing_eq] at hl
  have hno' : ∀ x, va ≤ x → x < va + size → leafAt s.mem T (vpn x) = none := by
    intro x h1 h2
    cases hx : leafAt s.mem T (vpn x) with
    | none => rfl
    | some r => exact absurd (hT.walk_ok_iff.mpr hx) (hno x h1 h2 r)
  obtain ⟨m', T', hm, hr⟩ := map_ok hT hperm hva hpa hvs hps hno' hd hl (hf.newTables hfr)
  exact ⟨m', hm, fun x h1 h2 => hr.walk_inside hperm hva hpa hvs hps h1 h2,
    fun x hx => hr.walk_outside hT hva hpa hvs hps hx⟩

end

-- ---------------------------------------------------------------------------
-- A table with one page
-- ---------------------------------------------------------------------------

/-- The call `map(pg, 0, 0x5000, 0x1000, 0)` on an empty table in zeroed memory. -/
theorem first_page_call : ∃ h₀ h₂, kalloc sampleLayout pgSize (buddyInit zeroed) =
    .ok (0x80300000, h₀) ∧
    Built (kalloc sampleLayout) 0x80300000 [0x80300000] ⟨fun _ => 0, h₀⟩ ∧
    Draws (kalloc sampleLayout pgSize) h₀ [0x80301000, 0x80302000] h₂ ∧
    tablesMissing (fun _ => 0) 0x80300000 0 0x5000 0x1000 = 2 ∧
    FreshPages (fun _ => 0) [0x80300000] [0x80301000, 0x80302000] ∧
    ∀ x, walk (fun _ => 0) 0x80300000 x = .error (.panic "access fault") := by
  obtain ⟨h₀, h₁, h₂, hk0, hk1, hk2⟩ := init_pages sampleLayout zeroed
  have hT : Tables (fun _ => 0) 0x80300000 _ := tables_blank (by decide) (blank_zero fun _ _ => rfl)
  refine ⟨h₀, h₂, hk0, .root (by decide) (fun _ _ => rfl), .cons hk1 (.cons hk2 .nil), ?_, ?_, ?_⟩
  · rw [hT.tablesMissing_eq, show vpns (pagesOf 0 0x5000 0x1000) = [0] by decide, missing_single]
    simp [rootOnly]
  · exact ⟨by decide, by decide, by decide, fun _ _ _ _ => rfl⟩
  · intro x
    rw [hT.walk_eq, leafAt_rootOnly]

theorem map_translates_first_page : ∃ h₀ h₂ m',
    map (kalloc sampleLayout) 0x80300000 0 0x5000 0x1000 0 ⟨fun _ => 0, h₀⟩ = .ok ⟨m', h₂⟩ ∧
      (∀ x, 0 ≤ x → x < rangeEnd 0 0x1000 → ∃ p e, walk m' 0x80300000 x = .ok (p, e) ∧
        pte2ppn e = (0x5000 + (x - 0)) >>> 12 ∧
        e &&& 0x3ff = pteV ||| pteR ||| pteW ||| pteX ||| 0) := by
  obtain ⟨h₀, h₂, -, hb, hd, hn, hf, hw⟩ := first_page_call
  obtain ⟨m', h1, h2, -⟩ :=
      map_translates hb (.inl rfl : KernelPerm 0) (by decide) (by decide) (by decide)
    (by decide) (fun x _ _ r => by simp [hw]) hd hn.symm hf
  exact ⟨h₀, h₂, m', h1, h2⟩

/-- The walk for `2 ^ 39` is the walk for 0. -/
theorem walk_drops_high_bits : ∃ h₀ h₂ m',
    Built (kalloc sampleLayout) 0x80300000 [0x80300000] ⟨fun _ => 0, h₀⟩ ∧
      Draws (kalloc sampleLayout pgSize) h₀ [0x80301000, 0x80302000] h₂ ∧
      FreshPages (fun _ => 0) [0x80300000] [0x80301000, 0x80302000] ∧
      (∀ x, walk (fun _ => 0) 0x80300000 x = .error (.panic "access fault")) ∧
      map (kalloc sampleLayout) 0x80300000 0 0x5000 0x1000 0 ⟨fun _ => 0, h₀⟩ = .ok ⟨m', h₂⟩ ∧
      ¬ (0 ≤ 2 ^ 39 ∧ 2 ^ 39 < rangeEnd 0 0x1000) ∧
      walk m' 0x80300000 (2 ^ 39) ≠ walk (fun _ => 0) 0x80300000 (2 ^ 39) := by
  obtain ⟨h₀, h₂, -, hb, hd, hn, hf, hw⟩ := first_page_call
  obtain ⟨T, hT, hfr⟩ := built_tables hb
  rw [hT.tablesMissing_eq] at hn
  have hno : ∀ x, leafAt (fun _ => 0) T (vpn x) = none := fun x => by
    cases hx : leafAt (fun _ => 0) T (vpn x) with
    | none => rfl
    | some r =>
      have := hT.walk_ok_iff.mpr hx
      simp [hw] at this
  obtain ⟨m', T', hm, hr⟩ := map_ok hT (.inl rfl) (by decide) (by decide)
    (show 0 + 0x1000 ≤ 2 ^ 38 by decide) (by decide) (fun x _ _ => hno x) hd hn.symm
      (hf.newTables hfr)
  refine ⟨h₀, h₂, m', hb, hd, hf, hw, hm, by decide, ?_⟩
  obtain ⟨p, e, hx, -⟩ := hr.walk_inside (x := 0) (.inl rfl) (by decide) (by decide) (by decide)
    (by decide) le_rfl (by decide)
  have hx' : walk m' 0x80300000 (2 ^ 39) = .ok (p, e) := by
    rw [hr.ext.tables.walk_ok_iff, show vpn (2 ^ 39) = vpn 0 by decide]
    exact hr.ext.tables.walk_ok_iff.mp hx
  rw [hx', hw]
  simp

end SkyOS
