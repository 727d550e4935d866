import SkyOS.Mm.Translation

/-!
# Ranges that start inside a page

`map` steps by whole pages from the address it is given, so it visits as many
pages as `size` takes up from the start of a page. A range that starts inside
one can reach a page further, which is then not mapped.
-/

namespace SkyOS

open ByteMem

def transPa (m : Mem) (pg va : ℕ) : Run ℕ := do
  let p ← trans m pg va
  return (pte2ppn (readPte m p) <<< 12) + offset va

/-- `map` comes back, and every address of the range translates as asked. -/
def Covers {σ : Type} (kalloc : ℕ → σ → Run (ℕ × σ)) (pg va pa size perm : ℕ) (s : Phys σ) : Prop :=
  ∃ t, map kalloc pg va pa size perm s = .ok t ∧ ∀ k < size, transPa t.mem pg (va + k) =
    .ok (pa + k)

-- ---------------------------------------------------------------------------
-- Pages of the range
-- ---------------------------------------------------------------------------

def pagesIn (size : ℕ) : ℕ := (size + (pgSize - 1)) / pgSize

theorem lt_pagesIn : i < pagesIn size ↔ i * pgSize < size := by
  simp only [pagesIn, pgSize]
  omega

theorem rounds_eq (h : va + size < 2 ^ 64) : rounds va (u64 (va + size)) = pagesIn size := by
  rw [u64_of_lt h, rounds, Nat.add_sub_cancel_left, pagesIn]

theorem vpns_pagesFrom (va0 pa0 n : ℕ) :
    vpns (pagesFrom va0 pa0 n) = (List.range n).map fun i => vpn (va0 + i * pgSize) := by
  induction n generalizing va0 pa0 with
  | zero => rfl
  | succ n ih =>
    have hcons : vpns (pagesFrom va0 pa0 (n + 1)) =
        vpn va0 :: vpns (pagesFrom (va0 + pgSize) (u64 (pa0 + pgSize)) n) :=
      rfl
    rw [hcons, ih, List.range_succ_eq_map, List.map_cons, List.map_map]
    simp only [Nat.zero_mul, Nat.add_zero, List.cons.injEq, true_and]
    refine List.map_congr_left fun i _ => ?_
    simp only [Function.comp, Nat.succ_mul]
    congr 1
    omega

theorem vpn_step (va i : ℕ) : vpn (va + i * pgSize) = (va / pgSize + i) % 2 ^ 27 := by
  rw [vpn, Nat.add_mul_div_right _ _ (Nat.two_pow_pos 12)]

theorem vpns_nodup (va0 pa0 n : ℕ) : (vpns (pagesFrom va0 pa0 n)).Nodup ↔ n ≤ 2 ^ 27 := by
  rw [vpns_pagesFrom, List.nodup_map_iff_inj_on List.nodup_range]
  simp only [List.mem_range, vpn_step]
  constructor
  · intro h
    by_contra hn
    have := h 0 (by omega) (2 ^ 27) (by omega) (by omega)
    omega
  · intro hn i hi j hj he
    omega

section
variable {σ : Type} {kalloc : ℕ → σ → Run (ℕ × σ)} {s t : Phys σ} {pg va pa size perm x : ℕ}

section
variable (hvs : va + size < 2 ^ 64) (hps : pa + size ≤ 2 ^ 64)
include hvs hps

theorem mem_pages : v ∈ pagesOf va pa size ↔ ∃ i, i * pgSize < size ∧
    v = (va + i * pgSize, pa + i * pgSize) := by
  by_cases hsize : size = 0
  · subst hsize
    rw [pagesOf, rounds_eq hvs, show pagesIn 0 = 0 by decide]
    simp [pagesFrom]
  rw [pagesOf, rounds_eq hvs, mem_pagesFrom (by omega)]
  refine exists_congr fun i => ?_
  rw [lt_pagesIn]
  refine and_congr_right fun hi => ?_
  rw [u64_of_lt (show pa + i * pgSize < 2 ^ 64 by omega)]

/-- `map` comes back from a range none of which is mapped, unless a page comes
twice or the step past the last page wraps. -/
theorem map_returns (h : Tables s.mem pg T) (hperm : KernelPerm perm) (hsize : 0 < size)
    (hno : ∀ x, va ≤ x → x < va + size → leafAt s.mem T (vpn x) = none)
    (hd : Draws (kalloc pgSize) s.heap l heap')
    (hl : l.length = missing T (vpns (pagesOf va pa size)))
    (hnew : NewTables s.mem T l) :
    (∃ t, map kalloc pg va pa size perm s = .ok t) ↔ va + pagesIn size * pgSize < 2 ^ 64 ∧
      size ≤ 2 ^ 39 := by
  have hpa : pa < 2 ^ 64 := by omega
  have hpages : pagesIn size ≤ 2 ^ 27 ↔ size ≤ 2 ^ 39 := by
    simp only [pagesIn, pgSize]
    omega
  have hnd : (vpns (pagesOf va pa size)).Nodup ↔ size ≤ 2 ^ 39 := by
    rw [pagesOf, rounds_eq hvs, vpns_nodup, hpages]
  constructor
  · rintro ⟨t, hm⟩
    have hva : va < 2 ^ 64 := by omega
    obtain ⟨hnd', -⟩ := map_success h hperm hva hpa hm (hl ▸ hnew.freshFor hd)
    obtain ⟨hend, -⟩ := map_inv hva hm
    rw [rounds_eq hvs] at hend
    exact ⟨hend, hnd.mp hnd'⟩
  · rintro ⟨hend, hle⟩
    obtain ⟨m', T', hm, -⟩ := mapPages_ok h hperm (fun v hv => pagesOf_lt hpa hv) (hnd.mpr hle)
      (fun v hv => by
        obtain ⟨i, hi, rfl⟩ := (mem_pages hvs hps).mp hv
        exact hno _ (Nat.le_add_right _ _) (Nat.add_lt_add_left hi va)) hd hl hnew
    exact ⟨_, (map_eq (by rwa [rounds_eq hvs])).trans hm⟩

end

-- ---------------------------------------------------------------------------
-- Translations
-- ---------------------------------------------------------------------------

theorem leafPte_ppn_mod (h : KernelPerm perm) (a : ℕ) :
    pte2ppn (leafPte a perm) = a / 2 ^ 12 % 2 ^ 40 := by
  have hf := leafFlags_lt h
  rw [leafPte_eq h, pte2ppn_eq]
  omega

theorem Tables.transPa_ok (h : Tables m pg T) : transPa m pg x = .ok y ↔
    ∃ p e, leafAt m T (vpn x) = some (p, e) ∧ pte2ppn e * 2 ^ 12 + x % pgSize = y := by
  have hoff : offset x = x % pgSize := by
    rw [offset, show pgSize - 1 = 2 ^ 12 - 1 by decide, Nat.and_two_pow_sub_one_eq_mod]
  have hw : ∀ p e, leafAt m T (vpn x) = some (p, e) ↔ trans m pg x = .ok p ∧ readPte m p = e := by
    intro p e
    rw [← h.walk_ok_iff]
    simp only [walk, bind_ok, pure_ok, Prod.mk.injEq]
    exact ⟨fun ⟨_, hp, he, hq⟩ => he ▸ ⟨hp, hq⟩, fun ⟨hp, he⟩ => ⟨p, hp, rfl, he⟩⟩
  simp only [hw, transPa, bind_ok, pure_ok, hoff, Nat.shiftLeft_eq]
  constructor
  · rintro ⟨p, hp, hy⟩
    exact ⟨p, _, ⟨hp, rfl⟩, hy⟩
  · rintro ⟨p, e, ⟨hp, rfl⟩, hy⟩
    exact ⟨p, hp, hy⟩

/-- After the call an address of the range translates as asked exactly if its
page was visited and the frame number fits the entry. -/
theorem RangeMapped.transPa_iff (h : RangeMapped pg m T m' T' perm (pagesOf va pa size) l)
    (hperm : KernelPerm perm)
    (hoff : va % pgSize = pa % pgSize) (hvs : va + size < 2 ^ 64) (hps : pa + size ≤ 2 ^ 64)
    (hno : ∀ x, va ≤ x → x < va + size → leafAt m T (vpn x) = none) (hk : k < size) :
    transPa m' pg (va + k) = .ok (pa + k) ↔ (va % pgSize + k) / pgSize * pgSize < size ∧
      pa + k < 2 ^ 52 := by
  have hpage : vpn (va + k) = (va / pgSize + (va % pgSize + k) / pgSize) % 2 ^ 27 := by
    simp only [vpn, pgSize]
    omega
  rw [h.ext.tables.transPa_ok]
  constructor
  · rintro ⟨p, e, hp, hy⟩
    by_cases hmem : vpn (va + k) ∈ vpns (pagesOf va pa size)
    · obtain ⟨v, hv, he⟩ := List.mem_map.mp hmem
      obtain ⟨p', hp'⟩ := h.here v hv
      obtain ⟨j, hj, rfl⟩ := (mem_pages hvs hps).mp hv
      rw [he, hp, Option.some.injEq, Prod.mk.injEq] at hp'
      rw [hp'.2, leafPte_ppn_mod hperm] at hy
      -- the page of the address is the one at step `j`, and not another with its number
      simp only [pgSize] at *
      omega
    · rw [h.other _ hmem, hno _ (Nat.le_add_right _ _) (Nat.add_lt_add_left hk va)] at hp
      cases hp
  · rintro ⟨hlt, h52⟩
    obtain ⟨p, hp⟩ := h.here _ ((mem_pages hvs hps).mpr ⟨_, hlt, rfl⟩)
    rw [vpn_step, ← hpage] at hp
    refine ⟨p, _, hp, ?_⟩
    rw [leafPte_ppn_mod hperm]
    simp only [pgSize] at *
    omega

/-- Every page of the range is visited exactly if the range ends before the
page after the last visit. -/
theorem visited_all (hsize : 0 < size) : (∀ k < size, (va % pgSize + k) / pgSize * pgSize < size) ↔
    va % pgSize + (size - 1) % pgSize < pgSize := by
  constructor
  · intro h
    have := h (size - 1) (by omega)
    simp only [pgSize] at *
    omega
  · intro h k hk
    simp only [pgSize] at *
    omega

theorem covers_iff (h : Tables s.mem pg T) (hperm : KernelPerm perm)
    (hoff : va % pgSize = pa % pgSize)
    (hsize : 0 < size) (hvs : va + size < 2 ^ 64) (hps : pa + size ≤ 2 ^ 64)
    (hno : ∀ x, va ≤ x → x < va + size → leafAt s.mem T (vpn x) = none)
    (hd : Draws (kalloc pgSize) s.heap l heap')
    (hl : l.length = missing T (vpns (pagesOf va pa size)))
    (hnew : NewTables s.mem T l) :
    Covers kalloc pg va pa size perm s ↔ va % pgSize + (size - 1) % pgSize < pgSize ∧
      size ≤ 2 ^ 39 ∧
      va + pagesIn size * pgSize < 2 ^ 64 ∧ pa + size ≤ 2 ^ 52 := by
  have hret := map_returns hvs hps h hperm hsize hno hd hl hnew
  have hlast : (∀ k < size, pa + k < 2 ^ 52) ↔ pa + size ≤ 2 ^ 52 :=
    ⟨fun h => by have := h (size - 1) (by omega); omega, fun h k hk => by omega⟩
  have key (t : Phys σ) (hm : map kalloc pg va pa size perm s = .ok t) :
      (∀ k < size, transPa t.mem pg (va + k) = .ok (pa + k)) ↔
        va % pgSize + (size - 1) % pgSize < pgSize ∧ pa + size ≤ 2 ^ 52 := by
    obtain ⟨-, -, r, T', -, -, hr⟩ :=
      map_success h hperm (by omega) (by omega) hm (hl ▸ hnew.freshFor hd)
    rw [← visited_all hsize, ← hlast, ← forall₂_and]
    exact forall₂_congr fun k hk => hr.transPa_iff hperm hoff hvs hps hno hk
  constructor
  · rintro ⟨t, hm, hall⟩
    obtain ⟨hend, hle⟩ := hret.mp ⟨t, hm⟩
    obtain ⟨h1, h2⟩ := (key t hm).mp hall
    exact ⟨h1, hle, hend, h2⟩
  · rintro ⟨h1, hle, hend, h2⟩
    obtain ⟨t, hm⟩ := hret.mpr ⟨hend, hle⟩
    exact ⟨t, hm, (key t hm).mpr ⟨h1, h2⟩⟩

theorem Tables.leafAt_none (h : Tables m pg T) (hno : ∀ r, walk m pg x ≠ .ok r) :
    leafAt m T (vpn x) = none := by
  cases hx : leafAt m T (vpn x) with
  | none => rfl
  | some r => exact absurd (h.walk_ok_iff.mpr hx) (hno r)

/-- On a range none of which is mapped, with zeroed pages for the tables. -/
theorem map_covers (hb : Built kalloc pg frames s) (hperm : KernelPerm perm)
    (hoff : va % pgSize = pa % pgSize)
    (hsize : 0 < size) (hvs : va + size < 2 ^ 64) (hps : pa + size ≤ 2 ^ 64)
    (hno : ∀ x, va ≤ x → x < va + size → ∀ r, walk s.mem pg x ≠ .ok r)
    (hd : Draws (kalloc pgSize) s.heap l heap') (hl : l.length = tablesMissing s.mem pg va pa size)
    (hf : FreshPages s.mem frames l) :
    Covers kalloc pg va pa size perm s ↔ va % pgSize + (size - 1) % pgSize < pgSize ∧
      size ≤ 2 ^ 39 ∧
      va + pagesIn size * pgSize < 2 ^ 64 ∧ pa + size ≤ 2 ^ 52 := by
  obtain ⟨T, hT, hfr⟩ := built_tables hb
  rw [hT.tablesMissing_eq] at hl
  exact covers_iff hT hperm hoff hsize hvs hps (fun x h1 h2 => hT.leafAt_none (hno x h1 h2)) hd hl
    (hf.newTables hfr)

end

theorem map_covers_first_page :
    ∃ h₀, Covers (kalloc sampleLayout) 0x80300000 0 0x5000 0x1000 0 ⟨fun _ => 0, h₀⟩ ↔
    0 % pgSize + (0x1000 - 1) % pgSize < pgSize ∧ 0x1000 ≤ 2 ^ 39 ∧ 0 + pagesIn 0x1000 * pgSize <
      2 ^ 64 ∧
      0x5000 + 0x1000 ≤ 2 ^ 52 := by
  obtain ⟨h₀, h₂, -, hb, hd, hn, hf, hw⟩ := first_page_call
  exact ⟨h₀, map_covers hb (.inl rfl : KernelPerm 0) (by decide) (by decide) (by decide) (by decide)
    (fun x _ _ r => by simp [hw]) hd hn.symm hf⟩

/-- A page that starts in the middle of one: its second half is not mapped. -/
theorem second_half_unmapped :
    ∃ h₀ h₂, Built (kalloc sampleLayout) 0x80300000 [0x80300000] ⟨fun _ => 0, h₀⟩ ∧
    Draws (kalloc sampleLayout pgSize) h₀ [0x80301000, 0x80302000] h₂ ∧
    tablesMissing (fun _ => 0) 0x80300000 0x800 0x5800 0x1000 = 2 ∧
    FreshPages (fun _ => 0) [0x80300000] [0x80301000, 0x80302000] ∧
    (∀ x, walk (fun _ => 0) 0x80300000 x = .error (.panic "access fault")) ∧
    ¬ Covers (kalloc sampleLayout) 0x80300000 0x800 0x5800 0x1000 0 ⟨fun _ => 0, h₀⟩ := by
  obtain ⟨h₀, h₂, -, hb, hd, -, hf, hw⟩ := first_page_call
  have hT : Tables (fun _ => 0) 0x80300000 _ := tables_blank (by decide) (blank_zero fun _ _ => rfl)
  have hn : tablesMissing (fun _ => 0) 0x80300000 0x800 0x5800 0x1000 = 2 := by
    rw [hT.tablesMissing_eq, show vpns (pagesOf 0x800 0x5800 0x1000) = [0] by decide,
      missing_single]
    simp [rootOnly]
  refine ⟨h₀, h₂, hb, hd, hn, hf, hw, fun hc => ?_⟩
  rw [hT.tablesMissing_eq] at hn
  have hcov := (covers_iff (s := ⟨fun _ => 0, h₀⟩) hT (.inl rfl : KernelPerm 0)
    (show 0x800 % pgSize = 0x5800 % pgSize by decide) (show 0 < 0x1000 by decide) (by decide)
      (by decide)
    (fun x _ _ => leafAt_rootOnly _ _ _) hd hn.symm (hf.newTables fun n a hna =>
      by simp [(rootOnly_some.mp hna).2])).mp hc
  exact absurd hcov.1 (by decide)

end SkyOS
