import SkyOS.Proc.KernelView

/-!
# What the hardware finds in the tables

The walk of the hardware through tables that `map` has written ends where
`trans` does. In every space it leads from an address of the kernel's range to
the same address, so the kernel reads physical memory there.
-/

namespace SkyOS

open ByteMem

-- ---------------------------------------------------------------------------
-- One walk
-- ---------------------------------------------------------------------------

theorem executable_low (e : ℕ) : executable e = executable (e % 2 ^ 10) := by
  simp only [executable, ← and_low (show 0b1000 < 2 ^ 10 by decide)]

theorem tablePte_flags (h : KernelPerm perm) : tablePte a perm % 2 ^ 10 = pteV ||| perm := by
  rw [tablePte_eq h, Nat.mul_add_mod']
  rcases h with rfl | rfl <;> decide

section
variable {m : Mem} {sum : Bool} {refused : ℕ → Bool} {a b pa perm va level : ℕ} {c : Csr}

theorem walkLevel_table
    (he : readPte m (a + 8 * px (level + 1) va) = tablePte b perm) (h : KernelPerm perm)
    (hb : pgSize ∣ b) (hlt : b < 2 ^ 52) :
    walkLevel m refused va (level + 1) a = walkLevel m refused va level b := by
  have hf := tableFlags_lt h
  have hflags := tablePte_flags (a := b) h
  have hv : valid (tablePte b perm) = true := by
    rw [valid_low, hflags]
    rcases h with rfl | rfl <;> decide
  have hr : readable (tablePte b perm) = false := by
    rw [readable_low, hflags]
    rcases h with rfl | rfl <;> decide
  have hw : writable (tablePte b perm) = false := by
    rw [writable_low, hflags]
    rcases h with rfl | rfl <;> decide
  have hx : executable (tablePte b perm) = false := by
    rw [executable_low, hflags]
    rcases h with rfl | rfl <;> decide
  have hppn : ((tablePte b perm >>> 10) % 2 ^ 44) <<< 12 = b := by
    obtain ⟨d, rfl⟩ := hb
    rw [tablePte_eq h, Nat.shiftRight_eq_div_pow, Nat.shiftLeft_eq]
    simp only [pgSize] at *
    omega
  conv_lhs => rw [walkLevel]
  simp only [he, hv, hr, hw, hx, hppn]
  rfl

theorem walkLevel_stop (he : valid (readPte m (a + 8 * px level va)) = false) :
    walkLevel m refused va level a = .error (.pageFault va) := by
  unfold walkLevel
  simp only [he]
  rfl

theorem walkLevel_leaf (he : readPte m (a + 8 * px 0 va) = leafPte pa perm) (h : KernelPerm perm) :
    walkLevel m refused va 0 a = if refused (leafPte pa perm) then .error (.pageFault va) else
      .ok (pa / 2 ^ 12 % 2 ^ 44 * 2 ^ 12 + va % 2 ^ 12) := by
  have hf := leafFlags_lt h
  have hv : valid (leafPte pa perm) = true := leafPte_valid h
  have hr : readable (leafPte pa perm) = true := leafPte_readable h
  have hppn : (leafPte pa perm >>> 10) % 2 ^ 44 = pa / 2 ^ 12 % 2 ^ 44 := by
    rw [leafPte_eq h, Nat.shiftRight_eq_div_pow]
    omega
  rw [walkLevel]
  simp only [he, hv, hr, hppn, Nat.shiftLeft_eq]
  cases refused (leafPte pa perm) <;>
    simp [Nat.mod_one, pure, Except.pure, throw, throwThe, MonadExceptOf.throw]

/-- The test on `U` sees the flags alone. -/
theorem leafPte_user (h : KernelPerm perm) :
    (leafPte pa perm &&& pteU == 0) = decide (perm = 0) := by
  rw [pteU, and_low (by decide), show leafPte pa perm % 2 ^ 10 = _ from leafPte_flags h]
  rcases h with rfl | rfl <;> rfl

theorem satpRoot_satpOf (ha : pgSize ∣ a) (hlt : a < 2 ^ 56) : satpRoot (satpOf a) = a := by
  obtain ⟨d, rfl⟩ := ha
  rw [satpRoot, satpOf, Nat.shiftRight_eq_div_pow, Nat.shiftLeft_eq, Nat.shiftLeft_eq]
  simp only [pgSize] at *
  omega

theorem canonical_low (h : va < 2 ^ 38) : canonical va = true := by
  rw [canonical, Nat.div_eq_of_lt h]
  rfl

variable {pg : ℕ} {T : Shape}

/-- The tables above a leaf lead to it. -/
theorem Tables.walkLevel_low (h : Tables m pg T) (hp : Proper m T)
    (hb : T (.low (ix2 (vpn va)) (ix1 (vpn va))) = some b) :
    walkLevel m refused va 2 pg = walkLevel m refused va 0 b := by
  obtain ⟨a, ha⟩ := h.under _ _ _ hb
  obtain ⟨halt, q, hq, he1⟩ := hp .root _ _ _ _ rfl (ix2_lt (vpn_lt va)) h.root ha
  obtain ⟨hblt, r, hr, he2⟩ := hp _ _ _ _ _ rfl (ix1_lt (vpn va)) ha hb
  rw [walkLevel_table (by rw [px_two]; exact he1) hq (h.page _ _ ha) halt,
    walkLevel_table (by rw [px_one]; exact he2) hr (h.page _ _ hb) hblt]

theorem Tables.walkLevel (h : Tables m pg T) (hp : Proper m T)
    (hl : leafAt m T (vpn va) = some (p, leafPte pa perm)) (hperm : KernelPerm perm) :
    SkyOS.walkLevel m refused va 2 pg = if refused (leafPte pa perm) then .error (.pageFault va)
      else .ok (pa / 2 ^ 12 % 2 ^ 44 * 2 ^ 12 + va % 2 ^ 12) := by
  cases hb : T (.low (ix2 (vpn va)) (ix1 (vpn va))) with
  | none => simp [leafAt, hb] at hl
  | some b =>
    rw [h.walkLevel_low hp hb]
    refine walkLevel_leaf ?_ hperm
    simp only [leafAt, hb] at hl
    split at hl
    · simp only [Option.some.injEq, Prod.mk.injEq] at hl
      rw [px_zero]
      exact hl.2
    · cases hl

/-- Without a leaf the walk ends at an entry that is not in use. -/
theorem Tables.walkLevel_none (h : Tables m pg T) (hp : Proper m T)
    (hl : leafAt m T (vpn va) = none) :
    SkyOS.walkLevel m refused va 2 pg = .error (.pageFault va) := by
  have hi := ix2_lt (vpn_lt va)
  cases hb : T (.low (ix2 (vpn va)) (ix1 (vpn va))) with
  | some b =>
    have hv : valid (entry m b (ix0 (vpn va))) = false := by
      simpa [leafAt, hb] using hl
    rw [h.walkLevel_low hp hb]
    exact walkLevel_stop (by rw [px_zero]; exact hv)
  | none =>
    cases ha : T (.mid (ix2 (vpn va))) with
    | none =>
      have hslot := h.mid _ hi
      rw [ha] at hslot
      exact walkLevel_stop (by rw [px_two]; exact hslot)
    | some a =>
      have hslot := h.low _ hi a ha _ (ix1_lt (vpn va))
      rw [hb] at hslot
      obtain ⟨halt, q, hq, he1⟩ := hp .root _ _ _ _ rfl hi h.root ha
      rw [walkLevel_table (by rw [px_two]; exact he1) hq (h.page _ _ ha) halt]
      exact walkLevel_stop (by rw [px_one]; exact hslot)

theorem Tables.loadLevel (h : Tables m pg T) (hp : Proper m T)
    (hl : leafAt m T (vpn va) = some (p, leafPte pa perm))
    (hperm : KernelPerm perm) (hpa : pa < 2 ^ 52) (hs : perm = 0 ∨ sum = true) :
    SkyOS.loadLevel m sum va 2 pg = .ok (pa / 2 ^ 12 * 2 ^ 12 + va % 2 ^ 12) := by
  have hread : (leafPte pa perm &&& pteU != 0 && !sum) = false := by
    rw [bne, leafPte_user hperm]
    rcases hs with rfl | rfl <;> simp
  rw [SkyOS.loadLevel, h.walkLevel hp hl hperm, if_neg (by simp [hread]),
    Nat.mod_eq_of_lt (Nat.div_lt_of_lt_mul (by omega))]

end

-- ---------------------------------------------------------------------------
-- The kernel's addresses
-- ---------------------------------------------------------------------------

section
variable {L : Layout} {b : Buddy} {k : Kernel} {T : Option ℕ → Shape} {P D : Set ℕ} {c : Csr}

theorem Owned.lt {s : Buddy} (h : Owned L s P) (hx : x ∈ P) : x < L.pmmEnd := by
  obtain ⟨live, ls, B, hp, rfl⟩ := h
  obtain ⟨c, hc, -, -, hlt⟩ := hx
  have hrep : Rep s ls B := hp.rep
  exact hlt.trans_le ((pgAddr_add L _ _).le.trans (pgAddr_end L (hrep.end_le hc)))

def Kernel.RunsOn (k : Kernel) (r : Option ℕ) : Prop := k.HasSpace r ∧
    k.csr.satp = satpOf (k.root r)

theorem Spaces.root_lt (h : Spaces L k T P D) (hr : k.HasSpace r) : k.root r < 2 ^ 32 :=
  (h.owned.lt (h.mem_held hr .root _ (h.tables r hr).root)).trans L.pmmEnd_lt

theorem pageOf_add (hx : kernelStart ≤ x) :
    (kernelStart + (x - kernelStart) / pgSize * pgSize) / 2 ^ 12 * 2 ^ 12 + x % 2 ^ 12 = x := by
  unfold kernelStart at hx
  unfold kernelStart pgSize
  omega

theorem Spaces.loads_kernel (h : Spaces L k T P D) (hs : SeesKernel L k.phys.mem (T none))
    (hr : k.RunsOn r)
    (hc : c.satp = k.csr.satp) (hx : kernelStart ≤ x) (hlt : x < L.kernelEnd + memSize) :
    loadAddr k.phys.mem c x = .ok x := by
  obtain ⟨hr, hsatp⟩ := hr
  have hend := kernelRange_end L
  have hmax := kernelRange_lt L
  have hT := h.tables r hr
  have hpage : pgSize ∣ kernelStart := by decide
  obtain ⟨hvpn, hi⟩ := vpn_range (x := x) hpage (hmax.le.trans (by decide)) hx (by
    simp only [rangeEnd, pgSize]
    omega)
  have hv := (mem_kernelRange L).mpr ⟨_, hi, rfl⟩
  obtain ⟨a, ha⟩ := hs _ hv
  have hleaf : leafAt k.phys.mem (T r) (vpn x) =
      some (a, leafPte (kernelStart + (x - kernelStart) / pgSize * pgSize) 0) := by
    rw [hvpn, h.leafAt_kernel hr (show k.HasSpace none from trivial) (kernelRange_slot L hv)]
    exact ha
  have hroot := h.root_lt hr
  rw [loadAddr, canonical_low (by omega), if_pos rfl, hc, hsatp,
      satpRoot_satpOf hT.pg_page (by omega),
    hT.loadLevel (h.proper r hr) hleaf (.inl rfl) (by omega) (.inl rfl)]
  exact congrArg Except.ok (pageOf_add hx)

/-- The hardware loads the kernel's addresses one to one, on any table that a
sequence of calls has made. -/
theorem SpaceReach.loads_kernel (hr : SpaceReach L b k D) (hs : k.RunsOn r)
    (hc : c.satp = k.csr.satp)
    (hx : kernelStart ≤ x) (hlt : x < L.kernelEnd + memSize) : loadAddr k.phys.mem c x = .ok x := by
  obtain ⟨T, P, h, hsee⟩ := spaceReach_kernel hr
  exact h.loads_kernel hsee hs hc hx hlt

-- ---------------------------------------------------------------------------
-- memcpy
-- ---------------------------------------------------------------------------

theorem copyIn_direct {m : Mem} {f : ℕ → ℕ}
    (hload : ∀ m' i, (∀ x, ¬ (dst ≤ x ∧ x < dst + n) → m' x = m x) → i < n →
      loadAddr m' c (u64 (src + i)) = .ok (f i))
    (hap : ∀ i < n, ¬ (dst ≤ f i ∧ f i < dst + n)) : ∃ m', copyIn c dst src n m = .ok m' ∧
      (∀ i < n, m' (dst + i) = m (f i)) ∧ ∀ x, ¬ (dst ≤ x ∧ x < dst + n) → m' x = m x := by
  suffices h : ∀ j ≤ n, ∃ m', copyIn c dst src j m = .ok m' ∧ (∀ i < j, m' (dst + i) = m (f i)) ∧
      ∀ x, ¬ (dst ≤ x ∧ x < dst + j) → m' x = m x from h n le_rfl
  intro j hj
  induction j with
  | zero => exact ⟨m, rfl, by simp, fun _ _ => rfl⟩
  | succ j ih =>
    obtain ⟨m', h1, h2, h3⟩ := ih (by omega)
    have hl := hload m' j (fun x hx => h3 x (by omega)) (by omega)
    refine ⟨_, by rw [copyIn, h1, ok_bind, hl, ok_bind]; rfl, fun i hi => ?_, fun x hx => ?_⟩
    · by_cases hij : i = j
      · subst hij
        rw [Function.update_self]
        exact h3 _ fun hin => hap i (by omega) ⟨hin.1, by omega⟩
      · rw [Function.update_of_ne (by omega)]
        exact h2 i (by omega)
    · rw [Function.update_of_ne (by omega)]
      exact h3 x (by omega)

end

end SkyOS
