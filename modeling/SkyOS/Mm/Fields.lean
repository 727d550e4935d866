import SkyOS.Mm.TableLaws

/-!
# Fields of an entry

Sv39 has 44 bits for a page number, in fields of 9, 9 and 26 bits. `pte2ppn` takes 40 of
them, and `pte2ppn2` begins where `pte2ppn1` does.
-/

namespace SkyOS

structure FieldsRight (pte : ℕ) : Prop where
  low : pte2ppn0 pte = pte2ppn pte % 2 ^ 9
  mid : pte2ppn1 pte = pte2ppn pte / 2 ^ 9 % 2 ^ 9
  high : pte2ppn2 pte = pte2ppn pte / 2 ^ 18 % 2 ^ 26
  whole : pte2ppn pte = pte2ppn2 pte * 2 ^ 18 + pte2ppn1 pte * 2 ^ 9 + pte2ppn0 pte

/-- The bits 45 to 49 of the entry are also the bits 36 to 40 and 27 to 31, and four of them
are the bits 19 to 22. The other bits from 19 to 44 are zero. -/
def Repeats (pte : ℕ) : Prop :=
  let a := pte / 2 ^ 45 % 2 ^ 5
  pte / 2 ^ 19 % 2 ^ 31 = a * (2 ^ 26 + 2 ^ 17 + 2 ^ 8) + a / 2

theorem pte2ppn0_eq (e : ℕ) : pte2ppn0 e = pte2ppn e % 2 ^ 9 := by
  rw [pte2ppn0, show 0x1ff = 2 ^ 9 - 1 by decide, Nat.and_two_pow_sub_one_eq_mod]

theorem pte2ppn1_eq (e : ℕ) : pte2ppn1 e = pte2ppn e / 2 ^ 9 % 2 ^ 9 := by
  rw [pte2ppn1, show 0x1ff = 2 ^ 9 - 1 by decide, Nat.and_two_pow_sub_one_eq_mod,
    Nat.shiftRight_eq_div_pow]

theorem pte2ppn2_eq (e : ℕ) : pte2ppn2 e = pte2ppn e / 2 ^ 9 % 2 ^ 26 := by
  rw [pte2ppn2, show 0x3ffffff = 2 ^ 26 - 1 by decide, Nat.and_two_pow_sub_one_eq_mod,
    Nat.shiftRight_eq_div_pow]

theorem shift_twice_iff (hq : q < 2 ^ 31) :
    q % 2 ^ 26 = q / 2 ^ 9 % 2 ^ 26 ↔
      q = q / 2 ^ 26 * (2 ^ 26 + 2 ^ 17 + 2 ^ 8) + q / 2 ^ 26 / 2 := by
  obtain ⟨a, ha⟩ : ∃ a, q / 2 ^ 26 = a := ⟨_, rfl⟩
  obtain ⟨r, hr⟩ : ∃ r, q % 2 ^ 26 = r := ⟨_, rfl⟩
  have hdiv := Nat.div_add_mod q (2 ^ 26)
  rw [ha, hr] at *
  have ha : a < 32 := by omega
  have hshift : q / 2 ^ 9 % 2 ^ 26 = a * 2 ^ 17 + r / 2 ^ 9 := by omega
  rw [hshift]
  constructor
  · intro h
    have hu := Nat.div_add_mod r (2 ^ 9)
    have ht := Nat.mod_lt r (show 0 < 2 ^ 9 by decide)
    generalize r / 2 ^ 9 = u at *
    generalize r % 2 ^ 9 = t at *
    -- 511 divides 2 ^ 18 - 1, so that the five bits fix the nine below
    have hmain : 511 * u + t = 131072 * a := by omega
    have hfix : u = 256 * a + a / 2 := by
      clear hshift hdiv
      omega
    omega
  · intro h
    omega

theorem fieldsRight_iff (e : ℕ) : FieldsRight e ↔ Repeats e := by
  have hp := pte2ppn_eq e
  have h0 := pte2ppn0_eq e
  have h1 := pte2ppn1_eq e
  have h2 := pte2ppn2_eq e
  have hq : pte2ppn e / 2 ^ 9 = e / 2 ^ 19 % 2 ^ 31 := by omega
  have ha : e / 2 ^ 45 % 2 ^ 5 = e / 2 ^ 19 % 2 ^ 31 / 2 ^ 26 := by omega
  have hhigh : pte2ppn2 e = pte2ppn e / 2 ^ 18 % 2 ^ 26 ↔ Repeats e := by
    unfold Repeats
    rw [h2, ha, show pte2ppn e / 2 ^ 18 = pte2ppn e / 2 ^ 9 / 2 ^ 9 by omega, hq]
    exact shift_twice_iff (Nat.mod_lt _ (by decide))
  refine ⟨fun h => hhigh.mp h.high, fun h => ?_⟩
  have hhigh := hhigh.mpr h
  exact ⟨h0, h1, hhigh, by omega⟩

theorem pte2ppn_pte (ppn : ℕ) (hf : f < 2 ^ 10) : pte2ppn (((ppn <<< 12) >>> 12) <<< 10 ||| f) =
    ppn % 2 ^ 40 := by
  rw [pte_eq hf, pte2ppn_eq, Nat.shiftLeft_eq]
  omega

theorem flags_lt (hf : f < 2 ^ 10) (hp : perm < 2 ^ 10) : f ||| perm < 2 ^ 10 :=
  Nat.or_lt_two_pow hf hp

/-- Decoding undoes encoding up to 40 bits, and the fields of a page number are right just
if its bits repeat. -/
theorem pte_format_iff (hppn : ppn < 2 ^ 44) (hperm : perm < 2 ^ 10) (pte : ℕ) :
    (pte2ppn (leafPte (ppn <<< 12) perm) = ppn ↔ ppn < 2 ^ 40) ∧
    (pte2ppn (tablePte (ppn <<< 12) perm) = ppn ↔ ppn < 2 ^ 40) ∧
      (FieldsRight pte ↔ Repeats pte) := by
  have hleaf : pte2ppn (leafPte (ppn <<< 12) perm) = ppn % 2 ^ 40 :=
    pte2ppn_pte ppn (flags_lt (by decide) hperm)
  have htable : pte2ppn (tablePte (ppn <<< 12) perm) = ppn % 2 ^ 40 :=
    pte2ppn_pte ppn (flags_lt (by decide) hperm)
  rw [hleaf, htable]
  exact ⟨by omega, by omega, fieldsRight_iff pte⟩

theorem pte_format_kernel : (pte2ppn (leafPte (0x80200 <<< 12) pteU) = 0x80200 ↔ 0x80200 < 2 ^ 40) ∧
    (pte2ppn (tablePte (0x80200 <<< 12) pteU) = 0x80200 ↔ 0x80200 < 2 ^ 40) ∧
      (FieldsRight (leafPte 0x1ff000 0) ↔ Repeats (leafPte 0x1ff000 0)) :=
  pte_format_iff (by decide) (by decide) _

/-- A page number of 41 bits is cut off, and page 0x80200 has its second field twice. -/
theorem pte_format_loses : pte2ppn (leafPte (2 ^ 40 <<< 12) pteU) = 0 ∧
    pte2ppn2 (leafPte (0x80200 <<< 12) 0) = 0x401 ∧
    ¬ FieldsRight (leafPte (0x80200 <<< 12) 0) := by
  refine ⟨by decide, by decide, fun h => ?_⟩
  have hhigh := h.high
  revert hhigh
  decide

end SkyOS
