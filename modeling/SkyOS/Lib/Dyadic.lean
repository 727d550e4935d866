import SkyOS.Lib.Tiling

/-!
# Tilings by aligned powers of two

Every block is `2 ^ ord` long and starts at a multiple of its length. Then each
block below the largest order has a sibling position, the other half of the
block of twice its length, and something always starts there. A tiling in which
no two siblings could be joined consists of largest blocks only.
-/

namespace Tiling

variable {β : Type} {lo ord : β → ℕ} {n : ℕ} {B : Set β}

/-- The other half of the aligned interval that `[i, i + 2 ^ j)` is a half of. -/
def sibling (j i : ℕ) : ℕ := if i / 2 ^ j % 2 = 0 then i + 2 ^ j else i - 2 ^ j

/-- An interval made of cells of size `g` holds the whole cell of each point. -/
theorem cell_inside {g a l x : ℕ} (hlo : g ∣ a) (hlen : g ∣ l) (h1 : a ≤ x) (h2 : x < a + l) :
    a ≤ x / g * g ∧ x / g * g + g ≤ a + l := by
  obtain ⟨p, rfl⟩ := hlo
  obtain ⟨q, rfl⟩ := hlen
  have hg : 0 < g := by
    rcases Nat.eq_zero_or_pos g with rfl | hg
    · simp at h2
    · exact hg
  rw [← Nat.mul_add] at h2
  have hp : p ≤ x / g := (Nat.le_div_iff_mul_le hg).mpr (by rwa [Nat.mul_comm])
  have hq : x / g < p + q := (Nat.div_lt_iff_lt_mul hg).mpr (by rwa [Nat.mul_comm])
  constructor
  · calc g * p ≤ g * (x / g) := Nat.mul_le_mul_left g hp
      _ = x / g * g := Nat.mul_comm ..
  · calc x / g * g + g = g * (x / g + 1) := by ring
      _ ≤ g * (p + q) := Nat.mul_le_mul_left g hq
      _ = g * p + g * q := Nat.mul_add ..

/-- An aligned position and its sibling share a cell of twice the size. -/
theorem sibling_cell (h : 2 ^ j ∣ i) :
    i / 2 ^ (j + 1) * 2 ^ (j + 1) ≤ i ∧ i + 2 ^ j ≤ i / 2 ^ (j + 1) * 2 ^ (j + 1) + 2 ^ (j + 1) ∧
      sibling j i / 2 ^ (j + 1) = i / 2 ^ (j + 1) ∧ 2 ^ j ∣ sibling j i ∧
      sibling j (sibling j i) = i := by
  obtain ⟨a, rfl⟩ := h
  have hpos := Nat.two_pow_pos j
  have hcell : ∀ c, 2 ^ j * c / 2 ^ (j + 1) = c / 2 := fun c => by
    rw [Nat.pow_succ, Nat.mul_div_mul_left _ _ hpos]
  have hdiv : ∀ c, 2 ^ j * c / 2 ^ j = c := fun c => Nat.mul_div_cancel_left c hpos
  have hsib : sibling j (2 ^ j * a) = 2 ^ j * if a % 2 = 0 then a + 1 else a - 1 := by
    simp only [sibling, hdiv]
    split
    · ring
    · rw [Nat.mul_sub, Nat.mul_one]
  refine ⟨?_, ?_, ?_, ?_, ?_⟩
  · rw [hcell, Nat.pow_succ]
    calc a / 2 * (2 ^ j * 2) = 2 ^ j * (a / 2 * 2) := by ring
      _ ≤ 2 ^ j * a := Nat.mul_le_mul_left _ (by omega)
  · rw [hcell, Nat.pow_succ]
    calc 2 ^ j * a + 2 ^ j = 2 ^ j * (a + 1) := by ring
      _ ≤ 2 ^ j * (a / 2 * 2 + 2) := Nat.mul_le_mul_left _ (by omega)
      _ = a / 2 * (2 ^ j * 2) + 2 ^ j * 2 := by ring
  · rw [hsib, hcell, hcell]
    split <;> omega
  · rw [hsib]
    exact Nat.dvd_mul_right ..
  · rw [hsib]
    simp only [sibling, hdiv]
    split
    · rw [if_neg (by omega)]
      rw [Nat.mul_add, Nat.mul_one, Nat.add_sub_cancel]
    · rw [if_pos (by omega), ← Nat.mul_succ]
      congr 1
      omega

section
variable (h : Tiles lo (fun b => 2 ^ ord b) n B) (ha : ∀ b ∈ B, 2 ^ ord b ∣ lo b)
include h ha

theorem Tiles.sibling_start (hb : b ∈ B) (hn : 2 ^ (ord b + 1) ∣ n) :
    ∃ c ∈ B, lo c = sibling (ord b) (lo b) ∧ ord c ≤ ord b := by
  have hpos := Nat.two_pow_pos (ord b)
  have hin : lo b + 2 ^ ord b ≤ n := h.inside b hb
  obtain ⟨h1, h2, h3, h4, -⟩ := sibling_cell (ha b hb)
  have hcell := cell_inside (a := 0) (Nat.dvd_zero _) hn (Nat.zero_le _) (x := lo b) (by omega)
  set q := sibling (ord b) (lo b) with hq
  have hqle : q < n := by
    have hq1 : q < q / 2 ^ (ord b + 1) * 2 ^ (ord b + 1) + 2 ^ (ord b + 1) :=
      Nat.lt_div_mul_add (Nat.two_pow_pos _)
    rw [h3] at hq1
    omega
  obtain ⟨c, hc, h5, h6⟩ := h.cover q hqle
  refine ⟨c, hc, ?_⟩
  by_cases hord : ord c ≤ ord b
  · have hdvd : 2 ^ ord c ∣ q := (Nat.pow_dvd_pow 2 hord).trans h4
    have := cell_inside (ha c hc) (dvd_refl (2 ^ ord c)) h5 h6
    rw [Nat.div_mul_cancel hdvd] at this
    exact ⟨by omega, hord⟩
  · -- a larger block at the sibling would cover `b` as well
    have hdvd : 2 ^ (ord b + 1) ∣ 2 ^ ord c := Nat.pow_dvd_pow 2 (by omega)
    have := cell_inside (hdvd.trans (ha c hc)) hdvd h5 h6
    rw [h3] at this
    have hcb := h.unique c hc b hb (lo b) (by omega) (by omega) le_rfl (by omega)
    subst hcb
    omega

/-- A tiling without two siblings of one order below `m` has no blocks below `m`. -/
theorem Tiles.eq_of_no_siblings (hm : ∀ b ∈ B, ord b ≤ m) (hn : 2 ^ m ∣ n)
    (hsib : ∀ b ∈ B, ∀ c ∈ B, ord b < m → ord c = ord b → lo c ≠ sibling (ord b) (lo b)) :
    ∀ b ∈ B, ord b = m := by
  -- by induction on the order: the sibling position of a smallest block holds a block of its order
  have key : ∀ k < m, ∀ b ∈ B, ord b ≠ k := by
    intro k
    induction k using Nat.strong_induction_on with
    | _ k ih =>
      rintro hk b hb rfl
      obtain ⟨c, hc, h1, h2⟩ := h.sibling_start ha hb ((Nat.pow_dvd_pow 2 hk).trans hn)
      rcases Nat.eq_or_lt_of_le h2 with h2 | h2
      · exact hsib b hb c hc hk h2 h1
      · exact ih (ord c) h2 (by omega) c hc rfl
  intro b hb
  by_contra hne
  exact key (ord b) (by have := hm b hb; omega) b hb rfl

end

end Tiling
