import Mathlib

/-!
# Registers in memory

A list of register names and offsets says where the registers are stored.
Storing along one list and loading along another gives back what was stored, as
far as the lists agree.
-/

namespace Spill

variable {ρ ν : Type}

/-- The words after each register of `l` is stored at its offset from `base`. -/
def store (reg : ρ → ν) (base : ℕ) (l : List (ρ × ℕ)) (w : ℕ → ν) : ℕ → ν :=
  l.foldl (fun w x => Function.update w (base + x.2) (reg x.1)) w

/-- The registers after each one of `l` is loaded from its offset. -/
def load [DecidableEq ρ] (w : ℕ → ν) (base : ℕ) (l : List (ρ × ℕ)) (reg : ρ → ν) : ρ → ν :=
  l.foldl (fun reg x => Function.update reg x.1 (w (base + x.2))) reg

theorem store_outside {reg : ρ → ν} {l : List (ρ × ℕ)} {w : ℕ → ν} (h : ∀ x ∈ l, a ≠ base + x.2) :
    store reg base l w a = w a := by
  induction l generalizing w with
  | nil => rfl
  | cons y l ih =>
    have h1 := ih (w := Function.update w (base + y.2) (reg y.1)) fun x hx =>
      h x (List.mem_cons_of_mem y hx)
    exact h1.trans (Function.update_of_ne (h y (by simp)) _ _)

theorem store_inside {reg : ρ → ν} {l : List (ρ × ℕ)} (w : ℕ → ν) (hl : (l.map Prod.snd).Nodup)
    (hx : x ∈ l) :
    store reg base l w (base + x.2) = reg x.1 := by
  induction l generalizing w with
  | nil => simp at hx
  | cons y l ih =>
    rw [List.map_cons, List.nodup_cons] at hl
    rcases List.mem_cons.mp hx with rfl | hx
    · have hout : ∀ z ∈ l, base + x.2 ≠ base + z.2 := fun z hz he =>
        hl.1 (List.mem_map.mpr ⟨z, hz, by omega⟩)
      exact (store_outside hout).trans (Function.update_self _ _ _)
    · exact ih _ hl.2 hx

theorem load_outside [DecidableEq ρ] {w : ℕ → ν} {l : List (ρ × ℕ)} {g : ρ → ν}
    (h : ∀ x ∈ l, r ≠ x.1) :
    load w base l g r = g r := by
  induction l generalizing g with
  | nil => rfl
  | cons y l ih =>
    have h1 := ih (g := Function.update g y.1 (w (base + y.2))) fun x hx =>
      h x (List.mem_cons_of_mem y hx)
    exact h1.trans (Function.update_of_ne (h y (by simp)) _ _)

theorem load_inside [DecidableEq ρ] {w : ℕ → ν} {l : List (ρ × ℕ)} (reg : ρ → ν)
    (hl : (l.map Prod.fst).Nodup) (hx : x ∈ l) :
    load w base l reg x.1 = w (base + x.2) := by
  induction l generalizing reg with
  | nil => simp at hx
  | cons y l ih =>
    rw [List.map_cons, List.nodup_cons] at hl
    rcases List.mem_cons.mp hx with rfl | hx
    · have hout : ∀ z ∈ l, x.1 ≠ z.1 := fun z hz he => hl.1 (List.mem_map.mpr ⟨z, hz, he.symm⟩)
      exact (load_outside hout).trans (Function.update_self _ _ _)
    · exact ih _ hl.2 hx

-- ---------------------------------------------------------------------------
-- Copying byte by byte
-- ---------------------------------------------------------------------------

def putByte (w r c : ℕ) : ℕ := w % 256 ^ r + 256 ^ r * (c / 256 ^ r % 256) + 256 ^ (r + 1) *
    (w / 256 ^ (r + 1))

theorem putByte_self (w r : ℕ) : putByte w r w = w := by
  rw [putByte, ← Nat.mod_pow_succ]
  exact Nat.mod_add_div w _

theorem putByte_mod (h : w % 256 ^ r = c % 256 ^ r) : putByte w r c % 256 ^ (r + 1) =
    c % 256 ^ (r + 1) := by
  rw [putByte, Nat.add_mul_mod_self_left, h, ← Nat.mod_pow_succ, Nat.mod_mod]

theorem putByte_lt (hw : w < 256 ^ n) (hr : r < n) : putByte w r c < 256 ^ n := by
  obtain ⟨d, rfl⟩ := Nat.exists_eq_add_of_le hr
  have hlow : w % 256 ^ r + 256 ^ r * (c / 256 ^ r % 256) < 256 ^ (r + 1) := by
    have h1 : w % 256 ^ r < 256 ^ r := Nat.mod_lt _ (by positivity)
    have h2 : c / 256 ^ r % 256 < 256 := Nat.mod_lt _ (by decide)
    calc w % 256 ^ r + 256 ^ r * (c / 256 ^ r % 256)
        < 256 ^ r + 256 ^ r * (c / 256 ^ r % 256) := by omega
      _ = 256 ^ r * (c / 256 ^ r % 256 + 1) := by ring
      _ ≤ 256 ^ r * 256 := Nat.mul_le_mul_left _ h2
      _ = 256 ^ (r + 1) := by ring
  have hhigh : w / 256 ^ (r + 1) < 256 ^ d := Nat.div_lt_of_lt_mul (by rwa [← pow_add])
  calc putByte w r c
      < 256 ^ (r + 1) + 256 ^ (r + 1) * (w / 256 ^ (r + 1)) := Nat.add_lt_add_right hlow _
    _ = 256 ^ (r + 1) * (w / 256 ^ (r + 1) + 1) := by ring
    _ ≤ 256 ^ (r + 1) * 256 ^ d := Nat.mul_le_mul_left _ hhigh
    _ = 256 ^ (r + 1 + d) := by rw [← pow_add]

end Spill
