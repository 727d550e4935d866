import Mathlib

/-!
# Kernel outcomes

Kernel functions take the state they read and return it updated. One that does
not come back stops instead: `panic` logs and spins, an access the page tables
forbid traps, a loop may not end, and an access past the object it is made
through has no meaning in C.
-/

namespace SkyOS

inductive Stop
  | panic (msg : String)
  | pageFault (addr : ℕ)
  | hang
  | wild
  deriving DecidableEq

abbrev Run := Except Stop

theorem bind_ok {x : Run α} {f : α → Run β} : x >>= f = .ok b ↔ ∃ a, x = .ok a ∧ f a = .ok b := by
  cases x <;> simp [bind, Except.bind]

@[simp] theorem pure_ok {a b : α} : (pure a : Run α) = .ok b ↔ a = b := by
  simp [pure, Except.pure]

@[simp] theorem throw_ok {e : Stop} {b : α} : (throw e : Run α) = .ok b ↔ False := by
  simp [throw, throwThe, MonadExceptOf.throw]

@[simp] theorem ok_bind {a : α} {f : α → Run β} : (Except.ok a : Run α) >>= f = f a := rfl

@[simp] theorem error_bind {e : Stop} {f : α → Run β} :
    (Except.error e : Run α) >>= f = .error e := rfl

-- ---------------------------------------------------------------------------
-- Machine integers
-- ---------------------------------------------------------------------------

def u32 (n : ℕ) : ℕ := n % 2 ^ 32

def u64 (n : ℕ) : ℕ := n % 2 ^ 64

def u32Dec (n : ℕ) : ℕ := if n = 0 then 2 ^ 32 - 1 else n - 1

def u64Dec (n : ℕ) : ℕ := if n = 0 then 2 ^ 64 - 1 else n - 1

def u32Sub (n d : ℕ) : ℕ := (n + 2 ^ 32 - d) % 2 ^ 32

def u64Sub (n d : ℕ) : ℕ := (n + 2 ^ 64 - d) % 2 ^ 64

/-- An `int` product as the `uint64` it is assigned to: the low 32 bits, sign
extended. -/
def u64OfInt (n : ℕ) : ℕ :=
  if n % 2 ^ 32 < 2 ^ 31 then n % 2 ^ 32 else 2 ^ 64 - (2 ^ 32 - n % 2 ^ 32)

theorem u32_of_lt (h : n < 2 ^ 32) : u32 n = n := Nat.mod_eq_of_lt h

theorem u64_of_lt (h : n < 2 ^ 64) : u64 n = n := Nat.mod_eq_of_lt h

theorem u32_lt (n : ℕ) : u32 n < 2 ^ 32 := Nat.mod_lt _ (by decide)

theorem u64_lt (n : ℕ) : u64 n < 2 ^ 64 := Nat.mod_lt _ (by decide)

@[simp] theorem u32Dec_succ (n : ℕ) : u32Dec (n + 1) = n := rfl

@[simp] theorem u64Dec_succ (n : ℕ) : u64Dec (n + 1) = n := rfl

theorem u64Sub_of_le (hd : d ≤ n) (h : n < 2 ^ 64) : u64Sub n d = n - d := by
  unfold u64Sub
  omega

theorem u64OfInt_of_lt (h : n < 2 ^ 31) : u64OfInt n = n := by
  unfold u64OfInt
  split <;> omega

-- ---------------------------------------------------------------------------
-- Loops over an index
-- ---------------------------------------------------------------------------

theorem takeWhile_range (P : ℕ → Bool) (n : ℕ) :
    ∃ k ≤ n, (List.range n).takeWhile P = List.range k ∧ (∀ i < k, P i = true) ∧
    (k < n → P k = false) := by
  induction n with
  | zero => exact ⟨0, le_rfl, rfl, fun i hi => absurd hi (Nat.not_lt_zero i),
      fun h => absurd h (Nat.not_lt_zero 0)⟩
  | succ n ih =>
    obtain ⟨k, hk, hrange, hall, hstop⟩ := ih
    rw [List.range_succ, List.takeWhile_append, hrange, List.length_range, List.length_range]
    split
    · rename_i heq
      subst heq
      cases hn : P k with
      | true =>
        refine ⟨k + 1, le_rfl, ?_, fun i hi => ?_, fun h => absurd h (lt_irrefl _)⟩
        · rw [List.takeWhile_cons_of_pos hn, List.takeWhile_nil, List.range_succ]
        · rcases Nat.lt_succ_iff_lt_or_eq.mp hi with hlt | rfl
          · exact hall i hlt
          · exact hn
      | false =>
        refine ⟨k, Nat.le_succ k, ?_, hall, fun _ => hn⟩
        rw [List.takeWhile_cons_of_neg (by simp [hn]), List.append_nil]
    · exact ⟨k, hk.trans (Nat.le_succ n), rfl, hall, fun _ => hstop (by omega)⟩

end SkyOS
