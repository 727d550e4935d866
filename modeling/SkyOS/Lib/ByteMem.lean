import Mathlib

/-!
# Byte memory

A memory gives every address a byte. Numbers of `n` bytes are stored little
endian. `copy` moves bytes one at a time, lowest address first.
-/

namespace ByteMem

abbrev Mem := ℕ → UInt8

def readLE (m : Mem) (a : ℕ) : ℕ → ℕ
  | 0 => 0
  | n + 1 => (m a).toNat + 256 * readLE m (a + 1) n

def writeLE (m : Mem) (a n v : ℕ) : Mem := fun x =>
  if a ≤ x ∧ x < a + n then UInt8.ofNat (v / 256 ^ (x - a)) else m x

def copy (m : Mem) (dst src n : ℕ) : Mem :=
  (List.range n).foldl (fun m i => Function.update m (dst + i) (m (src + i))) m

def fill (m : Mem) (a : ℕ) (b : UInt8) (n : ℕ) : Mem := fun x =>
  if a ≤ x ∧ x < a + n then b else m x

-- ---------------------------------------------------------------------------
-- Numbers
-- ---------------------------------------------------------------------------

theorem readLE_lt (m : Mem) (a n : ℕ) : readLE m a n < 256 ^ n := by
  induction n generalizing a with
  | zero => simp [readLE]
  | succ n ih =>
    have h1 := ih (a + 1)
    have h2 := (m a).toNat_lt
    rw [readLE, Nat.pow_succ]
    omega

theorem readLE_congr (h : ∀ i < n, m' (b + i) = m (a + i)) : readLE m' b n = readLE m a n := by
  induction n generalizing a b with
  | zero => rfl
  | succ n ih =>
    have h0 : m' b = m a := h 0 (by omega)
    have h1 := ih (a := a + 1) (b := b + 1) fun i hi => by
      have := h (i + 1) (by omega)
      rwa [show a + (i + 1) = a + 1 + i by omega, show b + (i + 1) = b + 1 + i by omega] at this
    rw [readLE, readLE, h0, h1]

theorem readLE_zero (h : ∀ i < n, m (a + i) = 0) : readLE m a n = 0 := by
  induction n generalizing a with
  | zero => rfl
  | succ n ih =>
    have h0 : m a = 0 := h 0 (by omega)
    have h1 := ih (a := a + 1) fun i hi => by
      have := h (i + 1) (by omega)
      rwa [show a + (i + 1) = a + 1 + i by omega] at this
    simp [readLE, h0, h1]

theorem writeLE_apply_of_not_mem (h : ¬ (a ≤ x ∧ x < a + n)) : writeLE m a n v x = m x := if_neg h

theorem readLE_digits (hv : v < 256 ^ n) (h : ∀ i < n, m (a + i) = UInt8.ofNat (v / 256 ^ i)) :
    readLE m a n = v := by
  induction n generalizing a v with
  | zero =>
    simp at hv
    simp [readLE, hv]
  | succ n ih =>
    have h0 : m a = UInt8.ofNat v := by simpa using h 0 (by omega)
    have h1 : readLE m (a + 1) n = v / 256 := by
      refine ih ?_ fun i hi => ?_
      · rw [Nat.pow_succ] at hv
        omega
      · have := h (i + 1) (by omega)
        rwa [show a + (i + 1) = a + 1 + i by omega, Nat.pow_succ, Nat.mul_comm,
          ← Nat.div_div_eq_div_mul] at this
    rw [readLE, h0, h1, UInt8.toNat_ofNat']
    omega

theorem readLE_writeLE (m : Mem) (a : ℕ) (h : v < 256 ^ n) : readLE (writeLE m a n v) a n = v :=
  readLE_digits h fun i hi => by simp [writeLE, hi]

theorem readLE_writeLE_apart (m : Mem) (v : ℕ) (h : a + n ≤ b ∨ b + k ≤ a) :
    readLE (writeLE m b k v) a n = readLE m a n :=
  readLE_congr fun i hi => writeLE_apply_of_not_mem (by omega)

-- ---------------------------------------------------------------------------
-- Bits
-- ---------------------------------------------------------------------------

theorem testBit_readLE (m : Mem) (a n j : ℕ) :
    (readLE m a n).testBit j = (decide (j < 8 * n) && (m (a + j / 8)).toNat.testBit (j % 8)) := by
  induction n generalizing a j with
  | zero => simp [readLE]
  | succ n ih =>
    have hlt : (m a).toNat < 2 ^ 8 := (m a).toNat_lt
    rw [readLE, Nat.add_comm, show 256 = 2 ^ 8 from rfl, Nat.testBit_two_pow_mul_add _ hlt]
    split
    · rename_i hj
      rw [decide_eq_true (by omega), Nat.div_eq_of_lt hj, Nat.mod_eq_of_lt hj]
      rfl
    · rename_i hj
      rw [ih, show a + 1 + (j - 8) / 8 = a + j / 8 by omega, show (j - 8) % 8 = j % 8 by omega]
      congr 1
      exact decide_eq_decide.mpr (by omega)

theorem testBit_digit (v i : ℕ) (h : j < 8) :
    (UInt8.ofNat (v / 256 ^ i)).toNat.testBit j = v.testBit (8 * i + j) := by
  rw [UInt8.toNat_ofNat', show 256 = 2 ^ 8 from rfl, ← Nat.pow_mul, Nat.testBit_mod_two_pow,
      Nat.testBit_div_two_pow,
    decide_eq_true h, Bool.true_and, Nat.add_comm]

def bit (m : Mem) (k : ℕ) : Bool := (m (k / 8)).toNat.testBit (k % 8)

theorem testBit_readLE_bit (m : Mem) (a n j : ℕ) :
    (readLE m a n).testBit j = (decide (j < 8 * n) && bit m (8 * a + j)) := by
  rw [testBit_readLE, bit, show (8 * a + j) / 8 = a + j / 8 by omega,
    show (8 * a + j) % 8 = j % 8 by omega]

theorem bit_writeLE (m : Mem) (a n v k : ℕ) :
    bit (writeLE m a n v) k = if 8 * a ≤ k ∧ k < 8 * a + 8 * n then v.testBit (k - 8 * a) else
      bit m k := by
  unfold bit writeLE
  by_cases h : a ≤ k / 8 ∧ k / 8 < a + n
  · rw [if_pos h, if_pos (by omega), testBit_digit _ _ (Nat.mod_lt _ (by decide))]
    congr 1
    omega
  · rw [if_neg h, if_neg (by omega)]

-- ---------------------------------------------------------------------------
-- Copies
-- ---------------------------------------------------------------------------

theorem copy_succ (m : Mem) (dst src n : ℕ) :
    copy m dst src (n + 1) =
      Function.update (copy m dst src n) (dst + n) (copy m dst src n (src + n)) := by
  simp [copy, List.range_succ]

theorem copy_outside (h : x < dst ∨ dst + n ≤ x) : copy m dst src n x = m x := by
  induction n with
  | zero => rfl
  | succ n ih =>
    rw [copy_succ, Function.update_of_ne (by omega), ih (by omega)]

theorem copy_inside (h : src + n ≤ dst ∨ dst + n ≤ src) (hi : i < n) :
    copy m dst src n (dst + i) = m (src + i) := by
  induction n with
  | zero => omega
  | succ n ih =>
    rw [copy_succ]
    rcases Nat.lt_succ_iff_lt_or_eq.mp hi with hlt | rfl
    · rw [Function.update_of_ne (by omega), ih (by omega) hlt]
    · rw [Function.update_self, copy_outside (by omega)]

theorem fill_outside (h : x < a ∨ a + n ≤ x) : fill m a b n x = m x := if_neg (by omega)

end ByteMem
