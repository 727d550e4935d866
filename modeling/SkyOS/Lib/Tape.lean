import Mathlib

/-!
# Sequences with a cursor

What a file is for the one who reads and writes it: cells in a row and a cursor, which
reading and writing move on. A write past the end makes the row longer.
-/

structure Tape (α : Type) where
  cells : List α
  pos : ℕ
  le : pos ≤ cells.length

namespace Tape

variable {α : Type}

def ahead (t : Tape α) (n : ℕ) : List α := (t.cells.drop t.pos).take n

def laid (t : Tape α) (l : List α) : List α :=
  t.cells.take t.pos ++ l ++ t.cells.drop (t.pos + l.length)

theorem length_laid (t : Tape α) (l : List α) :
    (t.laid l).length = max t.cells.length (t.pos + l.length) := by
  have := t.le
  simp only [laid, List.length_append, List.length_take, List.length_drop]
  omega

def write (t : Tape α) (l : List α) : Tape α where
  cells := t.laid l
  pos := t.pos + l.length
  le := by
    rw [t.length_laid]
    exact Nat.le_max_right _ _

def seek (t : Tape α) (p : ℕ) : Tape α := ⟨t.cells, min p t.cells.length, Nat.min_le_right _ _⟩

def pass (t : Tape α) (n : ℕ) : Tape α := t.seek (t.pos + n)

variable {t : Tape α} {l : List α} {f f' : ℕ → α} {n q : ℕ}

-- ---------------------------------------------------------------------------
-- Cells
-- ---------------------------------------------------------------------------

theorem laid_before (t : Tape α) (l : List α) (hq : q < t.pos) : (t.laid l)[q]? = t.cells[q]? := by
  have := t.le
  rw [laid, List.append_assoc, List.getElem?_append_left (by rw [List.length_take]; omega),
    List.getElem?_take, if_pos hq]

theorem laid_at (t : Tape α) (l : List α) (i : ℕ) (hi : i < l.length) :
    (t.laid l)[t.pos + i]? = l[i]? := by
  have htake : (t.cells.take t.pos).length = t.pos := List.length_take_of_le t.le
  rw [laid, List.append_assoc, List.getElem?_append_right (by omega), htake,
      Nat.add_sub_cancel_left,
    List.getElem?_append_left hi]

theorem laid_behind (t : Tape α) (l : List α) (hq : t.pos + l.length ≤ q) :
    (t.laid l)[q]? = t.cells[q]? := by
  have htake : (t.cells.take t.pos).length = t.pos := List.length_take_of_le t.le
  rw [laid, List.getElem?_append_right (by rw [List.length_append]; omega), List.length_append,
      htake, List.getElem?_drop,
    Nat.add_sub_cancel' hq]

theorem laid_eq_map (ht : t.cells = (List.range n).map f)
    (hold : ∀ q < n, q < t.pos ∨ t.pos + l.length ≤ q → f' q = f q)
    (hnew : ∀ i (hi : i < l.length), f' (t.pos + i) = l[i]) :
    t.laid l = (List.range (max n (t.pos + l.length))).map f' := by
  have hlen : t.cells.length = n := by rw [ht, List.length_map, List.length_range]
  have hcell (q : ℕ) (hq : q < n) : t.cells[q]? = some (f q) := by
    rw [ht, List.getElem?_map, List.getElem?_range hq]
    rfl
  refine List.ext_getElem? fun q => ?_
  by_cases hq : q < max n (t.pos + l.length)
  · rw [List.getElem?_map, List.getElem?_range hq, Option.map_some]
    rcases Nat.lt_or_ge q t.pos with hlt | hge
    · have hqn : q < n := hlt.trans_le (hlen ▸ t.le)
      rw [t.laid_before l hlt, hcell q hqn, hold q hqn (.inl hlt)]
    rcases Nat.lt_or_ge q (t.pos + l.length) with hlt | hge'
    · obtain ⟨i, rfl⟩ := Nat.exists_eq_add_of_le hge
      have hi : i < l.length := by omega
      rw [t.laid_at l i hi, hnew i hi, List.getElem?_eq_getElem hi]
    · have hqn : q < n := by omega
      rw [t.laid_behind l hge', hcell q hqn, hold q hqn (.inr hge')]
  · rw [List.getElem?_eq_none (by rw [t.length_laid, hlen]; omega), List.getElem?_eq_none]
    rw [List.length_map, List.length_range]
    omega

theorem ahead_eq_map (ht : t.cells = (List.range n).map f) (k : ℕ) :
    t.ahead k = (List.range (min k (n - t.pos))).map fun i => f (t.pos + i) := by
  refine List.ext_getElem? fun i => ?_
  rw [ahead, ht, List.getElem?_take, List.getElem?_drop, List.getElem?_map, List.getElem?_map]
  by_cases hi : i < min k (n - t.pos)
  · rw [if_pos (by omega), List.getElem?_range hi, List.getElem?_range (by omega)]
    rfl
  · rw [List.getElem?_eq_none (l := List.range (min k (n - t.pos)))
        (by rw [List.length_range]; omega)]
    split
    · rw [List.getElem?_eq_none (by rw [List.length_range]; omega)]
      rfl
    · rfl

theorem write_nil (t : Tape α) : t.write [] = t := by
  obtain ⟨cells, pos, le⟩ := t
  unfold write laid
  simp

theorem seek_pos (t : Tape α) (p : ℕ) : (t.seek p).pos = min p t.cells.length := rfl

theorem ahead_start (t : Tape α) (n : ℕ) : (t.seek 0).ahead n = t.cells.take n := by
  rw [ahead, seek_pos, Nat.zero_min, List.drop_zero]
  rfl

theorem seek_self (t : Tape α) (p : ℕ) : t.seek (t.seek p).pos = t.seek p := by
  unfold seek
  simp

theorem pass_pos (t : Tape α) (n : ℕ) :
    (t.pass n).pos = t.pos + min n (t.cells.length - t.pos) := by
  have := t.le
  rw [pass, seek_pos]
  omega

-- ---------------------------------------------------------------------------
-- Round trips
-- ---------------------------------------------------------------------------

end Tape
