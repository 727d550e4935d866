import Mathlib

/-!
# Turns taken by what is left

Each of a finite set of parties has some turns left. The current one is charged for its turn.
Then a party with more left than it becomes current, whichever, and if there is none it stays.
-/

/-- The turns each party has left, and whose turn it is. -/
structure Turns (ι : Type) where
  left : ι → ℕ
  cur : ι

namespace Turns

variable {ι : Type} [DecidableEq ι]

def charged (s : Turns ι) : Turns ι :=
  { s with left := Function.update s.left s.cur (s.left s.cur - 1) }

/-- A turn of the current party, which has one left. -/
inductive Step (R : Finset ι) (s : Turns ι) : Turns ι → Prop
  | stay : 0 < s.left s.cur → (∀ i ∈ R, s.charged.left i ≤ s.charged.left s.cur) →
    Step R s s.charged
  | pass (j : ι) : 0 < s.left s.cur → j ∈ R → s.charged.left s.cur < s.charged.left j →
      Step R s { s.charged with cur := j }

inductive Run (R : Finset ι) (s : Turns ι) : List ι → Turns ι → Prop
  | nil : Run R s [] s
  | step {l : List ι} {s₁ s' : Turns ι} : Run R s l s₁ → Step R s₁ s' → Run R s (l ++ [s₁.cur]) s'

/-- The parties are within one turn of the current one, which has the most left. -/
def Level (R : Finset ι) (s : Turns ι) : Prop := ∀ i ∈ R, s.left i ≤ s.left s.cur ∧
    s.left s.cur ≤ s.left i + 1

variable {R : Finset ι} {s s' s₁ : Turns ι} {l : List ι} {i j : ι}

-- ---------------------------------------------------------------------------
-- One turn
-- ---------------------------------------------------------------------------

theorem Step.left (h : Step R s s') : s'.left = s.charged.left := by cases h <;> rfl

theorem Step.pos (h : Step R s s') : 0 < s.left s.cur := by cases h <;> assumption

theorem Step.mem (h : Step R s s') (hs : s.cur ∈ R) : s'.cur ∈ R := by
  cases h with
  | stay => exact hs
  | pass _ _ hj => exact hj

theorem charged_self (s : Turns ι) : s.charged.left s.cur = s.left s.cur - 1 :=
  Function.update_self _ _ _

theorem charged_ne (s : Turns ι) (h : i ≠ s.cur) : s.charged.left i = s.left i :=
  Function.update_of_ne h _ _

theorem Step.count (h : Step R s s') (i : ι) : s'.left i + [s.cur].count i = s.left i := by
  have hpos := h.pos
  rw [h.left, List.count_singleton]
  by_cases hi : i = s.cur
  · subst hi
    rw [charged_self]
    simp
    omega
  · rw [charged_ne s hi, if_neg (by simpa using Ne.symm hi), Nat.add_zero]

theorem Step.awake (h : Step R s s') (hi : i ∈ R) (hpos : 0 < s'.left i) : 0 < s'.left s'.cur := by
  cases h with
  | stay _ hmax => exact lt_of_lt_of_le hpos (hmax i hi)
  | pass _ _ _ hlt => exact (Nat.zero_le _).trans_lt hlt

theorem Step.level (h : Step R s s') (hs : Level R s) : Level R s' := by
  have hpos := h.pos
  -- the others have as many turns left as the current party has now, or one more
  have hothers (i : ι) (hi : i ∈ R) : s.charged.left s.cur ≤ s.charged.left i ∧
      s.charged.left i ≤ s.charged.left s.cur + 1 := by
    have hle := hs i hi
    by_cases hc : i = s.cur
    · subst hc
      exact ⟨le_rfl, Nat.le_succ _⟩
    · rw [charged_self, charged_ne s hc]
      omega
  cases h with
  | stay _ hmax => exact fun i hi => ⟨hmax i hi, (hothers i hi).1.trans (Nat.le_succ _)⟩
  | pass _ _ hj hlt =>
    intro i hi
    have h1 := hothers i hi
    have h2 := hothers _ hj
    dsimp only
    omega

-- ---------------------------------------------------------------------------
-- Many turns
-- ---------------------------------------------------------------------------

theorem Run.count (h : Run R s l s') (i : ι) : s'.left i + l.count i = s.left i := by
  induction h with
  | nil => rfl
  | step _ h1 ih =>
    rw [List.count_append, Nat.add_left_comm, h1.count i, Nat.add_comm]
    exact ih

theorem Run.mem (h : Run R s l s') (hs : s.cur ∈ R) : s'.cur ∈ R := by
  induction h with
  | nil => exact hs
  | step _ h1 ih => exact h1.mem ih

theorem Run.turns (h : Run R s l s') (hs : s.cur ∈ R) : ∀ i ∈ l, i ∈ R := by
  induction h with
  | nil => exact fun i hi => absurd hi List.not_mem_nil
  | step h1 _ ih =>
    intro i hi
    rcases List.mem_append.mp hi with hi | hi
    · exact ih i hi
    · rw [List.mem_singleton.mp hi]
      exact h1.mem hs

theorem Run.awake (h : Run R s l s') (hs : 0 < s.left s.cur) (hi : i ∈ R) (hpos : 0 < s'.left i) :
    0 < s'.left s'.cur := by
  cases h with
  | nil => exact hs
  | step _ h1 => exact h1.awake hi hpos

theorem Run.level (h : Run R s l s') (hs : Level R s) : Level R s' := by
  induction h with
  | nil => exact hs
  | step _ h1 ih => exact h1.level ih

theorem Run.sum (h : Run R s l s') (S : Finset ι) (hl : ∀ i ∈ l, i ∈ S) :
    ∑ i ∈ S, s'.left i + l.length = ∑ i ∈ S, s.left i := by
  have hlen : l.length = ∑ i ∈ S, l.count i := by
    rw [← List.sum_toFinset_count_eq_length]
    exact Finset.sum_subset (fun i hi => hl i (List.mem_toFinset.mp hi)) fun i _ hi =>
      List.count_eq_zero.mpr fun hmem => hi (List.mem_toFinset.mpr hmem)
  rw [hlen, ← Finset.sum_add_distrib]
  exact Finset.sum_congr rfl fun i _ => h.count i

/-- A party that has not had its turn waits no longer than the others have turns left. -/
theorem Run.waits (h : Run R s l s') (hs : s.cur ∈ R) (hj : j ∉ l) : l.length ≤ ∑ i ∈ R.erase j,
    s.left i := by
  rw [← h.sum (R.erase j) fun i hi =>
    Finset.mem_erase.mpr ⟨fun he => hj (he ▸ hi), h.turns hs i hi⟩]
  exact Nat.le_add_left _ _

theorem Run.shares (h : Run R s l s') (hn : ∀ i ∈ R, s.left i = n) (hs : s.cur ∈ R) (hi : i ∈ R)
    (hj : j ∈ R) :
    l.count i ≤ l.count j + 1 := by
  have hlevel : Level R s' := h.level fun i hi => by rw [hn i hi, hn _ hs]; omega
  have h1 := h.count i
  have h2 := h.count j
  rw [hn i hi] at h1
  rw [hn j hj] at h2
  have h3 := hlevel i hi
  have h4 := hlevel j hj
  omega

end Turns
