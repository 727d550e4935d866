import Mathlib

/-!
# Tilings of an interval

A set of blocks, each an interval of naturals, that covers `[0, n)` without
overlap. Blocks are of any type: `lo` and `len` read their interval. A tiling
survives the exchange of some blocks for others that cover the same points;
cutting a block in two, joining two neighbours and relabelling a block are the
cases an allocator needs.
-/

namespace Tiling

variable {β : Type} {lo len : β → ℕ} {n : ℕ} {B B' : Set β}

structure Tiles (lo len : β → ℕ) (n : ℕ) (B : Set β) : Prop where
  pos : ∀ b ∈ B, 0 < len b
  inside : ∀ b ∈ B, lo b + len b ≤ n
  cover : ∀ x < n, ∃ b ∈ B, lo b ≤ x ∧ x < lo b + len b
  unique : ∀ b ∈ B, ∀ c ∈ B, ∀ x, lo b ≤ x → x < lo b + len b → lo c ≤ x →
    x < lo c + len c → b = c

theorem Tiles.eq_of_lo (h : Tiles lo len n B) (hb : b ∈ B) (hc : c ∈ B) (he : lo b = lo c) :
    b = c := by
  have := h.pos b hb
  have := h.pos c hc
  exact h.unique b hb c hc (lo b) le_rfl (by omega) (by omega) (by omega)

theorem Tiles.next (h : Tiles lo len n B) (hb : b ∈ B) (hlt : lo b + len b < n) :
    ∃ c ∈ B, lo c = lo b + len b := by
  obtain ⟨c, hc, h1, h2⟩ := h.cover _ hlt
  have := h.pos b hb
  refine ⟨c, hc, ?_⟩
  by_contra hne
  obtain rfl := h.unique b hb c hc (lo b + len b - 1) (by omega) (by omega) (by omega) (by omega)
  omega

theorem Tiles.exchange (h : Tiles lo len n B) {S T : Set β} (hS : ∀ b ∈ S, b ∈ B)
    (hB : ∀ b, b ∈ B' ↔ b ∈ B ∧ b ∉ S ∨ b ∈ T) (hT : ∀ b ∈ T, 0 < len b)
    (hcov : ∀ x, (∃ b ∈ S, lo b ≤ x ∧ x < lo b + len b) ↔ ∃ b ∈ T, lo b ≤ x ∧ x < lo b + len b)
    (huniq : ∀ b ∈ T, ∀ c ∈ T, ∀ x, lo b ≤ x → x < lo b + len b → lo c ≤ x →
      x < lo c + len c → b = c) : Tiles lo len n B' := by
  -- a point of a new block is no point of a block that stayed
  have hapart : ∀ b ∈ B, b ∉ S → ∀ t ∈ T, ∀ x, lo b ≤ x → x < lo b + len b → lo t ≤ x →
      ¬ x < lo t + len t := by
    intro b hb hbS t ht x h1 h2 h3 h4
    obtain ⟨s, hs, h5, h6⟩ := (hcov x).mpr ⟨t, ht, h3, h4⟩
    exact hbS (h.unique b hb s (hS s hs) x h1 h2 h5 h6 ▸ hs)
  constructor
  · intro b hb
    rcases (hB b).mp hb with ⟨hb, -⟩ | hb
    · exact h.pos b hb
    · exact hT b hb
  · intro b hb
    rcases (hB b).mp hb with ⟨hb, -⟩ | hb
    · exact h.inside b hb
    · have := hT b hb
      obtain ⟨s, hs, h1, h2⟩ := (hcov (lo b + len b - 1)).mpr ⟨b, hb, by omega, by omega⟩
      have := h.inside s (hS s hs)
      omega
  · intro x hx
    obtain ⟨b, hb, h1, h2⟩ := h.cover x hx
    by_cases hbS : b ∈ S
    · obtain ⟨t, ht, h3, h4⟩ := (hcov x).mp ⟨b, hbS, h1, h2⟩
      exact ⟨t, (hB t).mpr (.inr ht), h3, h4⟩
    · exact ⟨b, (hB b).mpr (.inl ⟨hb, hbS⟩), h1, h2⟩
  · intro b hb c hc x h1 h2 h3 h4
    rcases (hB b).mp hb with ⟨hb, hbS⟩ | hb <;> rcases (hB c).mp hc with ⟨hc, hcS⟩ | hc
    · exact h.unique b hb c hc x h1 h2 h3 h4
    · exact absurd h4 (hapart b hb hbS c hc x h1 h2 h3)
    · exact absurd h2 (hapart c hc hcS b hb x h3 h4 h1)
    · exact huniq b hb c hc x h1 h2 h3 h4

theorem Tiles.relabel (h : Tiles lo len n B) (hb : b ∈ B) (hlo : lo c = lo b)
    (hlen : len c = len b) (hB : ∀ d, d ∈ B' ↔ d ∈ B ∧ d ≠ b ∨ d = c) : Tiles lo len n B' := by
  refine h.exchange (S := {b}) (T := {c}) (by simpa using hb) (by simpa using hB) ?_ ?_ ?_
  · have := h.pos b hb
    simpa [hlen] using this
  · simp [hlo, hlen]
  · rintro d rfl e rfl
    simp

theorem Tiles.split (h : Tiles lo len n B) (hb : b ∈ B) (hc : lo c = lo b)
    (hd : lo d = lo b + len c) (hlen : len c + len d = len b) (hc0 : 0 < len c) (hd0 : 0 < len d)
    (hB : ∀ e, e ∈ B' ↔ e ∈ B ∧ e ≠ b ∨ e = c ∨ e = d) : Tiles lo len n B' := by
  refine h.exchange (S := {b}) (T := {c, d}) (by simpa using hb) (by simpa using hB) ?_ ?_ ?_
  · rintro e (rfl | rfl)
    · exact hc0
    · exact hd0
  · intro x
    simp only [Set.mem_singleton_iff, Set.mem_insert_iff, exists_eq_left, exists_eq_or_imp]
    omega
  · rintro e (rfl | rfl) f (rfl | rfl) x
    · simp
    · intros; omega
    · intros; omega
    · simp

theorem Tiles.join (h : Tiles lo len n B) (hc : c ∈ B) (hd : d ∈ B) (hlo : lo b = lo c)
    (hnext : lo d = lo c + len c) (hlen : len b = len c + len d)
    (hB : ∀ e, e ∈ B' ↔ e ∈ B ∧ e ≠ c ∧ e ≠ d ∨ e = b) : Tiles lo len n B' := by
  have := h.pos c hc
  refine h.exchange (S := {c, d}) (T := {b}) ?_ (by simpa using hB) ?_ ?_ ?_
  · rintro e (rfl | rfl) <;> assumption
  · simp; omega
  · intro x
    simp only [Set.mem_singleton_iff, Set.mem_insert_iff, exists_eq_left, exists_eq_or_imp]
    omega
  · rintro e rfl f rfl
    simp

end Tiling
