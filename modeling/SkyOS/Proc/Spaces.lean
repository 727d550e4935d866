import SkyOS.Proc.Sched
import SkyOS.Mm.Translation
import SkyOS.Mm.Owned

/-!
# Address spaces

The tables of the kernel and of all processes. `alloc_pgtable` copies the
kernel's root, so what hangs in the kernel's root slot belongs to all spaces at
once, and everything else to one. `Spaces` says so, and every call that makes a
process or maps memory for one keeps it.
-/

namespace SkyOS

open ByteMem

abbrev kernelSlot : ℕ := 2

def Node.inKernel : Node → Bool
  | .root => false
  | .mid i => i == kernelSlot
  | .low i _ => i == kernelSlot

-- ---------------------------------------------------------------------------
-- Shared tables
-- ---------------------------------------------------------------------------

def graft (T T' : Shape) : Shape := fun n => if n.inKernel then T' n else T n

theorem Tables.graft (h : Tables m pg T) (h' : Tables m' pg' T')
    (hslot : T' (.mid kernelSlot) = T (.mid kernelSlot))
    (hkeep : ∀ n a, n.inKernel = false → T n = some a → ∀ x, InPage a x → m' x = m x)
    (hne : ∀ n n' a, n.inKernel = false → T n = some a → n'.inKernel → T' n' ≠ some a) :
    Tables m' pg (graft T T') := by
  have he : ∀ n a, n.inKernel = false → T n = some a → ∀ k < 512, entry m' a k = entry m a k :=
    fun n a hn ha k hk => entry_congr (hkeep n a hn ha) hk
  have hmid : ∀ i, SkyOS.graft T T' (.mid i) = T (.mid i) := fun i => by
    by_cases hi : i = kernelSlot <;> simp [SkyOS.graft, Node.inKernel, hi, hslot]
  have hlow : ∀ i j, SkyOS.graft T T' (.low i j) = if i = kernelSlot then T' (.low i j) else
      T (.low i j) :=
    fun i j => by simp [SkyOS.graft, Node.inKernel]
  constructor
  · exact h.root
  · intro i hi
    rw [hmid]
    exact (h.mid i hi).congr (he .root pg rfl h.root i hi)
  · intro i hi a ha j hj
    rw [hmid] at ha
    rw [hlow]
    by_cases hik : i = kernelSlot
    · subst hik
      rw [if_pos rfl]
      exact h'.low _ hi a (hslot ▸ ha) j hj
    · rw [if_neg hik]
      exact (h.low i hi a ha j hj).congr (he _ a (by simpa [Node.inKernel] using hik) ha j hj)
  · intro i j b hb
    rw [hlow] at hb
    rw [hmid]
    by_cases hik : i = kernelSlot
    · subst hik
      rw [if_pos rfl] at hb
      exact hslot ▸ h'.under _ j b hb
    · rw [if_neg hik] at hb
      exact h.under i j b hb
  · intro i j b hb k hk
    rw [hlow] at hb
    by_cases hik : i = kernelSlot
    · rw [if_pos hik] at hb
      exact h'.leaf i j b hb k hk
    · rw [if_neg hik] at hb
      rw [he _ b (by simpa [Node.inKernel] using hik) hb k hk]
      exact h.leaf i j b hb k hk
  · intro n a hn
    unfold SkyOS.graft at hn
    split at hn
    · exact h'.page n a hn
    · exact h.page n a hn
  · intro n n' a hn hn'
    unfold SkyOS.graft at hn hn'
    split at hn <;> split at hn'
    · exact h'.inj n n' a hn hn'
    · rename_i h1 h2
      exact absurd hn (hne n' n a (by simpa using h2) hn' h1)
    · rename_i h1 h2
      exact absurd hn' (hne n n' a (by simpa using h1) hn h2)
    · exact h.inj n n' a hn hn'

/-- A table in the slot has what hangs from it in the slot, and is entered at
the top. -/
theorem Node.inKernel_parent (hp : Node.parent n' = some (n, j)) :
    n'.inKernel ↔ n.inKernel ∨ n' = .mid kernelSlot := by
  cases n' with
  | root => cases hp
  | mid i =>
    cases hp
    simp [Node.inKernel]
  | low i k =>
    cases hp
    simp [Node.inKernel]

theorem Proper.graft (h : Proper m T) (h' : Proper m' T')
    (hslot : T' (.mid kernelSlot) = T (.mid kernelSlot))
    (hkeep : ∀ n a, n.inKernel = false → T n = some a → ∀ x, InPage a x → m' x = m x) :
    Proper m' (graft T T') := by
  intro n n' j a b hp hj ha hb
  by_cases hn : n.inKernel
  · have hn' : n'.inKernel := (Node.inKernel_parent hp).mpr (.inl hn)
    rw [SkyOS.graft, if_pos hn] at ha
    rw [SkyOS.graft, if_pos hn'] at hb
    exact h' n n' j a b hp hj ha hb
  · rw [Bool.not_eq_true] at hn
    have hb : T n' = some b := by
      rw [SkyOS.graft] at hb
      split at hb
      · rename_i hn'
        obtain rfl : n' = .mid kernelSlot :=
          ((Node.inKernel_parent hp).mp hn').resolve_left (by simp [hn])
        exact hslot ▸ hb
      · exact hb
    rw [SkyOS.graft, if_neg (by simp [hn])] at ha
    rw [entry_congr (hkeep n a hn ha) hj]
    exact h n n' j a b hp hj ha hb

theorem leafAt_graft_kernel (hc : ix2 c = kernelSlot) :
    leafAt m (graft T T') c = leafAt m T' c := by
  simp [leafAt, graft, Node.inKernel, hc]

theorem leafAt_graft_own (hc : ix2 c ≠ kernelSlot) : leafAt m (graft T T') c = leafAt m T c := by
  simp [leafAt, graft, Node.inKernel, hc]

theorem Tables.copyRoot (h : Tables m pg T) (ht : pgSize ∣ t) (hnew : ∀ n, T n ≠ some t)
    (hroot : ∀ k < 512, entry m' t k = entry m pg k)
    (hm : ∀ n a, T n = some a → ∀ x, InPage a x → m' x = m x) :
    Tables m' t (Function.update T .root (some t)) := by
  have hmid : ∀ i, Function.update T .root (some t) (.mid i) = T (.mid i) := fun i =>
    Function.update_of_ne (by simp) _ _
  have hlow : ∀ i j, Function.update T .root (some t) (.low i j) = T (.low i j) := fun i j =>
    Function.update_of_ne (by simp) _ _
  have he : ∀ n a, T n = some a → ∀ k < 512, entry m' a k = entry m a k :=
    fun n a hn k hk => entry_congr (hm n a hn) hk
  constructor
  · exact Function.update_self _ _ _
  · intro i hi
    rw [hmid]
    exact (h.mid i hi).congr (hroot i hi)
  · intro i hi a ha j hj
    rw [hmid] at ha
    rw [hlow]
    exact (h.low i hi a ha j hj).congr (he _ a ha j hj)
  · intro i j b hb
    rw [hlow] at hb
    rw [hmid]
    exact h.under i j b hb
  · intro i j b hb k hk
    rw [hlow] at hb
    rw [he _ b hb k hk]
    exact h.leaf i j b hb k hk
  · intro n a hn
    rcases update_eq_some hn with ⟨-, rfl⟩ | ⟨-, hn⟩
    · exact ht
    · exact h.page n a hn
  · intro n n' a hn hn'
    rcases update_eq_some hn with ⟨h1, rfl⟩ | ⟨-, hn⟩ <;>
      rcases update_eq_some hn' with ⟨h2, h3⟩ | ⟨-, hn'⟩
    · rw [h1, h2]
    · exact absurd hn' (hnew n')
    · exact absurd (h3 ▸ hn) (hnew n)
    · exact h.inj n n' a hn hn'

theorem Proper.copyRoot (h : Proper m T) (hT : Tables m pg T)
    (hroot : ∀ k < 512, entry m' t k = entry m pg k)
    (hm : ∀ n a, T n = some a → ∀ x, InPage a x → m' x = m x) :
    Proper m' (Function.update T .root (some t)) := by
  intro n n' j a b hp hj ha hb
  have hn' : n' ≠ .root := by
    rintro rfl
    cases hp
  rw [Function.update_of_ne hn'] at hb
  rcases update_eq_some ha with ⟨rfl, rfl⟩ | ⟨-, ha⟩
  · rw [hroot j hj]
    exact h _ n' j pg b hp hj hT.root hb
  · rw [entry_congr (hm n a ha) hj]
    exact h n n' j a b hp hj ha hb

-- ---------------------------------------------------------------------------
-- All spaces
-- ---------------------------------------------------------------------------

def Kernel.root (k : Kernel) : Option ℕ → ℕ
  | none => k.kPgtable
  | some p => (k.task p).pgtable

def Kernel.HasSpace (k : Kernel) : Option ℕ → Prop
  | none => True
  | some p => k.pidmap p ≠ 0

/-- `T` gives the tree of each space. The bytes `P` are handed out, and `D` are
those of them that hold no tables. -/
structure Spaces (L : Layout) (k : Kernel) (T : Option ℕ → Shape) (P D : Set ℕ) : Prop where
  tables : ∀ r, k.HasSpace r → Tables k.phys.mem (k.root r) (T r)
  slots : ∀ i, T none (.mid i) ≠ none ↔ i = kernelSlot
  kernel : ∀ r, k.HasSpace r → ∀ n, n.inKernel → T r n = T none n
  apart : ∀ r r' n n' a, k.HasSpace r → k.HasSpace r' → T r n = some a → T r' n' = some a →
    n = n' ∧ (r = r' ∨ n.inKernel)
  held : ∀ r n a, k.HasSpace r → T r n = some a → ∀ x, InPage a x → x ∈ P
  data : ∀ x ∈ D, x ∈ P ∧ ∀ r n a, k.HasSpace r → T r n = some a → ¬ InPage a x
  owned : Owned L k.phys.heap P
  proper : ∀ r, k.HasSpace r → Proper k.phys.mem (T r)

/-- The next `n` pages that `kalloc` hands out hold no entry that is in use. -/
def BlankPages (L : Layout) (s : Phys Buddy) (n : ℕ) : Prop :=
  ∀ l s', Draws (kalloc L pgSize) s.heap l s' → l.length ≤ n → ∀ a ∈ l, Blank s.mem a

theorem Owned.freshFor {s : Phys Buddy} (h : Owned L s.heap P) (hb : BlankPages L s n)
    (hT : ∀ n a, T n = some a → a ∈ P) : FreshFor (kalloc L pgSize) s.heap s.mem T n := by
  intro l s' hd hl
  obtain ⟨-, hnd, hpage, -, hstop, hnew⟩ := h.draws hd
  refine ⟨hnd, fun a ha => ⟨hpage a ha, ?_, hb l s' hd hl a ha, fun i hi => ?_⟩⟩
  · have := hstop a ha
    have := L.pmmEnd_lt
    omega
  · exact hnew a ha a (.self a) (hT i a hi)

end SkyOS
