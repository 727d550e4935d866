import Mathlib

/-!
# Circular doubly linked lists

A memory of `prev` and `next` pointers, and what it means that a sentinel and
a list of nodes form a ring in it. Insertion before the sentinel and removal
of a node are the pointer writes of the usual intrusive list; each is shown to
act on the ring it touches as `++ [x]` and as dropping `x`, and to leave every
ring it shares no node with alone.
-/

namespace CircList

structure Links (ν : Type) where
  prev : ν → ν
  next : ν → ν

section
variable {ν : Type} {L L' : Links ν}

def Links.Adj (L : Links ν) (a b : ν) : Prop := L.next a = b ∧ L.prev b = a

/-- The sentinel `s` and the nodes `l` form a ring, each node once. -/
structure IsRing (L : Links ν) (s : ν) (l : List ν) : Prop where
  chain : (s :: (l ++ [s])).IsChain L.Adj
  nodup : (s :: l).Nodup

/-- A chain reads the `next` of all its nodes but the last, and the `prev` of
all but the first. -/
theorem chain_congr {w : List ν} (h : w.IsChain L.Adj)
    (hn : ∀ x ∈ w.dropLast, L'.next x = L.next x) (hp : ∀ x ∈ w.tail, L'.prev x = L.prev x) :
    w.IsChain L'.Adj := by
  induction w using List.twoStepInduction with
  | nil => exact .nil
  | singleton a => exact .singleton a
  | cons_cons a b w _ ih =>
    obtain ⟨⟨h1, h2⟩, h⟩ := List.isChain_cons_cons.mp h
    refine List.isChain_cons_cons.mpr ⟨⟨?_, ?_⟩, ih b h ?_ ?_⟩
    · rw [hn a (by simp), h1]
    · rw [hp b (by simp), h2]
    · exact fun x hx => hn x (by simp [hx])
    · exact fun x hx => hp x (by simp at hx; simp [hx])

theorem chain_closed {w : List ν} (h : w.IsChain L.Adj) :
    (∀ x ∈ w.dropLast, L.next x ∈ w.tail) ∧ ∀ x ∈ w.tail, L.prev x ∈ w.dropLast := by
  induction w using List.twoStepInduction with
  | nil => simp
  | singleton a => simp
  | cons_cons a b w _ ih =>
    obtain ⟨⟨h1, h2⟩, h⟩ := List.isChain_cons_cons.mp h
    obtain ⟨i1, i2⟩ := ih b h
    constructor
    · intro x hx
      rcases List.mem_cons.mp (by simpa using hx) with rfl | hx
      · simp [h1]
      · exact List.mem_cons_of_mem _ (i1 x hx)
    · intro x hx
      rcases List.mem_cons.mp (by simpa using hx) with rfl | hx
      · simp [h2]
      · exact List.mem_cons_of_mem _ (i2 x hx)

theorem dropLast_ring (s : ν) (l : List ν) : (s :: (l ++ [s])).dropLast = s :: l := by
  rw [← List.cons_append, List.dropLast_concat]

theorem IsRing.congr (h : IsRing L s l) (hn : ∀ x ∈ s :: l, L'.next x = L.next x)
    (hp : ∀ x ∈ s :: l, L'.prev x = L.prev x) : IsRing L' s l :=
  ⟨chain_congr h.chain (fun x hx => hn x (by rwa [dropLast_ring] at hx))
    (fun x hx => hp x (by simp at hx ⊢; tauto)), h.nodup⟩

theorem IsRing.next_mem (h : IsRing L s l) (hx : x ∈ s :: l) : L.next x ∈ s :: l := by
  have := (chain_closed h.chain).1 x (by rwa [dropLast_ring])
  simp at this ⊢
  tauto

theorem IsRing.prev_mem (h : IsRing L s l) (hx : x ∈ s :: l) : L.prev x ∈ s :: l := by
  have := (chain_closed h.chain).2 x (by simp at hx ⊢; tauto)
  rwa [dropLast_ring] at this

theorem IsRing.next_head (h : IsRing L s (x :: l)) : L.next s = x :=
  (List.isChain_cons_cons.mp h.chain).1.1

theorem IsRing.unique (h : IsRing L s l) (h' : IsRing L s l') : l = l' := by
  have key : ∀ a, (a :: (l ++ [s])).IsChain L.Adj → (a :: (l' ++ [s])).IsChain L.Adj →
      s ∉ l → s ∉ l' → l = l' := by
    clear h h'
    intro a h h' hl hl'
    induction l generalizing a l' with
    | nil =>
      cases l' with
      | nil => rfl
      | cons y l' =>
        have := (List.isChain_cons_cons.mp h).1.1.symm.trans (List.isChain_cons_cons.mp h').1.1
        simp [this] at hl'
    | cons x l ih =>
      cases l' with
      | nil =>
        have := (List.isChain_cons_cons.mp h').1.1.symm.trans (List.isChain_cons_cons.mp h).1.1
        simp [this] at hl
      | cons y l' =>
        obtain ⟨hx, h⟩ := List.isChain_cons_cons.mp h
        obtain ⟨hy, h'⟩ := List.isChain_cons_cons.mp h'
        obtain rfl : x = y := hx.1.symm.trans hy.1
        rw [ih x h h' (by simp at hl; tauto) (by simp at hl'; tauto)]
  exact key s h.chain h'.chain (List.nodup_cons.mp h.nodup).1 (List.nodup_cons.mp h'.nodup).1

end

-- ---------------------------------------------------------------------------
-- Pointer writes
-- ---------------------------------------------------------------------------

variable {ν : Type} [DecidableEq ν] {L : Links ν}

def Links.setNext (L : Links ν) (a b : ν) : Links ν :=
  { L with next := Function.update L.next a b }

def Links.setPrev (L : Links ν) (a b : ν) : Links ν :=
  { L with prev := Function.update L.prev a b }

def Links.reset (L : Links ν) (s : ν) : Links ν := (L.setNext s s).setPrev s s

def Links.insertAfter (L : Links ν) (x a : ν) : Links ν :=
  let L := L.setNext x (L.next a)
  let L := L.setPrev x a
  let L := L.setPrev (L.next a) x
  L.setNext a x

def Links.insertBefore (L : Links ν) (x s : ν) : Links ν := L.insertAfter x (L.prev s)

/-- Make the neighbours of `x` point past it. The pointers of `x` stay. -/
def Links.remove (L : Links ν) (x : ν) : Links ν :=
  let L := L.setNext (L.prev x) (L.next x)
  L.setPrev (L.next x) (L.prev x)

theorem insertBefore_next (ha : L.Adj (L.prev s) s) :
    (L.insertBefore x s).next = Function.update (Function.update L.next x s) (L.prev s) x := by
  simp [Links.insertBefore, Links.insertAfter, Links.setNext, Links.setPrev, ha.1]

theorem insertBefore_prev (hx : x ≠ L.prev s) (ha : L.Adj (L.prev s) s) :
    (L.insertBefore x s).prev = Function.update (Function.update L.prev x (L.prev s)) s x := by
  simp [Links.insertBefore, Links.insertAfter, Links.setNext, Links.setPrev, ha.1,
    Function.update_of_ne hx.symm]

theorem remove_next (L : Links ν) (x : ν) :
    (L.remove x).next = Function.update L.next (L.prev x) (L.next x) := by
  simp [Links.remove, Links.setNext, Links.setPrev]

theorem remove_prev (hx : x ≠ L.prev x) :
    (L.remove x).prev = Function.update L.prev (L.next x) (L.prev x) := by
  simp [Links.remove, Links.setNext, Links.setPrev, Function.update_of_ne hx]

omit [DecidableEq ν] in
theorem IsRing.last (h : IsRing L s l) :
    ∃ u, s :: l = u ++ [L.prev s] ∧ L.Adj (L.prev s) s := by
  obtain ⟨u, t, hu⟩ : ∃ u t, s :: l = u ++ [t] :=
    ⟨_, _, (List.dropLast_append_getLast (List.cons_ne_nil s l)).symm⟩
  have hc := h.chain
  rw [← List.cons_append, hu, List.append_assoc] at hc
  simp only [List.singleton_append, List.isChain_append_cons_cons] at hc
  obtain rfl : L.prev s = t := hc.2.1.2
  exact ⟨u, hu, hc.2.1⟩

theorem IsRing.insertBefore (h : IsRing L s l) (hx : x ∉ s :: l) :
    IsRing (L.insertBefore x s) s (l ++ [x]) := by
  obtain ⟨u, hu, ha⟩ := h.last
  have hnd := h.nodup
  have hxt : x ≠ L.prev s := by rintro rfl; simp [hu] at hx
  have hxs : x ≠ s := by simp at hx; tauto
  have htail : l = (u ++ [L.prev s]).tail := by rw [← hu]; rfl
  have hc := h.chain
  rw [← List.cons_append, hu, List.append_assoc] at hc
  refine ⟨?_, ?_⟩
  · rw [← List.cons_append, ← List.cons_append, hu]
    simp only [List.append_assoc, List.cons_append, List.nil_append,
      List.isChain_append_cons_cons, List.isChain_cons_cons, List.isChain_singleton, and_true]
    refine ⟨chain_congr (List.isChain_append_cons_cons.mp hc).1 ?_ ?_, ⟨?_, ?_⟩, ?_, ?_⟩
    · -- the last node is not among those whose `next` is read
      intro y hy
      rw [List.dropLast_concat] at hy
      have hyt : y ≠ L.prev s := by
        rintro rfl
        rw [hu, List.nodup_append] at hnd
        exact hnd.2.2 _ hy _ (by simp) rfl
      have hyx : y ≠ x := by rintro rfl; exact hx (hu ▸ List.mem_append_left _ hy)
      simp [insertBefore_next ha, hyt, hyx]
    · intro y hy
      rw [← htail] at hy
      have hys : y ≠ s := by rintro rfl; exact (List.nodup_cons.mp hnd).1 hy
      have hyx : y ≠ x := by rintro rfl; exact hx (List.mem_cons_of_mem _ hy)
      simp [insertBefore_prev hxt ha, hys, hyx]
    · simp [insertBefore_next ha]
    · simp [insertBefore_prev hxt ha, hxs]
    · simp [insertBefore_next ha, hxt]
    · simp [insertBefore_prev hxt ha]
  · simp only [List.mem_cons, not_or] at hx
    simp only [List.nodup_cons, List.mem_append, List.mem_singleton, List.nodup_append] at hnd ⊢
    grind

theorem IsRing.remove (h : IsRing L s (l₁ ++ x :: l₂)) : IsRing (L.remove x) s (l₁ ++ l₂) := by
  obtain ⟨u, t, hu⟩ : ∃ u t, s :: l₁ = u ++ [t] :=
    ⟨_, _, (List.dropLast_append_getLast (List.cons_ne_nil s l₁)).symm⟩
  obtain ⟨z, v, hv⟩ : ∃ z v, l₂ ++ [s] = z :: v := by cases l₂ <;> simp
  have hc := h.chain
  rw [List.append_assoc, List.cons_append, hv, ← List.cons_append, hu, List.append_assoc] at hc
  simp only [List.singleton_append, List.isChain_append_cons_cons] at hc
  have hc' := hc
  obtain ⟨hl, ⟨-, hprev⟩, hc⟩ := hc
  obtain ⟨⟨hnext, -⟩, hr⟩ := List.isChain_cons_cons.mp hc
  have hnd := h.nodup
  rw [← List.cons_append, hu, List.append_assoc, List.singleton_append] at hnd
  have hxt : x ≠ L.prev x := by rw [hprev]; rintro rfl; simp [List.nodup_append] at hnd
  have hzt : ∀ y ∈ u ++ [t], y ∉ l₂ := by
    intro y hy hy2
    rw [← List.singleton_append, ← List.append_assoc, List.nodup_append] at hnd
    exact hnd.2.2 y hy y (List.mem_cons_of_mem _ hy2) rfl
  have hsl : s ∉ l₁ ∧ s ∉ l₂ := by have := h.nodup; simp at this; tauto
  have htail : l₁ = (u ++ [t]).tail := by rw [← hu]; rfl
  refine ⟨?_, ?_⟩
  · rw [List.append_assoc, hv, ← List.cons_append, hu, List.append_assoc]
    simp only [List.singleton_append, List.isChain_append_cons_cons]
    refine ⟨chain_congr hl ?_ ?_, ⟨?_, ?_⟩, chain_congr hr ?_ ?_⟩
    · intro y hy
      rw [List.dropLast_concat] at hy
      have : y ≠ t := by
        rintro rfl; rw [List.nodup_append] at hnd; exact hnd.2.2 y hy y (by simp) rfl
      simp [remove_next, hprev, this]
    · intro y hy
      have : y ≠ z := by
        rintro rfl
        rcases List.mem_append.mp (hv ▸ List.mem_cons_self : y ∈ l₂ ++ [s]) with hz | hz
        · exact hzt y (List.mem_of_mem_tail hy) hz
        · rw [← htail] at hy; exact hsl.1 (List.mem_singleton.mp hz ▸ hy)
      simp [remove_prev hxt, hnext, this]
    · simp [remove_next, hprev, hnext]
    · simp [remove_prev hxt, hprev, hnext]
    · intro y hy
      rw [← hv, List.dropLast_concat] at hy
      have : y ≠ t := by rintro rfl; exact hzt y (by simp) hy
      simp [remove_next, hprev, this]
    · intro y hy
      have : y ≠ z := by
        rintro rfl
        have hzv : (l₂ ++ [s]).Nodup := by
          have := h.nodup
          simp only [List.nodup_cons, List.nodup_append, List.mem_append, List.mem_cons] at this ⊢
          grind
        rw [hv] at hzv
        exact (List.nodup_cons.mp hzv).1 hy
      simp [remove_prev hxt, hnext, this]
  · have := h.nodup
    simp only [List.nodup_cons, List.mem_append, List.mem_cons, List.nodup_append] at this ⊢
    grind

/-- Insertion before `s` writes the pointers of `x` and of two nodes of the
ring of `s` only. -/
theorem IsRing.insertBefore_frame (h : IsRing L s l) (hx : x ∉ s :: l) (hy : y ∉ s :: l)
    (hyx : y ≠ x) :
    (L.insertBefore x s).next y = L.next y ∧ (L.insertBefore x s).prev y = L.prev y := by
  obtain ⟨u, hu, ha⟩ := h.last
  have hxt : x ≠ L.prev s := by rintro rfl; simp [hu] at hx
  have hyt : y ≠ L.prev s := by rintro rfl; simp [hu] at hy
  have hys : y ≠ s := by simp at hy; tauto
  simp [insertBefore_next ha, insertBefore_prev hxt ha, hyt, hyx, hys]

theorem IsRing.remove_frame (h : IsRing L s l) (hx : x ∈ l) (hy : y ∉ s :: l) :
    (L.remove x).next y = L.next y ∧ (L.remove x).prev y = L.prev y := by
  have hn := h.next_mem (List.mem_cons_of_mem s hx)
  have hp := h.prev_mem (List.mem_cons_of_mem s hx)
  have hyn : y ≠ L.next x := by rintro rfl; exact hy hn
  have hyp : y ≠ L.prev x := by rintro rfl; exact hy hp
  have h1 : (L.remove x).next y = L.next y := by
    simp [Links.remove, Links.setNext, Links.setPrev, hyp]
  refine ⟨h1, ?_⟩
  -- the second write goes through the already updated `next x`
  by_cases hxp : L.prev x = x
  · simp [Links.remove, Links.setNext, Links.setPrev, hxp, hyn]
  · simp [remove_prev (Ne.symm hxp), hyn]

-- ---------------------------------------------------------------------------
-- Families of rings
-- ---------------------------------------------------------------------------

/-- One ring on each sentinel of `K`, no node in two of them. -/
structure Rings {κ : Type} (K : Set κ) (L : Links ν) (s : κ → ν) (ls : κ → List ν) : Prop where
  ring : ∀ k ∈ K, IsRing L (s k) (ls k)
  disjoint : ∀ j ∈ K, ∀ k ∈ K, j ≠ k → List.Disjoint (s j :: ls j) (s k :: ls k)

section
variable {κ : Type} [DecidableEq κ] {K : Set κ} {s : κ → ν} {ls : κ → List ν}

theorem Rings.insertBefore (h : Rings K L s ls) (hk : k ∈ K) (hx : ∀ j ∈ K, x ∉ s j :: ls j) :
    Rings K (L.insertBefore x (s k)) s (Function.update ls k (ls k ++ [x])) := by
  constructor
  · intro j hj
    by_cases hjk : j = k
    · subst hjk
      simpa using (h.ring j hj).insertBefore (hx j hj)
    · rw [Function.update_of_ne hjk]
      have hframe : ∀ y ∈ s j :: ls j, _ := fun y hy =>
        (h.ring k hk).insertBefore_frame (hx k hk) (h.disjoint j hj k hk hjk hy)
          (by rintro rfl; exact hx j hj hy)
      exact (h.ring j hj).congr (fun y hy => (hframe y hy).1) fun y hy => (hframe y hy).2
  · intro i hi j hj hij y hyi hyj
    have hmem : ∀ m, y ∈ s m :: Function.update ls k (ls k ++ [x]) m →
        y ∈ s m :: ls m ∨ (m = k ∧ y = x) := by
      intro m hm
      by_cases hmk : m = k
      · subst hmk; simp at hm ⊢; tauto
      · simp [hmk] at hm ⊢; tauto
    rcases hmem i hyi with hyi | ⟨hik, hxi⟩ <;> rcases hmem j hyj with hyj | ⟨hjk, hxj⟩
    · exact h.disjoint i hi j hj hij hyi hyj
    · exact hx i hi (hxj ▸ hyi)
    · exact hx j hj (hxi ▸ hyj)
    · exact hij (hik.trans hjk.symm)

theorem Rings.remove (h : Rings K L s ls) (hk : k ∈ K) (hl : ls k = l₁ ++ x :: l₂) :
    Rings K (L.remove x) s (Function.update ls k (l₁ ++ l₂)) := by
  constructor
  · intro j hj
    by_cases hjk : j = k
    · subst hjk
      simpa using (hl ▸ h.ring j hj).remove
    · rw [Function.update_of_ne hjk]
      have hframe : ∀ y ∈ s j :: ls j, _ := fun y hy =>
        (h.ring k hk).remove_frame (x := x) (by simp [hl]) (h.disjoint j hj k hk hjk hy)
      exact (h.ring j hj).congr (fun y hy => (hframe y hy).1) fun y hy => (hframe y hy).2
  · intro i hi j hj hij y hyi hyj
    have hmem : ∀ m, y ∈ s m :: Function.update ls k (l₁ ++ l₂) m → y ∈ s m :: ls m := by
      intro m hm
      by_cases hmk : m = k
      · subst hmk; simp [hl] at hm ⊢; tauto
      · simpa [hmk] using hm
    exact h.disjoint i hi j hj hij (hmem i hyi) (hmem j hyj)

end

end CircList
