import SkyOS.Mm.BuddyRuns

/-!
# Stack-like use

When every release gives back the block that was allocated last, it undoes the
splits of that allocation and no more: below the top order no list ever holds
two blocks, so the block that was split has no free block of its order behind it.
-/

namespace SkyOS

open CircList Tiling

/-- Runs in which each release gives back the youngest block that is held.
With a block that is held goes the state before it was allocated. -/
inductive StackRun (b : Buddy) : Buddy → List (ℕ × Buddy) → Prop
  | init : StackRun b (buddyInit b) []
  | alloc : StackRun b s st → buddyAllocate size s = .ok (p, s') → StackRun b s' ((p, s) :: st)
  | free : StackRun b s ((p, s₀) :: st) → buddyFreePage p s = .ok s' → StackRun b s' st

/-- Below the top order there is at most one free block of each order. -/
def Thin (B : Set Block) : Prop :=
  ∀ j < buddyMaxOrder - 1, ∀ i i', ⟨i, j, true⟩ ∈ B → ⟨i', j, true⟩ ∈ B → i = i'

/-- `B` is what the allocations on the stack have cut out of the initial blocks. -/
inductive Cut : Set Block → List (ℕ × Buddy) → Prop
  | init : Cut initBlocks []
  | cons : Cut B st → Rep s ls B → Thin B → ⟨p, m, true⟩ ∈ B → k ≤ m →
      (∀ j, k ≤ j → j < m → ∀ i, ⟨i, j, true⟩ ∉ B) → Cut (carve B p k m) ((p, s) :: st)

theorem thin_init : Thin initBlocks := by
  rintro j hj i i' (hb | hb) -
  all_goals
    simp only [Block.mk.injEq, and_true] at hb
    omega

theorem thin_carve (ht : Thin B) (hno : ∀ j, k ≤ j → j < m → ∀ i, ⟨i, j, true⟩ ∉ B) :
    Thin (carve B p k m) := by
  -- of the orders that were cut there is the leftover, of the others what there was
  have hcases : ∀ i j, ⟨i, j, true⟩ ∈ carve B p k m →
      (k ≤ j ∧ j < m ∧ i = p + 2 ^ j) ∨ ¬ (k ≤ j ∧ j < m) ∧ ⟨i, j, true⟩ ∈ B := by
    rintro i j (⟨hb, -⟩ | hb | ⟨t, h1, h2, hb⟩)
    · exact .inr ⟨fun h => hno j h.1 h.2 i hb, hb⟩
    · simp at hb
    · simp only [Block.mk.injEq, and_true] at hb
      obtain ⟨rfl, rfl⟩ := hb
      exact .inl ⟨h1, h2, rfl⟩
  intro j hj i i' hi hi'
  rcases hcases i j hi with ⟨h1, h2, rfl⟩ | ⟨h1, hi⟩ <;> rcases hcases i' j hi' with ⟨h3, h4, rfl⟩ |
    ⟨h3, hi'⟩
  · rfl
  · exact absurd ⟨h1, h2⟩ h3
  · exact absurd ⟨h3, h4⟩ h1
  · exact ht j hj i i' hi hi'

/-- Giving back the block that was cut out makes the blocks what they were. -/
theorem absorb_carve (h : Rep s ls B) (hp : ⟨p, m, true⟩ ∈ B) (hkm : k ≤ m)
    (hno : ∀ j, k ≤ j → j < m → ∀ i, ⟨i, j, true⟩ ∉ B) :
    absorb (freed (carve B p k m) p k) p k m = B := by
  have hstart : ∀ j f, ⟨p, j, f⟩ ∈ B → j = m ∧ f = true := by
    intro j f hb
    simpa using h.eq_of_start hb hp rfl
  ext b
  constructor
  · rintro (⟨⟨hb | hb | ⟨j, h1, h2, rfl⟩, hne⟩ | rfl, hne', hno'⟩ | rfl)
    · exact hb.1
    · exact absurd hb hne
    · exact absurd rfl (hno' j h1 h2)
    · exact absurd rfl hne'
    · exact hp
  · intro hb
    by_cases hbp : b = ⟨p, m, true⟩
    · exact .inr hbp
    · refine .inl ⟨.inl ⟨.inl ⟨hb, hbp⟩, ?_⟩, ?_, fun j h1 h2 => ?_⟩
      · rintro rfl
        simpa using (hstart _ _ hb).2
      · rintro rfl
        obtain ⟨rfl, -⟩ := hstart _ _ hb
        exact hbp rfl
      · rintro rfl
        exact hno j h1 h2 _ hb

theorem Cut.release (hc : Cut B ((p, s₀) :: st)) (h : Rep s ls B) (hQ : Quiet s) :
    ∃ B₀ ls₀ ls' s', buddyFreePage p s = .ok s' ∧ Cut B₀ st ∧ Thin B₀ ∧ Rep s₀ ls₀ B₀ ∧
      Rep s' ls' B₀ ∧
      ∀ j ≥ npage, s'.pages j = s.pages j := by
  cases hc with
  | cons hc hrep ht hp hkm hno =>
    rename_i B₀ ls₀ k m
    have hmem : ⟨p, k, false⟩ ∈ carve B₀ p k m := .inr (.inl rfl)
    obtain ⟨m', ls', s', hf, hkm', hm', habs, hstop, hrep', hmoved⟩ :=
      buddyFreePage_ok h hmem hQ.quietFor
    have hpast := hmoved.past h hrep'
    have hM := buddyMaxOrder_eq
    have hm := hrep.order _ hp
    have hpow := Nat.two_pow_pos m
    simp only at hm
    obtain rfl : m' = m := by
      rcases Nat.lt_trichotomy m' m with hlt | heq | hgt
      · rcases hstop with rfl | hstop
        · omega
        · exact absurd (.inr (.inr ⟨m', hkm', hlt, rfl⟩)) hstop
      · exact heq
      · -- a free block of order `m` behind the block that was cut would be a second one
        rcases habs m hkm hgt with ⟨hb, -⟩ | hb | ⟨j, h1, h2, hb⟩
        · have := ht m (by omega) _ _ hb hp
          omega
        · simp at hb
        · simp only [Block.mk.injEq, and_true] at hb
          omega
    rw [absorb_carve hrep hp hkm hno] at hrep'
    exact ⟨B₀, ls₀, ls', s', hf, hc, ht, hrep, hrep', hpast⟩

theorem stackRun_cut (hb : Quiet b) (hr : StackRun b s st) :
    ∃ ls B, Rep s ls B ∧ Cut B st ∧ Thin B ∧ Quiet s := by
  induction hr with
  | init => exact ⟨_, _, buddyInit_ok b, .init, thin_init, hb.of_past fun j hj =>
      buddyInit_past b hj⟩
  | @alloc s st size p s' _ ha ih =>
    obtain ⟨ls, B, h, hc, ht, hQ⟩ := ih
    obtain ⟨m, l, hm, hle, hl, he, h', hmoved⟩ := buddyAllocate_inv h ha
    have hno : ∀ j, size2order size ≤ j → j < m → ∀ i, ⟨i, j, true⟩ ∉ B := fun j h1 h2 i hi => by
      have := (h.listed j (by omega) i).mpr hi
      simp [he j h1 h2] at this
    exact ⟨_, _, h', .cons hc h ht ((h.listed m hm _).mp (by simp [hl])) hle hno, thin_carve ht hno,
      hQ.of_past (hmoved.past h h')⟩
  | free _ hf ih =>
    obtain ⟨ls, B, h, hc, ht, hQ⟩ := ih
    obtain ⟨B₀, ls₀, ls', s', hf', hc', ht', -, h', hpast⟩ := hc.release h hQ
    rw [hf, Except.ok.injEq] at hf'
    subst hf'
    exact ⟨ls', B₀, h', hc', ht', hQ.of_past hpast⟩

/-- The release of the youngest block leaves the free blocks as they were
before its allocation. When all are released the two largest are left. -/
theorem stack_restores (hb : Quiet b) (hr : StackRun b s st) :
    (∀ p s₀ st', st = (p, s₀) :: st' → ∃ s', buddyFreePage p s = .ok s' ∧
      s'.freeBlocks = s₀.freeBlocks) ∧
      (st = [] →
        s.freeBlocks = {(0, buddyMaxOrder - 1), (buddyMaxOrderNrPages, buddyMaxOrder - 1)}) := by
  obtain ⟨ls, B, h, hc, -, hQ⟩ := stackRun_cut hb hr
  constructor
  · rintro p s₀ st' rfl
    obtain ⟨B₀, ls₀, ls', s', hf, -, -, h₀, h', -⟩ := hc.release h hQ
    exact ⟨s', hf, by rw [h'.freeBlocks, h₀.freeBlocks]⟩
  · rintro rfl
    cases hc
    rw [h.freeBlocks]
    ext ⟨i, k⟩
    simp [initBlocks]

theorem stack_restores_one : ∃ s s', StackRun zeroed s [(0, buddyInit zeroed)] ∧
    buddyFreePage 0 s = .ok s' ∧ s'.freeBlocks = (buddyInit zeroed).freeBlocks := by
  obtain ⟨s, ha, -⟩ := init_alloc zeroed pgSize (by decide)
  have hr : StackRun zeroed s [(0, buddyInit zeroed)] := .alloc .init ha
  obtain ⟨s', hf, he⟩ := (stack_restores zeroed_quiet hr).1 0 (buddyInit zeroed) [] rfl
  exact ⟨s, s', hr, hf, he⟩

end SkyOS
