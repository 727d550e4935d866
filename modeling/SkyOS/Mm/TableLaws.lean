import SkyOS.Mm.Vms

/-!
# Page tables as trees

`Tables m pg T`: the table at `pg` is a tree whose nodes are at the addresses
`T` gives them, all different pages. To an address the tree gives the entry
`leafAt` of its page number, and `trans` finds just that. A tree changes in
three ways: a table is hung into the root, a table is hung into a table below
the root, and an entry is written into a table of the last level.
-/

namespace SkyOS

open ByteMem

-- ---------------------------------------------------------------------------
-- Entries
-- ---------------------------------------------------------------------------

theorem and_low (h : f < 2 ^ 10) : e &&& f = e % 2 ^ 10 &&& f := by
  refine Nat.eq_of_testBit_eq fun i => ?_
  simp only [Nat.testBit_and, Nat.testBit_mod_two_pow]
  by_cases hi : i < 10
  · simp [hi]
  · have : f.testBit i = false :=
      Nat.testBit_lt_two_pow (h.trans_le (Nat.pow_le_pow_right (by omega) (by omega)))
    simp [this]

theorem valid_low (e : ℕ) : valid e = valid (e % 2 ^ 10) := by
  simp only [valid, ← and_low (show 0b1 < 2 ^ 10 by decide)]

theorem readable_low (e : ℕ) : readable e = readable (e % 2 ^ 10) := by
  simp only [readable, ← and_low (show 0b10 < 2 ^ 10 by decide)]

theorem writable_low (e : ℕ) : writable e = writable (e % 2 ^ 10) := by
  simp only [writable, ← and_low (show 0b100 < 2 ^ 10 by decide)]

theorem pte2ppn_eq (e : ℕ) : pte2ppn e = e / 2 ^ 10 % 2 ^ 40 := by
  rw [pte2ppn, Nat.shiftRight_eq_div_pow, show 0xffffffffff = 2 ^ 40 - 1 by decide,
    Nat.and_two_pow_sub_one_eq_mod]

theorem px_eq (level va : ℕ) : px level va = va / 2 ^ (12 + 9 * level) % 2 ^ 9 := by
  rw [px, pxShift, Nat.shiftRight_eq_div_pow, show pxMask = 2 ^ 9 - 1 by decide,
    Nat.and_two_pow_sub_one_eq_mod]

theorem pte_eq (h : f < 2 ^ 10) : ((a >>> 12) <<< 10) ||| f = a / 2 ^ 12 * 2 ^ 10 + f := by
  rw [← Nat.shiftLeft_add_eq_or_of_lt h, Nat.shiftLeft_eq, Nat.shiftRight_eq_div_pow]

def KernelPerm (perm : ℕ) : Prop := perm = 0 ∨ perm = pteU

theorem tableFlags_lt (h : KernelPerm perm) : pteV ||| perm < 2 ^ 10 := by
  rcases h with rfl | rfl <;> decide

theorem leafFlags_lt (h : KernelPerm perm) : pteX ||| pteW ||| pteR ||| pteV ||| perm < 2 ^ 10 := by
  rcases h with rfl | rfl <;> decide

theorem tablePte_eq (h : KernelPerm perm) :
    tablePte a perm = a / 2 ^ 12 * 2 ^ 10 + (pteV ||| perm) := pte_eq (tableFlags_lt h)

theorem leafPte_eq (h : KernelPerm perm) :
    leafPte pa perm = pa / 2 ^ 12 * 2 ^ 10 + (pteX ||| pteW ||| pteR ||| pteV ||| perm) :=
  pte_eq (leafFlags_lt h)

theorem leafPte_flags (h : KernelPerm perm) :
    leafPte pa perm % 2 ^ 10 = pteX ||| pteW ||| pteR ||| pteV ||| perm := by
  rw [leafPte_eq h, Nat.mul_add_mod']
  rcases h with rfl | rfl <;> decide

theorem leafPte_valid (h : KernelPerm perm) : valid (leafPte pa perm) := by
  rw [valid_low, leafPte_flags h]
  rcases h with rfl | rfl <;> decide

theorem leafPte_readable (h : KernelPerm perm) : readable (leafPte pa perm) := by
  rw [readable_low, leafPte_flags h]
  rcases h with rfl | rfl <;> decide

theorem leafPte_ppn (h : KernelPerm perm) (hpa : pa < 2 ^ 52) :
    pte2ppn (leafPte pa perm) = pa / 2 ^ 12 := by
  have hf := leafFlags_lt h
  rw [leafPte_eq h, pte2ppn_eq]
  omega

theorem leafPte_lt (h : KernelPerm perm) (hpa : pa < 2 ^ 64) : leafPte pa perm < 256 ^ 8 := by
  have hf := leafFlags_lt h
  rw [leafPte_eq h]
  omega

def PointsTo (e a : ℕ) : Prop :=
  valid e ∧ (!readable e && writable e) = false ∧ pte2ppn e <<< 12 = a

theorem tablePte_pointsTo (h : KernelPerm perm) (ha : pgSize ∣ a) (hlt : a < 2 ^ 52) :
    PointsTo (tablePte a perm) a := by
  obtain ⟨c, rfl⟩ := ha
  have hflags : tablePte (pgSize * c) perm % 2 ^ 10 = pteV ||| perm := by
    rw [tablePte_eq h, Nat.mul_add_mod']
    rcases h with rfl | rfl <;> decide
  refine ⟨?_, ?_, ?_⟩
  · rw [valid_low, hflags]
    rcases h with rfl | rfl <;> decide
  · rw [readable_low, writable_low, hflags]
    rcases h with rfl | rfl <;> decide
  · have hf := tableFlags_lt h
    rw [tablePte_eq h, pte2ppn_eq, Nat.shiftLeft_eq]
    simp only [pgSize] at *
    omega

theorem tablePte_lt (h : KernelPerm perm) (hlt : a < 2 ^ 52) : tablePte a perm < 256 ^ 8 := by
  have hf := tableFlags_lt h
  rw [tablePte_eq h]
  omega

def entry (m : Mem) (a k : ℕ) : ℕ := readPte m (a + 8 * k)

theorem entry_write (m : Mem) (a k : ℕ) (hv : v < 256 ^ 8) :
    entry (writePte m (a + 8 * k) v) a k = v := readLE_writeLE m _ hv

/-- Entries of different pages, or different entries of one, are apart. -/
theorem entry_write_ne (m : Mem) (v : ℕ) (ha : pgSize ∣ a) (hb : pgSize ∣ b) (hj : j < 512)
    (hk : k < 512) (hne : a ≠ b ∨ j ≠ k) : entry (writePte m (b + 8 * k) v) a j = entry m a j := by
  obtain ⟨c, rfl⟩ := ha
  obtain ⟨d, rfl⟩ := hb
  refine readLE_writeLE_apart m v ?_
  simp only [pgSize] at *
  omega

def InPage (a x : ℕ) : Prop := a ≤ x ∧ x < a + pgSize

theorem InPage.self (a : ℕ) : InPage a a := ⟨le_rfl, by simp only [pgSize]; omega⟩

theorem entry_congr (h : ∀ x, InPage a x → m' x = m x) (hk : k < 512) :
    entry m' a k = entry m a k :=
  readLE_congr fun i hi => h _ ⟨by omega, by simp only [pgSize]; omega⟩

theorem writePte_outside (m : Mem) (v : ℕ) (hk : k < 512) (hx : ¬ InPage a x) :
    writePte m (a + 8 * k) v x = m x := by
  refine writeLE_apply_of_not_mem fun h => hx ?_
  simp only [InPage, pgSize]
  omega

def Blank (m : Mem) (a : ℕ) : Prop := ∀ k < 512, valid (entry m a k) = false

theorem blank_zero (h : ∀ x, InPage a x → m x = 0) : Blank m a := by
  intro k hk
  have : entry m a k = 0 := readLE_zero fun i hi => h _ ⟨by omega, by simp only [pgSize]; omega⟩
  rw [this]
  rfl

-- ---------------------------------------------------------------------------
-- Page numbers
-- ---------------------------------------------------------------------------

def vpn (va : ℕ) : ℕ := va / pgSize % 2 ^ 27

def ix2 (c : ℕ) : ℕ := c / 2 ^ 18
def ix1 (c : ℕ) : ℕ := c / 2 ^ 9 % 2 ^ 9
def ix0 (c : ℕ) : ℕ := c % 2 ^ 9

theorem vpn_lt (va : ℕ) : vpn va < 2 ^ 27 := Nat.mod_lt _ (by decide)

theorem ix2_lt (h : c < 2 ^ 27) : ix2 c < 512 := by unfold ix2; omega
theorem ix1_lt (c : ℕ) : ix1 c < 512 := by unfold ix1; omega
theorem ix0_lt (c : ℕ) : ix0 c < 512 := by unfold ix0; omega

theorem ix_inj (h2 : ix2 c = ix2 d) (h1 : ix1 c = ix1 d) (h0 : ix0 c = ix0 d) : c = d := by
  unfold ix2 ix1 ix0 at *
  omega

theorem px_two (va : ℕ) : px 2 va = ix2 (vpn va) := by
  rw [px_eq, ix2, vpn]
  simp only [pgSize]
  omega

theorem px_one (va : ℕ) : px 1 va = ix1 (vpn va) := by
  rw [px_eq, ix1, vpn]
  simp only [pgSize]
  omega

theorem px_zero (va : ℕ) : px 0 va = ix0 (vpn va) := by
  rw [px_eq, ix0, vpn]
  simp only [pgSize]
  omega

-- ---------------------------------------------------------------------------
-- Trees
-- ---------------------------------------------------------------------------

/-- The tables of a tree: the root, one for each root slot, and one for each
slot of these. -/
inductive Node
  | root
  | mid (i : ℕ)
  | low (i j : ℕ)
  deriving DecidableEq

abbrev Shape := Node → Option ℕ

/-- Entry `k` of the table at `a` leads to the given table, or is not in use. -/
def Slot (m : Mem) (a k : ℕ) : Option ℕ → Prop
  | some b => PointsTo (entry m a k) b
  | none => valid (entry m a k) = false

structure Tables (m : Mem) (pg : ℕ) (T : Shape) : Prop where
  root : T .root = some pg
  mid : ∀ i < 512, Slot m pg i (T (.mid i))
  low : ∀ i < 512, ∀ a, T (.mid i) = some a → ∀ j < 512, Slot m a j (T (.low i j))
  under : ∀ i j b, T (.low i j) = some b → ∃ a, T (.mid i) = some a
  leaf : ∀ i j b, T (.low i j) = some b → ∀ k < 512, valid (entry m b k) → readable (entry m b k)
  page : ∀ n a, T n = some a → pgSize ∣ a
  inj : ∀ n n' a, T n = some a → T n' = some a → n = n'

def leafAt (m : Mem) (T : Shape) (c : ℕ) : Option (ℕ × ℕ) :=
  match T (.low (ix2 c) (ix1 c)) with
  | none => none
  | some b =>
    if valid (entry m b (ix0 c)) then some (b + 8 * ix0 c, entry m b (ix0 c)) else none

theorem Slot.congr (h : Slot m a k o) (he : entry m' b k = entry m a k) : Slot m' b k o := by
  cases o with
  | none => simpa only [Slot, he] using h
  | some c => simpa only [Slot, he] using h

theorem Tables.frame (h : Tables m pg T) (hm : ∀ n a, T n = some a → ∀ x, InPage a x → m' x = m x) :
    Tables m' pg T := by
  have he : ∀ n a, T n = some a → ∀ k < 512, entry m' a k = entry m a k :=
    fun n a hn k hk => entry_congr (hm n a hn) hk
  refine ⟨h.root, fun i hi => (h.mid i hi).congr (he _ _ h.root i hi), fun i hi a ha j hj =>
    (h.low i hi a ha j hj).congr (he _ _ ha j hj), h.under, fun i j b hb k hk hv => ?_,
      h.page, h.inj⟩
  rw [he _ _ hb k hk] at hv ⊢
  exact h.leaf i j b hb k hk hv

theorem leafAt_congr (hm : ∀ b, T (.low (ix2 c) (ix1 c)) = some b → ∀ x, InPage b x → m' x = m x) :
    leafAt m' T c = leafAt m T c := by
  unfold leafAt
  cases hb : T (.low (ix2 c) (ix1 c)) with
  | none => rfl
  | some b => simp only [entry_congr (hm b hb) (ix0_lt c)]

theorem leafAt_frame (hm : ∀ n a, T n = some a → ∀ x, InPage a x → m' x = m x) (c : ℕ) :
    leafAt m' T c = leafAt m T c := leafAt_congr fun b hb => hm _ b hb

theorem Tables.walk_eq (h : Tables m pg T) (va : ℕ) : walk m pg va =
    match leafAt m T (vpn va) with
    | some r => .ok r
    | none => .error (.panic "access fault") := by
  have h2 := h.mid _ (ix2_lt (vpn_lt va))
  have hfault : (throw (.panic "access fault") : Run ℕ) = .error (.panic "access fault") := rfl
  simp only [walk, trans, transLevel, leafAt, px_two, px_one, px_zero, entry] at h2 ⊢
  cases hm : T (.mid (ix2 (vpn va))) with
  | none =>
    have hl : T (.low (ix2 (vpn va)) (ix1 (vpn va))) = none := by
      cases hl : T (.low (ix2 (vpn va)) (ix1 (vpn va))) with
      | none => rfl
      | some b =>
        obtain ⟨a, ha⟩ := h.under _ _ _ hl
        simp [hm] at ha
    rw [hm] at h2
    have h2 : valid (readPte m (pg + 8 * ix2 (vpn va))) = false := h2
    simp [hl, h2, hfault]
  | some a =>
    rw [hm] at h2
    obtain ⟨hv2, hw2, hp2⟩ := h2
    have h1 := h.low _ (ix2_lt (vpn_lt va)) a hm _ (ix1_lt (vpn va))
    simp only [entry] at hv2 hw2 hp2
    cases hl : T (.low (ix2 (vpn va)) (ix1 (vpn va))) with
    | none =>
      rw [hl] at h1
      have h1 : valid (readPte m (a + 8 * ix1 (vpn va))) = false := h1
      simp [hv2, hw2, hp2, h1, hfault]
    | some b =>
      rw [hl] at h1
      obtain ⟨hv1, hw1, hp1⟩ := h1
      simp only [entry] at hv1 hw1 hp1
      have h0 := h.leaf _ _ b hl _ (ix0_lt (vpn va))
      simp only [entry] at h0
      by_cases hv0 : valid (readPte m (b + 8 * ix0 (vpn va)))
      · simp [hv2, hw2, hp2, hv1, hw1, hp1, hv0, h0 hv0]
      · simp [hv2, hw2, hp2, hv1, hw1, hp1, hv0, hfault]

-- ---------------------------------------------------------------------------
-- Growth
-- ---------------------------------------------------------------------------

structure NewTable (m : Mem) (T : Shape) (b : ℕ) : Prop where
  page : pgSize ∣ b
  lt : b < 2 ^ 52
  blank : Blank m b
  new : ∀ n, T n ≠ some b

theorem update_eq_some {T : Shape} (h : Function.update T n (some b) n' = some a) :
    n' = n ∧ a = b ∨ n' ≠ n ∧ T n' = some a := by
  by_cases hn : n' = n
  · subst hn
    simp only [Function.update_self, Option.some.injEq] at h
    exact .inl ⟨rfl, h.symm⟩
  · rw [Function.update_of_ne hn] at h
    exact .inr ⟨hn, h⟩

section
variable {m : Mem} {pg : ℕ} {T : Shape} {i j k a b perm v : ℕ}

theorem Tables.ne_of_node (h : Tables m pg T) (hn : T n = some a) (hn' : T n' = some b)
    (hne : n ≠ n') :
    a ≠ b := by
  rintro rfl
  exact hne (h.inj _ _ _ hn hn')

theorem Tables.pg_page (h : Tables m pg T) : pgSize ∣ pg := h.page _ _ h.root

theorem Tables.growMid (h : Tables m pg T) (hi : i < 512) (hno : T (.mid i) = none)
    (hb : NewTable m T b) (hperm : KernelPerm perm) :
    Tables (writePte m (pg + 8 * i) (tablePte b perm)) pg
    (Function.update T (.mid i) (some b)) := by
  have hpgb : b ≠ pg := fun he => hb.new .root (he ▸ h.root)
  have hlow : ∀ j, T (.low i j) = none := fun j => by
    cases hl : T (.low i j) with
    | none => rfl
    | some c =>
      obtain ⟨a, ha⟩ := h.under _ _ _ hl
      simp [hno] at ha
  have hother : ∀ n a, T n = some a → n ≠ .root → ∀ k < 512,
      entry (writePte m (pg + 8 * i) (tablePte b perm)) a k = entry m a k := fun n a hn hne k hk =>
    entry_write_ne m _ (h.page _ _ hn) h.pg_page hk hi (.inl (h.ne_of_node hn h.root hne))
  constructor
  · simp [h.root]
  · intro i' hi'
    by_cases he : i' = i
    · subst he
      simp only [Function.update_self, Slot, entry_write m pg i' (tablePte_lt hperm hb.lt)]
      exact tablePte_pointsTo hperm hb.page hb.lt
    · rw [Function.update_of_ne (by simpa using he)]
      exact (h.mid i' hi').congr (entry_write_ne m _ h.pg_page h.pg_page hi' hi (.inr he))
  · intro i' hi' a ha j hj
    rw [Function.update_of_ne (by simp)]
    rcases update_eq_some ha with ⟨he, rfl⟩ | ⟨he, ha⟩
    · obtain rfl : i' = i := by simpa using he
      rw [hlow j, Slot, entry_write_ne m _ hb.page h.pg_page hj hi (.inl hpgb)]
      exact hb.blank j hj
    · exact (h.low i' hi' a ha j hj).congr (hother _ _ ha (by simp) j hj)
  · intro i' j c hc
    rw [Function.update_of_ne (by simp)] at hc
    by_cases he : i' = i
    · subst he
      exact ⟨b, by simp⟩
    · rw [Function.update_of_ne (by simpa using he)]
      exact h.under i' j c hc
  · intro i' j c hc k hk
    rw [Function.update_of_ne (by simp)] at hc
    rw [hother _ _ hc (by simp) k hk]
    exact h.leaf i' j c hc k hk
  · intro n a hn
    rcases update_eq_some hn with ⟨-, rfl⟩ | ⟨-, hn⟩
    · exact hb.page
    · exact h.page n a hn
  · intro n n' a hn hn'
    rcases update_eq_some hn with ⟨h1, rfl⟩ | ⟨-, hn⟩ <;>
      rcases update_eq_some hn' with ⟨h2, h3⟩ | ⟨-, hn'⟩
    · rw [h1, h2]
    · exact absurd hn' (hb.new n')
    · exact absurd (h3 ▸ hn) (hb.new n)
    · exact h.inj n n' a hn hn'

/-- Hang the blank page `b` into slot `j` of the table in root slot `i`. -/
theorem Tables.growLow (h : Tables m pg T) (hi : i < 512) (hj : j < 512) (ha : T (.mid i) = some a)
    (hno : T (.low i j) = none) (hb : NewTable m T b) (hperm : KernelPerm perm) :
    Tables (writePte m (a + 8 * j) (tablePte b perm)) pg
    (Function.update T (.low i j) (some b)) := by
  have hab : b ≠ a := fun he => hb.new (.mid i) (he ▸ ha)
  have hap := h.page _ _ ha
  have hother : ∀ n c, T n = some c → n ≠ .mid i → ∀ k < 512,
      entry (writePte m (a + 8 * j) (tablePte b perm)) c k = entry m c k := fun n c hn hne k hk =>
    entry_write_ne m _ (h.page _ _ hn) hap hk hj (.inl (h.ne_of_node hn ha hne))
  constructor
  · simp [h.root]
  · intro i' hi'
    rw [Function.update_of_ne (by simp)]
    exact (h.mid i' hi').congr (hother _ _ h.root (by simp) i' hi')
  · intro i' hi' c hc j' hj'
    rw [Function.update_of_ne (by simp)] at hc
    by_cases he : i' = i ∧ j' = j
    · obtain ⟨rfl, rfl⟩ := he
      obtain rfl : a = c := by simpa [ha] using hc
      simp only [Function.update_self, Slot, entry_write m a j' (tablePte_lt hperm hb.lt)]
      exact tablePte_pointsTo hperm hb.page hb.lt
    · rw [Function.update_of_ne (by simpa using he)]
      refine (h.low i' hi' c hc j' hj').congr ?_
      by_cases hii : i' = i
      · subst hii
        obtain rfl : a = c := by simpa [ha] using hc
        exact entry_write_ne m _ hap hap hj' hj (.inr fun hjj => he ⟨rfl, hjj⟩)
      · exact hother _ _ hc (by simpa using hii) j' hj'
  · intro i' j' c hc
    rw [Function.update_of_ne (by simp)]
    rcases update_eq_some hc with ⟨he, -⟩ | ⟨-, hc⟩
    · obtain ⟨rfl, rfl⟩ : i' = i ∧ j' = j := by simpa using he
      exact ⟨a, ha⟩
    · exact h.under i' j' c hc
  · intro i' j' c hc k hk
    rcases update_eq_some hc with ⟨-, rfl⟩ | ⟨-, hc⟩
    · rw [entry_write_ne m _ hb.page hap hk hj (.inl hab)]
      simp [hb.blank k hk]
    · rw [hother _ _ hc (by simp) k hk]
      exact h.leaf i' j' c hc k hk
  · intro n c hn
    rcases update_eq_some hn with ⟨-, rfl⟩ | ⟨-, hn⟩
    · exact hb.page
    · exact h.page n c hn
  · intro n n' c hn hn'
    rcases update_eq_some hn with ⟨h1, rfl⟩ | ⟨-, hn⟩ <;>
      rcases update_eq_some hn' with ⟨h2, h3⟩ | ⟨-, hn'⟩
    · rw [h1, h2]
    · exact absurd hn' (hb.new n')
    · exact absurd (h3 ▸ hn) (hb.new n)
    · exact h.inj n n' c hn hn'

theorem Tables.setLeaf (h : Tables m pg T) (hb : T (.low i j) = some b) (hk : k < 512)
    (hlt : v < 256 ^ 8) (hv : valid v → readable v) : Tables (writePte m (b + 8 * k) v) pg T := by
  have hbp := h.page _ _ hb
  have hother : ∀ n c, T n = some c → n ≠ .low i j → ∀ k' < 512,
      entry (writePte m (b + 8 * k) v) c k' = entry m c k' := fun n c hn hne k' hk' =>
    entry_write_ne m _ (h.page _ _ hn) hbp hk' hk (.inl (h.ne_of_node hn hb hne))
  refine ⟨h.root, fun i' hi' => (h.mid i' hi').congr (hother _ _ h.root (by simp) i' hi'),
    fun i' hi' c hc j' hj' => (h.low i' hi' c hc j' hj').congr (hother _ _ hc (by simp) j' hj'),
    h.under, fun i' j' c hc k' hk' => ?_, h.page, h.inj⟩
  by_cases he : i' = i ∧ j' = j
  · obtain ⟨rfl, rfl⟩ := he
    obtain rfl : b = c := by simpa [hb] using hc
    by_cases hkk : k' = k
    · subst hkk
      rwa [entry_write m b k' hlt]
    · rw [entry_write_ne m _ hbp hbp hk' hk (.inr hkk)]
      exact h.leaf i' j' b hb k' hk'
  · rw [hother _ _ hc (by simpa using he) k' hk']
    exact h.leaf i' j' c hc k' hk'

-- ---------------------------------------------------------------------------
-- Entries for tables
-- ---------------------------------------------------------------------------

/-- The table that points to a table, and the slot it does so from. -/
def Node.parent : Node → Option (Node × ℕ)
  | .root => none
  | .mid i => some (.root, i)
  | .low i j => some (.mid i, j)

/-- Entries for tables are as `map` writes them: to the hardware they are no
leaves. -/
def Proper (m : Mem) (T : Shape) : Prop :=
  ∀ n n' j a b, n'.parent = some (n, j) → j < 512 → T n = some a → T n' = some b →
    b < 2 ^ 52 ∧ ∃ perm, KernelPerm perm ∧ entry m a j = tablePte b perm

theorem Node.parent_inj (h : Node.parent n = some x) (h' : Node.parent n' = some x) : n = n' := by
  have he := h.trans h'.symm
  clear h h'
  cases n <;> cases n' <;> simp_all [Node.parent]

theorem Tables.above (h : Tables m pg T) (hp : Node.parent n' = some (n, j)) (hb : T n' = some b) :
    ∃ a, T n = some a := by
  cases n' with
  | root => cases hp
  | mid i =>
    cases hp
    exact ⟨pg, h.root⟩
  | low i j =>
    cases hp
    exact h.under i _ b hb

theorem Proper.frame (h : Proper m T) (hm : ∀ n a, T n = some a → ∀ x, InPage a x → m' x = m x) :
    Proper m' T :=
  fun n n' j a b hp hj ha hb => by
    rw [entry_congr (hm n a ha) hj]
    exact h n n' j a b hp hj ha hb

theorem Proper.grow (h : Proper m T) (hT : Tables m pg T) (hp : Node.parent n₀ = some (n, j))
    (hj : j < 512)
    (ha : T n = some a) (hno : T n₀ = none) (hlt : b < 2 ^ 52) (hperm : KernelPerm perm) :
    Proper (writePte m (a + 8 * j) (tablePte b perm)) (Function.update T n₀ (some b)) := by
  intro n₁ n' j' a' b' hp' hj' ha' hb'
  rcases update_eq_some hb' with ⟨rfl, rfl⟩ | ⟨hne, hb'⟩
  · obtain ⟨rfl, rfl⟩ : n = n₁ ∧ j = j' := by simpa [hp] using hp'
    have hself : n ≠ n' := fun he => by simp [he, hno] at ha
    rw [Function.update_of_ne hself, ha, Option.some.injEq] at ha'
    subst ha'
    exact ⟨hlt, perm, hperm, entry_write m a j (tablePte_lt hperm hlt)⟩
  · -- a table that was there hangs from one that was there
    obtain ⟨c, hc⟩ := hT.above hp' hb'
    have hn₁ : n₁ ≠ n₀ := fun he => by simp [he, hno] at hc
    rw [Function.update_of_ne hn₁] at ha'
    obtain ⟨h1, h2⟩ := h n₁ n' j' a' b' hp' hj' ha' hb'
    refine ⟨h1, ?_⟩
    rw [entry_write_ne m _ (hT.page _ _ ha') (hT.page _ _ ha) hj' hj]
    · exact h2
    · by_contra hcon
      push Not at hcon
      obtain ⟨rfl, rfl⟩ := hcon
      obtain rfl := hT.inj _ _ _ ha ha'
      exact hne (Node.parent_inj hp' hp)

theorem Proper.setLeaf (h : Proper m T) (hT : Tables m pg T) (hb : T (.low i k) = some b)
    (hj : j < 512) :
    Proper (writePte m (b + 8 * j) v) T := by
  intro n n' j' a' b' hp' hj' ha' hb'
  rw [entry_write_ne m _ (hT.page _ _ ha') (hT.page _ _ hb) hj' hj]
  · exact h n n' j' a' b' hp' hj' ha' hb'
  · refine .inl (hT.ne_of_node ha' hb ?_)
    rintro rfl
    cases n' <;> simp [Node.parent] at hp'

end

end SkyOS
