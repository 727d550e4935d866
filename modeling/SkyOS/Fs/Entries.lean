import SkyOS.Fs.Disk

/-!
# Writing entries of the FAT

An entry is a run of bits in every copy of the FAT. What `fat_set_next_cluster`
does is to set them, and no others.
-/

namespace SkyOS

open ByteMem WriteBack

-- ---------------------------------------------------------------------------
-- Bits
-- ---------------------------------------------------------------------------

def Disk.bit (D : Disk) (x : ℕ × ℕ) : Bool := ByteMem.bit (D x.1).mem x.2

/-- `N` is `old` with the bits of `v` from `d` on in the `w` bits from `lo` on. -/
def Splice (m lo w d v old N : ℕ) : Prop :=
  ∀ j < m, N.testBit j = if lo ≤ j ∧ j < lo + w then v.testBit (j - lo + d) else old.testBit j

theorem Sector.bit_put (b : Sector) (off n v : ℕ) (hk : k < 4096) :
    ByteMem.bit (b.put off n v).mem k =
    if 8 * off ≤ k ∧ k < 8 * off + 8 * n then v.testBit (k - 8 * off) else ByteMem.bit b.mem k := by
  have hmem : (b.put off n v).mem (k / 8) = writeLE b.mem off n v (k / 8) := by
    simp only [Sector.mem, Sector.put, Sector.ofMem]
    exact dif_pos (show k / 8 < 512 by omega)
  rw [← bit_writeLE, ByteMem.bit, hmem]
  rfl

theorem Splice.bit_put (hs : Splice (8 * n) lo w d v (readLE b.mem off n) N) (hw : lo + w ≤ 8 * n)
    (hk : k < 4096) : ByteMem.bit (Sector.put b off n N).mem k =
      if 8 * off + lo ≤ k ∧ k < 8 * off + lo + w then v.testBit (k - (8 * off + lo) + d) else
        ByteMem.bit b.mem k := by
  rw [Sector.bit_put b off n N hk]
  split
  · rename_i hin
    rw [hs _ (by omega)]
    by_cases hseg : lo ≤ k - 8 * off ∧ k - 8 * off < lo + w
    · rw [if_pos hseg, if_pos (by omega), Nat.sub_sub]
    · rw [if_neg hseg, if_neg (by omega), testBit_readLE_bit, decide_eq_true (by omega),
          Bool.true_and]
      congr 1
      omega
  · rw [if_neg (by omega)]

theorem testBit_ones (m j : ℕ) :
    (2 ^ m - 1).testBit j = decide (j < m) := Nat.testBit_two_pow_sub_one m j

theorem testBit_mask (a m j : ℕ) : ((2 ^ m - 1) <<< a).testBit j = decide (a ≤ j ∧ j < a + m) := by
  rw [Nat.testBit_shiftLeft, testBit_ones, Bool.decide_and]
  by_cases h : a ≤ j
  · simp only [h, decide_true, Bool.true_and]
    exact decide_eq_decide.mpr (by omega)
  · simp [h]

theorem splice_fat32 (v old : ℕ) :
    Splice 32 0 28 0 v old (v &&& 0x0FFFFFFF ||| old &&& 0xF0000000) := by
  intro j hj
  rw [Nat.testBit_or, Nat.testBit_and, Nat.testBit_and, show 0x0FFFFFFF = 2 ^ 28 - 1 from rfl,
    show 0xF0000000 = (2 ^ 4 - 1) <<< 28 from rfl, testBit_ones, testBit_mask]
  by_cases h : j < 28
  · simp [h, show ¬ 28 ≤ j by omega]
  · simp [h, hj, show 28 ≤ j by omega]

theorem splice_fat16 (v old : ℕ) : Splice 16 0 16 0 v old (u16 v) := by
  intro j hj
  rw [u16, Nat.testBit_mod_two_pow]
  simp [hj]

theorem splice_odd (v old : ℕ) : Splice 16 4 12 0 v old (u16 (v <<< 4) ||| old &&& 0xF) := by
  intro j hj
  rw [Nat.testBit_or, Nat.testBit_and, u16, Nat.testBit_mod_two_pow, Nat.testBit_shiftLeft,
      show 0xF = 2 ^ 4 - 1 from rfl,
    testBit_ones]
  by_cases h : j < 4
  · simp [h, show ¬ 4 ≤ j by omega]
  · simp [h, hj, show 4 ≤ j by omega]

theorem splice_even (v old : ℕ) : Splice 16 0 12 0 v old (v &&& 0x0FFF ||| old &&& 0xF000) := by
  intro j hj
  rw [Nat.testBit_or, Nat.testBit_and, Nat.testBit_and, show 0x0FFF = 2 ^ 12 - 1 from rfl,
    show 0xF000 = (2 ^ 4 - 1) <<< 12 from rfl, testBit_ones, testBit_mask]
  by_cases h : j < 12
  · simp [h, show ¬ 12 ≤ j by omega]
  · simp [h, hj, show 12 ≤ j by omega]

theorem splice_oddLow (v old : ℕ) :
    Splice 8 4 4 0 v old (old &&& 0x0F ||| u16 (v <<< 4) &&& 0xF0) := by
  intro j hj
  rw [Nat.testBit_or, Nat.testBit_and, Nat.testBit_and, u16, Nat.testBit_mod_two_pow,
      Nat.testBit_shiftLeft,
    show 0x0F = 2 ^ 4 - 1 from rfl, show 0xF0 = (2 ^ 4 - 1) <<< 4 from rfl, testBit_ones,
      testBit_mask]
  by_cases h : j < 4
  · simp [h, show ¬ 4 ≤ j by omega]
  · simp [h, hj, show 4 ≤ j by omega, show j < 16 by omega]

theorem splice_oddHigh (v old : ℕ) : Splice 8 0 8 4 v old (u16 (v <<< 4) >>> 8) := by
  intro j hj
  rw [Nat.testBit_shiftRight, u16, Nat.testBit_mod_two_pow, Nat.testBit_shiftLeft]
  simp only [show 8 + j < 16 by omega, show 8 + j ≥ 4 by omega, show 8 + j - 4 = j - 0 + 4 by omega,
      decide_true,
    Bool.true_and, hj, Nat.zero_le, Nat.zero_add, and_self, if_true]

theorem splice_evenLow (v old : ℕ) : Splice 8 0 8 0 v old (v &&& 0xFF) := by
  intro j hj
  rw [Nat.testBit_and, show 0xFF = 2 ^ 8 - 1 from rfl, testBit_ones]
  simp [hj]

theorem splice_evenHigh (v old : ℕ) : Splice 8 0 4 8 v old (old &&& 0xF0 ||| v >>> 8 &&& 0x0F) := by
  intro j hj
  rw [Nat.testBit_or, Nat.testBit_and, Nat.testBit_and, Nat.testBit_shiftRight,
      show 0x0F = 2 ^ 4 - 1 from rfl,
    show 0xF0 = (2 ^ 4 - 1) <<< 4 from rfl, testBit_ones, testBit_mask]
  by_cases h : j < 4
  · simp [h, show ¬ 4 ≤ j by omega, Nat.add_comm]
  · simp [h, hj, show 4 ≤ j by omega]

-- ---------------------------------------------------------------------------
-- Entries
-- ---------------------------------------------------------------------------

namespace Fat

def width (h : Fat) : ℕ :=
  match h.type with
  | .fat12 => 12
  | .fat16 => 16
  | .fat32 => 28

def nibble (h : Fat) (c : ℕ) : ℕ := if h.type = .fat12 ∧ c % 2 = 1 then 4 else 0

def entryBit (h : Fat) (c : ℕ) : ℕ := 8 * fatOffset h c + h.nibble c

def slot (h : Fat) (i c j : ℕ) : ℕ × ℕ :=
  (fatSector h i ((h.entryBit c + j) / 8), (h.entryBit c + j) % 4096)

def setCluster (h : Fat) (c : ℕ) : ℕ :=
  match h.type with
  | .fat12 | .fat16 => u16 c
  | .fat32 => c

end Fat

section
variable {h : Fat} {D : Disk}

theorem Fat.nibble_zero (ht : h.type ≠ .fat12) : h.nibble c = 0 := if_neg fun hf => ht hf.1

theorem Fat.slot_in (hb : h.bytesPerSector = maxSectorSize) (i : ℕ)
    (hj : 8 * (fatOffset h c % maxSectorSize) + h.nibble c + j < 4096) :
    h.slot i c j = (fatSector h i (fatOffset h c), 8 * (fatOffset h c % maxSectorSize) +
      h.nibble c + j) := by
  unfold maxSectorSize at *
  rw [Fat.slot, fatSector, fatSector, hb, Fat.entryBit]
  refine Prod.ext ?_ (by dsimp only; omega)
  have : (8 * fatOffset h c + h.nibble c + j) / 8 / 512 = fatOffset h c / 512 := by omega
  rw [this]

theorem Fat.slot_over (hb : h.bytesPerSector = maxSectorSize) (i : ℕ)
    (hj : 4096 ≤ 8 * (fatOffset h c % maxSectorSize) + h.nibble c + j)
    (hj' : 8 * (fatOffset h c % maxSectorSize) + h.nibble c + j < 8192) :
    h.slot i c j = (u32 (fatSector h i (fatOffset h c) + 1),
      8 * (fatOffset h c % maxSectorSize) + h.nibble c + j - 4096) := by
  unfold maxSectorSize at *
  rw [Fat.slot, fatSector, fatSector, hb, Fat.entryBit]
  refine Prod.ext ?_ (by dsimp only; omega)
  have : (8 * fatOffset h c + h.nibble c + j) / 8 / 512 = fatOffset h c / 512 + 1 := by omega
  rw [this]
  unfold u32
  omega

-- ---------------------------------------------------------------------------
-- What is read
-- ---------------------------------------------------------------------------

theorem Fat.raw12_lt (s o : ℕ) : h.raw12 D s o < 2 ^ 16 := by
  unfold Fat.raw12
  split
  · have h1 := readLE_lt (D s).mem o 1
    have h2 := readLE_lt (D (u32 (s + 1))).mem 0 1
    rw [Nat.shiftLeft_eq]
    omega
  · exact readLE_lt _ _ 2

theorem Fat.raw12_testBit (hb : h.bytesPerSector = maxSectorSize) (s o j : ℕ)
    (ho : o < maxSectorSize) (hj : j < 16) :
    (h.raw12 D s o).testBit j = if 8 * o + j < 4096 then ByteMem.bit (D s).mem (8 * o + j)
      else ByteMem.bit (D (u32 (s + 1))).mem (8 * o + j - 4096) := by
  unfold maxSectorSize at *
  rw [Fat.raw12, hb]
  split
  · rename_i hlast
    rw [Nat.shiftLeft_eq, Nat.add_comm, Nat.mul_comm,
      Nat.testBit_two_pow_mul_add _ (readLE_lt _ _ 1)]
    by_cases h8 : j < 8
    · rw [if_pos h8, if_pos (by omega), testBit_readLE_bit, decide_eq_true (by omega),
        Bool.true_and]
    · rw [if_neg h8, if_neg (by omega), testBit_readLE_bit, decide_eq_true (by omega),
          Bool.true_and,
        show 8 * 0 + (j - 8) = 8 * o + j - 4096 by omega]
  · rw [if_pos (by omega), testBit_readLE_bit, decide_eq_true (by omega), Bool.true_and]

theorem Fat.next_testBit (hb : h.bytesPerSector = maxSectorSize) (D : Disk) (c j : ℕ) :
    (h.next D c).testBit j = (decide (j < h.width) && D.bit (h.slot 0 c j)) := by
  have hs : h.entrySector c = fatSector h 0 (fatOffset h c) := by
    simp [Fat.entrySector, fatSector, u32]
  have ho : fatOffset h c % maxSectorSize < maxSectorSize := Nat.mod_lt _ (by decide)
  unfold Fat.next
  rw [hb, hs]
  dsimp only
  cases ht : h.type with
  | fat12 =>
    have hw : h.width = 12 := by rw [Fat.width, ht]
    by_cases hj : j < 12
    · rw [hw, decide_eq_true hj, Bool.true_and]
      have hbit : h.nibble c + j < 16 →
          (h.raw12 D (fatSector h 0 (fatOffset h c)) (fatOffset h c % maxSectorSize)).testBit
          (h.nibble c + j) = D.bit (h.slot 0 c j) := by
        intro hlt
        rw [Fat.raw12_testBit hb _ _ _ ho hlt, ← Nat.add_assoc]
        split
        · rename_i hin
          rw [Fat.slot_in hb 0 hin]
          rfl
        · rename_i hover
          rw [Fat.slot_over hb 0 (by omega) (by unfold maxSectorSize at *; omega)]
          rfl
      by_cases hodd : c % 2 = 1
      · have hn : h.nibble c = 4 := if_pos ⟨ht, hodd⟩
        rw [if_pos (by rw [Nat.and_one_is_mod]; omega), Nat.testBit_shiftRight, ← hn,
          hbit (by omega)]
      · have hn : h.nibble c = 0 := if_neg fun h => hodd h.2
        rw [if_neg (by rw [Nat.and_one_is_mod]; omega), Nat.testBit_and,
            show 0xFFF = 2 ^ 12 - 1 from rfl, testBit_ones,
          decide_eq_true hj, Bool.and_true, ← hbit (by omega), hn, Nat.zero_add]
    · rw [hw, decide_eq_false hj, Bool.false_and]
      dsimp only
      split
      · rw [Nat.testBit_shiftRight]
        exact Nat.testBit_lt_two_pow
          ((Fat.raw12_lt _ _).trans_le (Nat.pow_le_pow_right (by decide) (by omega)))
      · rw [Nat.testBit_and, show 0xFFF = 2 ^ 12 - 1 from rfl, testBit_ones, decide_eq_false hj,
          Bool.and_false]
  | fat16 =>
    have hw : h.width = 16 := by rw [Fat.width, ht]
    have hn : h.nibble c = 0 := Fat.nibble_zero (by simp [ht])
    have h2 := fatOffset_even ht c
    unfold maxSectorSize at *
    rw [hw, testBit_readLE_bit]
    by_cases hj : j < 16
    · rw [Fat.slot_in hb 0 (by unfold maxSectorSize; omega), hn]
      rfl
    · rw [decide_eq_false hj, Bool.false_and, Bool.false_and]
  | fat32 =>
    have hw : h.width = 28 := by rw [Fat.width, ht]
    have hn : h.nibble c = 0 := Fat.nibble_zero (by simp [ht])
    have h4 := fatOffset_quad ht c
    unfold maxSectorSize at *
    rw [hw, Nat.testBit_and, testBit_readLE_bit, show 0x0FFFFFFF = 2 ^ 28 - 1 from rfl,
      testBit_ones]
    by_cases hj : j < 28
    · rw [Fat.slot_in hb 0 (by unfold maxSectorSize; omega), hn, decide_eq_true (by omega),
          decide_eq_true hj, Bool.and_true]
      rfl
    · rw [decide_eq_false hj, Bool.and_false]
      rfl

theorem Fat.next_lt (hb : h.bytesPerSector = maxSectorSize) (D : Disk) (c : ℕ) :
    h.next D c < 2 ^ h.width := by
  refine Nat.lt_pow_two_of_testBit _ fun j hj => ?_
  rw [Fat.next_testBit hb, decide_eq_false (by omega), Bool.false_and]

theorem Fat.next_eq_iff (hb : h.bytesPerSector = maxSectorSize) (hv : v < 2 ^ h.width) :
    h.next D c = v ↔ ∀ j < h.width, D.bit (h.slot 0 c j) = v.testBit j := by
  constructor
  · intro hn j hj
    rw [← hn, Fat.next_testBit hb, decide_eq_true hj, Bool.true_and]
  · intro hbits
    refine Nat.eq_of_testBit_eq fun j => ?_
    rw [Fat.next_testBit hb]
    by_cases hj : j < h.width
    · rw [decide_eq_true hj, Bool.true_and, hbits j hj]
    · rw [decide_eq_false hj, Bool.false_and,
        Nat.testBit_lt_two_pow (hv.trans_le (Nat.pow_le_pow_right (by decide) (by omega)))]

-- ---------------------------------------------------------------------------
-- What is written
-- ---------------------------------------------------------------------------

def Disk.edit (D : Disk) (s : ℕ) (f : Sector → Sector) : Disk := Function.update D s (f (D s))

namespace Fat

def setStraddling (sector cluster next : ℕ) (D : Disk) : Disk :=
  if cluster &&& 1 ≠ 0 then
    let next := u16 (next <<< 4)
    (D.edit sector fun b => b.put 511 1 ((readLE b.mem 511 1 &&& 0x0F) ||| (next &&& 0xF0))).edit
        (u32 (sector + 1))
      fun b => b.put 0 1 (next >>> 8)
  else
    (D.edit sector fun b => b.put 511 1 (next &&& 0xFF)).edit (u32 (sector + 1))
      fun b => b.put 0 1 ((readLE b.mem 0 1 &&& 0xF0) ||| ((next >>> 8) &&& 0x0F))

def set12 (h : Fat) (i cluster next : ℕ) (D : Disk) : Disk :=
  let cluster := u16 cluster
  let next := u16 next
  let sector := fatSector h i (cluster + cluster / 2)
  let offset := (cluster + cluster / 2) % h.bytesPerSector
  if offset = h.bytesPerSector - 1 then setStraddling sector cluster next D
  else if cluster &&& 1 ≠ 0 then
    D.edit sector fun b => b.put offset 2 (u16 (next <<< 4) ||| (readLE b.mem offset 2 &&& 0xF))
  else D.edit sector fun b =>
    b.put offset 2 ((next &&& 0x0FFF) ||| (readLE b.mem offset 2 &&& 0xF000))

def set16 (h : Fat) (i cluster next : ℕ) (D : Disk) : Disk :=
  let offset := u16 cluster * 2
  D.edit (fatSector h i offset) fun b => b.put (offset % h.bytesPerSector) 2 (u16 next)

def set32 (h : Fat) (i cluster next : ℕ) (D : Disk) : Disk :=
  let offset := u32 (cluster * 4)
  D.edit (fatSector h i offset) fun b =>
    b.put (offset % h.bytesPerSector) 4 ((next &&& 0x0FFFFFFF) |||
      (readLE b.mem (offset % h.bytesPerSector) 4 &&& 0xF0000000))

def setCopy (h : Fat) (i cluster next : ℕ) (D : Disk) : Disk :=
  match h.type with
  | .fat12 => h.set12 i cluster next D
  | .fat16 => h.set16 i cluster next D
  | .fat32 => h.set32 i cluster next D

def setCopies (h : Fat) (cluster next : ℕ) : ℕ → ℕ → Disk → Disk
  | 0, _, D => D
  | n + 1, i, D => h.setCopies cluster next n (i + 1) (h.setCopy i cluster next D)

def set (h : Fat) (cluster next : ℕ) (D : Disk) : Disk := h.setCopies cluster next h.numFats 0 D

end Fat

theorem fat32SetNextCluster_gives (hb : h.bytesPerSector = maxSectorSize) (ht : h.type = .fat32)
    (i c v : ℕ) :
    Gives .univ (On D) (fat32SetNextCluster h i c v) () (On (h.set32 i c v D)) := by
  have ho : u32 (c * 4) % h.bytesPerSector + 4 ≤ maxSectorSize := by
    have h4 := fatOffset_quad ht c
    rw [fatOffset, ht] at h4
    rw [hb]
    unfold maxSectorSize at *
    dsimp only at h4
    omega
  refine (gives_nonzero (by rw [hb]; decide)).bind <| (gives_get (Set.mem_univ _)).bind ?_
  exact (gives_getLe _ ho).bind <| ((gives_putLe ho _).pre fun _ h => h.editing).bind <| gives_put _

theorem fat16SetNextCluster_gives (hb : h.bytesPerSector = maxSectorSize) (i c v : ℕ) :
    Gives .univ (On D) (fat16SetNextCluster h i c v) () (On (h.set16 i c v D)) := by
  have ho : u16 c * 2 % h.bytesPerSector + 2 ≤ maxSectorSize := by
    rw [hb]
    unfold maxSectorSize
    omega
  refine (gives_nonzero (by rw [hb]; decide)).bind <| (gives_get (Set.mem_univ _)).bind ?_
  exact ((gives_putLe ho _).pre fun _ h => h.editing).bind <| gives_put _

theorem fat12SetNextCluster_gives (hb : h.bytesPerSector = maxSectorSize) (i c v : ℕ) :
    Gives .univ (On D) (fat12SetNextCluster h i c v) () (On (h.set12 i c v D)) := by
  refine (gives_nonzero (by rw [hb]; decide)).bind <| (gives_get (Set.mem_univ _)).bind ?_
  unfold Fat.set12
  dsimp only
  by_cases hlast : (u16 c + u16 c / 2) % h.bytesPerSector = h.bytesPerSector - 1
  · rw [if_pos hlast, if_pos hlast, hlast, hb]
    unfold Fat.setStraddling
    by_cases hodd : u16 c &&& 1 ≠ 0
    · rw [if_pos hodd, if_pos hodd]
      refine (gives_getLe _ (by decide)).bind <| ((gives_putLe (by decide) _).pre fun _ h =>
        h.editing).bind <| (gives_put _).bind ?_
      exact (gives_get (Set.mem_univ _)).bind <| ((gives_putLe (by decide) _).pre fun _ h =>
        h.editing).bind <| gives_put _
    · rw [if_neg hodd, if_neg hodd]
      refine ((gives_putLe (by decide) _).pre fun _ h => h.editing).bind <| (gives_put _).bind <|
        (gives_get (Set.mem_univ _)).bind ?_
      exact (gives_getLe _ (by decide)).bind <| ((gives_putLe (by decide) _).pre fun _ h =>
        h.editing).bind <| gives_put _
  · rw [if_neg hlast, if_neg hlast]
    have ho : (u16 c + u16 c / 2) % h.bytesPerSector + 2 ≤ maxSectorSize := by
      rw [hb] at *
      unfold maxSectorSize at *
      omega
    refine (gives_getLe _ ho).bind ?_
    by_cases hodd : u16 c &&& 1 ≠ 0
    · rw [if_pos hodd, if_pos hodd]
      exact ((gives_putLe ho _).pre fun _ h => h.editing).bind <| gives_put _
    · rw [if_neg hodd, if_neg hodd]
      exact ((gives_putLe ho _).pre fun _ h => h.editing).bind <| gives_put _

theorem fatSetCopy_gives (hb : h.bytesPerSector = maxSectorSize) (i c v : ℕ) :
    Gives .univ (On D) (fatSetCopy h c v i) () (On (h.setCopy i c v D)) := by
  unfold fatSetCopy Fat.setCopy
  cases ht : h.type with
  | fat12 => exact fat12SetNextCluster_gives hb i c v
  | fat16 => exact fat16SetNextCluster_gives hb i c v
  | fat32 => exact fat32SetNextCluster_gives hb ht i c v

theorem fatSetCopies_gives (hb : h.bytesPerSector = maxSectorSize) (n i c v : ℕ) :
    Gives .univ (On D) (fatSetCopies h c v n i) () (On (h.setCopies c v n i D)) := by
  induction n generalizing i D with
  | zero => exact Gives.pure _ fun _ => id
  | succ n ih => exact (fatSetCopy_gives hb i c v).bind (ih (i + 1))

theorem fatSetNextCluster_gives (hb : h.bytesPerSector = maxSectorSize) (c v : ℕ) :
    Gives .univ (On D) (fatSetNextCluster h c v) () (On (h.set c v D)) :=
      fatSetCopies_gives hb _ _ c v

-- ---------------------------------------------------------------------------
-- The bits that change
-- ---------------------------------------------------------------------------

/-- Bits `a` to `b` of `v` are in their slots, and nothing else has changed. -/
structure SetBits (D D' : Disk) (slot : ℕ → ℕ × ℕ) (v a b : ℕ) : Prop where
  slots : ∀ j, a ≤ j → j < b → D'.bit (slot j) = v.testBit j
  others : ∀ x : ℕ × ℕ, x.2 < 4096 → (∀ j, a ≤ j → j < b → slot j ≠ x) → D'.bit x = D.bit x

theorem SetBits.append {slot : ℕ → ℕ × ℕ} (h₁ : SetBits D D₁ slot v a b)
    (h₂ : SetBits D₁ D₂ slot v b c)
    (hk : ∀ j, (slot j).2 < 4096) (hne : ∀ i j, a ≤ i → i < b → b ≤ j → j < c →
      slot j ≠ slot i) (hab : a ≤ b) (hbc : b ≤ c) :
    SetBits D D₂ slot v a c where
  slots j hj hj' := by
    rcases Nat.lt_or_ge j b with hlt | hge
    · rw [h₂.others _ (hk j) fun i hi hi' => hne j i hj hlt hi hi', h₁.slots j hj hlt]
    · exact h₂.slots j hge hj'
  others x hx hne := by
    rw [h₂.others x hx fun j hj hj' => hne j (by omega) hj', h₁.others x hx fun j hj hj' =>
      hne j hj (by omega)]

theorem Disk.bit_edit (D : Disk) (s : ℕ) (f : Sector → Sector) (x : ℕ × ℕ) :
    (D.edit s f).bit x = if x.1 = s then ByteMem.bit (f (D s)).mem x.2 else D.bit x := by
  unfold Disk.bit Disk.edit
  by_cases hx : x.1 = s
  · rw [if_pos hx, hx, Function.update_self]
  · rw [if_neg hx, Function.update_of_ne hx]

theorem Splice.setBits {slot : ℕ → ℕ × ℕ} {N : Sector → ℕ}
    (hs : ∀ b : Sector, Splice (8 * n) lo w d v (readLE b.mem o n) (N b))
    (hw : lo + w ≤ 8 * n) (ho : o + n ≤ maxSectorSize) (hslot : ∀ j, d ≤ j → j < d + w →
      slot j = (s, 8 * o + lo + (j - d))) :
    SetBits D (D.edit s fun b => b.put o n (N b)) slot v d (d + w) where
  slots j hj hj' := by
    unfold maxSectorSize at *
    rw [Disk.bit_edit, hslot j hj hj', if_pos rfl, (hs _).bit_put hw (by dsimp only; omega),
      if_pos (by dsimp only; omega)]
    congr 1
    dsimp only
    omega
  others x hx hne := by
    rw [Disk.bit_edit]
    split
    · rename_i hxs
      rw [(hs _).bit_put hw hx, if_neg]
      · rw [Disk.bit, hxs]
      · intro hin
        refine hne (x.2 - (8 * o + lo) + d) (by omega) (by omega) ?_
        rw [hslot _ (by omega) (by omega)]
        exact Prod.ext hxs.symm (by dsimp only; omega)
    · rfl

theorem Fat.slot_lt (h : Fat) (i c j : ℕ) : (h.slot i c j).2 < 4096 := Nat.mod_lt _ (by decide)

theorem Fat.fatSector_succ_ne (h : Fat) (i o : ℕ) :
    u32 (fatSector h i o + 1) ≠ fatSector h i o := by
  have := u32_lt (h.reservedSectorCount + u32 (i * h.fatSize) + o / h.bytesPerSector)
  unfold fatSector
  unfold u32 at *
  omega

theorem Fat.setStraddling_setBits (hb : h.bytesPerSector = maxSectorSize) (ht : h.type = .fat12)
    (i v : ℕ)
    (hlast : fatOffset h c % maxSectorSize = 511) :
    SetBits D (Fat.setStraddling (fatSector h i (fatOffset h c)) c v D) (h.slot i c) v 0 12 := by
  unfold Fat.setStraddling
  have hne := h.fatSector_succ_ne i (fatOffset h c)
  by_cases hodd : c % 2 = 1
  · have hn : h.nibble c = 4 := if_pos ⟨ht, hodd⟩
    rw [if_pos (by rw [Nat.and_one_is_mod]; omega)]
    have hin (j : ℕ) (hj : j < 4) := Fat.slot_in hb i (c := c) (j := j) (by omega)
    have hover (j : ℕ) (hj : 4 ≤ j) (hj' : j < 12) :=
      Fat.slot_over hb i (c := c) (j := j) (by omega) (by omega)
    refine SetBits.append (b :=
        4) (Splice.setBits (d := 0) (w := 4) (fun b => splice_oddLow v _) (by decide)
        (by decide) ?_)
      (Splice.setBits (d := 4) (w := 8) (fun b => splice_oddHigh v (readLE b.mem 0 1)) (by decide)
        (by decide) ?_)
      (h.slot_lt i c) ?_ (by decide) (by decide)
    · intro j _ hj
      rw [hin j (by omega), hlast, hn]
      rfl
    · intro j hj hj'
      rw [hover j hj (by omega)]
      exact Prod.ext rfl (by dsimp only; omega)
    · intro i' j _ hi' hj hj' heq
      rw [hin i' hi', hover j hj hj'] at heq
      exact hne (Prod.ext_iff.mp heq).1
  · have hn : h.nibble c = 0 := if_neg fun h => hodd h.2
    rw [if_neg (by rw [Nat.and_one_is_mod]; omega)]
    have hin (j : ℕ) (hj : j < 8) := Fat.slot_in hb i (c := c) (j := j) (by omega)
    have hover (j : ℕ) (hj : 8 ≤ j) (hj' : j < 12) :=
      Fat.slot_over hb i (c := c) (j := j) (by omega) (by omega)
    refine SetBits.append (b :=
        8) (Splice.setBits (d := 0) (w := 8) (fun b => splice_evenLow v (readLE b.mem 511 1))
        (by decide) (by decide) ?_)
      (Splice.setBits (d := 8) (w := 4) (fun b => splice_evenHigh v _) (by decide) (by decide) ?_)
      (h.slot_lt i c) ?_ (by decide) (by decide)
    · intro j _ hj
      rw [hin j (by omega), hlast, hn]
      rfl
    · intro j hj hj'
      rw [hover j hj (by omega)]
      exact Prod.ext rfl (by dsimp only; omega)
    · intro i' j _ hi' hj hj' heq
      rw [hin i' hi', hover j hj hj'] at heq
      exact hne (Prod.ext_iff.mp heq).1

theorem SetBits.value {slot : ℕ → ℕ × ℕ} (h : SetBits D D' slot v a b)
    (hv : ∀ j < b, v.testBit j = v'.testBit j) :
    SetBits D D' slot v' a b :=
  ⟨fun j hj hj' => (h.slots j hj hj').trans (hv j hj'), h.others⟩

theorem testBit_u16 (v : ℕ) (hj : j < 16) : (u16 v).testBit j = v.testBit j := by
  rw [u16, Nat.testBit_mod_two_pow, decide_eq_true hj, Bool.true_and]

theorem fatOffset_fat12 (ht : h.type = .fat12) (hc : c < 2 ^ 16) : fatOffset h c = c + c / 2 := by
  rw [fatOffset, ht]
  exact u32_of_lt (by omega)

theorem fatOffset_fat16 (ht : h.type = .fat16) (hc : c < 2 ^ 16) : fatOffset h c = c * 2 := by
  rw [fatOffset, ht]
  exact u32_of_lt (by omega)

theorem Fat.set12_setBits (hb : h.bytesPerSector = maxSectorSize) (ht : h.type = .fat12)
    (i c v : ℕ) :
    SetBits D (h.set12 i c v D) (h.slot i (u16 c)) v 0 12 := by
  have ho : u16 c + u16 c / 2 = fatOffset h (u16 c) :=
    (fatOffset_fat12 ht (Nat.mod_lt _ (by decide))).symm
  unfold Fat.set12
  dsimp only
  rw [hb, ho, show maxSectorSize - 1 = 511 from rfl]
  generalize u16 c = c at *
  refine SetBits.value (v := u16 v) ?_ fun j hj => testBit_u16 v (by omega)
  by_cases hlast : fatOffset h c % maxSectorSize = 511
  · rw [if_pos hlast]
    exact Fat.setStraddling_setBits hb ht i (u16 v) hlast
  · have hlt : fatOffset h c % maxSectorSize + 2 ≤ maxSectorSize := by
      unfold maxSectorSize at *
      omega
    rw [if_neg hlast]
    by_cases hodd : c % 2 = 1
    · have hn : h.nibble c = 4 := if_pos ⟨ht, hodd⟩
      rw [if_pos (by rw [Nat.and_one_is_mod]; omega)]
      refine Splice.setBits (d := 0) (w := 12) (fun b => splice_odd (u16 v) _) (by decide) hlt
        fun j _ hj => ?_
      rw [Fat.slot_in hb i (by unfold maxSectorSize at *; omega), hn]
      rfl
    · have hn : h.nibble c = 0 := if_neg fun h => hodd h.2
      rw [if_neg (by rw [Nat.and_one_is_mod]; omega)]
      refine Splice.setBits (d := 0) (w := 12) (fun b => splice_even (u16 v) _) (by decide) hlt
        fun j _ hj => ?_
      rw [Fat.slot_in hb i (by unfold maxSectorSize at *; omega), hn]
      rfl

theorem Fat.set16_setBits (hb : h.bytesPerSector = maxSectorSize) (ht : h.type = .fat16)
    (i c v : ℕ) :
    SetBits D (h.set16 i c v D) (h.slot i (u16 c)) v 0 16 := by
  have ho : u16 c * 2 = fatOffset h (u16 c) := (fatOffset_fat16 ht (Nat.mod_lt _ (by decide))).symm
  have h2 := fatOffset_even ht (u16 c)
  have hn : h.nibble (u16 c) = 0 := Fat.nibble_zero (by simp [ht])
  unfold Fat.set16
  dsimp only
  rw [hb, ho]
  refine Splice.setBits (d := 0) (w := 16) (fun b => splice_fat16 v (readLE b.mem _ 2)) (by decide)
    ?_ fun j _ hj => ?_
  · unfold maxSectorSize
    omega
  · rw [Fat.slot_in hb i (by unfold maxSectorSize at *; omega), hn]
    rfl

theorem Fat.set32_setBits (hb : h.bytesPerSector = maxSectorSize) (ht : h.type = .fat32)
    (i c v : ℕ) :
    SetBits D (h.set32 i c v D) (h.slot i c) v 0 28 := by
  have ho : u32 (c * 4) = fatOffset h c := by rw [fatOffset, ht]
  have h4 := fatOffset_quad ht c
  have hn : h.nibble c = 0 := Fat.nibble_zero (by simp [ht])
  unfold Fat.set32
  dsimp only
  rw [hb, ho]
  refine Splice.setBits (d := 0) (w := 28) (fun b => splice_fat32 v _) (by decide) ?_
    fun j _ hj => ?_
  · unfold maxSectorSize
    omega
  · rw [Fat.slot_in hb i (by unfold maxSectorSize at *; omega), hn]
    rfl

theorem Fat.setCopy_setBits (hb : h.bytesPerSector = maxSectorSize) (i c v : ℕ) :
    SetBits D (h.setCopy i c v D) (h.slot i (h.setCluster c)) v 0 h.width := by
  unfold Fat.setCopy Fat.setCluster Fat.width
  cases ht : h.type with
  | fat12 => exact Fat.set12_setBits hb ht i c v
  | fat16 => exact Fat.set16_setBits hb ht i c v
  | fat32 => exact Fat.set32_setBits hb ht i c v

theorem Fat.setCopies_others (hb : h.bytesPerSector = maxSectorSize) (n i : ℕ) (hx : x.2 < 4096)
    (hne : ∀ k, i ≤ k → k < i + n → ∀ j < h.width, h.slot k (h.setCluster c) j ≠ x) :
    (h.setCopies c v n i D).bit x = D.bit x := by
  induction n generalizing i D with
  | zero => rfl
  | succ n ih =>
    rw [Fat.setCopies, ih (i + 1) fun k hk hk' => hne k (by omega) (by omega)]
    exact (Fat.setCopy_setBits hb i c v).others x hx fun j _ hj => hne i le_rfl (by omega) j hj

theorem Fat.set_others (hb : h.bytesPerSector = maxSectorSize) (hx : x.2 < 4096)
    (hne : ∀ k < h.numFats, ∀ j < h.width, h.slot k (h.setCluster c) j ≠ x) :
    (h.set c v D).bit x = D.bit x :=
  Fat.setCopies_others hb _ _ hx fun k _ hk => hne k (by omega)

end

end SkyOS
