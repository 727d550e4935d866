import SkyOS.Mm.MapLaws

/-!
# The memory that kalloc has handed out

`Owned L s P`: the blocks held by callers are the bytes `P`. That is all the
rest of the kernel needs to know of the allocator: a block that `kalloc`
returns is new, and becomes a part of `P`.
-/

namespace SkyOS

def heldBytes (L : Layout) (B : Set Block) : Set ℕ :=
  {x | ∃ b ∈ B, b.free = false ∧ pgAddr L b.start ≤ x ∧ x < pgAddr L (b.start + b.len)}

def Owned (L : Layout) (s : Buddy) (P : Set ℕ) : Prop :=
  ∃ live ls B, Partition ⟨s, live⟩ ls B ∧ heldBytes L B = P

section
variable {L : Layout} {s s' : Buddy} {P : Set ℕ}

theorem pgAddr_add (L : Layout) (i n : ℕ) : pgAddr L (i + n) = pgAddr L i + n * pgSize := by
  simp only [pgAddr]
  ring

theorem pgAddr_dvd (L : Layout) (i : ℕ) : pgSize ∣ pgAddr L i :=
  L.aligned.add ⟨i, Nat.mul_comm i pgSize⟩

theorem pgAddr_end (L : Layout) (h : i + n ≤ npage) : pgAddr L i + n * pgSize ≤ L.pmmEnd := by
  rw [npage_eq] at h
  simp only [pgAddr, Layout.pmmEnd, memSize, pgSize]
  omega

theorem Rep.block_unique (h : Rep s ls B) (hb : b ∈ B) (hc : c ∈ B) (h1 : pgAddr L b.start ≤ x)
    (h2 : x < pgAddr L (b.start + b.len)) (h3 : pgAddr L c.start ≤ x)
    (h4 : x < pgAddr L (c.start + c.len)) : b = c := by
  simp only [pgAddr, pgSize] at h1 h2 h3 h4
  refine h.tiles.unique b hb c hc ((x - L.pmmStart) / 2 ^ 12) ?_ ?_ ?_ ?_ <;> omega

theorem owned_init (L : Layout) (b : Buddy) : Owned L (buddyInit b) ∅ := by
  refine ⟨_, _, _, partition_init b, Set.eq_empty_iff_forall_notMem.mpr ?_⟩
  rintro x ⟨c, hc | hc, hf, -⟩ <;> simp [hc] at hf

structure Granted (L : Layout) (P : Set ℕ) (a size : ℕ) (s' : Buddy) : Prop where
  owned : Owned L s' (P ∪ blockBytes a size)
  apart : Disjoint P (blockBytes a size)
  page : pgSize ∣ a
  start : L.pmmStart ≤ a
  stop : a + kallocLen size ≤ L.pmmEnd

theorem Owned.grant (h : Owned L s P) (ha : kalloc L size s = .ok (a, s')) :
    Granted L P a size s' := by
  obtain ⟨live, ls, B, hp, rfl⟩ := h
  obtain ⟨p, hp', rfl⟩ := kalloc_ok.mp ha
  obtain ⟨m, hm, hle, hmem, hnew, -⟩ := partition_alloc hp hp'
  have hrep : Rep s ls B := hp.rep
  change kallocOrder size ≤ m at hle
  change Partition _ _ (carve B p (kallocOrder size) m) at hnew
  have hblk : blockBytes (pgAddr L p) size =
      Set.Ico (pgAddr L p) (pgAddr L (p + 2 ^ kallocOrder size)) := by
    rw [blockBytes, pgAddr_add, kallocLen]
  have hend : p + 2 ^ m ≤ npage := hrep.end_le hmem
  have hpow : 2 ^ kallocOrder size ≤ 2 ^ m := Nat.pow_le_pow_right (by omega) hle
  refine ⟨⟨_, _, _, hnew, ?_⟩, ?_, pgAddr_dvd L p, ?_, ?_⟩
  · rw [hblk]
    ext x
    constructor
    · rintro ⟨b, ⟨hb, -⟩ | rfl | ⟨j, -, -, rfl⟩, hf, h1, h2⟩
      · exact .inl ⟨b, hb, hf, h1, h2⟩
      · exact .inr ⟨h1, h2⟩
      · simp at hf
    · rintro (⟨b, hb, hf, h1, h2⟩ | ⟨h1, h2⟩)
      · refine ⟨b, .inl ⟨hb, ?_⟩, hf, h1, h2⟩
        rintro rfl
        simp at hf
      · exact ⟨_, .inr (.inl rfl), rfl, h1, h2⟩
  · rw [hblk, Set.disjoint_left]
    rintro x ⟨b, hb, hf, h1, h2⟩ ⟨h3, h4⟩
    have hle' : pgAddr L (p + 2 ^ kallocOrder size) ≤ pgAddr L (p + 2 ^ m) := by
      simp only [pgAddr_add, pgSize]
      omega
    obtain rfl : b = ⟨p, m, true⟩ := hrep.block_unique hb hmem h1 h2 h3 (h4.trans_le hle')
    simp at hf
  · simp only [pgAddr]
    omega
  · exact pgAddr_end L (by omega)

theorem Layout.pmmEnd_lt (L : Layout) : L.pmmEnd < 2 ^ 32 := by
  have h := L.small
  simp only [Layout.pmmEnd, Layout.pmmStart, memSize, kernelStart] at *
  omega

-- ---------------------------------------------------------------------------
-- Single pages
-- ---------------------------------------------------------------------------

theorem blockBytes_page (a : ℕ) : blockBytes a pgSize = {x | InPage a x} := by
  rw [blockBytes, show kallocLen pgSize = pgSize by decide]
  rfl

theorem Granted.new (h : Granted L P a pgSize s') (x : ℕ) (hx : InPage a x) : x ∉ P := fun hP => by
  have := Set.disjoint_left.mp h.apart hP
  rw [blockBytes_page] at this
  exact this hx

def pageBytes (l : List ℕ) : Set ℕ := {x | ∃ a ∈ l, InPage a x}

/-- Pages handed out one at a time are new and all different. -/
structure GrantedPages (L : Layout) (P : Set ℕ) (l : List ℕ) (s' : Buddy) : Prop where
  owned : Owned L s' (P ∪ pageBytes l)
  nodup : l.Nodup
  page : ∀ a ∈ l, pgSize ∣ a
  start : ∀ a ∈ l, L.pmmStart ≤ a
  stop : ∀ a ∈ l, a + pgSize ≤ L.pmmEnd
  new : ∀ a ∈ l, ∀ x, InPage a x → x ∉ P

theorem Owned.draws (h : Owned L s P) (hd : Draws (kalloc L pgSize) s l s') :
    GrantedPages L P l s' := by
  induction hd generalizing P with
  | nil => exact ⟨by simpa [pageBytes] using h, by simp, by simp, by simp, by simp, by simp⟩
  | @cons s a s₁ l s' ha _ ih =>
    obtain ⟨h1, h2, h3, h4, h5⟩ := h.grant ha
    rw [blockBytes_page] at h1 h2
    rw [show kallocLen pgSize = pgSize by decide] at h5
    obtain ⟨g1, g2, g3, g4, g5, g6⟩ := ih h1
    have hown : P ∪ {x | InPage a x} ∪ pageBytes l = P ∪ pageBytes (a :: l) := by
      ext x
      simp [pageBytes, or_assoc]
    refine ⟨hown ▸ g1, List.nodup_cons.mpr ⟨fun hm => ?_, g2⟩, ?_, ?_, ?_, ?_⟩
    · exact g6 a hm a ⟨le_rfl, by simp only [pgSize]; omega⟩
        (.inr ⟨le_rfl, by simp only [pgSize]; omega⟩)
    · exact List.forall_mem_cons.mpr ⟨h3, g3⟩
    · exact List.forall_mem_cons.mpr ⟨h4, g4⟩
    · exact List.forall_mem_cons.mpr ⟨h5, g5⟩
    · refine List.forall_mem_cons.mpr ⟨fun x hx hP => ?_, fun b hb x hx hP => ?_⟩
      · exact Set.disjoint_left.mp h2 hP hx
      · exact g6 b hb x hx (.inl hP)

theorem Owned.kalloc_page (h : Owned L s P) (hi : i < npage) (hP : pgAddr L i ∉ P) :
    ∃ a s', kalloc L pgSize s = .ok (a, s') := by
  obtain ⟨live, ls, B, hp, rfl⟩ := h
  have hrep : Rep s ls B := hp.rep
  obtain ⟨⟨j, k, f⟩, hb, h1, h2⟩ := hrep.tiles.cover i hi
  have hfree : f = true := by
    cases f with
    | true => rfl
    | false =>
      refine absurd ⟨_, hb, rfl, ?_, ?_⟩ hP
      · simp only [pgAddr, pgSize] at *
        omega
      · simp only [pgAddr, pgSize] at *
        omega
  subst hfree
  have hk : k < buddyMaxOrder := hrep.order _ hb
  obtain ⟨p, s', hs⟩ := buddyAllocate_served hrep
    ⟨k, (show size2order pgSize = 0 by decide) ▸ Nat.zero_le k, hk,
      List.ne_nil_of_mem ((hrep.listed k hk j).mpr hb)⟩
  exact ⟨_, s', kalloc_ok.mpr ⟨p, hs, rfl⟩⟩

theorem draws_init (L : Layout) (b : Buddy) (hn : n ≤ npage) :
    ∃ l s', Draws (kalloc L pgSize) (buddyInit b) l s' ∧ l.length = n := by
  induction n with
  | zero => exact ⟨[], _, .nil, rfl⟩
  | succ n ih =>
    obtain ⟨l, s, hd, hl⟩ := ih (by omega)
    obtain ⟨hown, -, hpage, -, -, -⟩ := (owned_init L b).draws hd
    -- fewer pages than there are have been handed out
    obtain ⟨i, hi, hil⟩ : ∃ i < npage, pgAddr L i ∉ l := by
      by_contra hcon
      push Not at hcon
      have hinj : Function.Injective (pgAddr L) := fun i j hij => by
        simp only [pgAddr, pgSize] at hij
        omega
      have hsub : (Finset.range npage).image (pgAddr L) ⊆ l.toFinset := fun x hx => by
        obtain ⟨i, hi, rfl⟩ := Finset.mem_image.mp hx
        exact List.mem_toFinset.mpr (hcon i (Finset.mem_range.mp hi))
      have := (Finset.card_le_card hsub).trans l.toFinset_card_le
      rw [Finset.card_image_of_injective _ hinj, Finset.card_range] at this
      omega
    have hP : pgAddr L i ∉ ∅ ∪ pageBytes l := by
      rintro (hx | ⟨a, ha, h1, h2⟩)
      · exact hx
      · obtain ⟨c, rfl⟩ := hpage a ha
        obtain ⟨d, hd⟩ := pgAddr_dvd L i
        rw [hd] at h1 h2 hil
        have : c = d := by
          simp only [pgSize] at h1 h2
          omega
        exact hil (this ▸ ha)
    obtain ⟨a, s', ha⟩ := hown.kalloc_page hi hP
    exact ⟨l ++ [a], s', hd.append (.cons ha .nil), by simp [hl]⟩

def Supply (L : Layout) (s : Buddy) (n : ℕ) : Prop :=
  ∃ l s', Draws (kalloc L pgSize) s l s' ∧ l.length = n

theorem Supply.take (h : Supply L s n) (hm : m ≤ n) :
    ∃ l s', Draws (kalloc L pgSize) s l s' ∧ l.length = m ∧ Supply L s' (n - m) := by
  obtain ⟨l, s', hd, rfl⟩ := h
  obtain ⟨s₁, h1, h2⟩ := hd.split m
  exact ⟨_, s₁, h1, List.length_take_of_le hm, _, s', h2, List.length_drop⟩

theorem Supply.mono (h : Supply L s n) (hm : m ≤ n) : Supply L s m := by
  obtain ⟨l, s', hd, hl, -⟩ := h.take hm
  exact ⟨l, s', hd, hl⟩

end

end SkyOS
