import SkyOS.Mm.Buddy
import SkyOS.Lib.Tiling

/-!
# What the allocator's operations do

`Rep s ls B`: the allocator state `s` has the free lists `ls` and its pages
are the blocks `B`. Each operation of `mm/buddy.c` gets one law that says what
it does to `ls` and to `B`; nothing later unfolds the operations. Only the
entry that heads a block is ever read, so the other entries of `pages` stay
unconstrained.
-/

namespace SkyOS

open CircList Tiling

/-- `2 ^ order` pages from `start` on, free or allocated. -/
@[ext] structure Block where
  start : ℕ
  order : ℕ
  free : Bool
  deriving DecidableEq

def Block.len (b : Block) : ℕ := 2 ^ b.order

def Block.page (b : Block) : Page := ⟨b.order, if b.free then 1 else 0, pgHead⟩

abbrev orders : Set ℕ := {k | k < buddyMaxOrder}

def Ringed (L : Links ListPtr) (ls : ℕ → List ℕ) : Prop :=
  Rings orders L ListPtr.list fun k => (ls k).map ListPtr.page

structure Rep (s : Buddy) (ls : ℕ → List ℕ) (B : Set Block) : Prop where
  ringed : Ringed s.links ls
  nr : ∀ k < buddyMaxOrder, s.nr k = (ls k).length
  listed : ∀ k < buddyMaxOrder, ∀ i, i ∈ ls k ↔ ⟨i, k, true⟩ ∈ B
  order : ∀ b ∈ B, b.order < buddyMaxOrder
  page : ∀ b ∈ B, s.pages b.start = b.page
  tiles : Tiles Block.start Block.len npage B

/-- The step from `s` to `s'` turns the blocks `B` into `B'`. It writes only
entries that head a block; a head that heads none afterwards is a free tail. -/
structure Moved (B B' : Set Block) (s s' : Buddy) : Prop where
  kept : ∀ j, (∀ b ∈ B, b.start ≠ j) → (∀ b ∈ B', b.start ≠ j) → s'.pages j = s.pages j
  tail : ∀ b ∈ B, (∀ c ∈ B', c.start ≠ b.start) →
    (s'.pages b.start).flag = pgTail ∧ (s'.pages b.start).free = 1

theorem buddyMaxOrder_eq : buddyMaxOrder = 14 := rfl

theorem npage_eq : npage = 2 ^ 14 := rfl

-- ---------------------------------------------------------------------------
-- Links
-- ---------------------------------------------------------------------------

theorem map_page_update (ls : ℕ → List ℕ) (k : ℕ) (l : List ℕ) :
    (fun j => (Function.update ls k l j).map ListPtr.page) =
      Function.update (fun j => (ls j).map ListPtr.page) k (l.map .page) := by
  funext j
  by_cases hj : j = k
  · subst hj; simp
  · simp [hj]

theorem Ringed.append (h : Ringed L ls) (hk : k < buddyMaxOrder)
    (hi : ∀ j < buddyMaxOrder, i ∉ ls j) :
    Ringed (listAppend L (.page i) (.list k)) (Function.update ls k (ls k ++ [i])) := by
  rw [Ringed, map_page_update, List.map_append]
  exact Rings.insertBefore h (k := k) hk (x := .page i) fun j hj => by simpa using hi j hj

theorem Ringed.del (h : Ringed L ls) (hk : k < buddyMaxOrder) (hl : ls k = l ++ i :: r) :
    Ringed (listDel L (.page i)) (Function.update ls k (l ++ r)) := by
  rw [Ringed, map_page_update, List.map_append]
  exact Rings.remove h hk (by simp [hl])

theorem Ringed.first (h : Ringed L ls) (hk : k < buddyMaxOrder) (hl : ls k = i :: l) :
    L.next (.list k) = .page i := by
  have := h.ring k hk
  simp only [hl, List.map_cons] at this
  exact this.next_head

theorem Ringed.nodup (h : Ringed L ls) (hk : k < buddyMaxOrder) : (ls k).Nodup :=
  .of_map _ (List.nodup_cons.mp (h.ring k hk).nodup).2

-- ---------------------------------------------------------------------------
-- Blocks
-- ---------------------------------------------------------------------------

section
variable {s : Buddy} {ls : ℕ → List ℕ} {B : Set Block}

theorem Block.len_pos (b : Block) : 0 < b.len := Nat.two_pow_pos _

theorem Rep.end_le (h : Rep s ls B) (hb : b ∈ B) : b.start + b.len ≤ npage := h.tiles.inside b hb

theorem Rep.start_lt (h : Rep s ls B) (hb : b ∈ B) : b.start < npage := by
  have := h.end_le hb
  have := b.len_pos
  omega

theorem Rep.eq_of_start (h : Rep s ls B) (hb : b ∈ B) (hc : c ∈ B) (he : b.start = c.start) :
    b = c := h.tiles.eq_of_lo hb hc he

theorem Rep.start_ne (h : Rep s ls B) (hb : b ∈ B) (hc : c ∈ B) (h0 : 0 < d) (hlt : d < b.len) :
    c.start ≠ b.start + d := by
  intro he
  have hpos := c.len_pos
  have := h.tiles.unique c hc b hb c.start le_rfl (by omega) (by omega) (by omega)
  subst this
  omega

theorem Rep.length_le (h : Rep s ls B) (hk : k < buddyMaxOrder) : (ls k).length ≤ npage := by
  have : (ls k).Subperm (List.range npage) := (h.ringed.nodup hk).subperm
    fun i hi => List.mem_range.mpr (h.start_lt ((h.listed k hk i).mp hi))
  simpa using this.length_le

theorem Rep.not_listed (h : Rep s ls B) (hb : b ∈ B) (hk : k < buddyMaxOrder)
    (hne : b.order ≠ k ∨ b.free = false) : b.start ∉ ls k := by
  intro hm
  have he := h.eq_of_start hb ((h.listed k hk _).mp hm) rfl
  rw [he] at hne
  simp at hne

theorem Moved.past (hm : Moved B B' s s') (h : Rep s ls B) (h' : Rep s' ls' B') :
    ∀ j ≥ npage, s'.pages j = s.pages j := fun j hj =>
  hm.kept j (fun _ hb => ((h.start_lt hb).trans_le hj).ne) fun _ hb =>
    ((h'.start_lt hb).trans_le hj).ne

theorem Moved.of_heads (hsub : ∀ b ∈ B, ∃ c ∈ B', c.start = b.start)
    (hk : ∀ j, (∀ c ∈ B', c.start ≠ j) → s'.pages j = s.pages j) : Moved B B' s s' :=
  ⟨fun j _ => hk j, fun b hb hno => by
    obtain ⟨c, hc, he⟩ := hsub b hb
    exact absurd he (hno c hc)⟩

theorem Moved.refl (B : Set Block) (s : Buddy) : Moved B B s s :=
  ⟨fun _ _ _ => rfl, fun b hb hno => absurd rfl (hno b hb)⟩

theorem Moved.trans (h₁ : Moved B B' s s') (h₂ : Moved B' B'' s' s'')
    (hbtw : ∀ b ∈ B', (∃ c ∈ B, c.start = b.start) ∨ ∃ c ∈ B'', c.start = b.start) :
    Moved B B'' s s'' := by
  constructor
  · intro j hj hj''
    have hj' : ∀ b ∈ B', b.start ≠ j := by
      rintro b hb rfl
      rcases hbtw b hb with ⟨c, hc, he⟩ | ⟨c, hc, he⟩
      · exact hj c hc he
      · exact hj'' c hc he
    rw [h₂.kept j hj' hj'', h₁.kept j hj hj']
  · intro b hb hno
    by_cases hb' : ∃ c ∈ B', c.start = b.start
    · obtain ⟨c, hc, he⟩ := hb'
      rw [← he] at hno ⊢
      exact h₂.tail c hc hno
    · push Not at hb'
      rw [h₂.kept _ hb' hno]
      exact h₁.tail b hb hb'

-- ---------------------------------------------------------------------------
-- Taking a block off its list
-- ---------------------------------------------------------------------------

def take (s : Buddy) (i k : ℕ) : Buddy where
  pages := Function.update s.pages i { s.pages i with free := 0 }
  links := listDel s.links (.page i)
  nr := Function.update s.nr k (u64Dec (s.nr k))

theorem take_ok (h : Rep s ls B) (hb : ⟨i, k, true⟩ ∈ B) (hl : ls k = l ++ i :: r)
    (hi : i ∉ l ++ r) :
    Rep (take s i k) (Function.update ls k (l ++ r))
      {b | b ∈ B ∧ b ≠ ⟨i, k, true⟩ ∨ b = ⟨i, k, false⟩} := by
  have hk : k < buddyMaxOrder := h.order _ hb
  constructor
  · exact h.ringed.del hk hl
  · intro j hj
    by_cases hjk : j = k
    · subst hjk
      have hnr := h.nr j hj
      rw [hl] at hnr
      simp only [List.length_append, List.length_cons, ← Nat.add_assoc] at hnr
      simp [take, hnr]
    · simp [take, hjk, h.nr j hj]
  · intro j hj x
    have hx := h.listed j hj x
    by_cases hjk : j = k
    · subst hjk
      rw [hl] at hx
      by_cases hxi : x = i
      · subst hxi; simpa using hi
      · simpa [hxi] using hx
    · simpa [hjk] using hx
  · rintro b (⟨hbB, -⟩ | rfl)
    · exact h.order b hbB
    · exact hk
  · rintro b (⟨hbB, hne⟩ | rfl)
    · have : b.start ≠ i := fun he => hne (h.eq_of_start hbB hb he)
      simp [take, this, h.page b hbB]
    · simp [take, h.page _ hb, Block.page]
  · exact h.tiles.relabel (c := ⟨i, k, false⟩) hb rfl rfl fun d => Iff.rfl

-- ---------------------------------------------------------------------------
-- Splitting
-- ---------------------------------------------------------------------------

theorem splitChunk_eq (hnext : s.links.next (.list (k + 1)) = .page i)
    (hpage : s.pages i = ⟨k + 1, 1, pgHead⟩) :
    splitChunk (k + 1) s = .ok (i,
      { pages := Function.update (Function.update s.pages i ⟨k, 1, pgHead⟩) (i + 2 ^ k)
          ⟨k, 1, pgHead⟩
        links := listAppend (listAppend (listDel s.links (.page i)) (.page i) (.list k))
          (.page (i + 2 ^ k)) (.list k)
        nr := Function.update (Function.update s.nr (k + 1) (u64Dec (s.nr (k + 1)))) k
          (u64 (s.nr k + 2)) }) := by
  have hne : i ≠ i + 2 ^ k := by have := Nat.two_pow_pos k; omega
  simp only [splitChunk, hnext, le2page, Buddy.del, Buddy.append, Buddy.setPage, Buddy.setNr, hpage,
    u32Dec_succ, getBuddyPage, ok_bind, pure_ok, Prod.mk.injEq, true_and, Nat.one_shiftLeft,
    Function.update_self, Function.update_of_ne hne, Function.update_of_ne hne.symm,
    Function.update_idem, Nat.add_sub_cancel]
  rw [Function.update_comm hne.symm, Function.update_idem, Function.update_idem,
    Function.update_of_ne (by omega : k ≠ k + 1)]

def halveLists (ls : ℕ → List ℕ) (i k : ℕ) : ℕ → List ℕ :=
  Function.update (Function.update ls (k + 1) (ls (k + 1)).tail) k (ls k ++ [i, i + 2 ^ k])

/-- The blocks after the free block `i` of order `k + 1` is halved. -/
def halve (B : Set Block) (i k : ℕ) : Set Block :=
  {b | b ∈ B ∧ b ≠ ⟨i, k + 1, true⟩ ∨ b = ⟨i, k, true⟩ ∨ b = ⟨i + 2 ^ k, k, true⟩}

theorem half_not_start (h : Rep s ls B) (hb : ⟨i, k + 1, true⟩ ∈ B) (hc : c ∈ B) :
    c.start ≠ i + 2 ^ k :=
  h.start_ne hb hc (Nat.two_pow_pos k) (by simp [Block.len, Nat.pow_succ])

theorem halve_ringed (h : Rep s ls B) (hb : ⟨i, k + 1, true⟩ ∈ B) (hl : ls (k + 1) = i :: l) :
    Ringed (listAppend (listAppend (listDel s.links (.page i)) (.page i) (.list k))
      (.page (i + 2 ^ k)) (.list k)) (halveLists ls i k) := by
  have hk : k + 1 < buddyMaxOrder := h.order _ hb
  have hkk : k ≠ k + 1 := by omega
  have hne : i + 2 ^ k ≠ i := by have := Nat.two_pow_pos k; omega
  have hil : i ∉ l := by
    have := h.ringed.nodup hk
    rw [hl] at this
    exact (List.nodup_cons.mp this).1
  -- neither half is on a list once `i` is unlinked
  have hi : ∀ j < buddyMaxOrder, i ∉ Function.update ls (k + 1) l j := by
    intro j hj hm
    by_cases hjk : j = k + 1
    · subst hjk; simp at hm; exact hil hm
    · rw [Function.update_of_ne hjk] at hm
      exact h.not_listed hb hj (.inl (Ne.symm hjk)) hm
  have hi2 : ∀ j < buddyMaxOrder,
      i + 2 ^ k ∉ Function.update (Function.update ls (k + 1) l) k (ls k ++ [i]) j := by
    intro j hj hm
    have hm : i + 2 ^ k ∈ ls j := by
      by_cases hjk : j = k
      · subst hjk; simpa [hne] using hm
      · by_cases hjk' : j = k + 1
        · subst hjk'; simp at hm; simp [hl, hm]
        · simpa [hjk, hjk'] using hm
    exact half_not_start h hb ((h.listed j hj _).mp hm) rfl
  have h2 := ((h.ringed.del (l := []) hk hl).append (k := k) (by omega) hi).append (k :=
      k) (by omega)
    (by simpa [hkk] using hi2)
  simpa [halveLists, hkk, hl] using h2

theorem splitChunk_ok (h : Rep s ls B) (hk : k + 1 < buddyMaxOrder) (hl : ls (k + 1) = i :: l) :
    ∃ s', splitChunk (k + 1) s = .ok (i, s') ∧ Rep s' (halveLists ls i k) (halve B i k) ∧
      Moved B (halve B i k) s s' := by
  have hM := buddyMaxOrder_eq
  have hkk : k ≠ k + 1 := by omega
  have hb : ⟨i, k + 1, true⟩ ∈ B := (h.listed _ hk i).mp (by simp [hl])
  have hpos := Nat.two_pow_pos k
  have hend := h.end_le hb
  simp only [Block.len, Nat.pow_succ] at hend
  refine ⟨_, splitChunk_eq (h.ringed.first hk hl) (h.page _ hb), ?_, ?_⟩
  · constructor
    · exact halve_ringed h hb hl
    · intro j hj
      have hlen := h.length_le hj
      have hnr := h.nr j hj
      rw [npage_eq] at hlen
      by_cases hjk : j = k
      · subst hjk
        simp [halveLists, hnr, u64_of_lt (show (ls j).length + 2 < 2 ^ 64 by omega)]
      · by_cases hjk' : j = k + 1
        · subst hjk'
          rw [hl, List.length_cons] at hnr
          simp [halveLists, hnr, hl]
        · simp [halveLists, hjk, hjk', hnr]
    · intro j hj x
      have hx := h.listed j hj x
      by_cases hjk : j = k
      · subst hjk; simp [halveLists, halve, hx]
      · by_cases hjk' : j = k + 1
        · subst hjk'
          have hnd := h.ringed.nodup hj
          rw [hl] at hx hnd
          by_cases hxi : x = i
          · subst hxi; simpa [halveLists, halve, hl] using (List.nodup_cons.mp hnd).1
          · simpa [halveLists, halve, hl, hxi] using hx
        · simp [halveLists, halve, hx, hjk, hjk']
    · rintro b (⟨hbB, -⟩ | rfl | rfl)
      · exact h.order b hbB
      · simp; omega
      · simp; omega
    · rintro b (⟨hbB, hne⟩ | rfl | rfl)
      · have h1 : b.start ≠ i := fun he => hne (h.eq_of_start hbB hb he)
        simp [h1, half_not_start h hb hbB, h.page b hbB]
      · simp [Block.page]
      · simp [Block.page]
    · refine h.tiles.split hb (c := ⟨i, k, true⟩) (d := ⟨i + 2 ^ k, k, true⟩) rfl rfl ?_ hpos hpos
        fun e => Iff.rfl
      simp [Block.len, Nat.pow_succ]
      omega
  · refine .of_heads (fun b hbB => ?_) fun j hj => ?_
    · by_cases hbi : b = ⟨i, k + 1, true⟩
      · exact ⟨⟨i, k, true⟩, .inr (.inl rfl), by rw [hbi]⟩
      · exact ⟨b, .inl ⟨hbB, hbi⟩, rfl⟩
    · have h1 : i ≠ j := hj ⟨i, k, true⟩ (.inr (.inl rfl))
      have h2 : i + 2 ^ k ≠ j := hj ⟨i + 2 ^ k, k, true⟩ (.inr (.inr rfl))
      simp only [Function.update_apply]
      rw [if_neg h2.symm, if_neg h1.symm]

/-- The free halves left behind when the block `i` is cut from order `large`
down to order `small`. -/
def leftover (i small large : ℕ) : Set Block :=
  {b | ∃ j, small ≤ j ∧ j < large ∧ b = ⟨i + 2 ^ j, j, true⟩}

def splitLists (ls : ℕ → List ℕ) (i small large : ℕ) : ℕ → List ℕ := fun j =>
  if j = large then (ls large).tail
  else if j = small then [i, i + 2 ^ j]
  else if small < j ∧ j < large then [i + 2 ^ j] else ls j

theorem splitLists_halve (hst : small < t) (he : ls t = []) :
    splitLists (halveLists ls i t) i small t = splitLists ls i small (t + 1) := by
  funext j
  simp only [splitLists, halveLists]
  grind

theorem leftover_succ (hst : small ≤ t) :
    b ∈ leftover i small (t + 1) ↔ b ∈ leftover i small t ∨ b = ⟨i + 2 ^ t, t, true⟩ := by
  constructor
  · rintro ⟨j, h1, h2, rfl⟩
    rcases Nat.lt_succ_iff_lt_or_eq.mp h2 with h2 | rfl
    · exact .inl ⟨j, h1, h2, rfl⟩
    · exact .inr rfl
  · rintro (⟨j, h1, h2, rfl⟩ | rfl)
    · exact ⟨j, h1, by omega, rfl⟩
    · exact ⟨t, hst, by omega, rfl⟩

theorem leftover_self : b ∉ leftover i k k := by
  rintro ⟨j, h1, h2, -⟩
  omega

/-- The blocks after the free block `i` of order `large` is cut down to order `small`. -/
def cutDown (B : Set Block) (i small large : ℕ) : Set Block :=
  {b | b ∈ B ∧ b ≠ ⟨i, large, true⟩ ∨ b = ⟨i, small, true⟩ ∨ b ∈ leftover i small large}

theorem halve_cutDown : halve B i k = cutDown B i k (k + 1) := by
  ext b
  simp [halve, cutDown, leftover_succ, leftover_self]

theorem cutDown_halve (h : Rep s ls B) (hb : ⟨i, t + 1 + 1, true⟩ ∈ B) (hst : small ≤ t + 1) :
    cutDown (halve B i (t + 1)) i small (t + 1) = cutDown B i small (t + 1 + 1) := by
  ext b
  have : ⟨i, t + 1, true⟩ ∉ B := fun hm => by simpa using h.eq_of_start hm hb rfl
  simp only [cutDown, halve, leftover_succ hst, Set.mem_ofPred_eq]
  grind

theorem splitLoop_ok (h : Rep s ls B) (ht : t + 1 < buddyMaxOrder) (hst : small ≤ t)
    (hl : ls (t + 1) = i :: l) (he : ∀ j, small ≤ j → j ≤ t → ls j = []) :
    ∃ s', splitLoop small (t + 1) s = .ok (i, s') ∧ Rep s' (splitLists ls i small (t + 1))
      (cutDown B i small (t + 1)) ∧ Moved B (cutDown B i small (t + 1)) s s' := by
  induction t generalizing s ls B l with
  | zero =>
    obtain rfl : small = 0 := by omega
    obtain ⟨s1, h1, hr, hp⟩ := splitChunk_ok h ht hl
    rw [halve_cutDown] at hr hp
    refine ⟨s1, by simp [splitLoop, h1], ?_, hp⟩
    convert hr using 1
    funext j
    simp only [splitLists, halveLists, he 0 le_rfl le_rfl]
    grind
  | succ t ih =>
    obtain ⟨s1, h1, hr, hp⟩ := splitChunk_ok h ht hl
    have hb : ⟨i, t + 1 + 1, true⟩ ∈ B := (h.listed _ ht i).mp (by simp [hl])
    by_cases hs : small ≤ t
    · obtain ⟨s', h2, hr', hp'⟩ := ih hr (by omega) hs (l := [i + 2 ^ (t + 1)])
        (by simp [halveLists, he (t + 1) hst le_rfl]) fun j h3 h4 => by
          simp [halveLists, show j ≠ t + 1 by omega, show j ≠ t + 1 + 1 by omega,
            he j h3 (by omega)]
      rw [cutDown_halve h hb hst] at hr' hp'
      refine ⟨s', ?_, ?_, hp.trans hp' ?_⟩
      · rw [splitLoop, h1, ok_bind]
        simpa [show small < t + 1 by omega] using h2
      · rwa [splitLists_halve (by omega) (he _ hst le_rfl)] at hr'
      · rintro b (⟨hbB, -⟩ | rfl | rfl)
        · exact .inl ⟨b, hbB, rfl⟩
        · exact .inl ⟨_, hb, rfl⟩
        · exact .inr ⟨_, .inr (.inr ⟨t + 1, hst, by omega, rfl⟩), rfl⟩
    · obtain rfl : small = t + 1 := by omega
      rw [halve_cutDown] at hr hp
      refine ⟨s1, by simp [splitLoop, h1], ?_, hp⟩
      convert hr using 1
      funext j
      simp only [splitLists, halveLists, he (t + 1) le_rfl le_rfl]
      grind

-- ---------------------------------------------------------------------------
-- Allocation
-- ---------------------------------------------------------------------------

/-- The lists after the first block `i` of order `large` serves order `small`. -/
def carveLists (ls : ℕ → List ℕ) (i small large : ℕ) : ℕ → List ℕ := fun j =>
  if j = large then (ls large).tail
  else if small ≤ j ∧ j < large then [i + 2 ^ j] else ls j

/-- The blocks after the free block `i` of order `large` serves order `small`. -/
def carve (B : Set Block) (i small large : ℕ) : Set Block :=
  {b | b ∈ B ∧ b ≠ ⟨i, large, true⟩ ∨ b = ⟨i, small, false⟩ ∨ b ∈ leftover i small large}

/-- A page that heads a block still heads one when a block has been served. -/
theorem carve_heads (B : Set Block) (i small large : ℕ) :
    ∀ b ∈ B, ∃ c ∈ carve B i small large, c.start = b.start := by
  intro b hb
  by_cases hbi : b = ⟨i, large, true⟩
  · exact ⟨⟨i, small, false⟩, .inr (.inl rfl), by rw [hbi]⟩
  · exact ⟨b, .inl ⟨hb, hbi⟩, rfl⟩

theorem not_head_of_carve (hj : ∀ c ∈ carve B i small large, c.start ≠ j) :
    ∀ b ∈ B, b.start ≠ j := fun b hb he => by
  obtain ⟨c, hc, hcs⟩ := carve_heads B i small large b hb
  exact hj c hc (hcs.trans he)

theorem buddySplit_eq (hnr : s.nr (t + 1) ≠ 0) (hloop : splitLoop small (t + 1) s = .ok (i, s₁))
    (hi : s₁.pages i = ⟨small, 1, pgHead⟩) : buddySplit (t + 1) small s =
      .ok (i, take s₁ i small) := by
  simp [buddySplit, hnr, hloop, hi, take, Buddy.setPage, Buddy.del, Buddy.setNr]

theorem buddySplit_ok (h : Rep s ls B) (hlarge : large < buddyMaxOrder) (hsl : small < large)
    (hl : ls large = i :: l) (he : ∀ j, small ≤ j → j < large → ls j = []) :
    ∃ s', buddySplit large small s = .ok (i, s') ∧ Rep s' (carveLists ls i small large)
      (carve B i small large) ∧ Moved B (carve B i small large) s s' := by
  obtain ⟨t, rfl⟩ : ∃ t, large = t + 1 := ⟨large - 1, by omega⟩
  obtain ⟨s1, h1, hr, hp⟩ := splitLoop_ok h hlarge (by omega) hl fun j h3 h4 => he j h3 (by omega)
  have hnr : s.nr (t + 1) ≠ 0 := by simp [h.nr _ hlarge, hl]
  have hb : ⟨i, t + 1, true⟩ ∈ B := (h.listed _ hlarge i).mp (by simp [hl])
  have hi := hr.page ⟨i, small, true⟩ (.inr (.inl rfl))
  have hne : i ∉ [] ++ [i + 2 ^ small] := by simp
  refine ⟨take s1 i small, ?_, ?_, .of_heads (carve_heads B i _ _) fun j hj => ?_⟩
  · exact buddySplit_eq hnr h1 hi
  · have ht := take_ok hr (i := i) (k := small) (.inr (.inl rfl)) (l := [])
      (r := [i + 2 ^ small]) (by simp [splitLists, show small ≠ t + 1 by omega]) hne
    convert ht using 1
    · funext j
      by_cases hj : j = small
      · subst hj; simp [carveLists, show j ≠ t + 1 by omega, hsl]
      · simp only [splitLists, carveLists, Function.update_of_ne hj]
        grind
    · ext b
      have : ⟨i, small, true⟩ ∉ B := fun hm => by
        have := h.eq_of_start hm hb rfl
        simp at this
        omega
      have : (⟨i, small, true⟩ : Block) ∉ leftover i small (t + 1) := by
        rintro ⟨j, -, -, hj⟩
        simp at hj
      simp only [carve, cutDown, Set.mem_ofPred_eq]
      grind
  · have hij : i ≠ j := hj ⟨i, small, false⟩ (.inr (.inl rfl))
    simp only [take, Function.update_of_ne hij.symm]
    refine hp.kept j (not_head_of_carve hj) ?_
    rintro b (⟨hbB, hne⟩ | rfl | hbl)
    · exact hj b (.inl ⟨hbB, hne⟩)
    · exact hij
    · exact hj b (.inr (.inr hbl))

theorem findOrder_ok (hm : m < buddyMaxOrder) (hnr : s.nr m ≠ 0) (hle : o ≤ m)
    (h0 : ∀ j, o ≤ j → j < m → s.nr j = 0) (hf : m - o < n) :
    findOrder s n o = .ok m := by
  induction n generalizing o with
  | zero => omega
  | succ n ih =>
    have hlt : ¬ o ≥ buddyMaxOrder := by omega
    rw [findOrder, if_neg hlt]
    rcases Nat.eq_or_lt_of_le hle with rfl | hlt'
    · rw [if_neg hnr]
    · rw [if_pos (h0 o le_rfl hlt'), if_neg (by omega)]
      exact ih (by omega) (fun j h1 h2 => h0 j (by omega) h2) (by omega)

theorem findOrder_none (hle : o ≤ buddyMaxOrder)
    (h0 : ∀ j, o ≤ j → j < buddyMaxOrder → s.nr j = 0)
    (hf : buddyMaxOrder - o < n) : findOrder s n o = .error .wild := by
  induction n generalizing o with
  | zero => omega
  | succ n ih =>
    rw [findOrder]
    by_cases hlt : o ≥ buddyMaxOrder
    · rw [if_pos hlt]
    · rw [if_neg hlt, if_pos (h0 o le_rfl (by omega)), if_neg (by omega)]
      exact ih (by omega) (fun j h1 h2 => h0 j (by omega) h2) (by omega)

/-- `buddy_allocate` serves the request from the first block of the lowest
list of sufficient order that is not empty. -/
theorem buddyAllocate_ok (h : Rep s ls B) (hm : m < buddyMaxOrder) (hle : size2order size ≤ m)
    (hl : ls m = i :: l) (he : ∀ j, size2order size ≤ j → j < m → ls j = []) :
    ∃ s', buddyAllocate size s = .ok (i, s') ∧ Rep s' (carveLists ls i (size2order size) m)
      (carve B i (size2order size) m) ∧ Moved B (carve B i (size2order size) m) s s' := by
  have hlt : ¬ size2order size ≥ buddyMaxOrder := by omega
  have hnr : s.nr m ≠ 0 := by simp [h.nr m hm, hl]
  have hb : ⟨i, m, true⟩ ∈ B := (h.listed m hm i).mp (by simp [hl])
  have h0 : ∀ j, size2order size ≤ j → j < m → s.nr j = 0 := fun j h1 h2 => by
    simp [h.nr j (by omega), he j h1 h2]
  rcases Nat.eq_or_lt_of_le hle with rfl | hlt'
  · have hil : i ∉ [] ++ l := by
      have := h.ringed.nodup hm
      rw [hl] at this
      simpa using (List.nodup_cons.mp this).1
    refine ⟨take s i (size2order size), ?_, ?_, .of_heads (carve_heads B i _ _) fun j hj => ?_⟩
    · simp [buddyAllocate, hm, Nat.pos_of_ne_zero hnr, h.ringed.first hm hl, le2page, take,
        Buddy.setPage, Buddy.del, Buddy.setNr]
    · have ht := take_ok h hb (l := []) hl hil
      convert ht using 1
      · funext j
        by_cases hj : j = size2order size
        · subst hj; simp [carveLists, hl]
        · simp only [carveLists, Function.update_of_ne hj]
          grind
      · ext b
        simp [carve, leftover_self]
    · have hij : i ≠ j := hj ⟨i, size2order size, false⟩ (.inr (.inl rfl))
      simp [take, hij.symm]
  · obtain ⟨s', h1, hr, hp⟩ := buddySplit_ok h hm hlt' hl he
    refine ⟨s', ?_, hr, hp⟩
    have hf := findOrder_ok (n := buddyMaxOrder) hm hnr (o := size2order size + 1) (by omega)
      (fun j h2 h3 => h0 j (by omega) h3) (by omega)
    simp [buddyAllocate, Nat.lt_of_not_le hlt, h0 _ le_rfl hlt', hf, h1]

theorem buddyAllocate_served (h : Rep s ls B) (hex : ∃ m, size2order size ≤ m ∧ m < buddyMaxOrder ∧
    ls m ≠ []) :
    ∃ p s', buddyAllocate size s = .ok (p, s') := by
  obtain ⟨hle, hm, hne⟩ := Nat.find_spec hex
  obtain ⟨p, l, hl⟩ := List.exists_cons_of_ne_nil hne
  obtain ⟨s', hs, -⟩ := buddyAllocate_ok h hm hle hl fun j h1 h2 => by
    by_contra hc
    exact Nat.find_min hex h2 ⟨h1, by omega, hc⟩
  exact ⟨p, s', hs⟩

/-- A request that no list can serve fails; one that is not too large does so
by reading `buddy_lists[14]`. -/
theorem buddyAllocate_none (h : Rep s ls B)
    (he : ∀ j, size2order size ≤ j → j < buddyMaxOrder → ls j = []) :
    buddyAllocate size s =
      .error (if buddyMaxOrder ≤ size2order size then allocFail else .wild) := by
  by_cases hlt : buddyMaxOrder ≤ size2order size
  · simp [buddyAllocate, hlt, throw, throwThe, MonadExceptOf.throw]
  · have h0 : ∀ j, size2order size ≤ j → j < buddyMaxOrder → s.nr j = 0 := fun j h1 h2 => by
      simp [h.nr j h2, he j h1 h2]
    have hf := findOrder_none (n := buddyMaxOrder) (o := size2order size + 1) (by omega)
      (fun j h2 h3 => h0 j (by omega) h3) (by omega)
    simp [buddyAllocate, hlt, h0 _ le_rfl (Nat.lt_of_not_le hlt), hf]

theorem buddyAllocate_inv (h : Rep s ls B) (ha : buddyAllocate size s = .ok (p, s')) :
    ∃ m l, m < buddyMaxOrder ∧ size2order size ≤ m ∧ ls m = p :: l ∧
      (∀ j, size2order size ≤ j → j < m → ls j = []) ∧
      Rep s' (carveLists ls p (size2order size) m) (carve B p (size2order size) m) ∧
      Moved B (carve B p (size2order size) m) s s' := by
  by_cases hex : ∃ j, size2order size ≤ j ∧ j < buddyMaxOrder ∧ ls j ≠ []
  · obtain ⟨hm, hle, hne⟩ := (Nat.find_spec hex)
    have hmin : ∀ j, size2order size ≤ j → j < Nat.find hex → ls j = [] := fun j h1 h2 => by
      by_contra hc
      exact Nat.find_min hex h2 ⟨h1, by omega, hc⟩
    obtain ⟨i, l, hl⟩ := List.exists_cons_of_ne_nil hne
    obtain ⟨s1, h1, hr, hp⟩ := buddyAllocate_ok h hle hm hl hmin
    rw [ha] at h1
    simp only [Except.ok.injEq, Prod.mk.injEq] at h1
    obtain ⟨rfl, rfl⟩ := h1
    exact ⟨_, l, hle, hm, hl, hmin, hr, hp⟩
  · push Not at hex
    rw [buddyAllocate_none h hex] at ha
    simp at ha

end

end SkyOS
