import SkyOS.Mm.BuddyLaws

/-!
# What a release does

`buddy_free_page` puts the block back on its list and then absorbs the free
blocks of equal order that follow it. The block after one that ends at `npage`
is not there: what the loop reads then is memory behind `pages`, and the laws
ask that it holds no mergeable entry (`Quiet`).
-/

namespace SkyOS

open CircList Tiling

/-- The entry right behind `pages` does not pass the test of the merge loop. -/
def Quiet (s : Buddy) : Prop := ∀ j < buddyMaxOrder - 1, ¬ mergeable s j npage

/-- As much of `Quiet` as the release of `⟨i, k⟩` needs: it grows to the end of
`pages` only by absorbing all that lies in between. -/
def QuietFor (s : Buddy) (B : Set Block) (i k : ℕ) : Prop :=
  ∀ j < buddyMaxOrder - 1, k ≤ j → (∀ t, k ≤ t → t < j → ⟨i + 2 ^ t, t, true⟩ ∈ B) →
    i + 2 ^ j = npage → ¬ mergeable s j npage

theorem mergeable_past (hp : ∀ j ≥ npage, s'.pages j = s.pages j) :
    mergeable s' k npage = mergeable s k npage := by
  simp only [mergeable, hp npage le_rfl]

theorem Quiet.of_past (h : Quiet s) (hp : ∀ j ≥ npage, s'.pages j = s.pages j) : Quiet s' := by
  intro j hj
  rw [mergeable_past hp]
  exact h j hj

theorem Quiet.quietFor (h : Quiet s) : QuietFor s B i k := fun j hj _ _ _ => h j hj

section
variable {s : Buddy} {ls : ℕ → List ℕ} {B : Set Block}

-- ---------------------------------------------------------------------------
-- Putting a block back
-- ---------------------------------------------------------------------------

def give (s : Buddy) (i k : ℕ) : Buddy where
  pages := Function.update s.pages i { s.pages i with free := 1 }
  links := listAppend s.links (.page i) (.list k)
  nr := Function.update s.nr k (u64 (s.nr k + 1))

theorem give_ok (h : Rep s ls B) (hb : ⟨i, k, false⟩ ∈ B) :
    Rep (give s i k) (Function.update ls k (ls k ++ [i]))
      {b | b ∈ B ∧ b ≠ ⟨i, k, false⟩ ∨ b = ⟨i, k, true⟩} := by
  have hk : k < buddyMaxOrder := h.order _ hb
  constructor
  · exact h.ringed.append hk fun j hj => h.not_listed hb hj (.inr rfl)
  · intro j hj
    by_cases hjk : j = k
    · subst hjk
      have hlen := h.length_le hj
      rw [npage_eq] at hlen
      simp [give, h.nr j hj, u64_of_lt (show (ls j).length + 1 < 2 ^ 64 by omega)]
    · simp [give, hjk, h.nr j hj]
  · intro j hj x
    have hx := h.listed j hj x
    by_cases hjk : j = k
    · subst hjk; simp [hx]
    · simpa [hjk] using hx
  · rintro b (⟨hbB, -⟩ | rfl)
    · exact h.order b hbB
    · exact hk
  · rintro b (⟨hbB, hne⟩ | rfl)
    · have : b.start ≠ i := fun he => hne (h.eq_of_start hbB hb he)
      simp [give, this, h.page b hbB]
    · simp [give, h.page _ hb, Block.page]
  · exact h.tiles.relabel (c := ⟨i, k, true⟩) hb rfl rfl fun d => Iff.rfl

-- ---------------------------------------------------------------------------
-- Merging
-- ---------------------------------------------------------------------------

theorem mergeBuddy_eq (hi : s.pages i = ⟨k, 1, pgHead⟩) (hq : s.pages q = ⟨k, 1, pgHead⟩)
    (hne : q ≠ i) (hk : k < buddyMaxOrder) : mergeBuddy i q s =
      { pages := Function.update (Function.update s.pages q ⟨k, 1, pgTail⟩) i ⟨k + 1, 1, pgHead⟩
        links := listAppend (listDel (listDel s.links (.page q)) (.page i)) (.page i)
          (.list (k + 1))
        nr := Function.update (Function.update s.nr k (u64Dec (u64Dec (s.nr k)))) (k + 1)
          (u64 (s.nr (k + 1) + 1)) } := by
  have hM := buddyMaxOrder_eq
  simp only [mergeBuddy, Buddy.del, Buddy.append, Buddy.setPage, Buddy.setNr, hq,
    Function.update_self, Function.update_of_ne hne.symm, hi, Function.update_idem,
    u32_of_lt (show k + 1 < 2 ^ 32 by omega), Function.update_of_ne (show k + 1 ≠ k by omega)]

def join (B : Set Block) (i k : ℕ) : Set Block :=
  {b | b ∈ B ∧ b ≠ ⟨i, k, true⟩ ∧ b ≠ ⟨i + 2 ^ k, k, true⟩ ∨ b = ⟨i, k + 1, true⟩}

def joinLists (ls : ℕ → List ℕ) (i k : ℕ) : ℕ → List ℕ :=
  Function.update (Function.update ls k (((ls k).erase (i + 2 ^ k)).erase i)) (k + 1)
    (ls (k + 1) ++ [i])

theorem Ringed.erase (h : Ringed L ls) (hk : k < buddyMaxOrder) (hi : i ∈ ls k) :
    Ringed (listDel L (.page i)) (Function.update ls k ((ls k).erase i)) := by
  obtain ⟨l₁, l₂, h1, h2, h3⟩ := List.exists_erase_eq hi
  rw [h3]
  exact h.del hk h2

theorem mergeBuddy_ok (h : Rep s ls B) (hi : ⟨i, k, true⟩ ∈ B) (hq : ⟨i + 2 ^ k, k, true⟩ ∈ B)
    (hk : k + 1 < buddyMaxOrder) :
    Rep (mergeBuddy i (i + 2 ^ k) s) (joinLists ls i k) (join B i k) ∧
      Moved B (join B i k) s (mergeBuddy i (i + 2 ^ k) s) := by
  have hpos := Nat.two_pow_pos k
  have hkk : k ≠ k + 1 := by omega
  have hne : i + 2 ^ k ≠ i := by omega
  have hpi : s.pages i = ⟨k, 1, pgHead⟩ := h.page _ hi
  have hpq : s.pages (i + 2 ^ k) = ⟨k, 1, pgHead⟩ := h.page _ hq
  rw [mergeBuddy_eq hpi hpq hne (by omega)]
  have hqlt : i + 2 ^ k < npage := h.start_lt hq
  have hiM : i ∈ ls k := (h.listed k (by omega) i).mpr hi
  have hqM : i + 2 ^ k ∈ ls k := (h.listed k (by omega) _).mpr hq
  have hnd := h.ringed.nodup (k := k) (by omega)
  have hiE : i ∈ (ls k).erase (i + 2 ^ k) := (List.mem_erase_of_ne hne.symm).mpr hiM
  refine ⟨?_, ?_⟩
  · constructor
    · have h1 := (h.ringed.erase (by omega) hqM).erase (k := k) (i :=
          i) (by omega) (by simpa using hiE)
      have h2 := h1.append (k := k + 1) (i := i) hk ?_
      · simpa [joinLists, hkk.symm] using h2
      · intro j hj hm
        by_cases hjk : j = k
        · subst hjk
          simp only [Function.update_self] at hm
          exact (hnd.erase _).not_mem_erase hm
        · simp only [Function.update_of_ne hjk] at hm
          exact h.not_listed hi hj (.inl (Ne.symm hjk)) hm
    · intro j hj
      have hlen := h.length_le hj
      have hnr := h.nr j hj
      rw [npage_eq] at hlen
      by_cases hjk : j = k + 1
      · subst hjk
        simp [joinLists, hnr, u64_of_lt (show (ls (k + 1)).length + 1 < 2 ^ 64 by omega)]
      · by_cases hjk' : j = k
        · subst hjk'
          obtain ⟨n, hn⟩ : ∃ n, (ls j).length = n + 1 + 1 := by
            have h1 := List.length_erase_of_mem hqM
            have h2 := List.length_pos_of_mem hiE
            exact ⟨(ls j).length - 2, by omega⟩
          simp [joinLists, hnr, hn, List.length_erase_of_mem hiE, List.length_erase_of_mem hqM]
        · simp [joinLists, hjk, hjk', hnr]
    · intro j hj x
      have hx := h.listed j hj x
      by_cases hjk : j = k + 1
      · subst hjk; simp [joinLists, join, hx]
      · by_cases hjk' : j = k
        · subst hjk'
          simp only [joinLists, Function.update_of_ne hkk, Function.update_self, join,
            Set.mem_ofPred_eq]
          rw [(hnd.erase _).mem_erase_iff, hnd.mem_erase_iff, hx]
          simp
          tauto
        · simp [joinLists, join, hx, hjk, hjk']
    · rintro b (⟨hbB, -⟩ | rfl)
      · exact h.order b hbB
      · exact hk
    · rintro b (⟨hbB, h1, h2⟩ | rfl)
      · have h1 : b.start ≠ i := fun he => h1 (h.eq_of_start hbB hi he)
        have h2 : b.start ≠ i + 2 ^ k := fun he => h2 (h.eq_of_start hbB hq he)
        simp [h1, h2, h.page b hbB]
      · simp [Block.page]
    · refine h.tiles.join (b := ⟨i, k + 1, true⟩) hi hq rfl rfl ?_ fun e => Iff.rfl
      simp [Block.len, Nat.pow_succ]
      omega
  · refine ⟨fun j hj _ => ?_, fun b hb hno => ?_⟩
    · simp only [Function.update_apply]
      rw [if_neg (hj _ hi).symm, if_neg (hj _ hq).symm]
    · have hbi : b.start ≠ i := (hno ⟨i, k + 1, true⟩ (.inr rfl)).symm
      -- the only other block that goes is the second half
      obtain rfl : b = ⟨i + 2 ^ k, k, true⟩ := by
        by_contra hbq
        exact hno b (.inl ⟨hb, fun he => hbi (by rw [he]), hbq⟩) rfl
      simp

/-- The blocks after `⟨i, k⟩` has absorbed the free blocks up to order `m`. -/
def absorb (B : Set Block) (i k m : ℕ) : Set Block :=
  {b | b ∈ B ∧ b ≠ ⟨i, k, true⟩ ∧ (∀ j, k ≤ j → j < m → b ≠ ⟨i + 2 ^ j, j, true⟩) ∨
    b = ⟨i, m, true⟩}

theorem absorb_self (hi : ⟨i, k, true⟩ ∈ B) : absorb B i k k = B := by
  ext b
  simp only [absorb, Set.mem_ofPred_eq]
  constructor
  · rintro (⟨hb, -⟩ | rfl)
    · exact hb
    · exact hi
  · intro hb
    by_cases he : b = ⟨i, k, true⟩
    · exact .inr he
    · exact .inl ⟨hb, he, fun j h1 h2 => by omega⟩

theorem absorb_join (h : Rep s ls B) (hi : ⟨i, k, true⟩ ∈ B) (hkm : k < m) :
    absorb (join B i k) i (k + 1) m = absorb B i k m := by
  ext b
  have hnew : ⟨i, k + 1, true⟩ ∉ B := fun hm => by simpa using h.eq_of_start hm hi rfl
  simp only [absorb, join, Set.mem_ofPred_eq]
  constructor
  · rintro (⟨⟨hb, h1, h2⟩ | rfl, h3, h4⟩ | rfl)
    · refine .inl ⟨hb, h1, fun j h5 h6 => ?_⟩
      rcases Nat.eq_or_lt_of_le h5 with rfl | h5
      · exact h2
      · exact h4 j h5 h6
    · exact absurd rfl h3
    · exact .inr rfl
  · rintro (⟨hb, h1, h2⟩ | rfl)
    · refine .inl ⟨.inl ⟨hb, h1, h2 k le_rfl hkm⟩, ?_, fun j h5 h6 => h2 j (by omega) h6⟩
      rintro rfl
      exact hnew hb
    · exact .inr rfl

theorem Rep.mergeable_start (h : Rep s ls B) (hc : c ∈ B) :
    mergeable s k c.start ↔ c.order = k ∧ c.free = true := by
  obtain ⟨st, o, f⟩ := c
  cases f <;> simp [mergeable, h.page _ hc, Block.page]

/-- The merge loop looks at the page where the grown block ends. It merges when
a free block of the same order starts there. -/
theorem mergeable_iff (h : Rep s ls B) (hi : ⟨i, k, true⟩ ∈ B)
    (hQ : i + 2 ^ k = npage → ¬ mergeable s k npage) :
    mergeable s k (i + 2 ^ k) ↔ ⟨i + 2 ^ k, k, true⟩ ∈ B := by
  have hend : i + 2 ^ k ≤ npage := h.end_le hi
  constructor
  · intro hm
    rcases Nat.eq_or_lt_of_le hend with he | hlt
    · rw [he] at hm
      exact absurd hm (hQ he)
    · obtain ⟨c, hc, hcs⟩ := h.tiles.next hi hlt
      exact (h.mergeable_start hc).mp (hcs ▸ hm) |>.elim fun ho hf => by
        obtain ⟨st, o, f⟩ := c
        obtain rfl : st = i + 2 ^ k := hcs
        obtain rfl : o = k := ho
        obtain rfl : f = true := hf
        exact hc
  · exact fun hq => (h.mergeable_start hq).mpr ⟨rfl, rfl⟩

theorem mergeLoop_ok (h : Rep s ls B) (hi : ⟨i, k, true⟩ ∈ B) (hQ : QuietFor s B i k)
    (hf : buddyMaxOrder - 1 - k < n) :
    ∃ m ls', k ≤ m ∧ m < buddyMaxOrder ∧ (∀ j, k ≤ j → j < m → ⟨i + 2 ^ j, j, true⟩ ∈ B) ∧
      (m = buddyMaxOrder - 1 ∨ ⟨i + 2 ^ m, m, true⟩ ∉ B) ∧
      Rep (mergeLoop i n s) ls' (absorb B i k m) ∧
        Moved B (absorb B i k m) s (mergeLoop i n s) := by
  induction n generalizing s ls B k with
  | zero => omega
  | succ n ih =>
    have hM := buddyMaxOrder_eq
    have hkM : k < buddyMaxOrder := h.order _ hi
    have hpi : s.pages i = ⟨k, 1, pgHead⟩ := h.page _ hi
    simp only [mergeLoop, getBuddyPage, hpi, Nat.one_shiftLeft]
    by_cases hk : k < buddyMaxOrder - 1
    · rw [if_pos hk]
      have hcan := mergeable_iff h hi (hQ k hk le_rfl fun t h1 h2 => by omega)
      by_cases hq : ⟨i + 2 ^ k, k, true⟩ ∈ B
      · rw [if_pos (hcan.mpr hq)]
        obtain ⟨hr, hp⟩ := mergeBuddy_ok h hi hq (by omega)
        -- from order `k + 1` on the blocks that follow are those of `B`
        have hmem : ∀ j, k + 1 ≤ j →
            (⟨i + 2 ^ j, j, true⟩ ∈ join B i k ↔ ⟨i + 2 ^ j, j, true⟩ ∈ B) := by
          intro j hj
          simp [join, show j ≠ k by omega]
        have hall : ∀ j, (∀ t, k + 1 ≤ t → t < j → ⟨i + 2 ^ t, t, true⟩ ∈ join B i k) →
            ∀ t, k ≤ t → t < j → ⟨i + 2 ^ t, t, true⟩ ∈ B := by
          intro j h1 t h2 h3
          rcases Nat.eq_or_lt_of_le h2 with rfl | h2
          · exact hq
          · exact (hmem t h2).mp (h1 t h2 h3)
        have hQ' : QuietFor (mergeBuddy i (i + 2 ^ k) s) (join B i k) i (k + 1) := by
          intro j h1 h2 h3 h4
          rw [mergeable_past (hp.past h hr)]
          exact hQ j h1 (by omega) (hall j h3) h4
        obtain ⟨m, ls', h1, h2, h3, h4, h5, h6⟩ := ih hr (.inr rfl) hQ' (by omega)
        rw [absorb_join h hi (by omega)] at h5 h6
        refine ⟨m, ls', by omega, h2, hall m h3, ?_, h5, hp.trans h6 ?_⟩
        · rwa [hmem m h1] at h4
        · rintro b (⟨hb, -⟩ | rfl)
          · exact .inl ⟨b, hb, rfl⟩
          · exact .inl ⟨_, hi, rfl⟩
      · rw [if_neg (mt hcan.mp hq)]
        refine ⟨k, ls, le_rfl, hkM, fun j h1 h2 => by omega, .inr hq, ?_⟩
        rw [absorb_self hi]
        exact ⟨h, .refl B s⟩
    · rw [if_neg hk]
      refine ⟨k, ls, le_rfl, hkM, fun j h1 h2 => by omega, .inl (by omega), ?_⟩
      rw [absorb_self hi]
      exact ⟨h, .refl B s⟩

-- ---------------------------------------------------------------------------
-- Release
-- ---------------------------------------------------------------------------

def freed (B : Set Block) (i k : ℕ) : Set Block :=
  {b | b ∈ B ∧ b ≠ ⟨i, k, false⟩ ∨ b = ⟨i, k, true⟩}

/-- `buddy_free_page` on the head of an allocated block succeeds. The block
grows until the block after it is not free or not of its order. -/
theorem buddyFreePage_ok (h : Rep s ls B) (hi : ⟨i, k, false⟩ ∈ B) (hQ : QuietFor s B i k) :
    ∃ m ls' s', buddyFreePage i s = .ok s' ∧ k ≤ m ∧ m < buddyMaxOrder ∧
      (∀ j, k ≤ j → j < m → ⟨i + 2 ^ j, j, true⟩ ∈ B) ∧
      (m = buddyMaxOrder - 1 ∨ ⟨i + 2 ^ m, m, true⟩ ∉ B) ∧
      Rep s' ls' (absorb (freed B i k) i k m) ∧ Moved B (absorb (freed B i k) i k m) s s' := by
  have hM := buddyMaxOrder_eq
  have hpi : s.pages i = ⟨k, 0, pgHead⟩ := h.page _ hi
  have hgive : Rep (give s i k) _ (freed B i k) := give_ok h hi
  have hp : Moved B (freed B i k) s (give s i k) := by
    refine .of_heads (fun b hb => ?_) fun j hj => ?_
    · by_cases hbi : b = ⟨i, k, false⟩
      · exact ⟨⟨i, k, true⟩, .inr rfl, by rw [hbi]⟩
      · exact ⟨b, .inl ⟨hb, hbi⟩, rfl⟩
    · have hij : i ≠ j := hj ⟨i, k, true⟩ (.inr rfl)
      simp [give, hij.symm]
  have hmem : ∀ j, ⟨i + 2 ^ j, j, true⟩ ∈ freed B i k ↔ ⟨i + 2 ^ j, j, true⟩ ∈ B := by
    intro j
    have := Nat.two_pow_pos j
    simp [freed]
  have hQ' : QuietFor (give s i k) (freed B i k) i k := by
    intro j h1 h2 h3 h4
    rw [mergeable_past (hp.past h hgive)]
    exact hQ j h1 h2 (fun t h5 h6 => (hmem t).mp (h3 t h5 h6)) h4
  obtain ⟨m, ls', h1, h2, h3, h4, h5, h6⟩ := mergeLoop_ok hgive (.inr rfl) hQ'
    (n := buddyMaxOrder) (by omega)
  have hall : Moved B (absorb (freed B i k) i k m) s (mergeLoop i buddyMaxOrder (give s i k)) := by
    refine hp.trans h6 ?_
    rintro b (⟨hb, -⟩ | rfl)
    · exact .inl ⟨b, hb, rfl⟩
    · exact .inl ⟨_, hi, rfl⟩
  refine ⟨m, ls', mergeLoop i buddyMaxOrder (give s i k), ?_, h1, h2, ?_, ?_, h5, hall⟩
  · simp [buddyFreePage, hpi, give, Buddy.setPage, Buddy.append, Buddy.setNr]
  · exact fun j h7 h8 => (hmem j).mp (h3 j h7 h8)
  · rwa [← hmem m]

end

end SkyOS
