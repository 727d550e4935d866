import SkyOS.Mm.BuddyRuns

/-!
# What a split leaves alone

`buddy_split` writes the pages it cuts, the lists from the one it takes the block from down to
the one of the order it serves, and nothing else.
-/

namespace SkyOS

open CircList Tiling

/-- The step from `s` to `s'` writes the pages `P`, the links `N` and the counters `K` at most. -/
structure Framed (P : Set ℕ) (N : Set ListPtr) (K : Set ℕ) (s s' : Buddy) : Prop where
  pages : ∀ j ∉ P, s'.pages j = s.pages j
  next : ∀ x ∉ N, s'.links.next x = s.links.next x
  prev : ∀ x ∉ N, s'.links.prev x = s.links.prev x
  nr : ∀ k ∉ K, s'.nr k = s.nr k

theorem Framed.trans (h₁ : Framed P N K s s') (h₂ : Framed P N K s' s'') : Framed P N K s s'' where
  pages j hj := (h₂.pages j hj).trans (h₁.pages j hj)
  next x hx := (h₂.next x hx).trans (h₁.next x hx)
  prev x hx := (h₂.prev x hx).trans (h₁.prev x hx)
  nr k hk := (h₂.nr k hk).trans (h₁.nr k hk)

theorem Framed.mono (h : Framed P N K s s') (hP : P ⊆ P') (hN : N ⊆ N') (hK : K ⊆ K') :
    Framed P' N' K' s s' where
  pages j hj := h.pages j fun hm => hj (hP hm)
  next x hx := h.next x fun hm => hx (hN hm)
  prev x hx := h.prev x fun hm => hx (hN hm)
  nr k hk := h.nr k fun hm => hk (hK hm)

def listNodes (ls : ℕ → List ℕ) (k : ℕ) : Set ListPtr :=
  {x | x ∈ ListPtr.list k :: (ls k).map .page}

section
variable {s : Buddy} {ls : ℕ → List ℕ} {B : Set Block}

theorem splitChunk_framed (h : Rep s ls B) (hk : k + 1 < buddyMaxOrder) (hl : ls (k + 1) = i :: l)
    (hrun : splitChunk (k + 1) s = .ok (p, s')) :
    Framed {i, i + 2 ^ k} (listNodes ls k ∪ listNodes ls (k + 1) ∪ {.page (i + 2 ^ k)}) {k, k + 1} s
      s' := by
  have hk' : k < buddyMaxOrder := by omega
  have hb : ⟨i, k + 1, true⟩ ∈ B := (h.listed _ hk i).mp (by simp [hl])
  have hi : i ∈ ls (k + 1) := by simp [hl]
  have hik : i ∉ ls k := h.not_listed hb hk' (.inl (by simp))
  have hbuddy : i + 2 ^ k ∉ ls k := fun hm => half_not_start h hb ((h.listed k hk' _).mp hm) rfl
  have hne : i + 2 ^ k ≠ i := by have := Nat.two_pow_pos k; omega
  rw [splitChunk_eq (h.ringed.first hk hl) (h.page _ hb)] at hrun
  obtain rfl := (Prod.mk.injEq .. ▸ Except.ok.inj hrun).2
  have hring₁ : IsRing (listDel s.links (.page i)) (.list k) ((ls k).map .page) := by
    simpa using (h.ringed.del (l := []) hk hl).ring k hk'
  have hring₂ :
      IsRing (listAppend (listDel s.links (.page i)) (.page i) (.list k)) (.list k)
      ((ls k ++ [i]).map .page) := by
    rw [List.map_append]
    exact hring₁.insertBefore (by simpa using hik)
  have hlinks : ∀ x ∉ listNodes ls k ∪ listNodes ls (k + 1) ∪ {ListPtr.page (i + 2 ^ k)},
      (listAppend (listAppend (listDel s.links (.page i)) (.page i) (.list k)) (.page (i + 2 ^ k))
        (.list k)).next x = s.links.next x ∧
      (listAppend (listAppend (listDel s.links (.page i)) (.page i) (.list k)) (.page (i + 2 ^ k))
          (.list k)).prev x = s.links.prev x := by
    intro x hx
    simp only [Set.mem_union, Set.mem_singleton_iff, not_or] at hx
    obtain ⟨⟨hxk, hxl⟩, hxb⟩ := hx
    have hxi : x ≠ .page i := fun he => hxl (he ▸ List.mem_cons_of_mem _ (List.mem_map_of_mem hi))
    have h₁ := (h.ringed.ring (k + 1) hk).remove_frame (List.mem_map_of_mem hi) hxl
    have h₂ := hring₁.insertBefore_frame (by simpa using hik) hxk hxi
    have h₃ := hring₂.insertBefore_frame (x := .page (i + 2 ^ k)) (y :=
        x) (by simpa [hne] using hbuddy)
      (by simpa [listNodes, hxi] using hxk) hxb
    exact ⟨h₃.1.trans (h₂.1.trans h₁.1), h₃.2.trans (h₂.2.trans h₁.2)⟩
  refine ⟨fun j hj => ?_, fun x hx => (hlinks x hx).1, fun x hx => (hlinks x hx).2, fun j hj => ?_⟩
  · obtain ⟨hji, hjb⟩ := not_or.mp hj
    dsimp only
    rw [Function.update_of_ne hjb, Function.update_of_ne hji]
  · obtain ⟨hjk, hjl⟩ := not_or.mp hj
    dsimp only
    rw [Function.update_of_ne hjk, Function.update_of_ne hjl]

def cutPages (i small large : ℕ) : Set ℕ := {j | j = i ∨ ∃ k, small ≤ k ∧ k < large ∧ j = i + 2 ^ k}

def cutLinks (ls : ℕ → List ℕ) (i small large : ℕ) : Set ListPtr :=
  {x | x ∈ listNodes ls large ∨ ∃ k, small ≤ k ∧ k < large ∧ (x = .list k ∨ x = .page (i + 2 ^ k))}

theorem splitChunk_cut (h : Rep s ls B) (ht : t + 1 < buddyMaxOrder) (hst : small ≤ t)
    (hl : ls (t + 1) = i :: l)
    (he : ls t = []) (hrun : splitChunk (t + 1) s = .ok (p, s')) :
    Framed (cutPages i small (t + 1)) (cutLinks ls i small (t + 1)) {k | small ≤ k ∧
      k ≤ t + 1} s s' := by
  refine (splitChunk_framed h ht hl hrun).mono ?_ ?_ ?_
  · rintro j (rfl | rfl)
    · exact .inl rfl
    · exact .inr ⟨t, hst, Nat.lt_succ_self t, rfl⟩
  · rintro x ((hx | hx) | rfl)
    · rw [listNodes, he] at hx
      exact .inr ⟨t, hst, Nat.lt_succ_self t, .inl (List.mem_singleton.mp hx)⟩
    · exact .inl hx
    · exact .inr ⟨t, hst, Nat.lt_succ_self t, .inr rfl⟩
  · rintro k (rfl | rfl)
    · exact ⟨hst, Nat.le_succ _⟩
    · exact ⟨by omega, le_rfl⟩

theorem splitLoop_framed (h : Rep s ls B) (ht : t + 1 < buddyMaxOrder) (hst : small ≤ t)
    (hl : ls (t + 1) = i :: l)
    (he : ∀ j, small ≤ j → j ≤ t → ls j = []) (hrun : splitLoop small (t + 1) s = .ok (p, s')) :
    Framed (cutPages i small (t + 1)) (cutLinks ls i small (t + 1)) {k | small ≤ k ∧
      k ≤ t + 1} s s' := by
  induction t generalizing s ls B l with
  | zero =>
    obtain ⟨s₁, h₁, -⟩ := splitChunk_ok h ht hl
    rw [splitLoop, h₁, ok_bind] at hrun
    dsimp only at hrun
    rw [if_neg (Nat.not_lt_zero _)] at hrun
    exact splitChunk_cut h ht hst hl (he 0 hst le_rfl) (h₁.trans hrun)
  | succ t ih =>
    obtain ⟨s₁, h₁, hr, -⟩ := splitChunk_ok h ht hl
    have hcut := splitChunk_cut h ht hst hl (he _ hst le_rfl) h₁
    rw [splitLoop, h₁, ok_bind] at hrun
    dsimp only at hrun
    split at hrun
    · rename_i hlt
      refine hcut.trans ((ih hr (by omega) (by omega) (l := [i + 2 ^ (t + 1)])
        (by simp [halveLists, he (t + 1) hst le_rfl]) (fun j h₂ h₃ => ?_) hrun).mono ?_ ?_ ?_)
      · simp [halveLists, show j ≠ t + 1 by omega, show j ≠ t + 1 + 1 by omega, he j h₂ (by omega)]
      · rintro j (rfl | ⟨k, h₂, h₃, rfl⟩)
        · exact .inl rfl
        · exact .inr ⟨k, h₂, by omega, rfl⟩
      · rintro x (hx | ⟨k, h₂, h₃, hx⟩)
        · simp [listNodes, halveLists, he (t + 1) hst le_rfl] at hx
          rcases hx with rfl | rfl | rfl
          · exact .inr ⟨t + 1, hst, by omega, .inl rfl⟩
          · exact .inl (List.mem_cons_of_mem _ (List.mem_map_of_mem (by simp [hl])))
          · exact .inr ⟨t + 1, hst, by omega, .inr rfl⟩
        · exact .inr ⟨k, h₂, by omega, hx⟩
      · rintro k ⟨h₂, h₃⟩
        exact ⟨h₂, by omega⟩
    · exact (Prod.mk.injEq .. ▸ Except.ok.inj hrun).2 ▸ hcut

theorem take_framed (h : Rep s ls B) (hk : k < buddyMaxOrder) (hi : i ∈ ls k) :
    Framed {i} (listNodes ls k) {k} s (take s i k) where
  pages _ hj := Function.update_of_ne hj _ _
  next _ hx := ((h.ringed.ring k hk).remove_frame (List.mem_map_of_mem hi) hx).1
  prev _ hx := ((h.ringed.ring k hk).remove_frame (List.mem_map_of_mem hi) hx).2
  nr _ hj := Function.update_of_ne hj _ _

theorem buddySplit_framed (h : Rep s ls B) (hlarge : large < buddyMaxOrder) (hsl : small < large)
    (hl : ls large = i :: l)
    (he : ∀ k, small ≤ k → k < large → ls k = []) (hrun : buddySplit large small s = .ok (p, s')) :
    Framed (cutPages i small large) (cutLinks ls i small large) {k | small ≤ k ∧
      k ≤ large} s s' := by
  obtain ⟨t, rfl⟩ : ∃ t, large = t + 1 := ⟨large - 1, by omega⟩
  have hempty : ∀ k, small ≤ k → k ≤ t → ls k = [] := fun k h₁ h₂ => he k h₁ (by omega)
  obtain ⟨s₁, hloop, hr, -⟩ := splitLoop_ok h hlarge (by omega) hl hempty
  have hcut := splitLoop_framed h hlarge (by omega) hl hempty hloop
  rw [buddySplit_eq (by simp [h.nr _ hlarge, hl]) hloop
    (hr.page ⟨i, small, true⟩ (.inr (.inl rfl)))] at hrun
  obtain rfl := (Prod.mk.injEq .. ▸ Except.ok.inj hrun).2
  have hlist : splitLists ls i small (t + 1) small = [i, i + 2 ^ small] := by
    simp [splitLists, hsl.ne]
  refine hcut.trans ((take_framed hr (by omega) (by simp [hlist])).mono ?_ ?_ ?_)
  · rintro j rfl
    exact .inl rfl
  · intro x hx
    simp only [listNodes, hlist, List.map_cons, List.map_nil, Set.mem_ofPred_eq, List.mem_cons,
      List.not_mem_nil, or_false] at hx
    rcases hx with rfl | rfl | rfl
    · exact .inr ⟨small, le_rfl, hsl, .inl rfl⟩
    · exact .inl (List.mem_cons_of_mem _ (List.mem_map_of_mem (by simp [hl])))
    · exact .inr ⟨small, le_rfl, hsl, .inr rfl⟩
  · rintro k rfl
    exact ⟨le_rfl, hsl.le⟩

/-- The first free block of order `large`, at `i`, is cut down to one of order `small`, which is
allocated. What is left of it is a free block of each order in between. -/
structure Carved (small large i : ℕ) (s s' : Buddy) (ls : ℕ → List ℕ) (B : Set Block) : Prop where
  first : s.links.next (.list large) = .page i
  rep : Rep s' (carveLists ls i small large) (carve B i small large)
  taken : ⟨i, large, true⟩ ∈ B
  served : s'.pages i = ⟨small, 0, pgHead⟩
  fresh : ∀ b ∈ B, b.start ∉ {j | ∃ k, small ≤ k ∧ k < large ∧ j = i + 2 ^ k}
  left : ∀ k, small ≤ k → k < large → s'.links.next (.list k) = .page (i + 2 ^ k) ∧ s'.nr k = 1 ∧
    s'.pages (i + 2 ^ k) = ⟨k, 1, pgHead⟩
  framed : Framed (cutPages i small large) (cutLinks ls i small large) {k | small ≤ k ∧
    k ≤ large} s s'

theorem buddySplit_tiles (h : Rep s ls B) (hlarge : large < buddyMaxOrder) (hsl : small < large)
    (hne : ls large ≠ [])
    (he : ∀ k, small ≤ k → k < large → ls k = []) : ∃ i s', buddySplit large small s = .ok (i, s') ∧
      Carved small large i s s' ls B := by
  obtain ⟨i, l, hl⟩ := List.exists_cons_of_ne_nil hne
  have hb : ⟨i, large, true⟩ ∈ B := (h.listed _ hlarge i).mp (by simp [hl])
  obtain ⟨s', hrun, hr, -⟩ := buddySplit_ok h hlarge hsl hl he
  have hframed := buddySplit_framed h hlarge hsl hl he hrun
  refine ⟨i, s', hrun, h.ringed.first hlarge hl, hr, hb,
    hr.page ⟨i, small, false⟩ (.inr (.inl rfl)), ?_, fun k h₁ h₂ => ?_, hframed⟩
  · rintro b hbB ⟨k, h₁, h₂, hstart⟩
    exact h.start_ne hb hbB (Nat.two_pow_pos k) (Nat.pow_lt_pow_right (by decide) h₂) hstart
  · have hlist : carveLists ls i small large k = [i + 2 ^ k] := by simp [carveLists, h₁, h₂, h₂.ne]
    have hk : k < buddyMaxOrder := by omega
    refine ⟨hr.ringed.first hk hlist, ?_,
      hr.page ⟨i + 2 ^ k, k, true⟩ (.inr (.inr ⟨k, h₁, h₂, rfl⟩))⟩
    rw [hr.nr k hk, hlist, List.length_singleton]

end

theorem buddySplit_tiles_init : ∃ i s', buddySplit 13 0 (buddyInit zeroed) = .ok (i, s') ∧
    Carved 0 13 i (buddyInit zeroed) s' initLists initBlocks :=
  buddySplit_tiles (buddyInit_ok zeroed) (by decide) (by decide) (by decide) fun _ _ hk =>
    by simp [initLists, hk.ne]

end SkyOS
