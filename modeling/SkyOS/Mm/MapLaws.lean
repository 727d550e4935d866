import SkyOS.Mm.TableLaws

/-!
# What map does to a tree

`map` asks for exactly the tables that are missing on the paths of its pages.
Given that many fresh blank pages it hangs them in, writes the entry of each
page, and changes no other entry and no byte outside the tables on these paths.
-/

namespace SkyOS

open ByteMem

-- ---------------------------------------------------------------------------
-- Handing out pages
-- ---------------------------------------------------------------------------

/-- The source hands out `l`, one after the other. -/
inductive Draws {σ : Type} (next : σ → Run (ℕ × σ)) : σ → List ℕ → σ → Prop
  | nil : Draws next s [] s
  | cons : next s = .ok (a, s') → Draws next s' l s'' → Draws next s (a :: l) s''

section
variable {σ : Type} {next : σ → Run (ℕ × σ)} {s s' s'' : σ}

theorem Draws.append (h : Draws next s l s') (h' : Draws next s' r s'') :
    Draws next s (l ++ r) s'' := by
  induction h with
  | nil => exact h'
  | cons ha _ ih => exact .cons ha (ih h')

theorem Draws.split (h : Draws next s l s'') (n : ℕ) :
    ∃ s', Draws next s (l.take n) s' ∧ Draws next s' (l.drop n) s'' := by
  induction h generalizing n with
  | nil => exact ⟨_, by simpa using .nil, by simpa using .nil⟩
  | cons ha h ih =>
    cases n with
    | zero => exact ⟨_, .nil, .cons ha h⟩
    | succ n =>
      obtain ⟨s', h1, h2⟩ := ih n
      exact ⟨s', .cons ha h1, h2⟩

end

-- ---------------------------------------------------------------------------
-- Extensions
-- ---------------------------------------------------------------------------

/-- The tables below the root that the walk for page number `c` needs. -/
def nodesOf (c : ℕ) : List Node := [.mid (ix2 c), .low (ix2 c) (ix1 c)]

def paths (cs : List ℕ) : Set Node := {n | n = .root ∨ n ∈ cs.flatMap nodesOf}

def missing (T : Shape) (cs : List ℕ) : ℕ :=
  ((cs.flatMap nodesOf).toFinset.filter fun n => T n = none).card

def NewTables (m : Mem) (T : Shape) (l : List ℕ) : Prop := l.Nodup ∧ ∀ b ∈ l, NewTable m T b

/-- The tree grows by pages of `l` at nodes of `P`, and memory changes in tables
of `P` only. -/
structure Ext (pg : ℕ) (m : Mem) (T : Shape) (m' : Mem) (T' : Shape) (P : Set Node) (l : List ℕ) :
    Prop where
  tables : Tables m' pg T'
  mono : ∀ n a, T n = some a → T' n = some a
  new : ∀ n a, T' n = some a → T n = some a ∨ n ∈ P ∧ a ∈ l
  frame : ∀ x, (∀ n ∈ P, ∀ a, T' n = some a → ¬ InPage a x) → m' x = m x
  proper : Proper m T → Proper m' T'

section
variable {pg : ℕ} {m m' m'' : Mem} {T T' T'' : Shape} {P Q : Set Node} {l r : List ℕ}

theorem Ext.refl (h : Tables m pg T) : Ext pg m T m T P [] :=
  ⟨h, fun _ _ h => h, fun _ _ h => .inl h, fun _ _ => rfl, fun h => h⟩

theorem Ext.trans (h : Ext pg m T m' T' P l) (h' : Ext pg m' T' m'' T'' Q r) (hPR : P ⊆ R)
    (hQR : Q ⊆ R) : Ext pg m T m'' T'' R (l ++ r) := by
  refine ⟨h'.tables, fun n a hn => h'.mono n a (h.mono n a hn), fun n a hn => ?_, fun x hx => ?_,
    fun hp => h'.proper (h.proper hp)⟩
  · rcases h'.new n a hn with hn | ⟨hP, ha⟩
    · rcases h.new n a hn with hn | ⟨hP, ha⟩
      · exact .inl hn
      · exact .inr ⟨hPR hP, List.mem_append_left r ha⟩
    · exact .inr ⟨hQR hP, List.mem_append_right l ha⟩
  · rw [h'.frame x fun n hn => hx n (hQR hn),
      h.frame x fun n hn a ha => hx n (hPR hn) a (h'.mono n a ha)]

theorem page_apart (ha : pgSize ∣ a) (hb : pgSize ∣ b) (hne : a ≠ b) (hx : InPage a x) :
    ¬ InPage b x := by
  obtain ⟨c, rfl⟩ := ha
  obtain ⟨d, rfl⟩ := hb
  simp only [InPage, pgSize] at *
  omega

theorem NewTable.ext (hb : NewTable m T b) (h : Ext pg m T m' T' P l) (hl : b ∉ l) :
    NewTable m' T' b := by
  have hnew : ∀ n, T' n ≠ some b := by
    intro n hn
    rcases h.new n b hn with hn | ⟨-, hn⟩
    · exact hb.new n hn
    · exact hl hn
  refine ⟨hb.page, hb.lt, fun k hk => ?_, hnew⟩
  rw [entry_congr (fun x hx => ?_) hk]
  · exact hb.blank k hk
  · refine h.frame x fun n _ a hn => page_apart hb.page (h.tables.page n a hn) ?_ hx
    rintro rfl
    exact hnew n hn

theorem NewTables.ext (hl : NewTables m T (l ++ r)) (h : Ext pg m T m' T' P l) :
    NewTables m' T' r := by
  obtain ⟨hnd, hnew⟩ := hl
  rw [List.nodup_append'] at hnd
  exact ⟨hnd.2.1, fun b hb => (hnew b (List.mem_append_right l hb)).ext h fun hbl => hnd.2.2 hbl hb⟩

end

section
variable {pg : ℕ} {m : Mem} {T : Shape} {a b c perm pa0 : ℕ}

theorem paths_mid (c : ℕ) : .mid (ix2 c) ∈ paths [c] := by simp [paths, nodesOf]
theorem paths_low (c : ℕ) : .low (ix2 c) (ix1 c) ∈ paths [c] := by simp [paths, nodesOf]
theorem paths_root (cs : List ℕ) : .root ∈ paths cs := by simp [paths]

theorem ext_growMid (h : Tables m pg T) (hc : c < 2 ^ 27) (hno : T (.mid (ix2 c)) = none)
    (ha : NewTable m T a) (hperm : KernelPerm perm) :
    Ext pg m T (writePte m (pg + 8 * ix2 c) (tablePte a perm))
      (Function.update T (.mid (ix2 c)) (some a)) (paths [c]) [a] := by
  refine ⟨h.growMid (ix2_lt hc) hno ha hperm, fun n b hn => ?_, fun n b hn => ?_, fun x hx => ?_,
    fun hp => hp.grow h rfl (ix2_lt hc) h.root hno ha.lt hperm⟩
  · rw [Function.update_of_ne]
    · exact hn
    · rintro rfl
      simp [hno] at hn
  · rcases update_eq_some hn with ⟨rfl, rfl⟩ | ⟨-, hn⟩
    · exact .inr ⟨paths_mid c, by simp⟩
    · exact .inl hn
  · exact writePte_outside m _ (ix2_lt hc) (hx .root (paths_root _) pg (by simp [h.root]))

theorem ext_growLow (h : Tables m pg T) (hc : c < 2 ^ 27) (ha : T (.mid (ix2 c)) = some a)
    (hno : T (.low (ix2 c) (ix1 c)) = none) (hb : NewTable m T b) (hperm : KernelPerm perm) :
    Ext pg m T (writePte m (a + 8 * ix1 c) (tablePte b perm))
      (Function.update T (.low (ix2 c) (ix1 c)) (some b)) (paths [c]) [b] := by
  refine ⟨h.growLow (ix2_lt hc) (ix1_lt c) ha hno hb hperm, fun n d hn => ?_, fun n d hn => ?_,
    fun x hx => ?_, fun hp => hp.grow h rfl (ix1_lt c) ha hno hb.lt hperm⟩
  · rw [Function.update_of_ne]
    · exact hn
    · rintro rfl
      simp [hno] at hn
  · rcases update_eq_some hn with ⟨rfl, rfl⟩ | ⟨-, hn⟩
    · exact .inr ⟨paths_low c, by simp⟩
    · exact .inl hn
  · exact writePte_outside m _ (ix1_lt c) (hx _ (paths_mid c) a (by simp [ha]))

theorem ext_setLeaf (h : Tables m pg T) (hb : T (.low (ix2 c) (ix1 c)) = some b) (hlt : v < 256 ^ 8)
    (hv : valid v → readable v) :
    Ext pg m T (writePte m (b + 8 * ix0 c) v) T (paths [c]) [] := by
  refine ⟨h.setLeaf hb (ix0_lt c) hlt hv, fun _ _ hn => hn, fun _ _ hn => .inl hn, fun x hx => ?_,
    fun hp => hp.setLeaf h hb (ix0_lt c)⟩
  exact writePte_outside m v (ix0_lt c) (hx _ (paths_low c) b hb)

theorem leafAt_growMid (h : Tables m pg T) (hc : c < 2 ^ 27) (d : ℕ) :
    leafAt (writePte m (pg + 8 * ix2 c) v) (Function.update T (.mid (ix2 c)) (some a)) d =
      leafAt m T d := by
  simp only [leafAt, Function.update_of_ne (show Node.low (ix2 d) (ix1 d) ≠ .mid (ix2 c) by simp)]
  cases hb : T (.low (ix2 d) (ix1 d)) with
  | none => rfl
  | some b =>
    simp only [entry_write_ne m v (h.page _ _ hb) h.pg_page (ix0_lt d) (ix2_lt hc)
      (.inl (h.ne_of_node hb h.root (by simp)))]

theorem leafAt_growLow (h : Tables m pg T) (ha : T (.mid (ix2 c)) = some a)
    (hno : T (.low (ix2 c) (ix1 c)) = none) (hb : NewTable m T b) (d : ℕ) :
    leafAt (writePte m (a + 8 * ix1 c) v) (Function.update T (.low (ix2 c) (ix1 c)) (some b)) d =
      leafAt m T d := by
  have hap := h.page _ _ ha
  by_cases hd : Node.low (ix2 d) (ix1 d) = .low (ix2 c) (ix1 c)
  · have hab : b ≠ a := fun he => hb.new _ (he ▸ ha)
    simp only [leafAt, hd, Function.update_self, hno,
      entry_write_ne m v hb.page hap (ix0_lt d) (ix1_lt c) (.inl hab), hb.blank _ (ix0_lt d)]
    simp
  · simp only [leafAt, Function.update_of_ne hd]
    cases hbd : T (.low (ix2 d) (ix1 d)) with
    | none => rfl
    | some e =>
      simp only [entry_write_ne m v (h.page _ _ hbd) hap (ix0_lt d) (ix1_lt c)
        (.inl (h.ne_of_node hbd ha (by simp)))]

theorem leafAt_setLeaf_self (hb : T (.low (ix2 c) (ix1 c)) = some b)
    (hlt : v < 256 ^ 8) (hv : valid v) :
    leafAt (writePte m (b + 8 * ix0 c) v) T c = some (b + 8 * ix0 c, v) := by
  simp only [leafAt, hb, entry_write m b _ hlt, hv, if_true]

theorem leafAt_setLeaf_ne (h : Tables m pg T)
    (hb : T (.low (ix2 c) (ix1 c)) = some b) (hne : d ≠ c) :
    leafAt (writePte m (b + 8 * ix0 c) v) T d = leafAt m T d := by
  simp only [leafAt]
  cases hd : T (.low (ix2 d) (ix1 d)) with
  | none => rfl
  | some e =>
    have : e ≠ b ∨ ix0 d ≠ ix0 c := by
      by_contra hcon
      push Not at hcon
      obtain ⟨rfl, h0⟩ := hcon
      have := h.inj _ _ _ hd hb
      simp only [Node.low.injEq] at this
      exact hne (ix_inj this.1 this.2 h0)
    simp only [entry_write_ne m v (h.page _ _ hd) (h.page _ _ hb) (ix0_lt d) (ix0_lt c) this]

end

-- ---------------------------------------------------------------------------
-- One page
-- ---------------------------------------------------------------------------

section
variable {σ : Type} {kalloc : ℕ → σ → Run (ℕ × σ)} {s t : Phys σ} {pg va0 pa0 perm : ℕ} {T : Shape}

theorem mapLevel_two_some (h : Tables s.mem pg T) (ha : T (.mid (ix2 (vpn va0))) = some a) :
    mapLevel kalloc va0 pa0 perm 2 pg s = mapLevel kalloc va0 pa0 perm 1 a s := by
  have hs := h.mid _ (ix2_lt (vpn_lt va0))
  rw [ha] at hs
  obtain ⟨hv, -, hp⟩ := hs
  rw [entry] at hv hp
  rw [mapLevel]
  simp only [Nat.reduceAdd, px_two, hv, hp, if_true]

theorem mapLevel_two_none (h : Tables s.mem pg T) (hno : T (.mid (ix2 (vpn va0))) = none) :
    mapLevel kalloc va0 pa0 perm 2 pg s = (kalloc pgSize s.heap >>= fun r =>
      mapLevel kalloc va0 pa0 perm 1 r.1
        ⟨writePte s.mem (pg + 8 * ix2 (vpn va0)) (tablePte r.1 perm), r.2⟩) := by
  have hs := h.mid _ (ix2_lt (vpn_lt va0))
  rw [hno] at hs
  have hs : valid (readPte s.mem (pg + 8 * ix2 (vpn va0))) = false := hs
  rw [mapLevel]
  simp [px_two, hs]

theorem mapLevel_one_some (h : Tables s.mem pg T) (ha : T (.mid (ix2 (vpn va0))) = some a)
    (hb : T (.low (ix2 (vpn va0)) (ix1 (vpn va0))) = some b) :
    mapLevel kalloc va0 pa0 perm 1 a s = mapLevel kalloc va0 pa0 perm 0 b s := by
  have hs := h.low _ (ix2_lt (vpn_lt va0)) a ha _ (ix1_lt (vpn va0))
  rw [hb] at hs
  obtain ⟨hv, -, hp⟩ := hs
  rw [entry] at hv hp
  conv_lhs => rw [mapLevel]
  simp only [Nat.reduceAdd, px_one, hv, hp, if_true]

theorem mapLevel_one_none (h : Tables s.mem pg T) (ha : T (.mid (ix2 (vpn va0))) = some a)
    (hno : T (.low (ix2 (vpn va0)) (ix1 (vpn va0))) = none) :
    mapLevel kalloc va0 pa0 perm 1 a s = (kalloc pgSize s.heap >>= fun r =>
      mapLevel kalloc va0 pa0 perm 0 r.1
        ⟨writePte s.mem (a + 8 * ix1 (vpn va0)) (tablePte r.1 perm), r.2⟩) := by
  have hs := h.low _ (ix2_lt (vpn_lt va0)) a ha _ (ix1_lt (vpn va0))
  rw [hno] at hs
  have hs : valid (readPte s.mem (a + 8 * ix1 (vpn va0))) = false := hs
  rw [mapLevel]
  simp [px_one, hs]

theorem mapLevel_zero (hb : T (.low (ix2 (vpn va0)) (ix1 (vpn va0))) = some b) :
    mapLevel kalloc va0 pa0 perm 0 b s =
      if leafAt s.mem T (vpn va0) = none then
        .ok ⟨writePte s.mem (b + 8 * ix0 (vpn va0)) (leafPte pa0 perm), s.heap⟩
      else .error (.panic "double map") := by
  simp only [mapLevel, leafAt, hb, px_zero, entry]
  by_cases hv : valid (readPte s.mem (b + 8 * ix0 (vpn va0)))
  · simp [hv]
    rfl
  · simp [hv]

/-- The tree after `map` has written the entry of page number `c`. -/
structure PageMapped (pg : ℕ) (m : Mem) (T : Shape) (m' : Mem) (T' : Shape) (c e : ℕ) (l : List ℕ) :
    Prop where
  ext : Ext pg m T m' T' (paths [c]) l
  here : ∃ p, leafAt m' T' c = some (p, e)
  other : ∀ d, d ≠ c → leafAt m' T' d = leafAt m T d

theorem PageMapped.of_ext {m₀ m m' : Mem} {T₀ T T' : Shape} (h : PageMapped pg m T m' T' c e r)
    (h₀ : Ext pg m₀ T₀ m T (paths [c]) l) (hl : ∀ d, leafAt m T d = leafAt m₀ T₀ d) :
    PageMapped pg m₀ T₀ m' T' c e (l ++ r) :=
  ⟨h₀.trans h.ext subset_rfl subset_rfl, h.here, fun d hd => (h.other d hd).trans (hl d)⟩

theorem missing_single (T : Shape) (c : ℕ) : missing T [c] =
    (if T (.mid (ix2 c)) = none then 1 else 0) + if T (.low (ix2 c) (ix1 c)) =
      none then 1 else 0 := by
  have : ([c].flatMap nodesOf).toFinset = {.mid (ix2 c), .low (ix2 c) (ix1 c)} := by
    simp [nodesOf]
  rw [missing, this, Finset.filter_insert, Finset.filter_singleton]
  split <;> split <;> simp

variable (kalloc) in
theorem mapLevel_zero_ok (h : Tables s.mem pg T) (hperm : KernelPerm perm) (hpa : pa0 < 2 ^ 64)
    (hb : T (.low (ix2 (vpn va0)) (ix1 (vpn va0))) = some b)
    (hno : leafAt s.mem T (vpn va0) = none) :
    ∃ m', mapLevel kalloc va0 pa0 perm 0 b s = .ok ⟨m', s.heap⟩ ∧
      PageMapped pg s.mem T m' T (vpn va0) (leafPte pa0 perm) [] := by
  have hlt := leafPte_lt hperm hpa
  have hv : valid (leafPte pa0 perm) = true := leafPte_valid hperm
  refine ⟨_, (mapLevel_zero hb).trans (if_pos hno), ext_setLeaf h hb hlt fun _ =>
      leafPte_readable hperm,
    ⟨_, leafAt_setLeaf_self hb hlt hv⟩, fun d hd => leafAt_setLeaf_ne h hb hd⟩

variable (kalloc) in
theorem mapLevel_one_ok (h : Tables s.mem pg T) (hperm : KernelPerm perm) (hpa : pa0 < 2 ^ 64)
    (ha : T (.mid (ix2 (vpn va0))) = some a) (hno : leafAt s.mem T (vpn va0) = none)
    (hd : Draws (kalloc pgSize) s.heap l heap')
    (hl : l.length = if T (.low (ix2 (vpn va0)) (ix1 (vpn va0))) = none then 1 else 0)
    (hnew : NewTables s.mem T l) :
    ∃ m' T', mapLevel kalloc va0 pa0 perm 1 a s = .ok ⟨m', heap'⟩ ∧
      PageMapped pg s.mem T m' T' (vpn va0) (leafPte pa0 perm) l := by
  cases hb : T (.low (ix2 (vpn va0)) (ix1 (vpn va0))) with
  | some b =>
    cases hd with
    | cons => simp [hb] at hl
    | nil =>
      obtain ⟨m', h1, h2⟩ := mapLevel_zero_ok kalloc h hperm hpa hb hno
      exact ⟨m', T, (mapLevel_one_some h ha hb).trans h1, h2⟩
  | none =>
    obtain ⟨b, rfl⟩ : ∃ b, l = [b] := List.length_eq_one_iff.mp (by simpa [hb] using hl)
    obtain _ | ⟨hk, hd⟩ := hd
    cases hd
    have hbn := hnew.2 b (by simp)
    have hext := ext_growLow h (vpn_lt va0) ha hb hbn hperm
    have hleaf := leafAt_growLow (v := tablePte b perm) h ha hb hbn
    obtain ⟨m', h1, h2⟩ := mapLevel_zero_ok kalloc (b := b)
      (s := ⟨writePte s.mem (a + 8 * ix1 (vpn va0)) (tablePte b perm), heap'⟩)
      hext.tables hperm hpa (by simp) ((hleaf _).trans hno)
    refine ⟨m', _, ?_, h2.of_ext hext hleaf⟩
    rw [mapLevel_one_none h ha hb, hk]
    exact h1

/-- `map` on one page that is not mapped, given the tables it is missing. -/
theorem mapPage_ok (h : Tables s.mem pg T) (hperm : KernelPerm perm) (hpa : pa0 < 2 ^ 64)
    (hno : leafAt s.mem T (vpn va0) = none) (hd : Draws (kalloc pgSize) s.heap l heap')
    (hl : l.length = missing T [vpn va0]) (hnew : NewTables s.mem T l) :
    ∃ m' T', mapPage kalloc pg perm va0 pa0 s = .ok ⟨m', heap'⟩ ∧
      PageMapped pg s.mem T m' T' (vpn va0) (leafPte pa0 perm) l := by
  rw [missing_single] at hl
  cases ha : T (.mid (ix2 (vpn va0))) with
  | some a =>
    simp only [ha, reduceCtorEq, if_false, Nat.zero_add] at hl
    rw [mapPage, mapLevel_two_some h ha]
    exact mapLevel_one_ok kalloc h hperm hpa ha hno hd hl hnew
  | none =>
    have hlow : T (.low (ix2 (vpn va0)) (ix1 (vpn va0))) = none := by
      cases hl : T (.low (ix2 (vpn va0)) (ix1 (vpn va0))) with
      | none => rfl
      | some b =>
        obtain ⟨a, ha'⟩ := h.under _ _ _ hl
        simp [ha] at ha'
    simp only [ha, hlow, if_true] at hl
    obtain _ | ⟨hk, hd⟩ := hd
    · simp at hl
    · rename_i a heap₁ l
      have han := hnew.2 a (by simp)
      have hext := ext_growMid h (vpn_lt va0) ha han hperm
      have hleaf := leafAt_growMid (a := a) (v := tablePte a perm) h (vpn_lt va0)
      obtain ⟨m', T', h1, h2⟩ := mapLevel_one_ok kalloc (a := a)
        (s := ⟨writePte s.mem (pg + 8 * ix2 (vpn va0)) (tablePte a perm), heap₁⟩)
        hext.tables hperm hpa (by simp) ((hleaf _).trans hno) hd (by simpa [hlow] using hl)
        (NewTables.ext (l := [a]) hnew hext)
      refine ⟨m', T', ?_, h2.of_ext hext hleaf⟩
      rw [mapPage, mapLevel_two_none h ha, hk]
      exact h1

/-- Whatever pages the source hands out for the tables that are missing, they
are fresh. -/
def FreshFor (next : σ → Run (ℕ × σ)) (s : σ) (m : Mem) (T : Shape) (n : ℕ) : Prop :=
  ∀ l s', Draws next s l s' → l.length ≤ n → NewTables m T l

theorem mapLevel_one_inv (h : Tables s.mem pg T) (ha : T (.mid (ix2 (vpn va0))) = some a)
    (hm : mapLevel kalloc va0 pa0 perm 1 a s = .ok t) :
    leafAt s.mem T (vpn va0) = none ∧ ∃ l heap', Draws (kalloc pgSize) s.heap l heap' ∧
      l.length = if T (.low (ix2 (vpn va0)) (ix1 (vpn va0))) = none then 1 else 0 := by
  cases hb : T (.low (ix2 (vpn va0)) (ix1 (vpn va0))) with
  | some b =>
    rw [mapLevel_one_some h ha hb, mapLevel_zero hb] at hm
    split at hm
    · exact ⟨by assumption, [], _, .nil, by simp⟩
    · cases hm
  | none =>
    rw [mapLevel_one_none h ha hb, bind_ok] at hm
    obtain ⟨⟨b, heap'⟩, hk, -⟩ := hm
    exact ⟨by simp [leafAt, hb], [b], heap', .cons hk .nil, by simp⟩

/-- If `map` comes back from a page, the page was not mapped and the missing
tables were handed out. -/
theorem mapPage_inv (h : Tables s.mem pg T) (hperm : KernelPerm perm)
    (hm : mapPage kalloc pg perm va0 pa0 s = .ok t)
    (hnew : FreshFor (kalloc pgSize) s.heap s.mem T (missing T [vpn va0])) :
    leafAt s.mem T (vpn va0) = none ∧
      ∃ l heap', Draws (kalloc pgSize) s.heap l heap' ∧ l.length = missing T [vpn va0] := by
  rw [missing_single] at hnew ⊢
  cases ha : T (.mid (ix2 (vpn va0))) with
  | some a =>
    rw [mapPage, mapLevel_two_some h ha] at hm
    simp only [ha, reduceCtorEq, if_false, Nat.zero_add] at hnew ⊢
    exact mapLevel_one_inv h ha hm
  | none =>
    have hlow : T (.low (ix2 (vpn va0)) (ix1 (vpn va0))) = none := by
      cases hl : T (.low (ix2 (vpn va0)) (ix1 (vpn va0))) with
      | none => rfl
      | some b =>
        obtain ⟨a, ha'⟩ := h.under _ _ _ hl
        simp [ha] at ha'
    simp only [ha, hlow, if_true] at hnew ⊢
    rw [mapPage, mapLevel_two_none h ha, bind_ok] at hm
    obtain ⟨⟨a, heap₁⟩, hk, hm⟩ := hm
    have han := (hnew [a] heap₁ (.cons hk .nil) (by simp)).2 a (by simp)
    have hext := ext_growMid h (vpn_lt va0) ha han hperm
    obtain ⟨-, l, heap', hd, hl⟩ := mapLevel_one_inv
      (s := ⟨writePte s.mem (pg + 8 * ix2 (vpn va0)) (tablePte a perm), heap₁⟩) hext.tables
      (by simp) hm
    refine ⟨by simp [leafAt, hlow], a :: l, heap', .cons hk hd, ?_⟩
    simp [hl, hlow]

end

end SkyOS
