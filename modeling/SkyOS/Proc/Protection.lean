import SkyOS.Proc.Direct
import SkyOS.Proc.Write

/-!
# Protection

What a process reaches in user mode: the pages that `umap` has entered for it, and in the
kernel's root slot those entered for anyone. The kernel's own pages are in every table, but
not for user mode.
-/

namespace SkyOS

open ByteMem

/-- The states of `SpaceReach`, with the pages that `umap` has entered for each process. -/
inductive PageReach (L : Layout) (b : Buddy) : Kernel → Set ℕ → (ℕ → List (ℕ × ℕ)) → Prop
  | boot : s.heap = buddyInit b → (∀ p, k.pidmap p = 0) →
      BlankPages L s (1 + tablesMissing s.mem k.kPgtable kernelStart kernelStart (kernelRange L)) →
      kPgtableInit (kalloc L) L s = .ok (k.kPgtable, k.phys) → PageReach L b k ∅ fun _ => []
  | process : PageReach L b k D M → allocProcess L k = .ok (p, k') → PageReach L b k' D M
  | umap : PageReach L b k D M → k.pidmap p ≠ 0 → va < 2 ^ 64 → pa < 2 ^ 64 →
      BlankPages L k.phys (tablesMissing k.phys.mem (k.task p).pgtable va pa size) →
      umap L p va pa size k = .ok k' →
        PageReach L b k' D (Function.update M p (M p ++ pagesOf va pa size))
  | alloc : PageReach L b k D M → k.alloc L size = .ok (a, k') →
      PageReach L b k' (D ∪ blockBytes a size) M
  | store : PageReach L b k D M → (∀ x ∉ D, m x = k.phys.mem x) → PageReach L b (k.setMem m) D M
  | other : PageReach L b k D M → k'.phys = k.phys → k'.pidmap = k.pidmap →
      (∀ r, k'.root r = k.root r) →
      PageReach L b k' D M

def Shown (M : ℕ → List (ℕ × ℕ)) (r : Option ℕ) (v : ℕ × ℕ) : Prop :=
  ∃ p, v ∈ M p ∧ (r = some p ∨ px 2 v.1 = kernelSlot)

def Entered (L : Layout) (M : ℕ → List (ℕ × ℕ)) (r : Option ℕ) (c e : ℕ) : Prop :=
  (∃ v ∈ pagesOf kernelStart kernelStart (kernelRange L), vpn v.1 = c ∧ e = leafPte v.2 0) ∨
    ∃ v, Shown M r v ∧ vpn v.1 = c ∧ e = leafPte v.2 pteU

/-- The trees have the entries of the kernel's pages and of those in `M`. -/
structure Views (L : Layout) (k : Kernel) (T : Option ℕ → Shape) (M : ℕ → List (ℕ × ℕ)) : Prop where
  unused : ∀ p, k.pidmap p = 0 → M p = []
  lt : ∀ p, ∀ v ∈ M p, v.2 < 2 ^ 64
  leaf : ∀ r, k.HasSpace r → ∀ c e, (∃ a, leafAt k.phys.mem (T r) c = some (a, e)) ↔
    Entered L M r c e

section
variable {L : Layout} {b : Buddy} {k k' : Kernel} {T : Option ℕ → Shape} {P D : Set ℕ}
    {M : ℕ → List (ℕ × ℕ)}

theorem PageReach.spaceReach (h : PageReach L b k D M) : SpaceReach L b k D := by
  induction h with
  | boot hh hpid hb hk => exact .boot hh hpid hb hk
  | process _ ha ih => exact ih.process ha
  | umap _ hp hva hpa hb hu ih => exact ih.umap hp hva hpa hb hu
  | alloc _ ha ih => exact ih.alloc ha
  | store _ hm ih => exact ih.store hm
  | other _ h1 h2 h3 ih => exact ih.other h1 h2 h3

theorem SpaceReach.pages (h : SpaceReach L b k D) : ∃ M, PageReach L b k D M := by
  induction h with
  | boot hh hpid hb hk => exact ⟨_, .boot hh hpid hb hk⟩
  | process _ ha ih => exact ih.imp fun _ ih => ih.process ha
  | umap _ hp hva hpa hb hu ih => exact ih.elim fun _ ih => ⟨_, ih.umap hp hva hpa hb hu⟩
  | alloc _ ha ih => exact ih.imp fun _ ih => ih.alloc ha
  | store _ hm ih => exact ih.imp fun _ ih => ih.store hm
  | other _ h1 h2 h3 ih => exact ih.imp fun _ ih => ih.other h1 h2 h3

-- ---------------------------------------------------------------------------
-- What umap adds
-- ---------------------------------------------------------------------------

theorem RangeMapped.entry {T T' : Shape} (h : RangeMapped pg m T m' T' perm vs l)
    (hno : ∀ v ∈ vs, leafAt m T (vpn v.1) = none) (c e : ℕ) : (∃ a, leafAt m' T' c = some (a, e)) ↔
      (∃ a, leafAt m T c = some (a, e)) ∨ ∃ v ∈ vs, vpn v.1 = c ∧ e = leafPte v.2 perm := by
  by_cases hc : c ∈ vpns vs
  · obtain ⟨v, hv, rfl⟩ := List.mem_map.mp hc
    constructor
    · rintro ⟨a, ha⟩
      obtain ⟨p, hp⟩ := h.here v hv
      rw [hp, Option.some.injEq, Prod.mk.injEq] at ha
      exact .inr ⟨v, hv, rfl, ha.2.symm⟩
    · rintro (⟨a, ha⟩ | ⟨w, hw, hvpn, rfl⟩)
      · rw [hno v hv] at ha
        cases ha
      · rw [← hvpn]
        exact h.here w hw
  · rw [h.other c hc]
    refine ⟨.inl, fun hr => hr.resolve_right ?_⟩
    rintro ⟨v, hv, rfl, -⟩
    exact hc (List.mem_map.mpr ⟨v, hv, rfl⟩)

theorem shown_append (M : ℕ → List (ℕ × ℕ)) (p : ℕ) (vs : List (ℕ × ℕ)) (r : Option ℕ) (v : ℕ × ℕ) :
    Shown (Function.update M p (M p ++ vs)) r v ↔ Shown M r v ∨ v ∈ vs ∧
    (r = some p ∨ px 2 v.1 = kernelSlot) := by
  constructor
  · rintro ⟨q, hv, hq⟩
    by_cases hqp : q = p
    · subst hqp
      rw [Function.update_self, List.mem_append] at hv
      exact hv.imp (fun hv => ⟨q, hv, hq⟩) fun hv => ⟨hv, hq⟩
    · rw [Function.update_of_ne hqp] at hv
      exact .inl ⟨q, hv, hq⟩
  · rintro (⟨q, hv, hq⟩ | ⟨hv, hq⟩)
    · refine ⟨q, ?_, hq⟩
      by_cases hqp : q = p
      · subst hqp
        rw [Function.update_self]
        exact List.mem_append_left _ hv
      · rwa [Function.update_of_ne hqp]
    · exact ⟨p, by rw [Function.update_self]; exact List.mem_append_right _ hv, hq⟩

theorem entered_append (M : ℕ → List (ℕ × ℕ)) (p : ℕ) (vs : List (ℕ × ℕ)) (r : Option ℕ) (c e : ℕ) :
    Entered L (Function.update M p (M p ++ vs)) r c e ↔ Entered L M r c e ∨
      ∃ v ∈ vs, (r = some p ∨ px 2 v.1 = kernelSlot) ∧ vpn v.1 = c ∧ e = leafPte v.2 pteU := by
  simp only [Entered, shown_append]
  constructor
  · rintro (h | ⟨v, hv | ⟨hv, hr⟩, hc⟩)
    · exact .inl (.inl h)
    · exact .inl (.inr ⟨v, hv, hc⟩)
    · exact .inr ⟨v, hv, hr, hc⟩
  · rintro ((h | ⟨v, hv, hc⟩) | ⟨v, hv, hr, hc⟩)
    · exact .inl h
    · exact .inr ⟨v, .inl hv, hc⟩
    · exact .inr ⟨v, .inr ⟨hv, hr⟩, hc⟩

theorem Spaces.umap_entry (h : Spaces L k T P D) (hp : k.HasSpace (some p)) (hr : k.HasSpace r)
    (hm : RangeMapped (k.root (some p)) k.phys.mem (T (some p)) k'.phys.mem Tp pteU vs l)
    (hno : ∀ v ∈ vs, leafAt k.phys.mem (T (some p)) (vpn v.1) = none)
    (hg : GrantedPages L P l k'.phys.heap) (c e : ℕ) :
    (∃ a, leafAt k'.phys.mem (grow T p Tp r) c = some (a, e)) ↔
    (∃ a, leafAt k.phys.mem (T r) c = some (a, e)) ∨
      ∃ v ∈ vs, (r = some p ∨ px 2 v.1 = kernelSlot) ∧ vpn v.1 = c ∧ e = leafPte v.2 pteU := by
  by_cases hrp : r = some p
  · subst hrp
    rw [grow, if_pos rfl, hm.entry hno]
    simp
  · rw [h.leafAt_other hp hm.ext hg hr hrp]
    split
    · rename_i hc
      rw [hm.entry hno, h.leafAt_kernel hp hr hc]
      refine or_congr_right (exists_congr fun v => and_congr_right fun _ => ?_)
      refine ⟨fun hv => ⟨.inr ?_, hv⟩, And.right⟩
      rw [px_two, hv.1, hc]
    · rename_i hc
      refine ⟨.inl, fun he => he.resolve_right ?_⟩
      rintro ⟨v, -, hv | hv, hvc, -⟩
      · exact hrp hv
      · exact hc (by rw [← hvc, ← px_two, hv])

-- ---------------------------------------------------------------------------
-- Runs
-- ---------------------------------------------------------------------------

theorem Views.congr (h : Views L k T M) (hpid : k'.pidmap = k.pidmap)
    (hl : ∀ r, k.HasSpace r → ∀ c, leafAt k'.phys.mem (T r) c = leafAt k.phys.mem (T r) c) :
    Views L k' T M := by
  refine ⟨fun p hp => h.unused p (hpid ▸ hp), h.lt, fun r hr c e => ?_⟩
  have hr : k.HasSpace r := by
    cases r with
    | none => trivial
    | some p => rwa [Kernel.HasSpace, hpid] at hr
  rw [hl r hr]
  exact h.leaf r hr c e

theorem Views.process (h : Views L k T M) (hs : Spaces L k T P D) (hp : k.pidmap p = 0)
    (hg : Granted L P t pgSize heap) :
    Views L (withProcess k p t heap) (addSpace T p t) M := by
  have hpid (q : ℕ) (hq : q ≠ p) : (withProcess k p t heap).pidmap q = k.pidmap q := by
    simp [withProcess, hq]
  refine ⟨fun q hq => ?_, h.lt, fun r hr c e => ?_⟩
  · by_cases hqp : q = p
    · exact hqp ▸ h.unused p hp
    · exact h.unused q (hpid q hqp ▸ hq)
  by_cases hrp : r = some p
  · subst hrp
    rw [hs.leafAt_new hg, h.leaf none trivial]
    refine or_congr_right (exists_congr fun v => and_congr_left fun _ => exists_congr fun q =>
      and_congr_right fun hv => ?_)
    refine or_congr_left ⟨fun hq => ?_, fun hq => ?_⟩
    · cases hq
    · obtain rfl : p = q := Option.some.inj hq
      rw [h.unused p hp] at hv
      exact absurd hv List.not_mem_nil
  · have hr : k.HasSpace r := by
      cases r with
      | none => trivial
      | some q => rwa [Kernel.HasSpace, hpid q fun hq => hrp (congrArg some hq)] at hr
    rw [hs.leafAt_old hg hr hrp]
    exact h.leaf r hr c e

theorem pageReach_views (hr : PageReach L b k D M) : ∃ T P, Spaces L k T P D ∧ Views L k T M := by
  induction hr with
  | boot hh hpid hb hk =>
    obtain ⟨T, l, hm, -, h⟩ := spaces_boot (hh ▸ owned_init L b) hpid hb hk
    refine ⟨_, _, h, fun _ _ => rfl, fun _ v hv => absurd hv List.not_mem_nil, fun r _ c e => ?_⟩
    rw [hm.entry fun v _ => leafAt_rootOnly _ _ _]
    simp [leafAt_rootOnly, Entered, Shown]
  | process _ ha ih =>
    obtain ⟨T, P, h, hv⟩ := ih
    obtain ⟨t, heap, rfl, hp, hg, h'⟩ := h.process ha
    exact ⟨_, _, h', hv.process h hp hg⟩
  | umap _ hp hva hpa hb hu ih =>
    obtain ⟨T, P, h, hv⟩ := ih
    obtain ⟨l, Tp, hm, hno, -, hg, h'⟩ := umap_ok h hp hva hpa hb hu
    have hpid := umap_pidmap hu
    refine ⟨_, _, h', fun q hq => ?_, fun q v hq => ?_, fun r hr c e => ?_⟩
    · rw [hpid] at hq
      rw [Function.update_of_ne]
      · exact hv.unused q hq
      · rintro rfl
        exact hp hq
    · rename_i p _ _ _ _ _
      by_cases hqp : q = p
      · subst hqp
        rw [Function.update_self, List.mem_append] at hq
        exact hq.elim (hv.lt q v) fun hq => pagesOf_lt hpa hq
      · rw [Function.update_of_ne hqp] at hq
        exact hv.lt q v hq
    · rename_i k _ _ _ _ _ _ _ _
      have hr : k.HasSpace r := by
        cases r with
        | none => trivial
        | some q => rwa [Kernel.HasSpace, hpid] at hr
      rw [entered_append, h.umap_entry hp hr hm hno hg, hv.leaf r hr]
  | alloc hr ha ih =>
    obtain ⟨T, P, h, hv⟩ := ih
    obtain ⟨heap, hk, rfl⟩ := alloc_ok.mp ha
    have hg := h.owned.grant hk
    refine ⟨T, _, h.frame (fun r => by cases r <;> rfl) rfl (fun _ _ _ _ _ _ _ => rfl)
      Set.subset_union_left hg.owned ?_, hv.congr rfl fun _ _ _ => rfl⟩
    rintro x (hx | hx)
    · exact ⟨.inl (h.data x hx).1, .inl hx⟩
    · exact ⟨.inr hx, .inr fun hP => Set.disjoint_left.mp hg.apart hP hx⟩
  | store _ hm ih =>
    obtain ⟨T, P, h, hv⟩ := ih
    have hkeep : ∀ r n a, _ → T r n = some a → ∀ x, InPage a x → _ := fun r n a hr hn x hx =>
      hm x fun hD => (h.data x hD).2 r n a hr hn hx
    exact ⟨T, P, h.frame (fun r => by cases r <;> rfl) rfl hkeep subset_rfl h.owned
      fun x hx => ⟨(h.data x hx).1, .inl hx⟩, hv.congr rfl fun r hr c =>
        leafAt_frame (hkeep r · · hr) c⟩
  | other _ hphys hpid hroot ih =>
    obtain ⟨T, P, h, hv⟩ := ih
    exact ⟨T, P, h.frame hroot hpid (fun _ _ _ _ _ _ _ => by rw [hphys]) subset_rfl
      (hphys ▸ h.owned) fun x hx => ⟨(h.data x hx).1, .inl hx⟩, hv.congr hpid fun _ _ _ =>
        by rw [hphys]⟩

end

-- ---------------------------------------------------------------------------
-- The walk of the hardware
-- ---------------------------------------------------------------------------

section
variable {m : Mem} {pa pa' perm perm' va pg : ℕ} {T : Shape}

theorem leafPte_inj (h : KernelPerm perm) (h' : KernelPerm perm')
    (he : leafPte pa perm = leafPte pa' perm') :
    perm = perm' ∧ pa / 2 ^ 12 = pa' / 2 ^ 12 := by
  have hflags := congrArg (· % 2 ^ 10) he
  simp only [leafPte_flags h, leafPte_flags h'] at hflags
  obtain rfl : perm = perm' := by
    rcases h with rfl | rfl <;> rcases h' with rfl | rfl <;> revert hflags <;> decide
  rw [leafPte_eq h, leafPte_eq h] at he
  exact ⟨rfl, by omega⟩

/-- In user mode the hardware finds the entry of the page number, if user mode may. -/
theorem Tables.userLevel (h : Tables m pg T) (hp : Proper m T) (va : ℕ)
    (hl : ∀ q e, leafAt m T (vpn va) = some (q, e) → ∃ pa perm, e = leafPte pa perm ∧
      KernelPerm perm) (x : ℕ) :
    SkyOS.userLevel m va 2 pg = .ok x ↔ ∃ q pa, leafAt m T (vpn va) = some (q, leafPte pa pteU) ∧
      x = pa / 2 ^ 12 % 2 ^ 44 * 2 ^ 12 + va % 2 ^ 12 := by
  unfold SkyOS.userLevel
  cases hleaf : leafAt m T (vpn va) with
  | none =>
    rw [h.walkLevel_none hp hleaf]
    exact ⟨fun h => (by cases h), fun ⟨_, _, h, _⟩ => (by cases h)⟩
  | some s =>
    obtain ⟨q, e⟩ := s
    obtain ⟨pa, perm, rfl, hperm⟩ := hl q e hleaf
    rw [h.walkLevel hp hleaf hperm, leafPte_user hperm]
    split
    · rename_i h0
      refine ⟨fun h => (by cases h), ?_⟩
      rintro ⟨q, pa', hpte, -⟩
      rw [Option.some.injEq, Prod.mk.injEq] at hpte
      have hzero := (of_decide_eq_true h0).symm.trans (leafPte_inj hperm (.inr rfl) hpte.2).1
      exact absurd hzero (by decide)
    · rename_i h0
      obtain rfl : perm = pteU := hperm.resolve_left fun h => h0 (decide_eq_true h)
      constructor
      · intro hx
        exact ⟨_, pa, rfl, (Except.ok.inj hx).symm⟩
      · rintro ⟨q, pa', hpte, rfl⟩
        rw [Option.some.injEq, Prod.mk.injEq] at hpte
        rw [(leafPte_inj hperm hperm hpte.2).2]

end

-- ---------------------------------------------------------------------------
-- User mode
-- ---------------------------------------------------------------------------

section
variable {L : Layout} {b : Buddy} {k : Kernel} {D : Set ℕ} {M : ℕ → List (ℕ × ℕ)} {c : Csr}

theorem Spaces.userAddr_iff (h : Spaces L k T P D) (hv : Views L k T M) (hr : k.HasSpace r)
    (hc : c.satp = satpOf (k.root r))
    (va x : ℕ) : userAddr k.phys.mem c va = .ok x ↔ canonical va ∧ ∃ v, Shown M r v ∧
      vpn v.1 = vpn va ∧
      x = v.2 / pgSize % 2 ^ 44 * pgSize + va % pgSize := by
  have hT := h.tables r hr
  have hroot := h.root_lt hr
  have hl (q e : ℕ) (he : leafAt k.phys.mem (T r) (vpn va) = some (q, e)) :
      ∃ pa perm, e = leafPte pa perm ∧ KernelPerm perm := by
    rcases (hv.leaf r hr _ _).mp ⟨q, he⟩ with ⟨v, -, -, he⟩ | ⟨v, -, -, he⟩
    · exact ⟨v.2, 0, he, .inl rfl⟩
    · exact ⟨v.2, pteU, he, .inr rfl⟩
  have hwalk := hT.userLevel (h.proper r hr) va hl x
  unfold userAddr
  rw [hc, satpRoot_satpOf hT.pg_page (by omega)]
  by_cases hcan : canonical va
  · rw [if_pos hcan, hwalk]
    constructor
    · rintro ⟨q, pa, hq, rfl⟩
      refine ⟨hcan, ?_⟩
      rcases (hv.leaf r hr _ _).mp ⟨q, hq⟩ with ⟨v, -, -, he⟩ | ⟨v, hv, hvpn, he⟩
      · exact absurd (leafPte_inj (.inr rfl) (.inl rfl) he).1 (by decide)
      · exact ⟨v, hv, hvpn, by rw [(leafPte_inj (.inr rfl) (.inr rfl) he).2]⟩
    · rintro ⟨-, v, hs, hvpn, rfl⟩
      obtain ⟨q, hq⟩ := (hv.leaf r hr (vpn va) (leafPte v.2 pteU)).mpr (.inr ⟨v, hs, hvpn, rfl⟩)
      exact ⟨q, v.2, hq, rfl⟩
  · rw [if_neg hcan]
    exact ⟨fun h => (by cases h), fun h => absurd h.1 hcan⟩

/-- In user mode a process reads what `umap` has entered for it, and in the kernel's root slot
what it has entered for anyone. Every other address faults. -/
theorem user_reads_iff (hr : PageReach L b k D M) (hp : k.pidmap p ≠ 0)
    (hc : c.satp = satpOf (k.task p).pgtable) (va x : ℕ) :
    userAddr k.phys.mem c va = .ok x ↔ canonical va ∧ ∃ v, Shown M (some p) v ∧ vpn v.1 = vpn va ∧
      x = v.2 / pgSize % 2 ^ 44 * pgSize + va % pgSize := by
  obtain ⟨T, P, h, hv⟩ := pageReach_views hr
  exact h.userAddr_iff (r := some p) hv hp hc va x

theorem user_reads_low_page : ∃ k D M c, PageReach sampleLayout zeroed k D M ∧
    c.satp = satpOf (k.task 0).pgtable ∧
    userAddr k.phys.mem c 0x1234 = .ok 0x80300234 := by
  obtain ⟨k, k', T, P, hr, h0, h1, h, hu⟩ := low_page_mapped
  obtain ⟨M, hM⟩ := hr.pages
  have hM' := hM.umap h0 (by decide) (by decide) (h.spaces.owned.blankPages h.zero _) hu
  have hpage : (0x1000, 0x80300000) ∈ pagesOf 0x1000 0x80300000 0x1000 := by decide
  refine ⟨k', _, _, { k'.csr with satp := satpOf (k'.task 0).pgtable }, hM', rfl, ?_⟩
  refine (user_reads_iff hM' (p := 0) (umap_pidmap hu ▸ h0) rfl 0x1234 0x80300234).mpr
    ⟨by decide, (0x1000, 0x80300000), ⟨0, ?_, .inl rfl⟩, by decide, by decide⟩
  rw [Function.update_self]
  exact List.mem_append_right _ hpage

theorem kernelRange_vpn (hx : kernelStart ≤ x) (hlt : x < L.kernelEnd + memSize) :
    ∃ v ∈ pagesOf kernelStart kernelStart (kernelRange L), vpn v.1 = vpn x := by
  have hend := kernelRange_end L
  have hmax := kernelRange_lt L
  obtain ⟨hvpn, hi⟩ :=
      vpn_range (x := x) (show pgSize ∣ kernelStart by decide) (hmax.le.trans (by decide)) hx (by
    simp only [rangeEnd, pgSize]
    omega)
  exact ⟨_, (mem_kernelRange L).mpr ⟨_, hi, rfl⟩, hvpn.symm⟩

/-- In every address space the kernel reads its own memory one to one at its own addresses, and
user mode faults at every one of them. -/
theorem kernel_memory_private (hr : SpaceReach L b k D) (hs : k.HasSpace r)
    (hc : c.satp = satpOf (k.root r))
    (hx : kernelStart ≤ x) (hlt : x < L.kernelEnd + memSize) :
    loadAddr k.phys.mem c x = .ok x ∧ ∀ pa, userAddr k.phys.mem c x ≠ .ok pa := by
  have hload : SpaceReach L b { k with csr := c } D := hr.other rfl rfl fun r => by cases r <;> rfl
  refine ⟨hload.loads_kernel (r := r) ⟨?_, ?_⟩ rfl hx hlt, fun pa hpa => ?_⟩
  · cases r with
    | none => trivial
    | some p => exact hs
  · cases r <;> exact hc
  -- the page has the kernel's entry, and no other
  obtain ⟨M, hM⟩ := hr.pages
  obtain ⟨T, P, h, hv⟩ := pageReach_views hM
  obtain ⟨-, v, hshown, hvpn, -⟩ := (h.userAddr_iff hv hs hc x pa).mp hpa
  obtain ⟨w, hw, hwvpn⟩ := kernelRange_vpn hx hlt
  obtain ⟨q, hq⟩ := (hv.leaf r hs (vpn x) (leafPte v.2 pteU)).mpr (.inr ⟨v, hshown, hvpn, rfl⟩)
  obtain ⟨q', hq'⟩ := (hv.leaf r hs (vpn x) (leafPte w.2 0)).mpr (.inl ⟨w, hw, hwvpn, rfl⟩)
  rw [hq, Option.some.injEq, Prod.mk.injEq] at hq'
  exact absurd (leafPte_inj (.inr rfl) (.inl rfl) hq'.2).1 (by decide)

theorem kernel_memory_private_first : ∃ k : Kernel, ∃ c : Csr, c.satp = satpOf (k.task 1).pgtable ∧
    loadAddr k.phys.mem c kernelStart = .ok kernelStart ∧ ∀ pa, userAddr k.phys.mem c kernelStart ≠
      .ok pa := by
  obtain ⟨k, T, P, hr, -, h1, -⟩ := two_processes sampleLayout zeroed
  exact ⟨k, { k.csr with satp := satpOf (k.task 1).pgtable }, rfl,
    kernel_memory_private (r := some 1) hr h1 rfl le_rfl (by decide)⟩

end

end SkyOS
