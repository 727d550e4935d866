import SkyOS.Proc.SpaceLaws

/-!
# Calls that get what they ask for

In memory that starts out as zeros every page that is handed out is blank. As
long as there are pages left, booting, `alloc_process` and a `umap` of pages
that are not mapped come back.
-/

namespace SkyOS

open ByteMem

/-- There are `n` pages left, and memory that is not handed out is zero. -/
structure Roomy (L : Layout) (k : Kernel) (T : Option ℕ → Shape) (P D : Set ℕ) (n : ℕ) : Prop where
  spaces : Spaces L k T P D
  zero : ∀ x ∉ P, k.phys.mem x = 0
  room : Supply L k.phys.heap n

theorem Owned.blankPages {s : Phys Buddy} (h : Owned L s.heap P) (hz : ∀ x ∉ P, s.mem x = 0)
    (n : ℕ) :
    BlankPages L s n := fun _ _ hd _ a ha =>
  blank_zero fun x hx => hz x ((h.draws hd).new a ha x hx)

theorem align_of_dvd (h : pgSize ∣ a) : align a := by
  obtain ⟨c, rfl⟩ := h
  rw [align, show 0xfff = 2 ^ 12 - 1 by decide, Nat.and_two_pow_sub_one_eq_mod, Nat.mul_mod_right]
  rfl

-- ---------------------------------------------------------------------------
-- Counting tables
-- ---------------------------------------------------------------------------

theorem missing_le_length (T : Shape) (cs : List ℕ) : missing T cs ≤ 2 * cs.length := by
  have hlen : (cs.flatMap nodesOf).length = 2 * cs.length := by
    induction cs with
    | nil => rfl
    | cons c cs ih =>
      rw [List.flatMap_cons, List.length_append, ih, List.length_cons]
      simp only [nodesOf, List.length_cons, List.length_nil]
      omega
  exact (Finset.card_filter_le _ _).trans ((List.toFinset_card_le _).trans hlen.le)

theorem missing_le_slot (T : Shape) {cs : List ℕ} (h : ∀ c ∈ cs, ix2 c = i) :
    missing T cs ≤ 513 := by
  have hsub : ((cs.flatMap nodesOf).toFinset.filter fun n => T n = none) ⊆
      insert (.mid i) ((Finset.range 512).image (.low i)) := by
    intro n hn
    simp only [Finset.mem_filter, List.mem_toFinset, List.mem_flatMap, nodesOf, List.mem_cons,
      List.not_mem_nil, or_false] at hn
    obtain ⟨⟨c, hc, hn⟩, -⟩ := hn
    rw [h c hc] at hn
    rcases hn with rfl | rfl
    · exact Finset.mem_insert_self _ _
    · exact Finset.mem_insert_of_mem (Finset.mem_image_of_mem _ (Finset.mem_range.mpr (ix1_lt c)))
  refine (Finset.card_le_card hsub).trans ((Finset.card_insert_le _ _).trans ?_)
  have := Finset.card_image_le (s := Finset.range 512) (f := Node.low i)
  rw [Finset.card_range] at this
  omega

section
variable {L : Layout} {k k' : Kernel} {T : Option ℕ → Shape} {P D : Set ℕ}

-- ---------------------------------------------------------------------------
-- Processes
-- ---------------------------------------------------------------------------

theorem Roomy.process (h : Roomy L k T P D (n + 1)) (hf : freePid k = some p) :
    ∃ t heap, allocProcess L k = .ok (p, withProcess k p t heap) ∧ Granted L P t pgSize heap ∧
      Roomy L (withProcess k p t heap) (addSpace T p t) (P ∪ blockBytes t pgSize) D n := by
  obtain ⟨l, heap, hd, hl, hroom⟩ := h.room.take (show 1 ≤ n + 1 by omega)
  obtain ⟨t, rfl⟩ := List.length_eq_one_iff.mp hl
  obtain _ | ⟨ha, hd⟩ := hd
  cases hd
  have hg := h.spaces.owned.grant ha
  have hk := allocProcess_ok.mpr ⟨hf, t, heap, ha, align_of_dvd hg.page, rfl⟩
  obtain ⟨t', heap', he, -, -, hs⟩ := h.spaces.process hk
  have ht : t' = t := by
    have := congrArg (fun k => k.root (some p)) he
    simpa [withProcess, Kernel.root, eq_comm] using this
  rw [ht] at hs
  refine ⟨t, heap, hk, hg, hs, fun x hx => ?_, ?_⟩
  · rw [Set.mem_union, not_or, blockBytes_page] at hx
    rw [withProcess_mem hx.2]
    exact h.zero x hx.1
  · rw [withProcess]
    exact hroom

theorem Spaces.leafAt_new (h : Spaces L k T P D) (hg : Granted L P t pgSize heap) (c : ℕ) :
    leafAt (withProcess k p t heap).phys.mem (addSpace T p t (some p)) c =
      leafAt k.phys.mem (T none) c := by
  have hlow : ∀ i j, addSpace T p t (some p) (.low i j) = T none (.low i j) := fun i j => by
    rw [addSpace_self, Function.update_of_ne (by simp)]
  rw [leafAt_congr fun b hb x hx => withProcess_mem fun ht => ?_, leafAt, leafAt, hlow]
  rw [hlow] at hb
  exact hg.new x ht (h.held none _ b trivial hb x hx)

theorem Spaces.leafAt_old (h : Spaces L k T P D) (hg : Granted L P t pgSize heap)
    (hr : k.HasSpace r)
    (hne : r ≠ some p) (c : ℕ) :
    leafAt (withProcess k p t heap).phys.mem (addSpace T p t r) c = leafAt k.phys.mem (T r) c := by
  rw [addSpace_of_ne T t hne]
  exact leafAt_congr fun b hb x hx => withProcess_mem fun ht =>
    hg.new x ht (h.held r _ b hr hb x hx)

-- ---------------------------------------------------------------------------
-- umap
-- ---------------------------------------------------------------------------

theorem umap_eq (hm : map (kalloc L) (k.root (some p)) va pa size pteU k.phys = .ok s) :
    umap L p va pa size k = .ok { k.setTask p (vmaInsert va size pteU (k.task p)) with phys :=
      s } := by
  have hr : ((k.setTask p (vmaInsert va size pteU (k.task p))).task p).pgtable =
      k.root (some p) := by
    simp only [Kernel.setTask, Kernel.root, Function.update_self, vmaInsert]
    split <;> rfl
  rw [← hr] at hm
  simp only [umap, bind_ok, pure_ok]
  exact ⟨s, hm, rfl⟩

theorem Roomy.umap (h : Roomy L k T P D n) (hp : k.HasSpace (some p)) (hva : pgSize ∣ va)
    (hpa : pgSize ∣ pa)
    (hvs : va + size ≤ 2 ^ 38) (hps : pa + size ≤ 2 ^ 52)
    (hno : ∀ x, va ≤ x → x < va + size → leafAt k.phys.mem (T (some p)) (vpn x) = none)
    (hn : 2 * (pagesOf va pa size).length + m ≤ n) :
    ∃ k' l Tp, umap L p va pa size k = .ok k' ∧
      RangeMapped (k.root (some p)) k.phys.mem (T (some p)) k'.phys.mem Tp pteU
      (pagesOf va pa size) l ∧
      Roomy L k' (grow T p Tp) (P ∪ pageBytes l) D m := by
  have hT := h.spaces.tables _ hp
  have hle := missing_le_length (T (some p)) (vpns (pagesOf va pa size))
  rw [List.length_map] at hle
  obtain ⟨l, heap, hd, hl, hroom⟩ :=
    h.room.take (show missing (T (some p)) (vpns (pagesOf va pa size)) ≤ n by omega)
  have hb := h.spaces.owned.blankPages h.zero
  have hnew : NewTables k.phys.mem (T (some p)) l :=
    h.spaces.owned.freshFor (hb l.length) (h.spaces.mem_held hp) l heap hd le_rfl
  obtain ⟨m', T', hm, hr⟩ := map_ok hT (.inr rfl) hva hpa hvs hps hno hd hl hnew
  have hu := umap_eq hm
  have hg := h.spaces.owned.draws hd
  have hs := h.spaces.grown hp hr.ext hg (umap_root hu) (umap_pidmap hu)
  refine ⟨_, l, T', hu, hr, hs, fun x hx => ?_, hroom.mono (by omega)⟩
  rw [Set.mem_union, not_or] at hx
  refine (hr.ext.frame x fun n _ a ha hin => ?_).trans (h.zero x hx.1)
  rcases hr.ext.new n a ha with ha | ⟨-, ha⟩
  · exact hx.1 (h.spaces.held _ n a hp ha x hin)
  · exact hx.2 ⟨a, ha, hin⟩

-- ---------------------------------------------------------------------------
-- Booting
-- ---------------------------------------------------------------------------

abbrev bootRoom : ℕ := npage - 514

theorem boots (L : Layout) (b : Buddy) :
    ∃ pg s, kPgtableInit (kalloc L) L ⟨fun _ => 0, buddyInit b⟩ = .ok (pg, s) ∧
    (∀ n, BlankPages L ⟨fun _ => 0, buddyInit b⟩ n) ∧
    ∀ k : Kernel, k.kPgtable = pg → k.phys = s → (∀ p, k.pidmap p = 0) → ∃ T P,
      Roomy L k (fun _ => T) P ∅ bootRoom ∧
      ∀ c, c ∉ vpns (pagesOf kernelStart kernelStart (kernelRange L)) →
        leafAt k.phys.mem T c = none := by
  obtain ⟨r, heap, hd, hl⟩ := draws_init L b (le_refl npage)
  have hblank : ∀ n, BlankPages L ⟨fun _ => 0, buddyInit b⟩ n :=
    (owned_init L b).blankPages (s := ⟨fun _ => 0, buddyInit b⟩) fun _ _ => rfl
  cases hd with
  | nil => rw [npage_eq] at hl; simp at hl
  | @cons _ pg heap₀ l _ ha hd =>
    have hg := (owned_init L b).grant ha
    have hblankPg : Blank (fun _ => 0) pg := blank_zero fun _ _ => rfl
    have hT := tables_blank hg.page hblankPg
    have hle : missing (rootOnly pg) (vpns (pagesOf kernelStart kernelStart (kernelRange L))) ≤
        513 := by
      refine missing_le_slot _ (i := kernelSlot) fun c hc => ?_
      obtain ⟨v, hv, rfl⟩ := List.mem_map.mp hc
      exact kernelRange_slot L hv
    have hsup : Supply L heap₀ (npage - 1) := ⟨l, heap, hd, by rw [← hl]; simp⟩
    obtain ⟨l', heap', hd', hl', hroom⟩ := hsup.take (hle.trans (show 513 ≤ npage - 1 by decide))
    have hnew : NewTables (fun _ => 0) (rootOnly pg) l' := by
      refine Owned.freshFor (s := ⟨fun _ => 0, heap₀⟩) hg.owned (fun _ _ _ _ _ _ =>
          blank_zero fun _ _ => rfl)
        (fun n a hn => ?_) l' heap' hd' le_rfl
      rw [(rootOnly_some.mp hn).2, blockBytes_page]
      exact .inr (.self _)
    have hend := (kernelRange_lt L).le
    have hm : ∃ m' T', map (kalloc L) pg kernelStart kernelStart (kernelRange L) 0 ⟨fun _ => 0,
        heap₀⟩ =
        .ok ⟨m', heap'⟩ ∧ RangeMapped pg (fun _ => 0) (rootOnly pg) m' T' 0
          (pagesOf kernelStart kernelStart (kernelRange L)) l' :=
      map_ok hT (.inl rfl) (by decide) (by decide) (hend.trans (by decide)) (hend.trans (by decide))
        (fun x _ _ => leafAt_rootOnly _ _ _) hd' hl' hnew
    obtain ⟨m', T', hm, -⟩ := hm
    have hk : kPgtableInit (kalloc L) L ⟨fun _ => 0, buddyInit b⟩ = .ok (pg, ⟨m', heap'⟩) :=
      kPgtableInit_ok.mpr ⟨align_of_dvd hg.page, heap₀, ha, hm⟩
    refine ⟨pg, _, hk, hblank, ?_⟩
    rintro k rfl hphys hpid
    rw [← hphys] at hk
    obtain ⟨T, l'', hr, -, hs⟩ := spaces_boot (owned_init L b) hpid (hblank _) hk
    refine ⟨T, _, ⟨hs, fun x hx => hr.ext.frame x fun n _ a hn hin => ?_, ?_⟩, fun c hc => ?_⟩
    · exact hx (hs.held none n a trivial hn x hin)
    · rw [hphys]
      exact hroom.mono (show npage - 514 ≤ npage - 1 - _ by omega)
    · rw [hr.other c hc]
      exact leafAt_rootOnly _ _ _

end

end SkyOS
