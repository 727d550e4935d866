import SkyOS.Proc.Progress

/-!
# Isolation of umap

The docs give every process its own mappings beside the kernel's. `umap` does
not look at the address it is given, which an ELF header names. A page in the
kernel's root slot shows up in every space, and only such a page does.
-/

namespace SkyOS

open ByteMem

/-- The states that booting, making processes and `umap` reach. The bytes `D`
are handed out for data, and stores go there. Pages that become tables hold no
entry that is in use. -/
inductive SpaceReach (L : Layout) (b : Buddy) : Kernel → Set ℕ → Prop
  | boot : s.heap = buddyInit b → (∀ p, k.pidmap p = 0) →
      BlankPages L s (1 + tablesMissing s.mem k.kPgtable kernelStart kernelStart (kernelRange L)) →
      kPgtableInit (kalloc L) L s = .ok (k.kPgtable, k.phys) → SpaceReach L b k ∅
  | process : SpaceReach L b k D → allocProcess L k = .ok (p, k') → SpaceReach L b k' D
  | umap : SpaceReach L b k D → k.pidmap p ≠ 0 → va < 2 ^ 64 → pa < 2 ^ 64 →
      BlankPages L k.phys (tablesMissing k.phys.mem (k.task p).pgtable va pa size) →
      umap L p va pa size k = .ok k' → SpaceReach L b k' D
  | alloc : SpaceReach L b k D → k.alloc L size = .ok (a, k') →
      SpaceReach L b k' (D ∪ blockBytes a size)
  | store : SpaceReach L b k D → (∀ x ∉ D, m x = k.phys.mem x) → SpaceReach L b (k.setMem m) D
  | other : SpaceReach L b k D → k'.phys = k.phys → k'.pidmap = k.pidmap →
      (∀ r, k'.root r = k.root r) →
      SpaceReach L b k' D

section
variable {L : Layout} {b : Buddy} {k k' : Kernel} {D : Set ℕ}

theorem alloc_ok : k.alloc L size = .ok (a, k') ↔
    ∃ heap, kalloc L size k.phys.heap = .ok (a, heap) ∧
      k' = { k with phys := ⟨k.phys.mem, heap⟩ } := by
  unfold Kernel.alloc
  cases kalloc L size k.phys.heap with
  | error e => simp
  | ok r =>
    simp only [ok_bind, pure_ok, Prod.mk.injEq, Except.ok.injEq]
    constructor
    · rintro ⟨rfl, rfl⟩
      exact ⟨r.2, rfl, rfl⟩
    · rintro ⟨heap, rfl, rfl⟩
      exact ⟨rfl, rfl⟩

-- ---------------------------------------------------------------------------
-- What the other spaces see of umap
-- ---------------------------------------------------------------------------

section
variable {T : Option ℕ → Shape} {P : Set ℕ}

theorem Spaces.leafAt_kernel (h : Spaces L k T P D) (hr : k.HasSpace r) (hr' : k.HasSpace r')
    (hc : ix2 c = kernelSlot) (m : Mem) : leafAt m (T r) c = leafAt m (T r') c := by
  have hn : Node.inKernel (.low (ix2 c) (ix1 c)) := by simp [Node.inKernel, hc]
  unfold leafAt
  rw [h.kernel r hr _ hn, h.kernel r' hr' _ hn]

variable {Tp : Shape} {Q : Set Node} {l : List ℕ}

theorem Spaces.leafAt_other (h : Spaces L k T P D) (hp : k.HasSpace (some p))
    (he : Ext (k.root (some p)) k.phys.mem (T (some p)) k'.phys.mem Tp Q l)
    (hg : GrantedPages L P l k'.phys.heap) (hr : k.HasSpace r) (hne : r ≠ some p) (c : ℕ) :
    leafAt k'.phys.mem (grow T p Tp r) c =
      if ix2 c = kernelSlot then leafAt k'.phys.mem Tp c else leafAt k.phys.mem (T r) c := by
  rw [grow, if_neg hne]
  split
  · rename_i hc
    exact leafAt_graft_kernel hc
  · rename_i hc
    rw [leafAt_graft_own hc]
    exact leafAt_congr fun b hb => h.keep hp he hg hr hne _ b (by simpa [Node.inKernel] using hc) hb

end

/-- Every page of the kernel is mapped to itself, without `PTE_U`. -/
def SeesKernel (L : Layout) (m : Mem) (T : Shape) : Prop :=
  ∀ v ∈ pagesOf kernelStart kernelStart (kernelRange L), ∃ a, leafAt m T (vpn v.1) =
    some (a, leafPte v.2 0)

theorem SeesKernel.congr (h : SeesKernel L m T)
    (hl : ∀ v ∈ pagesOf kernelStart kernelStart (kernelRange L),
      leafAt m' T' (vpn v.1) = leafAt m T (vpn v.1)) :
    SeesKernel L m' T' := fun v hv => by
  rw [hl v hv]
  exact h v hv

theorem SeesKernel.not_new (h : Spaces L k T P D) (hs : SeesKernel L k.phys.mem (T none))
    (hp : k.HasSpace r)
    (hv : v ∈ pagesOf kernelStart kernelStart (kernelRange L)) : leafAt k.phys.mem (T r) (vpn v.1) ≠
      none := by
  obtain ⟨a, ha⟩ := hs v hv
  rw [h.leafAt_kernel hp (show k.HasSpace none from trivial) (kernelRange_slot L hv), ha]
  simp

theorem spaceReach_kernel (hr : SpaceReach L b k D) :
    ∃ T P, Spaces L k T P D ∧ SeesKernel L k.phys.mem (T none) := by
  induction hr with
  | boot hh hpid hb hk =>
    obtain ⟨T, l, hm, -, h⟩ := spaces_boot (hh ▸ owned_init L b) hpid hb hk
    exact ⟨_, _, h, hm.here⟩
  | process _ ha ih =>
    obtain ⟨T, P, h, hs⟩ := ih
    obtain ⟨t, heap, rfl, -, hg, h'⟩ := h.process ha
    exact ⟨_, _, h', hs.congr fun v _ => h.leafAt_old (r := none) hg trivial (by simp) _⟩
  | umap _ hp hva hpa hb hu ih =>
    obtain ⟨T, P, h, hs⟩ := ih
    obtain ⟨l, Tp, hm, hno, -, hg, h'⟩ := umap_ok h hp hva hpa hb hu
    refine ⟨_, _, h', hs.congr fun v hv => ?_⟩
    have hslot := kernelRange_slot L hv
    rw [h.leafAt_other (r := none) hp hm.ext hg trivial (by simp), if_pos hslot, hm.other,
      h.leafAt_kernel (r := some _) hp (show Kernel.HasSpace _ none from trivial) hslot]
    intro hmem
    obtain ⟨w, hw, he⟩ := List.mem_map.mp hmem
    exact hs.not_new (r := some _) h hp hv (he ▸ hno w hw)
  | alloc _ ha ih =>
    obtain ⟨T, P, h, hs⟩ := ih
    obtain ⟨heap, hk, rfl⟩ := alloc_ok.mp ha
    have hg := h.owned.grant hk
    refine ⟨T, _, h.frame (fun r => by cases r <;> rfl) rfl (fun _ _ _ _ _ _ _ => rfl)
      Set.subset_union_left hg.owned ?_, hs⟩
    rintro x (hx | hx)
    · exact ⟨.inl (h.data x hx).1, .inl hx⟩
    · exact ⟨.inr hx, .inr fun hP => Set.disjoint_left.mp hg.apart hP hx⟩
  | store _ hm ih =>
    obtain ⟨T, P, h, hs⟩ := ih
    have hkeep : ∀ r n a, _ → T r n = some a → ∀ x, InPage a x → _ := fun r n a hr hn x hx =>
      hm x fun hD => (h.data x hD).2 r n a hr hn hx
    refine ⟨T, P, h.frame (fun r => by cases r <;> rfl) rfl hkeep subset_rfl h.owned
      fun x hx => ⟨(h.data x hx).1, .inl hx⟩, hs.congr fun v _ => ?_⟩
    exact leafAt_congr fun b hb => hkeep none _ b trivial hb
  | other _ hphys hpid hroot ih =>
    obtain ⟨T, P, h, hs⟩ := ih
    rw [← hphys] at hs
    exact ⟨T, P, h.frame hroot hpid (fun _ _ _ _ _ _ _ => by rw [hphys]) subset_rfl
      (hphys ▸ h.owned) fun x hx => ⟨(h.data x hx).1, .inl hx⟩, hs⟩

theorem spaceReach_spaces (hr : SpaceReach L b k D) : ∃ T P, Spaces L k T P D := by
  obtain ⟨T, P, h, -⟩ := spaceReach_kernel hr
  exact ⟨T, P, h⟩

/-- A `umap` that comes back leaves the walks of another space as they are
exactly when none of its pages is in the kernel's root slot. -/
theorem umap_walk_iff (h : Spaces L k T P D) (hp : k.HasSpace (some p)) (hr : k.HasSpace r)
    (hne : r ≠ some p)
    (hva : va < 2 ^ 64) (hpa : pa < 2 ^ 64)
    (hb : BlankPages L k.phys (tablesMissing k.phys.mem (k.root (some p)) va pa size))
    (hu : umap L p va pa size k = .ok k') :
    (∀ x, walk k'.phys.mem (k'.root r) x = walk k.phys.mem (k.root r) x) ↔
      ∀ v ∈ pagesOf va pa size, px 2 v.1 ≠ kernelSlot := by
  obtain ⟨l, Tp, hmap, hno, -, hg, h'⟩ := umap_ok h hp hva hpa hb hu
  have hspace : ∀ r, k.HasSpace r → k'.HasSpace r := fun r hr => by
    cases r with
    | none => trivial
    | some q => rwa [Kernel.HasSpace, umap_pidmap hu]
  have hT := h.tables r hr
  have hT' := h'.tables r (hspace r hr)
  rw [umap_root hu r] at hT' ⊢
  have hleaf := h.leafAt_other hp hmap.ext hg hr hne
  constructor
  · intro hw v hv hslot
    rw [px_two] at hslot
    -- the page is there afterwards, and was not there before
    obtain ⟨a, ha⟩ := hmap.here v hv
    have hafter : leafAt k'.phys.mem (grow T p Tp r) (vpn v.1) = some (a, leafPte v.2 pteU) := by
      rw [hleaf, if_pos hslot, ha]
    have hbefore : leafAt k.phys.mem (T r) (vpn v.1) = none := by
      rw [h.leafAt_kernel hr hp hslot]
      exact hno v hv
    have hx := hw v.1
    rw [hT'.walk_eq, hT.walk_eq, hafter, hbefore] at hx
    cases hx
  · intro hslot x
    refine hT.walk_congr hT' ?_
    rw [hleaf]
    split
    · rename_i hc
      rw [hmap.other, h.leafAt_kernel hp hr hc]
      intro hm
      obtain ⟨v, hv, he⟩ := List.mem_map.mp hm
      refine hslot v hv ?_
      rw [px_two, he]
      exact hc
    · rfl

/-- A `umap` for `p` leaves the walks of another process, and of the kernel, as
they are exactly when none of its pages is in the kernel's root slot. -/
theorem umap_isolated (hr : SpaceReach L b k D) (hp : k.pidmap p ≠ 0) (hq : k.pidmap q ≠ 0)
    (hne : p ≠ q)
    (hva : va < 2 ^ 64) (hpa : pa < 2 ^ 64)
    (hb : BlankPages L k.phys (tablesMissing k.phys.mem (k.task p).pgtable va pa size))
    (hu : umap L p va pa size k = .ok k') :
    ((∀ x, walk k'.phys.mem (k'.task q).pgtable x = walk k.phys.mem (k.task q).pgtable x) ∧
      ∀ x, walk k'.phys.mem k'.kPgtable x = walk k.phys.mem k.kPgtable x) ↔
      ∀ i, va + i * pgSize < u64 (va + size) → px 2 (va + i * pgSize) ≠ kernelSlot := by
  obtain ⟨T, P, h⟩ := spaceReach_spaces hr
  have hqp : some q ≠ some p := by simpa using hne.symm
  have h1 := umap_walk_iff h (r := some q) hp hq hqp hva hpa hb hu
  have h2 := umap_walk_iff h (r := none) hp trivial (by simp) hva hpa hb hu
  simp only [mem_pagesOf hpa] at h1 h2
  constructor
  · rintro ⟨hw, -⟩ i hi
    exact h1.mp hw (va + i * pgSize, u64 (pa + i * pgSize)) ⟨i, hi, rfl⟩
  · intro hslot
    refine ⟨h1.mpr ?_, h2.mpr ?_⟩ <;>
    · rintro v ⟨i, hi, rfl⟩
      exact hslot i hi

end

-- ---------------------------------------------------------------------------
-- Two processes
-- ---------------------------------------------------------------------------

def coldKernel (pg : ℕ) (s : Phys Buddy) : Kernel where
  phys := s
  kPgtable := pg
  task _ := ⟨fun _ => 0, 0, 0, .running, ⟨fun _ => 0, 0⟩, 0, fun _ => ⟨0, 0, 0⟩, 0⟩
  pidmap _ := 0
  currentTask := none
  jiffies := 0
  csr := ⟨0, 0, 0, 0, 0, 0, 0, 0⟩

/-- Two processes, with room for more and nothing mapped but what the kernel maps. -/
theorem two_processes (L : Layout) (b : Buddy) : ∃ k T P, SpaceReach L b k ∅ ∧ k.pidmap 0 ≠ 0 ∧
    k.pidmap 1 ≠ 0 ∧
    Roomy L k T P ∅ 1000 ∧ (∀ i, ((k.task 0).memMap i).memRange = 0) ∧
    ∀ c, c ∉ vpns (pagesOf kernelStart kernelStart (kernelRange L)) →
      leafAt k.phys.mem (T (some 0)) c = none := by
  obtain ⟨pg, s, hk, hb, hboot⟩ := boots L b
  obtain ⟨T, P, h0, hleaf⟩ := hboot (coldKernel pg s) rfl rfl fun _ => rfl
  have hr0 : SpaceReach L b (coldKernel pg s) ∅ := .boot rfl (fun _ => rfl) (hb _) hk
  have hroom : bootRoom = 1000 + 14868 + 1 + 1 := by decide
  rw [hroom] at h0
  obtain ⟨t₀, heap₀, ha0, hg0, h1⟩ :=
    h0.process (p := 0) (freePid_iff.mpr ⟨rfl, by decide, by simp⟩)
  obtain ⟨t₁, heap₁, ha1, hg1, h2⟩ := h1.process (p := 1) 
    (freePid_iff.mpr ⟨by simp [withProcess, coldKernel], by decide, by simp [withProcess]⟩)
  have hp0 : (withProcess (coldKernel pg s) 0 t₀ heap₀).HasSpace (some 0) := by
    simp [Kernel.HasSpace, withProcess]
  refine ⟨_, _, _, .process (.process hr0 ha0) ha1, ?_, ?_,
      ⟨h2.spaces, h2.zero, h2.room.mono (by omega)⟩,
    fun i => ?_, fun c hc => ?_⟩
  · simp [withProcess]
  · simp [withProcess]
  · simp [withProcess, coldKernel]
  · rw [h1.spaces.leafAt_old hg1 hp0 (by simp), h0.spaces.leafAt_new hg0]
    exact hleaf c hc

/-- A page below the kernel's range for the first of them. -/
theorem low_page_mapped : ∃ k k' T P, SpaceReach sampleLayout zeroed k ∅ ∧ k.pidmap 0 ≠ 0 ∧
    k.pidmap 1 ≠ 0 ∧ Roomy sampleLayout k T P ∅ 1000 ∧
    umap sampleLayout 0 0x1000 0x80300000 0x1000 k = .ok k' := by
  obtain ⟨k, T, P, hr, h0, h1, h, -, hleaf⟩ := two_processes sampleLayout zeroed
  have hno : ∀ x, 0x1000 ≤ x → x < 0x1000 + 0x1000 → leafAt k.phys.mem (T (some 0)) (vpn x) =
      none := by
    intro x hx hx'
    refine hleaf _ fun hm => ?_
    obtain ⟨v, hv, he⟩ := List.mem_map.mp hm
    have := kernelRange_slot sampleLayout hv
    rw [he] at this
    simp only [ix2, vpn, pgSize, kernelSlot] at this
    omega
  obtain ⟨k', l, Tp, hu, -⟩ := h.umap (p := 0) (m := 0) h0 (by decide) (by decide)
    (show 0x1000 + 0x1000 ≤ 2 ^ 38 by decide) (show 0x80300000 + 0x1000 ≤ 2 ^ 52 by decide) hno
      (by decide)
  exact ⟨k, k', T, P, hr, h0, h1, h, hu⟩

theorem umap_isolated_low_page : ∃ k k' : Kernel, ∃ D, SpaceReach sampleLayout zeroed k D ∧
    umap sampleLayout 0 0x1000 0x80300000 0x1000 k = .ok k' ∧
    (((∀ x, walk k'.phys.mem (k'.task 1).pgtable x = walk k.phys.mem (k.task 1).pgtable x) ∧
      ∀ x, walk k'.phys.mem k'.kPgtable x = walk k.phys.mem k.kPgtable x) ↔
      ∀ i, 0x1000 + i * pgSize < u64 (0x1000 + 0x1000) → px 2 (0x1000 + i * pgSize) ≠
        kernelSlot) := by
  obtain ⟨k, k', T, P, hr, h0, h1, h, hu⟩ := low_page_mapped
  exact ⟨k, k', ∅, hr, hu, umap_isolated hr h0 h1 (by decide) (by decide) (by decide)
    (h.spaces.owned.blankPages h.zero _) hu⟩

/-- A segment at `0x90000000` for the first process shows up in the second. -/
theorem umap_seen_by_others : ∃ k k' : Kernel, ∃ D, SpaceReach sampleLayout zeroed k D ∧
    k.pidmap 0 ≠ 0 ∧
    k.pidmap 1 ≠ 0 ∧ umap sampleLayout 0 0x90000000 0x80300000 0x1000 k = .ok k' ∧
    ¬ ∀ x, walk k'.phys.mem (k'.task 1).pgtable x = walk k.phys.mem (k.task 1).pgtable x := by
  obtain ⟨k, T, P, hr, h0, h1, h, -, hleaf⟩ := two_processes sampleLayout zeroed
  have hno : ∀ x, 0x90000000 ≤ x → x < 0x90000000 + 0x1000 →
      leafAt k.phys.mem (T (some 0)) (vpn x) = none := by
    intro x hx hx'
    refine hleaf _ fun hm => ?_
    obtain ⟨v, hv, he⟩ := List.mem_map.mp hm
    obtain ⟨i, hi, rfl⟩ := (mem_kernelRange sampleLayout).mp hv
    have := kernelRange_lt sampleLayout
    simp only [vpn, pgSize] at he hi
    omega
  obtain ⟨k', l, Tp, hu, -⟩ := h.umap (p := 0) (m := 0) h0 (by decide) (by decide)
    (show 0x90000000 + 0x1000 ≤ 2 ^ 38 by decide) (show 0x80300000 + 0x1000 ≤ 2 ^ 52 by decide) hno
      (by decide)
  refine ⟨k, k', ∅, hr, h0, h1, hu, fun hw => ?_⟩
  have hiff := umap_walk_iff h.spaces (r := some 1) h0 h1 (by simp) (by decide) (by decide)
    (h.spaces.owned.blankPages h.zero _) hu
  exact hiff.mp hw (0x90000000, 0x80300000) (by decide) (by decide)

end SkyOS
