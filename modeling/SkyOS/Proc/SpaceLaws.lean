import SkyOS.Proc.Spaces

/-!
# What keeps the spaces

`alloc_process` adds a space, and `umap` lets one grow. A `umap` outside the
kernel's root slot changes the tree of one process only. Inside that slot it
changes the trees of all.
-/

namespace SkyOS

open ByteMem

section
variable {L : Layout} {k k' : Kernel} {T : Option ℕ → Shape} {P D : Set ℕ}

theorem Spaces.mem_held (h : Spaces L k T P D) (hr : k.HasSpace r) (n : Node) (a : ℕ)
    (hn : T r n = some a) :
    a ∈ P := h.held r n a hr hn a (.self a)

/-- What leaves all tables alone, and only takes pages, keeps the spaces. -/
theorem Spaces.frame (h : Spaces L k T P D) (hroot : ∀ r, k'.root r = k.root r)
    (hpid : k'.pidmap = k.pidmap)
    (hm : ∀ r n a, k.HasSpace r → T r n = some a → ∀ x, InPage a x → k'.phys.mem x = k.phys.mem x)
    (hP : P ⊆ P') (hown : Owned L k'.phys.heap P')
    (hD : ∀ x ∈ D', x ∈ P' ∧ (x ∈ D ∨ x ∉ P)) : Spaces L k' T P' D' := by
  have hs : ∀ r, k'.HasSpace r → k.HasSpace r := by
    intro r hr
    cases r with
    | none => trivial
    | some p => rwa [Kernel.HasSpace, hpid] at hr
  refine ⟨fun r hr => ?_, h.slots, fun r hr => h.kernel r (hs r hr),
    fun r r' n n' a hr hr' => h.apart r r' n n' a (hs r hr) (hs r' hr'),
    fun r n a hr hn x hx => hP (h.held r n a (hs r hr) hn x hx), fun x hx => ?_, hown,
    fun r hr => (h.proper r (hs r hr)).frame fun n a hn => hm r n a (hs r hr) hn⟩
  · rw [hroot]
    exact (h.tables r (hs r hr)).frame fun n a hn => hm r n a (hs r hr) hn
  · obtain ⟨h1, h2⟩ := hD x hx
    refine ⟨h1, fun r n a hr hn hin => ?_⟩
    rcases h2 with h2 | h2
    · exact (h.data x h2).2 r n a (hs r hr) hn hin
    · exact h2 (h.held r n a (hs r hr) hn x hin)

-- ---------------------------------------------------------------------------
-- umap
-- ---------------------------------------------------------------------------

def grow (T : Option ℕ → Shape) (p : ℕ) (Tp : Shape) : Option ℕ → Shape := fun r =>
  if r = some p then Tp else graft (T r) Tp

section
variable {Tp : Shape} {Q : Set Node} {l : List ℕ}

theorem grow_kernel (T : Option ℕ → Shape) (r : Option ℕ) (hn : n.inKernel) :
    grow T p Tp r n = Tp n := by
  rw [grow]
  split
  · rfl
  · simp [graft, hn]

variable (h : Spaces L k T P D) (hp : k.HasSpace (some p))
  (he : Ext (k.root (some p)) k.phys.mem (T (some p)) k'.phys.mem Tp Q l)
include h hp he

theorem Spaces.grown_cases (hr : k.HasSpace r) (hn : grow T p Tp r n = some a) :
    (T r n = some a ∨ a ∈ l ∧ (r = some p ∨ n.inKernel)) := by
  rw [grow] at hn
  split at hn
  · rename_i hrp
    subst hrp
    rcases he.new n a hn with hn | ⟨-, ha⟩
    · exact .inl hn
    · exact .inr ⟨ha, .inl rfl⟩
  · rw [graft] at hn
    split at hn
    · rename_i hk
      rcases he.new n a hn with hn | ⟨-, ha⟩
      · rw [h.kernel r hr n hk, ← h.kernel _ hp n hk]
        exact .inl hn
      · exact .inr ⟨ha, .inr hk⟩
    · exact .inl hn

theorem Spaces.slot_same (hr : k.HasSpace r) : Tp (.mid kernelSlot) = T r (.mid kernelSlot) := by
  have hk : Node.inKernel (.mid kernelSlot) := rfl
  have h1 := h.kernel r hr _ hk
  have h2 := h.kernel _ hp _ hk
  obtain ⟨a, ha⟩ := Option.ne_none_iff_exists'.mp ((h.slots kernelSlot).mpr rfl)
  rw [h1, ha]
  exact he.mono _ a (by rw [h2, ha])

variable (hg : GrantedPages L P l k'.phys.heap)
include hg

theorem Spaces.keep (hr : k.HasSpace r) (hne : r ≠ some p) (n : Node) (a : ℕ)
    (hn : n.inKernel = false)
    (ha : T r n = some a) (x : ℕ) (hx : InPage a x) : k'.phys.mem x = k.phys.mem x := by
  refine he.frame x fun n' _ b hb hin => ?_
  rcases he.new n' b hb with hb' | ⟨-, hb'⟩
  · have hab : a = b := by
      by_contra hab
      exact page_apart ((h.tables r hr).page n a ha) ((h.tables _ hp).page n' b hb') hab hx hin
    subst hab
    obtain ⟨-, hc | hc⟩ := h.apart _ _ _ _ _ hr hp ha hb'
    · exact hne hc
    · simp [hn] at hc
  · exact hg.new b hb' x hin (h.held r n a hr ha x hx)

theorem Spaces.keep_data (hx : x ∈ D) : k'.phys.mem x = k.phys.mem x := by
  refine he.frame x fun n' _ b hb hin => ?_
  rcases he.new n' b hb with hb' | ⟨-, hb'⟩
  · exact (h.data x hx).2 _ n' b hp hb' hin
  · exact hg.new b hb' x hin (h.data x hx).1

theorem Spaces.grow_tables (hr : k.HasSpace r) : Tables k'.phys.mem (k.root r) (grow T p Tp r) := by
  rw [grow]
  split
  · rename_i hrp
    subst hrp
    exact he.tables
  · rename_i hrp
    refine (h.tables r hr).graft he.tables (h.slot_same hp he hr)
      (h.keep hp he hg hr hrp) fun n n' a hn ha hk hb => ?_
    rcases he.new n' a hb with hb | ⟨-, hb⟩
    · obtain ⟨rfl, -⟩ := h.apart _ _ _ _ _ hr hp ha hb
      simp [hn] at hk
    · exact hg.new a hb a (.self a) (h.held r n a hr ha a (.self a))

theorem Spaces.grow_proper (hr : k.HasSpace r) : Proper k'.phys.mem (grow T p Tp r) := by
  rw [grow]
  split
  · exact he.proper (h.proper _ hp)
  · rename_i hrp
    exact (h.proper r hr).graft (he.proper (h.proper _ hp)) (h.slot_same hp he hr)
      (h.keep hp he hg hr hrp)

theorem Spaces.grown (hroot : ∀ r, k'.root r = k.root r) (hpid : k'.pidmap = k.pidmap) :
    Spaces L k' (grow T p Tp) (P ∪ pageBytes l) D := by
  have hs : ∀ r, k'.HasSpace r → k.HasSpace r := by
    intro r hr
    cases r with
    | none => trivial
    | some q => rwa [Kernel.HasSpace, hpid] at hr
  have hnone : k.HasSpace none := trivial
  refine ⟨fun r hr => ?_, fun i => ?_, fun r hr n hn => ?_, fun r r' n n' a hr hr' hn hn' => ?_,
    fun r n a hr hn x hx => ?_, fun x hx => ⟨.inl (h.data x hx).1, fun r n a hr hn hin => ?_⟩,
      hg.owned,
    fun r hr => h.grow_proper hp he hg (hs r hr)⟩
  · rw [hroot]
    exact h.grow_tables hp he hg (hs r hr)
  · by_cases hi : i = kernelSlot
    · subst hi
      rw [grow_kernel T none rfl, h.slot_same hp he hnone]
      exact h.slots kernelSlot
    · have : grow T p Tp none (.mid i) = T none (.mid i) := by
        simp [grow, graft, Node.inKernel, hi]
      rw [this]
      exact h.slots i
  · rw [grow_kernel T r hn, grow_kernel T none hn]
  · have hfresh : ∀ {r n}, k.HasSpace r → a ∈ l → T r n ≠ some a := fun hr ha hn =>
      hg.new a ha a (.self a) (h.held _ _ a hr hn a (.self a))
    rcases h.grown_cases hp he (hs r hr) hn with h1 | ⟨h1, hc⟩ <;>
      rcases h.grown_cases hp he (hs r' hr') hn' with h2 | ⟨h2, hc'⟩
    · exact h.apart _ _ _ _ _ (hs r hr) (hs r' hr') h1 h2
    · exact absurd h1 (hfresh (hs r hr) h2)
    · exact absurd h2 (hfresh (hs r' hr') h1)
    · -- both are new tables of the grown tree
      have hgrown : ∀ {r n}, k.HasSpace r → grow T p Tp r n = some a → r = some p ∨ n.inKernel →
          Tp n = some a := by
        rintro r n hr hn (rfl | hk)
        · simpa [grow] using hn
        · rwa [grow_kernel T r hk] at hn
      obtain rfl := he.tables.inj n n' a (hgrown (hs r hr) hn hc) (hgrown (hs r' hr') hn' hc')
      rcases hc with rfl | hc
      · rcases hc' with rfl | hc'
        · exact ⟨rfl, .inl rfl⟩
        · exact ⟨rfl, .inr hc'⟩
      · exact ⟨rfl, .inr hc⟩
  · rcases h.grown_cases hp he (hs r hr) hn with h1 | ⟨h1, -⟩
    · exact .inl (h.held r n a (hs r hr) h1 x hx)
    · exact .inr ⟨a, h1, hx⟩
  · rcases h.grown_cases hp he (hs r hr) hn with h1 | ⟨h1, -⟩
    · exact (h.data x hx).2 r n a (hs r hr) h1 hin
    · exact hg.new a h1 x hin (h.data x hx).1

end

theorem umap_root (hu : umap L p va pa size k = .ok k') (r : Option ℕ) : k'.root r = k.root r := by
  simp only [umap, bind_ok, pure_ok] at hu
  obtain ⟨phys, -, rfl⟩ := hu
  cases r with
  | none => rfl
  | some q =>
    simp only [Kernel.root, Kernel.setTask]
    by_cases hq : q = p
    · subst hq
      simp only [Function.update_self, vmaInsert]
      split <;> rfl
    · rw [Function.update_of_ne hq]

theorem umap_pidmap (hu : umap L p va pa size k = .ok k') : k'.pidmap = k.pidmap := by
  simp only [umap, bind_ok, pure_ok] at hu
  obtain ⟨phys, -, rfl⟩ := hu
  rfl

theorem umap_map (hu : umap L p va pa size k = .ok k') :
    map (kalloc L) (k.root (some p)) va pa size pteU k.phys = .ok k'.phys := by
  have hr := umap_root hu (some p)
  simp only [umap, bind_ok, pure_ok] at hu
  obtain ⟨phys, hm, rfl⟩ := hu
  rw [← hr]
  exact hm

/-- A `umap` that comes back maps its pages, none of which was mapped, and keeps
the spaces. -/
theorem umap_ok (h : Spaces L k T P D) (hp : k.HasSpace (some p)) (hva : va < 2 ^ 64)
    (hpa : pa < 2 ^ 64)
    (hb : BlankPages L k.phys (tablesMissing k.phys.mem (k.root (some p)) va pa size))
    (hu : umap L p va pa size k = .ok k') : ∃ l Tp,
      RangeMapped (k.root (some p)) k.phys.mem (T (some p)) k'.phys.mem Tp pteU
      (pagesOf va pa size) l ∧
      (∀ v ∈ pagesOf va pa size, leafAt k.phys.mem (T (some p)) (vpn v.1) = none) ∧
      Draws (kalloc L pgSize) k.phys.heap l k'.phys.heap ∧ GrantedPages L P l k'.phys.heap ∧
      Spaces L k' (grow T p Tp) (P ∪ pageBytes l) D := by
  have hT := h.tables _ hp
  rw [hT.tablesMissing_eq] at hb
  obtain ⟨-, hno, l, Tp, hd, -, hr⟩ := map_success hT (.inr rfl) hva hpa (umap_map hu)
    (h.owned.freshFor hb (h.mem_held hp))
  have hg := h.owned.draws hd
  exact ⟨l, Tp, hr, hno, hd, hg, h.grown hp hr.ext hg (umap_root hu) (umap_pidmap hu)⟩

-- ---------------------------------------------------------------------------
-- alloc_process
-- ---------------------------------------------------------------------------

def freePid (k : Kernel) : Option ℕ := (List.range nrTask).find? fun i => k.pidmap i == 0

theorem freePid_iff : freePid k = some p ↔ k.pidmap p = 0 ∧ p < nrTask ∧
    ∀ q < p, k.pidmap q ≠ 0 := by
  simp [freePid, List.find?_range_eq_some]

/-- The kernel after `alloc_process` has made `p` with its table at `t`. -/
def withProcess (k : Kernel) (p t : ℕ) (heap : Buddy) : Kernel :=
  { k with
    phys := ⟨copy (fill k.phys.mem t 0 pgSize) t k.kPgtable pgSize, heap⟩
    pidmap := Function.update k.pidmap p 1
    task := Function.update k.task p { k.task p with
      pid := p
      state := .running
      pgtable := t
      counter := taskInitialCounter
      context := (k.task p).context.set .sp sv39UserSpAddr } }

theorem allocPgtable_ok : allocPgtable L k = .ok (t, k') ↔ align t ∧
    ∃ heap, kalloc L pgSize k.phys.heap = .ok (t, heap) ∧
      k' = { k with phys := ⟨copy (fill k.phys.mem t 0 pgSize) t k.kPgtable pgSize, heap⟩ } := by
  unfold allocPgtable Kernel.alloc
  cases kalloc L pgSize k.phys.heap with
  | error e => simp [error_bind]
  | ok r =>
    obtain ⟨a, heap⟩ := r
    simp only [ok_bind, pure_bind, Except.ok.injEq, Prod.mk.injEq]
    by_cases ha : align a
    · simp only [ha, Bool.not_true, Bool.false_eq_true, if_false, pure_ok, Prod.mk.injEq]
      constructor
      · rintro ⟨rfl, rfl⟩
        exact ⟨ha, heap, ⟨rfl, rfl⟩, rfl⟩
      · rintro ⟨-, -, ⟨rfl, rfl⟩, rfl⟩
        exact ⟨rfl, rfl⟩
    · simp only [ha, Bool.not_false, if_true]
      constructor
      · intro h
        cases h
      · rintro ⟨hal, -, ⟨rfl, rfl⟩, -⟩
        exact absurd hal ha

theorem allocProcess_ok : allocProcess L k = .ok (p, k') ↔ freePid k = some p ∧
    ∃ t heap, kalloc L pgSize k.phys.heap = .ok (t, heap) ∧ align t ∧
      k' = withProcess k p t heap := by
  unfold allocProcess allocPid
  rw [show (List.range nrTask).find? (fun i => k.pidmap i == 0) = freePid k from rfl]
  cases freePid k with
  | none => simp [error_bind]
  | some q =>
    have hset : ∀ t heap, Kernel.setTask
        { k.setTask q { k.task q with pid := q, state := .running } with
          pidmap := Function.update k.pidmap q 1
          phys := ⟨copy (fill k.phys.mem t 0 pgSize) t k.kPgtable pgSize, heap⟩ } q
        { k.task q with
          pid := q
          state := .running
          pgtable := t
          counter := taskInitialCounter
          context := (k.task q).context.set .sp sv39UserSpAddr } = withProcess k q t heap := by
      intro t heap
      simp [Kernel.setTask, withProcess, Function.update_idem]
    simp only [ok_bind, bind_ok, pure_ok, Prod.exists, Option.some.injEq, Prod.mk.injEq,
      allocPgtable_ok]
    constructor
    · rintro ⟨t, k₁, ⟨hal, heap, hk, rfl⟩, rfl, rfl⟩
      refine ⟨rfl, t, heap, hk, hal, ?_⟩
      rw [← hset]
      simp [Kernel.setTask]
    · rintro ⟨rfl, t, heap, hk, hal, rfl⟩
      refine ⟨t, _, ⟨hal, heap, hk, rfl⟩, rfl, ?_⟩
      rw [← hset]
      simp [Kernel.setTask]

theorem withProcess_mem_eq : (withProcess k p t heap).phys.mem =
    copy (fill k.phys.mem t 0 pgSize) t k.kPgtable pgSize := by
  simp only [withProcess]

theorem withProcess_mem (hx : ¬ InPage t x) :
    (withProcess k p t heap).phys.mem x = k.phys.mem x := by
  have hx : x < t ∨ t + pgSize ≤ x := by
    simp only [InPage] at hx
    omega
  rw [withProcess_mem_eq, copy_outside hx, fill_outside hx]

theorem withProcess_entry (ht : pgSize ∣ t) (hk : pgSize ∣ k.kPgtable) (hne : t ≠ k.kPgtable)
    (hi : i < 512) :
    entry (withProcess k p t heap).phys.mem t i = entry k.phys.mem k.kPgtable i := by
  have hap : k.kPgtable + pgSize ≤ t ∨ t + pgSize ≤ k.kPgtable := by
    obtain ⟨c, rfl⟩ := ht
    obtain ⟨d, hd⟩ := hk
    rw [hd] at hne ⊢
    simp only [pgSize] at *
    omega
  have hbyte : ∀ j < pgSize, (withProcess k p t heap).phys.mem (t + j) =
      k.phys.mem (k.kPgtable + j) :=
    fun j hj => by rw [withProcess_mem_eq, copy_inside hap hj, fill_outside (by omega)]
  refine readLE_congr fun j hj => ?_
  rw [Nat.add_assoc, Nat.add_assoc]
  exact hbyte _ (by simp only [pgSize]; omega)

theorem Spaces.kernel_nodes (h : Spaces L k T P D) (hn : T none n = some a) : n = .root ∨
    n.inKernel := by
  have hmid : ∀ i b, T none (.mid i) = some b → i = kernelSlot := fun i b hb =>
    (h.slots i).mp (by simp [hb])
  cases n with
  | root => exact .inl rfl
  | mid i => exact .inr (by simpa [Node.inKernel] using hmid i a hn)
  | low i j =>
    obtain ⟨b, hb⟩ := (h.tables none trivial).under i j a hn
    exact .inr (by simpa [Node.inKernel] using hmid i b hb)

def addSpace (T : Option ℕ → Shape) (p t : ℕ) : Option ℕ → Shape :=
  Function.update T (some p) (Function.update (T none) .root (some t))

theorem addSpace_self (T : Option ℕ → Shape) (p t : ℕ) :
    addSpace T p t (some p) = Function.update (T none) .root (some t) :=
  Function.update_self _ _ _

theorem addSpace_of_ne (T : Option ℕ → Shape) (t : ℕ) (hr : r ≠ some p) : addSpace T p t r = T r :=
  Function.update_of_ne hr _ _

theorem withProcess_hasSpace (hr : (withProcess k p t heap).HasSpace r) :
    r = some p ∨ r ≠ some p ∧ k.HasSpace r := by
  cases r with
  | none => exact .inr ⟨by simp, trivial⟩
  | some q =>
    by_cases hq : q = p
    · exact .inl (by rw [hq])
    · refine .inr ⟨by simpa using hq, ?_⟩
      simpa [Kernel.HasSpace, withProcess, Function.update_of_ne hq] using hr

theorem withProcess_root (hr : r ≠ some p) : (withProcess k p t heap).root r = k.root r := by
  cases r with
  | none => simp only [Kernel.root, withProcess]
  | some q =>
    have hq : q ≠ p := by simpa using hr
    simp [Kernel.root, withProcess, Function.update_of_ne hq]

theorem withProcess_root_self : (withProcess k p t heap).root (some p) = t := by
  simp [Kernel.root, withProcess]

/-- The new table is a root. All others were in a space before, at the same place. -/
theorem Spaces.addSpace_cases (h : Spaces L k T P D) (hr : (withProcess k p t heap).HasSpace r)
    (hn : addSpace T p t r n = some a) : r = some p ∧ n = .root ∧ a = t ∨
      ∃ q, k.HasSpace q ∧ T q n = some a ∧ (q = r ∨ n.inKernel) := by
  rcases withProcess_hasSpace hr with rfl | ⟨hrp, hr⟩
  · rw [addSpace_self] at hn
    rcases update_eq_some hn with hn | ⟨hnr, hn⟩
    · exact .inl ⟨rfl, hn⟩
    · exact .inr ⟨none, trivial, hn, .inr ((h.kernel_nodes hn).resolve_left hnr)⟩
  · rw [addSpace_of_ne T t hrp] at hn
    exact .inr ⟨r, hr, hn, .inl rfl⟩

theorem Spaces.notMem_new (h : Spaces L k T P D) (hg : Granted L P t pgSize heap)
    (hr : k.HasSpace r) : T r n ≠ some t := fun hn =>
  hg.new t (.self t) (h.held r n t hr hn t (.self t))

theorem Spaces.withProcess_kept (h : Spaces L k T P D) (hg : Granted L P t pgSize heap)
    (hr : k.HasSpace r) (hn : T r n = some a) (hx : InPage a x) :
    (withProcess k p t heap).phys.mem x = k.phys.mem x :=
  withProcess_mem fun ht => hg.new x ht (h.held r n a hr hn x hx)

theorem Spaces.withProcess_entry (h : Spaces L k T P D) (hg : Granted L P t pgSize heap)
    (hi : i < 512) :
    entry (withProcess k p t heap).phys.mem t i = entry k.phys.mem k.kPgtable i := by
  have hT := h.tables none trivial
  refine SkyOS.withProcess_entry hg.page hT.pg_page (fun he => ?_) hi
  exact h.notMem_new hg (r := none) (n := .root) trivial (he ▸ hT.root)

theorem Spaces.process (h : Spaces L k T P D) (ha : allocProcess L k = .ok (p, k')) :
    ∃ t heap, k' = withProcess k p t heap ∧ k.pidmap p = 0 ∧ Granted L P t pgSize heap ∧
      Spaces L k' (addSpace T p t) (P ∪ blockBytes t pgSize) D := by
  obtain ⟨hf, t, heap, hk, -, rfl⟩ := allocProcess_ok.mp ha
  obtain ⟨hp0, -⟩ := freePid_iff.mp hf
  have hg := h.owned.grant hk
  refine ⟨t, heap, rfl, hp0, hg, ?_⟩
  have hnone : k.HasSpace none := trivial
  have hT0 := h.tables none hnone
  constructor
  case tables =>
    intro r hr
    rcases withProcess_hasSpace hr with rfl | ⟨hrp, hr⟩
    · rw [addSpace_self, withProcess_root_self]
      exact hT0.copyRoot hg.page (fun _ => h.notMem_new hg hnone)
        (fun i hi => h.withProcess_entry hg hi) fun n a hn x => h.withProcess_kept hg hnone hn
    · rw [withProcess_root hrp, addSpace_of_ne T t hrp]
      exact (h.tables r hr).frame fun n a hn x => h.withProcess_kept hg hr hn
  case slots =>
    rw [addSpace_of_ne T t (by simp)]
    exact h.slots
  case kernel =>
    intro r hr n hn
    rw [addSpace_of_ne T t (r := none) (by simp)]
    rcases withProcess_hasSpace hr with rfl | ⟨hrp, hr⟩
    · rw [addSpace_self, Function.update_of_ne]
      rintro rfl
      simp [Node.inKernel] at hn
    · rw [addSpace_of_ne T t hrp]
      exact h.kernel r hr n hn
  case apart =>
    intro r r' n n' a hr hr' hn hn'
    rcases h.addSpace_cases hr hn with ⟨rfl, rfl, rfl⟩ | ⟨q, hq, hn, hqr⟩ <;>
      rcases h.addSpace_cases hr' hn' with ⟨rfl, rfl, h'⟩ | ⟨q', hq', hn', hqr'⟩
    · exact ⟨rfl, .inl rfl⟩
    · exact absurd hn' (h.notMem_new hg hq')
    · exact absurd (h' ▸ hn) (h.notMem_new hg hq)
    · -- both were there before
      obtain ⟨rfl, hsame⟩ := h.apart _ _ _ _ _ hq hq' hn hn'
      refine ⟨rfl, or_iff_not_imp_right.mpr fun hout => ?_⟩
      exact (hqr.resolve_right hout).symm.trans
        ((hsame.resolve_right hout).trans (hqr'.resolve_right hout))
  case held =>
    intro r n a hr hn x hx
    rcases h.addSpace_cases hr hn with ⟨-, -, rfl⟩ | ⟨q, hq, hn, -⟩
    · rw [blockBytes_page]
      exact .inr hx
    · exact .inl (h.held q n a hq hn x hx)
  case data =>
    refine fun x hx => ⟨.inl (h.data x hx).1, fun r n a hr hn hin => ?_⟩
    rcases h.addSpace_cases hr hn with ⟨-, -, rfl⟩ | ⟨q, hq, hn, -⟩
    · exact hg.new x hin (h.data x hx).1
    · exact (h.data x hx).2 q n a hq hn hin
  case owned => exact hg.owned
  case proper =>
    intro r hr
    rcases withProcess_hasSpace hr with rfl | ⟨hrp, hr⟩
    · rw [addSpace_self]
      exact (h.proper none hnone).copyRoot hT0 (fun i hi => h.withProcess_entry hg hi)
        fun n a hn x => h.withProcess_kept hg hnone hn
    · rw [addSpace_of_ne T t hrp]
      exact (h.proper r hr).frame fun n a hn x => h.withProcess_kept hg hr hn

-- ---------------------------------------------------------------------------
-- k_pgtable_init
-- ---------------------------------------------------------------------------

def kernelRange (L : Layout) : ℕ := L.kernelEnd + memSize - kernelStart

theorem kPgtableInit_ok {s s' : Phys Buddy} : kPgtableInit (kalloc L) L s = .ok (pg, s') ↔
    align pg ∧
    ∃ heap, kalloc L pgSize s.heap = .ok (pg, heap) ∧
      map (kalloc L) pg kernelStart kernelStart (kernelRange L) 0 ⟨s.mem, heap⟩ = .ok s' := by
  unfold kPgtableInit kmap
  cases kalloc L pgSize s.heap with
  | error e => simp [error_bind]
  | ok r =>
    obtain ⟨a, heap⟩ := r
    simp only [ok_bind, Except.ok.injEq, Prod.mk.injEq]
    by_cases ha : align a
    · simp only [ha, Bool.not_true, Bool.false_eq_true, if_false, bind_ok, pure_ok, Prod.mk.injEq]
      constructor
      · rintro ⟨s₁, hm, rfl, rfl⟩
        exact ⟨ha, heap, ⟨rfl, rfl⟩, hm⟩
      · rintro ⟨-, heap', ⟨rfl, rfl⟩, hm⟩
        exact ⟨s', hm, rfl, rfl⟩
    · simp only [ha, Bool.not_false, if_true]
      constructor
      · intro h
        cases h
      · rintro ⟨hal, -, ⟨rfl, rfl⟩, -⟩
        exact absurd hal ha

theorem kernelRange_end (L : Layout) : kernelStart + kernelRange L = L.kernelEnd + memSize :=
  Nat.add_sub_of_le (L.start_lt.le.trans (Nat.le_add_right _ _))

theorem kernelRange_lt (L : Layout) : kernelStart + kernelRange L < 0x86200000 := by
  rw [kernelRange_end]
  have h := L.small
  simp only [memSize, kernelStart] at h ⊢
  omega

theorem kernelRange_pos (L : Layout) : 0 < kernelRange L := by
  have h1 := kernelRange_end L
  have h2 := L.start_lt
  omega

theorem mem_kernelRange (L : Layout) : v ∈ pagesOf kernelStart kernelStart (kernelRange L) ↔
    ∃ i, kernelStart + i * pgSize < kernelStart + kernelRange L ∧
      v = (kernelStart + i * pgSize, kernelStart + i * pgSize) := by
  have h := (kernelRange_lt L).le
  exact mem_range_pages (by decide) (h.trans (by decide)) (by decide) (h.trans (by decide))

theorem kernelRange_slot (L : Layout) (hv : v ∈ pagesOf kernelStart kernelStart (kernelRange L)) :
    ix2 (vpn v.1) = kernelSlot := by
  have h := kernelRange_lt L
  obtain ⟨i, hi, rfl⟩ := (mem_kernelRange L).mp hv
  simp only [ix2, vpn, kernelStart, kernelSlot, pgSize] at *
  omega

theorem kernelRange_first (L : Layout) :
    (kernelStart, kernelStart) ∈ pagesOf kernelStart kernelStart (kernelRange L) := by
  have h := kernelRange_pos L
  exact (mem_kernelRange L).mpr ⟨0, by omega, by simp⟩

theorem spaces_boot {s : Phys Buddy} (hown : Owned L s.heap ∅) (hpid : ∀ p, k.pidmap p = 0)
    (hb : BlankPages L s (1 + tablesMissing s.mem k.kPgtable kernelStart kernelStart
      (kernelRange L)))
    (hk : kPgtableInit (kalloc L) L s = .ok (k.kPgtable, k.phys)) : ∃ T l,
      RangeMapped k.kPgtable s.mem (rootOnly k.kPgtable) k.phys.mem T 0
        (pagesOf kernelStart kernelStart (kernelRange L)) l ∧
      Draws (kalloc L pgSize) s.heap (k.kPgtable :: l) k.phys.heap ∧
      Spaces L k (fun _ => T) (blockBytes k.kPgtable pgSize ∪ pageBytes l) ∅ := by
  obtain ⟨-, heap, ha, hm⟩ := kPgtableInit_ok.mp hk
  have hg := hown.grant ha
  have hown' := hg.owned
  rw [Set.empty_union] at hown'
  have hblank : Blank s.mem k.kPgtable := hb [_] heap (.cons ha .nil) (by simp) _ (by simp)
  have hT := tables_blank hg.page hblank
  have hfresh : FreshFor (kalloc L pgSize) heap s.mem (rootOnly k.kPgtable)
      (missing (rootOnly k.kPgtable) (vpns (pagesOf kernelStart kernelStart (kernelRange L)))) := by
    refine Owned.freshFor (s := ⟨s.mem, heap⟩) hown' (fun l s' hd hl a hal => ?_) fun n a hn => ?_
    · rw [hT.tablesMissing_eq] at hb
      refine hb (k.kPgtable :: l) s' (.cons ha hd) ?_ a (by simp [hal])
      rw [List.length_cons]
      omega
    · rw [(rootOnly_some.mp hn).2, blockBytes_page]
      exact .self _
  obtain ⟨-, -, l, T, hd, -, hr⟩ :=
    map_success (s := ⟨s.mem, heap⟩) hT (.inl rfl) (by decide) (by decide) hm hfresh
  have hcases : ∀ n a, T n = some a → n = .root ∧ a = k.kPgtable ∨ n.inKernel ∧ a ∈ l := by
    intro n a hn
    rcases hr.ext.new n a hn with hn | ⟨hP, ha⟩
    · exact .inl (rootOnly_some.mp hn)
    · rcases hP with rfl | hP
      · exact .inl ⟨rfl, by simpa [hr.ext.tables.root, eq_comm] using hn⟩
      · refine .inr ⟨?_, ha⟩
        simp only [List.mem_flatMap, List.mem_map, nodesOf, List.mem_cons, List.not_mem_nil,
          or_false] at hP
        obtain ⟨c, ⟨v, hv, rfl⟩, rfl | rfl⟩ := hP <;> simp [Node.inKernel, kernelRange_slot L hv]
  have hs : ∀ r, k.HasSpace r → r = none := by
    intro r hr
    cases r with
    | none => rfl
    | some p => exact absurd (hpid p) hr
  refine ⟨T, l, hr, .cons ha hd, fun r hr' => ?_, fun i => ?_, fun r _ n _ => rfl,
      fun r r' n n' a hr' hr'' hn hn' => ?_,
    fun r n a hr' hn x hx => ?_, by simp, (hown'.draws hd).owned, fun r hr' => ?_⟩
  · rw [hs r hr']
    exact hr.ext.tables
  · constructor
    · intro hi
      obtain ⟨a, ha⟩ := Option.ne_none_iff_exists'.mp hi
      rcases hcases _ a ha with ⟨hn, -⟩ | ⟨hn, -⟩
      · cases hn
      · simpa [Node.inKernel] using hn
    · rintro rfl
      obtain ⟨p, hp⟩ := hr.here _ (kernelRange_first L)
      have h2 := kernelRange_slot L (kernelRange_first L)
      cases hl : T (.low (ix2 (vpn kernelStart)) (ix1 (vpn kernelStart))) with
      | none => simp [leafAt, hl] at hp
      | some b =>
        obtain ⟨a, ha⟩ := hr.ext.tables.under _ _ b hl
        rw [h2] at ha
        simp [ha]
  · rw [hs r hr', hs r' hr'']
    exact ⟨hr.ext.tables.inj n n' a hn hn', .inl rfl⟩
  · rcases hcases n a hn with ⟨-, rfl⟩ | ⟨-, ha⟩
    · rw [blockBytes_page]
      exact .inl hx
    · exact .inr ⟨a, ha, hx⟩
  · refine hr.ext.proper fun n n' j a b hp _ _ hb => ?_
    obtain ⟨rfl, -⟩ := rootOnly_some.mp hb
    cases hp

end

end SkyOS
