import SkyOS.Proc.Direct
import SkyOS.Proc.Exec
import SkyOS.Mm.Fits
import SkyOS.Mm.Coverage

/-!
# The first process

After booting there is memory enough for a program without segments.
-/

namespace SkyOS

open ByteMem

section
variable {L : Layout} {b : Buddy} {k k' : Kernel} {T : Option ℕ → Shape} {P D : Set ℕ}

theorem spaceReach_sparse (hr : SpaceReach L b k D) : Sparse k.phys.heap := by
  induction hr with
  | boot hh hpid hb hk =>
    have hown := owned_init L b
    rw [← hh] at hown
    obtain ⟨T, l, -, hd, -⟩ := spaces_boot hown hpid hb hk
    exact (hh ▸ sparse_init b).draws hown hd
  | process hr ha ih =>
    obtain ⟨T, P, h⟩ := spaceReach_spaces hr
    obtain ⟨-, t, heap, hk, -, rfl⟩ := allocProcess_ok.mp ha
    exact ih.kalloc h.owned hk
  | umap hr hp hva hpa hb hu ih =>
    obtain ⟨T, P, h⟩ := spaceReach_spaces hr
    obtain ⟨l, Tp, -, -, hd, -⟩ := umap_ok h hp hva hpa hb hu
    exact ih.draws h.owned hd
  | alloc hr ha ih =>
    obtain ⟨T, P, h⟩ := spaceReach_spaces hr
    obtain ⟨heap, hk, rfl⟩ := alloc_ok.mp ha
    exact ih.kalloc h.owned hk
  | store _ _ ih => exact ih
  | other _ hphys _ _ ih => exact hphys ▸ ih

-- ---------------------------------------------------------------------------
-- Room
-- ---------------------------------------------------------------------------

theorem Roomy.other (h : Roomy L k T P D n) (hphys : k'.phys = k.phys) (hpid : k'.pidmap = k.pidmap)
    (hroot : ∀ r, k'.root r = k.root r) : Roomy L k' T P D n := by
  refine ⟨h.spaces.frame hroot hpid (fun _ _ _ _ _ _ _ => by rw [hphys]) subset_rfl
    (hphys ▸ h.spaces.owned) fun x hx => ⟨(h.spaces.data x hx).1, .inl hx⟩, ?_, ?_⟩
  · rw [hphys]
    exact h.zero
  · rw [hphys]
    exact h.room

theorem Roomy.store (h : Roomy L k T P D n) (hm : ∀ x ∉ D, m x = k.phys.mem x) :
    Roomy L (k.setMem m) T P D n := by
  refine ⟨h.spaces.frame (fun r => by cases r <;> rfl) rfl (fun r n a hr hn x hx =>
      hm x fun hD => ?_)
    subset_rfl h.spaces.owned fun x hx => ⟨(h.spaces.data x hx).1, .inl hx⟩, fun x hx => ?_, h.room⟩
  · exact (h.spaces.data x hD).2 r n a hr hn hx
  · exact (hm x fun hD => hx (h.spaces.data x hD).1).trans (h.zero x hx)

theorem Spaces.leafAt_store (h : Spaces L k T P D) (hr : k.HasSpace r)
    (hm : ∀ x ∉ D, m x = k.phys.mem x) (c : ℕ) :
    leafAt m (T r) c = leafAt k.phys.mem (T r) c :=
  leafAt_congr fun a ha x hx => hm x fun hD => (h.data x hD).2 r _ a hr ha hx

def withHeap (k : Kernel) (heap : Buddy) : Kernel := { k with phys := ⟨k.phys.mem, heap⟩ }

theorem Roomy.alloc (h : Roomy L k T P D n) (hs : Sparse k.phys.heap) (size : ℕ)
    (ho : kallocOrder size < buddyMaxOrder)
    (hn : 2 ^ kallocOrder size + m ≤ n) : ∃ a heap, k.alloc L size = .ok (a, withHeap k heap) ∧
      Granted L P a size heap ∧
        Roomy L (withHeap k heap) T (P ∪ blockBytes a size) (D ∪ blockBytes a size) m := by
  have hown := h.spaces.owned
  have hle := hown.supply_le h.room
  obtain ⟨a, heap, ha⟩ := hown.kalloc_fits hs ho (by omega)
  have hg := hown.grant ha
  have hcard := heldPages_grant hg
  have hsp : Spaces L (withHeap k heap) T (P ∪ blockBytes a size) (D ∪ blockBytes a size) := by
    refine h.spaces.frame (fun r => by cases r <;> rfl) rfl (fun _ _ _ _ _ _ _ => rfl)
      Set.subset_union_left hg.owned ?_
    rintro x (hx | hx)
    · exact ⟨.inl (h.spaces.data x hx).1, .inl hx⟩
    · exact ⟨.inr hx, .inr fun hP => Set.disjoint_left.mp hg.apart hP hx⟩
  refine ⟨a, heap, alloc_ok.mpr ⟨heap, ha, rfl⟩, hg, hsp, fun x hx => ?_,
    hg.owned.supply (by omega)⟩
  rw [Set.mem_union, not_or] at hx
  exact h.zero x hx.1

-- ---------------------------------------------------------------------------
-- A program without segments
-- ---------------------------------------------------------------------------

def emptyElf : File where
  size := 64
  byte i := if i = 0 then 0x7f else if i = 1 then 0x45 else if i = 2 then 0x4c else if i =
    3 then 0x46 else 0

theorem File.load_outside (f : File) (m : Mem) (h : ¬ (a ≤ x ∧ x < a + f.size)) :
    f.load m a x = m x := if_neg h

theorem File.readLE_load (f : File) (m : Mem) (a : ℕ) (h : o + n ≤ f.size) :
    readLE (f.load m a) (a + o) n = readLE f.byte o n :=
  readLE_congr fun i hi => by rw [File.load, if_pos (by omega), show a + o + i - a = o + i by omega]

theorem readElfhdr_empty (m : Mem) (a : ℕ) : readElfhdr (emptyElf.load m a) a =
    ⟨elfMagic, 0, 0, 0⟩ := by
  have h4 := emptyElf.readLE_load m a (o := 0) (n := 4) (by decide)
  rw [Nat.add_zero] at h4
  rw [readElfhdr, h4, File.readLE_load _ _ _ (by decide), File.readLE_load _ _ _ (by decide),
    File.readLE_load _ _ _ (by decide)]
  decide

theorem loadSegments_none (h : (readElfhdr r.2.phys.mem a).phnum = 0) :
    loadSegments L p a n 0 r = .ok r := by
  cases n with
  | zero => rfl
  | succ n => rw [loadSegments, if_neg (by omega)]

theorem umap_context (hu : umap L p va pa size k = .ok k') (q : ℕ) :
    (k'.task q).context = (k.task q).context := by
  simp only [umap, bind_ok, pure_ok] at hu
  obtain ⟨phys, -, rfl⟩ := hu
  by_cases hq : q = p
  · subst hq
    simp only [Kernel.setTask, Function.update_self, vmaInsert]
    split <;> rfl
  · simp [Kernel.setTask, hq]

theorem umap_csr (hu : umap L p va pa size k = .ok k') : k'.csr = k.csr := by
  simp only [umap, bind_ok, pure_ok] at hu
  obtain ⟨phys, -, rfl⟩ := hu
  rfl

-- ---------------------------------------------------------------------------
-- A process in the making
-- ---------------------------------------------------------------------------

def kernelVpns (L : Layout) : Set ℕ :=
  {c | c ∈ vpns (pagesOf kernelStart kernelStart (kernelRange L))}

/-- There is room for `n` more pages, and the space of `p` has no page numbers but those in `S`. -/
structure Making (L : Layout) (b : Buddy) (k : Kernel) (p n : ℕ) (D S : Set ℕ) : Prop where
  reach : SpaceReach L b k D
  pid : k.HasSpace (some p)
  room : ∃ T P, Roomy L k T P D n ∧ ∀ c ∉ S, leafAt k.phys.mem (T (some p)) c = none

section
variable {p n : ℕ} {S : Set ℕ}

theorem Making.blank (h : Making L b k p n D S) (m : ℕ) : BlankPages L k.phys m := by
  obtain ⟨T, P, hroom, -⟩ := h.room
  exact hroom.spaces.owned.blankPages hroom.zero m

theorem Making.start (h : Roomy L k T P D (n + 1)) (hr : SpaceReach L b k D)
    (hf : freePid k = some p)
    (hleaf : ∀ c, c ∉ vpns (pagesOf kernelStart kernelStart (kernelRange L)) →
      leafAt k.phys.mem (T none) c = none) (name : ℕ → UInt8) :
    ∃ k₁, allocProcess L k = .ok (p, k₁) ∧ Making L b (named p name k₁) p n D (kernelVpns L) ∧
      (named p name k₁).csr = k.csr ∧
      ((named p name k₁).task p).context = (k.task p).context.set .sp sv39UserSpAddr := by
  obtain ⟨t, heap, ha, hg, h1⟩ := h.process hf
  have hr1 := hr.process ha
  have hpid : (withProcess k p t heap).HasSpace (some p) := by simp [Kernel.HasSpace, withProcess]
  have hctx : ((withProcess k p t heap).task p).context =
      (k.task p).context.set .sp sv39UserSpAddr := by
    simp [withProcess]
  have hcsr : (withProcess k p t heap).csr = k.csr := by simp only [withProcess]
  have hleaf1 : ∀ c, leafAt (withProcess k p t heap).phys.mem (addSpace T p t (some p)) c =
      leafAt k.phys.mem (T none) c := h.spaces.leafAt_new hg
  generalize withProcess k p t heap = k₁ at *
  have hroot : ∀ r, (named p name k₁).root r = k₁.root r := fun r => by
    cases r with
    | none => rfl
    | some q => by_cases hq : q = p <;> simp_all [Kernel.root, named, Kernel.setTask]
  refine ⟨k₁, ha, ⟨hr1.other rfl rfl hroot, hpid, _, _, h1.other rfl rfl hroot, fun c hc => ?_⟩,
    hcsr, ?_⟩
  · exact (hleaf1 c).trans (hleaf c hc)
  · rw [← hctx]
    simp [named, Kernel.setTask]

theorem Making.alloc (h : Making L b k p n D S) (size : ℕ) (ho : kallocOrder size < buddyMaxOrder)
    (hn : 2 ^ kallocOrder size + m ≤ n) : ∃ a heap, k.alloc L size = .ok (a, withHeap k heap) ∧
      (∀ x ∈ blockBytes a size, k.phys.mem x = 0) ∧ pgSize ∣ a ∧
      L.pmmStart ≤ a ∧ a + kallocLen size ≤ L.pmmEnd ∧
      Making L b (withHeap k heap) p m (D ∪ blockBytes a size) S := by
  obtain ⟨T, P, hroom, hleaf⟩ := h.room
  obtain ⟨a, heap, ha, hg, h1⟩ := hroom.alloc (spaceReach_sparse h.reach) size ho hn
  exact ⟨a, heap, ha, fun x hx => hroom.zero x fun hP => Set.disjoint_left.mp hg.apart hP hx,
      hg.page, hg.start, hg.stop,
    h.reach.alloc ha, h.pid, T, _, h1, hleaf⟩

theorem Making.store (h : Making L b k p n D S) (hm : ∀ x ∉ D, m x = k.phys.mem x) :
    Making L b (k.setMem m) p n D S := by
  obtain ⟨T, P, hroom, hleaf⟩ := h.room
  exact ⟨h.reach.store hm, h.pid, T, P, hroom.store hm, fun c hc =>
    (hroom.spaces.leafAt_store h.pid hm c).trans (hleaf c hc)⟩

theorem Making.umap (h : Making L b k p n D S) (hva : pgSize ∣ va) (hpa : pgSize ∣ pa)
    (hvs : va + size ≤ 2 ^ 38)
    (hps : pa + size ≤ 2 ^ 52) (hno : ∀ x, va ≤ x → x < va + size → vpn x ∉ S)
    (hn : 2 * (pagesOf va pa size).length + m ≤ n) : ∃ k', umap L p va pa size k = .ok k' ∧
      Making L b k' p m D (S ∪ {c | c ∈ vpns (pagesOf va pa size)}) ∧
      (∀ x ∈ D, k'.phys.mem x = k.phys.mem x) ∧
      ∃ T, Tables k'.phys.mem (k'.root (some p)) T ∧ Proper k'.phys.mem T ∧
        k'.root (some p) < 2 ^ 32 ∧
        ∀ v ∈ pagesOf va pa size, ∃ q, leafAt k'.phys.mem T (vpn v.1) =
          some (q, leafPte v.2 pteU) := by
  obtain ⟨T, P, hroom, hleaf⟩ := h.room
  obtain ⟨k', l, Tp, hu, hmap, h'⟩ :=
    hroom.umap h.pid hva hpa hvs hps (fun x h1 h2 => hleaf _ (hno x h1 h2)) hn
  have hb := hroom.spaces.owned.blankPages hroom.zero
  have hpid' : k'.HasSpace (some p) := by
    rw [Kernel.HasSpace, umap_pidmap hu]
    exact h.pid
  have hgrow : grow T p Tp (some p) = Tp := if_pos rfl
  obtain ⟨l', Tp', hmap', -, -, hg, -⟩ := umap_ok hroom.spaces h.pid (by omega) (by omega) (hb _) hu
  refine ⟨k', hu, ⟨h.reach.umap h.pid (by omega) (by omega) (hb _) hu, hpid', _, _, h',
      fun c hc => ?_⟩,
    fun x hx => hroom.spaces.keep_data h.pid hmap'.ext hg hx, Tp, ?_, ?_, h'.spaces.root_lt hpid',
      hmap.here⟩
  · rw [Set.mem_union, not_or] at hc
    rw [hgrow, hmap.other c hc.2]
    exact hleaf c hc.1
  · exact hgrow ▸ h'.spaces.tables _ hpid'
  · exact hgrow ▸ h'.spaces.proper _ hpid'

def StackLoads (k : Kernel) (p : ℕ) : Prop :=
  ∀ c : Csr, c.satp = satpOf (k.task p).pgtable → c.sstatus.testBit 18 → ∀ x, 0x3fffffc000 ≤ x →
    x < 0x3fffffc000 + pgSize * 4 → ∃ pa, loadAddr k.phys.mem c x = .ok pa

theorem Making.stack (h : Making L b k p n D S) (hn : 12 ≤ n)
    (hsp : (k.task p).context.reg .sp = sv39UserSpAddr)
    (hS : ∀ x, 0x3fffffc000 ≤ x → x < 0x3fffffc000 + pgSize * 4 → vpn x ∉ S) :
    ∃ stack heap k₅, k.alloc L (pgSize * 4) = .ok (stack, withHeap k heap) ∧ align stack ∧
      SkyOS.umap L p (u64Sub (((withHeap k heap).task p).context.reg .sp) (4 * pgSize))
      (u64Sub stack (4 * pgSize))
        (pgSize * 4) (withHeap k heap) = .ok k₅ ∧
      (∀ m, BlankPages L (withHeap k heap).phys m) ∧
        SpaceReach L b k₅ (D ∪ blockBytes stack (pgSize * 4)) ∧
      (∀ x ∈ D, k₅.phys.mem x = k.phys.mem x) ∧ k₅.csr = k.csr ∧
      (∀ q, (k₅.task q).context = (k.task q).context) ∧ StackLoads k₅ p := by
  obtain ⟨m, rfl⟩ := Nat.exists_eq_add_of_le' hn
  obtain ⟨stack, heap, ha, -, hpage, hstart, hstop, h1⟩ :=
      h.alloc (m := m + 8) (pgSize * 4) (by decide)
    (by rw [show kallocOrder (pgSize * 4) = 2 by decide]; omega)
  have hend := L.pmmEnd_lt
  have hlow : 0x80200000 < L.pmmStart := L.start_lt
  have hpa : u64Sub stack (4 * pgSize) = stack - 4 * pgSize :=
    u64Sub_of_le (by simp only [pgSize]; omega) (by omega)
  have hva : u64Sub (((withHeap k heap).task p).context.reg .sp) (4 * pgSize) = 0x3fffffc000 := by
    rw [show ((withHeap k heap).task p).context.reg .sp = sv39UserSpAddr from hsp]
    decide
  have hpages : (pagesOf 0x3fffffc000 (stack - 4 * pgSize) (pgSize * 4)).length = 4 := by
    rw [pagesOf, length_pagesFrom]
    decide
  have hps : stack - 4 * pgSize + pgSize * 4 ≤ 2 ^ 52 := by
    simp only [pgSize]
    omega
  have hvs : 0x3fffffc000 + pgSize * 4 ≤ 2 ^ 38 := by decide
  have hpage0 : pgSize ∣ 0x3fffffc000 := by decide
  obtain ⟨k₅, hu, h2, hkeep, T, hT, hproper, hroot, hhere⟩ := h1.umap (m := m) hpage0
    (Nat.dvd_sub hpage (Dvd.intro_left 4 rfl)) hvs hps hS (by omega)
  rw [← hva, ← hpa] at hu
  have hcsr := umap_csr hu
  have hctx := umap_context hu
  refine ⟨stack, heap, k₅, ha, align_of_dvd hpage, hu, h1.blank, h2.reach,
      fun x hx => hkeep x (.inl hx),
    hcsr, hctx, fun c hsatp hsum x h0 hlt => ?_⟩
  -- the page of the stack that holds `x`
  obtain ⟨hvpn, hi⟩ := vpn_range (x := x) hpage0 hvs h0 (by
    simp only [rangeEnd, pgSize] at hlt ⊢
    omega)
  have hvs' : 0x3fffffc000 + pgSize * 4 < 2 ^ 64 := by decide
  have hps' : stack - 4 * pgSize + pgSize * 4 ≤ 2 ^ 64 := hps.trans (by decide)
  have hmem := (mem_pages hvs' hps').mpr ⟨(x - 0x3fffffc000) / pgSize, by omega, rfl⟩
  obtain ⟨q, hq⟩ := hhere _ hmem
  rw [← hvpn] at hq
  have hwalk := hT.loadLevel hproper hq (.inr rfl) (by omega) (.inr (show true = true from rfl))
  have hsum' : (c.sstatus &&& sstatusSum != 0) = true := by
    rw [bne_iff_ne, ne_eq, sstatusSum, and_bit, hsum]
    decide
  have hpg : satpRoot (satpOf (k₅.task p).pgtable) = k₅.root (some p) :=
    satpRoot_satpOf hT.pg_page (hroot.trans (by decide))
  rw [loadAddr, if_pos (canonical_low (hlt.trans_le hvs)), hsatp, hpg, hsum']
  exact ⟨_, hwalk⟩

end

theorem Making.readFile {f : File} (h : Roomy L k T P D (n + 2)) (hr : SpaceReach L b k D)
    (hf : freePid k = some p)
    (hleaf : ∀ c, c ∉ vpns (pagesOf kernelStart kernelStart (kernelRange L)) →
      leafAt k.phys.mem (T none) c = none) (ho : kallocOrder f.size = 0) (hs : f.size < 2 ^ 32)
    (name : ℕ → UInt8) : ∃ k₁ a k₂, allocProcess L k = .ok (p, k₁) ∧
      (named p name k₁).alloc L f.size = .ok (a, k₂) ∧
      Making L b (k₂.setMem (f.load k₂.phys.mem a)) p n (D ∪ blockBytes a f.size) (kernelVpns L) ∧
      k₂.csr = k.csr ∧ (k₂.task p).context = (k.task p).context.set .sp sv39UserSpAddr := by
  obtain ⟨k₁, ha, h1, hcsr, hctx⟩ := Making.start h hr hf hleaf name
  obtain ⟨a, heap, ha₁, -, -, -, -, h2⟩ :=
    h1.alloc (m := n) f.size (by rw [ho]; decide) (by rw [ho]; omega)
  obtain ⟨heap', hk, -⟩ := alloc_ok.mp ha₁
  have hlen : f.size ≤ kallocLen f.size := (u32_of_lt hs).symm.le.trans (u32_le_kallocLen hk)
  refine ⟨k₁, a, _, ha, ha₁, h2.store fun x hx => File.load_outside _ _ fun hin =>
    hx (.inr ⟨hin.1, ?_⟩), hcsr, hctx⟩
  exact hin.2.trans_le (Nat.add_le_add_left hlen a)

theorem kernelVpns_stack (L : Layout) (hx : 0x3fffffc000 ≤ x)
    (hlt : x < 0x3fffffc000 + pgSize * 4) :
    vpn x ∉ kernelVpns L := by
  intro hm
  obtain ⟨v, hv, he⟩ := List.mem_map.mp hm
  have hslot := kernelRange_slot L hv
  rw [he] at hslot
  simp only [ix2, vpn, pgSize, kernelSlot] at hslot hx hlt
  omega

theorem Roomy.execEmpty (h : Roomy L k T P D n) (hr : SpaceReach L b k D) (hf : freePid k = some p)
    (hn : 20 ≤ n)
    (hleaf : ∀ c, c ∉ vpns (pagesOf kernelStart kernelStart (kernelRange L)) →
      leafAt k.phys.mem (T none) c = none)
    (junk : ℕ) (name : ℕ → UInt8) : ∃ k₅ a D', execve L junk name emptyElf k =
      .ok (entered p a junk k₅) ∧
      SpaceReach L b k₅ D' ∧ readElfhdr k₅.phys.mem a = ⟨elfMagic, 0, 0, 0⟩ ∧ k₅.csr = k.csr ∧
      (k₅.task p).context = (k.task p).context.set .sp sv39UserSpAddr ∧ StackLoads k₅ p := by
  obtain ⟨n, rfl⟩ := Nat.exists_eq_add_of_le' hn
  obtain ⟨k₁, a, k₂, h1, h2, h3, hcsr, hctx⟩ :=
      Making.readFile (f := emptyElf) (n := n + 18) h hr hf hleaf
    (by decide) (by decide) name
  have hhdr := readElfhdr_empty k₂.phys.mem a
  obtain ⟨stack, heap, k₅, h4, hal, h5, -, hr5, hkeep, hcsr5, hctx5, hloads⟩ := h3.stack (by omega)
    (show (k₂.task p).context.reg .sp = _ by rw [hctx]; rfl) fun x => kernelVpns_stack L
  have hexec : execve L junk name emptyElf k = .ok (entered p a junk k₅) :=
    execve_ok.mpr ⟨p, k₁, a, k₂, junk, _, stack, _, k₅, h1, h2, congrArg Elfhdr.magic hhdr,
      loadSegments_none (congrArg Elfhdr.phnum hhdr), h4, hal, h5, rfl⟩
  -- the memory of the file is not part of a table
  have hhdr5 : readElfhdr k₅.phys.mem a = readElfhdr (emptyElf.load k₂.phys.mem a) a := by
    have hbyte : ∀ o n, o + n ≤ 64 → readLE k₅.phys.mem (a + o) n =
        readLE (emptyElf.load k₂.phys.mem a) (a + o) n :=
      fun o n hon => readLE_congr fun i hi => hkeep _ (.inr ⟨by omega,
        lt_of_lt_of_le (b :=
          a + 4096) (by omega) (by rw [show kallocLen emptyElf.size = 4096 by decide])⟩)
    rw [readElfhdr, readElfhdr, hbyte 24 8 (by decide), hbyte 32 8 (by decide),
      hbyte 56 2 (by decide)]
    rw [show readLE k₅.phys.mem a 4 = _ from hbyte 0 4 (by decide)]
    rfl
  exact ⟨k₅, a, _, hexec, hr5, hhdr5.trans hhdr, hcsr5.trans hcsr, (hctx5 p).trans hctx, hloads⟩

end

theorem starts (L : Layout) (b : Buddy) (junk : ℕ) (name : ℕ → UInt8) (c : Csr) :
    ∃ k k₅ a D, SpaceReach L b k ∅ ∧
    (∀ p, k.pidmap p = 0 ∧ (k.task p).pgtable = 0) ∧ k.currentTask = none ∧ k.csr = c ∧
    (∀ p, (k.task p).context = ⟨fun _ => 0, 0⟩) ∧
    execve L junk name emptyElf k = .ok (entered 0 a junk k₅) ∧ SpaceReach L b k₅ D ∧
    readElfhdr k₅.phys.mem a = ⟨elfMagic, 0, 0, 0⟩ ∧ k₅.csr = c ∧
    (k₅.task 0).context = (k.task 0).context.set .sp sv39UserSpAddr ∧ StackLoads k₅ 0 := by
  obtain ⟨pg, s, hk, hb, hboot⟩ := boots L b
  let k : Kernel := { coldKernel pg s with csr := c }
  obtain ⟨T, P, h, hleaf⟩ := hboot k rfl rfl fun _ => rfl
  have hr : SpaceReach L b k ∅ := .boot rfl (fun _ => rfl) (hb _) hk
  obtain ⟨k₅, a, D, h1, h2, h3, h4, h5⟩ := h.execEmpty (p := 0) hr
    (freePid_iff.mpr ⟨rfl, by decide, by simp [k, coldKernel]⟩) (by decide) hleaf junk name
  exact ⟨k, k₅, a, D, hr, fun p => ⟨rfl, rfl⟩, rfl, rfl, fun _ => rfl, h1, h2, h3, h4, h5⟩

end SkyOS
