import SkyOS.Proc.Loader
import SkyOS.Mm.Sizes

/-!
# The image of a program

Every segment of a well-formed file is found where its header says. What
`memcpy` leaves out of a segment is what its block held before, and the process
is entered at `entry` plus whatever `SEPC_OFFSET` held if `entry` is in none.
-/

namespace SkyOS

open ByteMem

-- ---------------------------------------------------------------------------
-- What a file describes
-- ---------------------------------------------------------------------------

/-- A segment lies in the file, and its pages in the address space of Sv39. -/
structure Described (f : File) (ph : Proghdr) : Prop where
  page : pgSize ∣ ph.vaddr
  filesz : ph.filesz ≤ ph.memsz
  inside : ph.off + ph.filesz ≤ f.size
  last : ph.vaddr + ph.memsz < 2 ^ 64
  memsz : ph.memsz ≤ 2 ^ 39

/-- The headers lie in the file. Its size is a `uint32`. -/
structure WellFormed (f : File) : Prop where
  size : f.size < 2 ^ 32
  header : 64 ≤ f.size
  proghdrs : ∀ i < f.header.phnum, f.header.phoff + i * proghdrSize + proghdrSize ≤ f.size
  segments : ∀ i < f.header.phnum, (f.proghdr i).type = elfProgLoad → Described f (f.proghdr i)

/-- The process that runs has the segments of the file, and starts at `entry`. -/
structure ImageBuilt (f : File) (k : Kernel) (p : ℕ) : Prop where
  current : k.currentTask = some p
  byte : ∀ i < f.header.phnum, (f.proghdr i).type = elfProgLoad → ∀ j < (f.proghdr i).memsz, ∃ pa,
    transPa k.phys.mem (k.task p).pgtable ((f.proghdr i).vaddr + j) = .ok pa ∧
      k.phys.mem pa = if j < (f.proghdr i).filesz then f.byte ((f.proghdr i).off + j) else 0
  entry : (k.task p).context.sepc = f.header.entry

def File.EntryCovered (f : File) (n : ℕ) : Prop := ∃ i < n, (f.proghdr i).type = elfProgLoad ∧
    f.EntryIn i

def beforeRound (L : Layout) (junk : ℕ) (filename : ℕ → UInt8) (f : File) (k : Kernel) (i : ℕ) :
    Run Kernel := do
  let (p, k) ← allocProcess L k
  let (a, k) ← (named p filename k).alloc L f.size
  let (_, k) ← loadSegments L p a i 0 (junk, k.setMem (f.load k.phys.mem a))
  return k

/-- The block that a segment is copied to holds zeros behind what is copied. -/
def TailsZero (L : Layout) (junk : ℕ) (filename : ℕ → UInt8) (f : File) (k : Kernel) : Prop :=
  ∀ i < f.header.phnum, (f.proghdr i).type = elfProgLoad →
      ∀ k₁ tmp k₂, beforeRound L junk filename f k i = .ok k₁ →
    k₁.alloc L (f.proghdr i).memsz = .ok (tmp, k₂) →
    ∀ j, (f.proghdr i).filesz ≤ j → j < (f.proghdr i).memsz → k₁.phys.mem (tmp + j) = 0

-- ---------------------------------------------------------------------------
-- Sizes
-- ---------------------------------------------------------------------------

theorem le_kallocLen (h : size < 2 ^ 44) : min size (2 ^ 25) ≤ kallocLen size := by
  by_cases hle : roundedSize size ≤ 2 ^ 25
  · have h0 : 0 < roundedSize size := by
      unfold roundedSize
      simp only [pgSize]
      split <;> omega
    have hlen := (size2order_le_iff (k := kallocOrder size) h0 hle).mp le_rfl
    have hr : size ≤ roundedSize size := by
      unfold roundedSize
      split <;> omega
    rw [kallocLen]
    omega
  · have hbig : 2 ^ 25 < roundedSize size := by omega
    have hpage : pgSize ≤ size := by
      by_contra hlt
      rw [roundedSize, if_neg hlt] at hbig
      exact absurd hbig (by decide)
    have hsize : roundedSize size = size := if_pos hpage
    have ho : buddyMaxOrder ≤ kallocOrder size := by
      refine (size2order_refused hbig).mpr ?_
      rw [hsize] at hbig ⊢
      rw [u32_of_lt (by simp only [pgSize]; omega)]
      simp only [pgSize]
      omega
    have hpow : 2 ^ buddyMaxOrder ≤ 2 ^ kallocOrder size := Nat.pow_le_pow_right (by omega) ho
    rw [buddyMaxOrder_eq] at hpow
    rw [kallocLen]
    simp only [pgSize] at *
    omega

theorem kalloc_size_le (ha : kalloc L size s = .ok (a, s')) (h : size < 2 ^ 44) :
    size ≤ 2 ^ 25 := by
  by_contra hbig
  have ho := kalloc_order ha
  have hpage : pgSize ≤ size := by
    simp only [pgSize]
    omega
  have hsize : roundedSize size = size := if_pos hpage
  have hge : buddyMaxOrder ≤ size2order (roundedSize size) := by
    rw [hsize]
    refine (size2order_refused (by omega)).mpr ?_
    rw [u32_of_lt (by simp only [pgSize]; omega)]
    simp only [pgSize]
    omega
  exact absurd ho (not_lt.mpr hge)

section
variable {L : Layout} {b : Buddy} {f : File} {a p : ℕ} {r : Option ℕ} {k k' k₀ k₁ : Kernel}
    {D D' : Set ℕ}

theorem WellFormed.phOff (h : WellFormed f) (hi : i < f.header.phnum) :
    f.phOff i = f.header.phoff + i * proghdrSize := by
  have h1 := h.proghdrs i hi
  have h2 := h.size
  exact u32_of_lt (by omega)

theorem Described.copied (h : Described f ph) (hs : f.size < 2 ^ 32) : ph.copied = ph.filesz :=
  u32_of_lt (by have := h.inside; omega)

theorem WellFormed.inside (h : WellFormed f) (hs : f.size ≤ 2 ^ 25) (hi : i < f.header.phnum) :
    SegmentInside f i := by
  have h1 := h.proghdrs i hi
  simp only [proghdrSize] at h1
  have hoff := h.phOff hi
  simp only [proghdrSize] at hoff
  refine ⟨by omega, fun _ => by omega, fun ht _ => ?_, fun ht => ?_⟩
  · rw [(h.segments i hi ht).copied h.size]
    exact (h.segments i hi ht).inside
  · have hd := h.segments i hi ht
    have hlen := le_kallocLen (show (f.proghdr i).memsz < 2 ^ 44 from hd.memsz.trans_lt (by decide))
    rw [hd.copied h.size]
    have h1 := hd.filesz
    have h2 := hd.inside
    exact ⟨h1, by omega⟩

-- ---------------------------------------------------------------------------
-- Translations of the process
-- ---------------------------------------------------------------------------

theorem Loading.trans_store (h : Loading L b f a p r k D) (hm : ∀ x ∉ D, m x = k.phys.mem x)
    (ht : transPa k.phys.mem (k.root (some p)) va = .ok pa) : transPa m (k.root (some p)) va =
      .ok pa := by
  obtain ⟨T, P, hs⟩ := spaceReach_spaces h.reach
  have hp : k.HasSpace (some p) := h.pid
  have hkeep : ∀ n t, T (some p) n = some t → ∀ x, InPage t x → m x = k.phys.mem x :=
      fun n t ht x hx =>
    hm x fun hD => (hs.data x hD).2 _ n t hp ht hx
  have hT := hs.tables _ hp
  rw [(hT.frame hkeep).transPa_ok, leafAt_frame hkeep]
  exact hT.transPa_ok.mp ht

theorem Loading.trans_umap (h : Loading L b f a p r k D) (hva : va < 2 ^ 64) (hpa : pa < 2 ^ 64)
    (hb : BlankPages L k.phys (tablesMissing k.phys.mem (k.task p).pgtable va pa size))
    (hu : SkyOS.umap L p va pa size k = .ok k') (ht : transPa k.phys.mem (k.root (some p)) x =
      .ok y) :
    transPa k'.phys.mem (k'.root (some p)) x = .ok y := by
  obtain ⟨T, P, hs⟩ := spaceReach_spaces h.reach
  have hp : k.HasSpace (some p) := h.pid
  obtain ⟨l, Tp, hmap, hno, -, -, -⟩ := umap_ok hs hp hva hpa hb hu
  obtain ⟨q, e, hl, hy⟩ := (hs.tables _ hp).transPa_ok.mp ht
  rw [umap_root hu, hmap.ext.tables.transPa_ok]
  refine ⟨q, e, ?_, hy⟩
  rw [hmap.other]
  · exact hl
  · -- a page that is mapped is none of the new ones
    intro hmem
    obtain ⟨v, hv, he⟩ := List.mem_map.mp hmem
    rw [← he, hno v hv] at hl
    cases hl

theorem Loading.trans_new (h : Loading L b f a p r k D) (hva : pgSize ∣ va) (hpa : pgSize ∣ pa)
    (hvs : va + size < 2 ^ 64) (hps : pa + size ≤ 2 ^ 52)
    (hb : BlankPages L k.phys (tablesMissing k.phys.mem (k.task p).pgtable va pa size))
    (hu : SkyOS.umap L p va pa size k = .ok k') (hj : j < size) :
    transPa k'.phys.mem (k'.root (some p)) (va + j) = .ok (pa + j) := by
  obtain ⟨T, P, hs⟩ := spaceReach_spaces h.reach
  have hp : k.HasSpace (some p) := h.pid
  have hps' : pa + size ≤ 2 ^ 64 := hps.trans (by decide)
  obtain ⟨l, Tp, hmap, hno, -, -, -⟩ := umap_ok hs hp (by omega) (by omega) hb hu
  have hva0 := Nat.mod_eq_zero_of_dvd hva
  have hpa0 := Nat.mod_eq_zero_of_dvd hpa
  rw [umap_root hu, hmap.transPa_iff (.inr rfl) (hva0.trans hpa0.symm) hvs hps' (fun x h1 h2 =>
    ?_) hj, hva0, Nat.zero_add]
  · exact ⟨(Nat.div_mul_le_self j pgSize).trans_lt hj, by omega⟩
  · obtain ⟨i, rfl⟩ := Nat.exists_eq_add_of_le h1
    have hmem :=
      (mem_pages hvs hps').mpr ⟨i / pgSize, (Nat.div_mul_le_self i pgSize).trans_lt (by omega), rfl⟩
    rw [← hno _ hmem]
    congr 1
    obtain ⟨c, rfl⟩ := hva
    simp only [vpn, pgSize]
    omega

-- ---------------------------------------------------------------------------
-- A segment in place
-- ---------------------------------------------------------------------------

/-- The bytes `D`, and what is mapped for the process, are still there. -/
structure Kept (p : ℕ) (k : Kernel) (D : Set ℕ) (k' : Kernel) (D' : Set ℕ) : Prop where
  sub : D ⊆ D'
  mem : ∀ x ∈ D, k'.phys.mem x = k.phys.mem x
  trans : ∀ x y, transPa k.phys.mem (k.root (some p)) x = .ok y →
    transPa k'.phys.mem (k'.root (some p)) x = .ok y

/-- The segment is mapped to a block at `tmp`, which held `old` before. -/
structure InPlace (f : File) (p : ℕ) (ph : Proghdr) (old : Mem) (tmp : ℕ) (k : Kernel) (D : Set ℕ) :
    Prop where
  trans : ∀ j < ph.memsz, transPa k.phys.mem (k.root (some p)) (ph.vaddr + j) = .ok (tmp + j)
  held : ∀ j < ph.memsz, tmp + j ∈ D
  byte : ∀ j < ph.memsz, k.phys.mem (tmp + j) = if j < ph.filesz then f.byte (ph.off + j) else
    old (tmp + j)

theorem InPlace.later (h : InPlace f p ph old tmp k D) (hk : Kept p k D k' D') :
    InPlace f p ph old tmp k' D' where
  trans j hj := hk.trans _ _ (h.trans j hj)
  held j hj := hk.sub (h.held j hj)
  byte j hj := (hk.mem _ (h.held j hj)).trans (h.byte j hj)

theorem Loading.alloc_kept (h : Loading L b f a p r k D) (ha : k.alloc L size = .ok (tmp, k')) :
    Kept p k D k' (D ∪ blockBytes tmp size) := by
  obtain ⟨-, ⟨heap, rfl⟩, -⟩ := h.alloc ha
  exact ⟨Set.subset_union_left, fun _ _ => rfl, fun _ _ h => h⟩

theorem Loading.umap_kept (h : Loading L b f a p r k D) (hva : va < 2 ^ 64) (hpa : pa < 2 ^ 64)
    (hb : BlankPages L k.phys (tablesMissing k.phys.mem (k.task p).pgtable va pa size))
    (hu : SkyOS.umap L p va pa size k = .ok k') : Kept p k D k' D :=
  ⟨subset_rfl, (h.umap hva hpa hb hu).2, fun _ _ ht => h.trans_umap hva hpa hb hu ht⟩

theorem Kept.trans' (h : Kept p k D k₁ D₁) (h' : Kept p k₁ D₁ k' D') : Kept p k D k' D' :=
  ⟨h.sub.trans h'.sub, fun x hx => (h'.mem x (h.sub hx)).trans (h.mem x hx),
    fun x y ht => h'.trans x y (h.trans x y ht)⟩

theorem Placed.kept (h : Loading L b f a p r k D) (hp : Placed L b f a p r (f.proghdr i) k D tmp k')
    (hlen : (f.proghdr i).copied ≤ kallocLen (f.proghdr i).memsz) :
    Kept p k D k' (D ∪ blockBytes tmp (f.proghdr i).memsz) := by
  obtain ⟨heap, m, ha, -, hout, h2, hb, hu⟩ := hp.mapped
  have hblk : ∀ x, tmp ≤ x ∧ x < tmp + (f.proghdr i).copied →
      x ∈ blockBytes tmp (f.proghdr i).memsz := fun x hx =>
    ⟨hx.1, hx.2.trans_le (Nat.add_le_add_left hlen tmp)⟩
  obtain ⟨h1, -⟩ := h.alloc ha
  have hend := L.pmmEnd_lt
  have hstop := hp.stop
  have h12 : Kept p k D ((withHeap k heap).setMem m) (D ∪ blockBytes tmp (f.proghdr i).memsz) :=
    ⟨Set.subset_union_left, fun x hx => hout x fun hx' => hp.apart x hx (hblk x hx'), fun _ _ ht =>
      h1.trans_store (fun x hx => hout x fun hx' => hx (.inr (hblk x hx'))) ht⟩
  exact h12.trans' (h2.umap_kept (f.proghdr_lt i).1 (by omega) hb hu)

theorem Placed.inPlace (hd : Described f (f.proghdr i)) (hs : f.size < 2 ^ 32)
    (hp : Placed L b f a p r (f.proghdr i) k D tmp k') :
    InPlace f p (f.proghdr i) k.phys.mem tmp k' (D ∪ blockBytes tmp (f.proghdr i).memsz) := by
  obtain ⟨heap, m, ha, hcopy, hout, h2, hb, hu⟩ := hp.mapped
  obtain ⟨heap', hk, -⟩ := alloc_ok.mp ha
  have hend := L.pmmEnd_lt
  have hstop := hp.stop
  have hmemsz : (f.proghdr i).memsz < 2 ^ 44 := hd.memsz.trans_lt (by decide)
  have hle := kalloc_size_le hk hmemsz
  have hlen := le_kallocLen hmemsz
  have hheld : ∀ j < (f.proghdr i).memsz, tmp + j ∈ D ∪ blockBytes tmp (f.proghdr i).memsz :=
      fun j hj =>
    .inr ⟨Nat.le_add_right _ _, by omega⟩
  refine ⟨fun j hj => h2.trans_new hd.page hp.page hd.last (by omega) hb hu hj, hheld,
    fun j hj => ?_⟩
  rw [(h2.umap (f.proghdr_lt i).1 (by omega) hb hu).2 _ (hheld j hj)]
  have hc := hd.copied hs
  split
  · exact hcopy j (by omega)
  · exact hout _ (by omega)

-- ---------------------------------------------------------------------------
-- All segments
-- ---------------------------------------------------------------------------

structure Segments (L : Layout) (b : Buddy) (f : File) (a p : ℕ) (r : Option ℕ) (x : ℕ × Kernel)
    (n o : ℕ)
    (k : Kernel) (D : Set ℕ) : Prop where
  loading : Loading L b f a p r k D
  covered : f.EntryCovered n → o = 0
  uncovered : ¬ f.EntryCovered n → o = x.1
  placed : ∀ i < n, (f.proghdr i).type = elfProgLoad → ∃ oᵢ kᵢ tmp kᵢ', loadSegments L p a i 0 x =
      .ok (oᵢ, kᵢ) ∧
    kᵢ.alloc L (f.proghdr i).memsz = .ok (tmp, kᵢ') ∧ InPlace f p (f.proghdr i) kᵢ.phys.mem tmp k D

theorem File.entryCovered_succ (f : File) (n : ℕ) :
    f.EntryCovered (n + 1) ↔ f.EntryCovered n ∨ (f.proghdr n).type = elfProgLoad ∧ f.EntryIn n := by
  simp only [File.EntryCovered, Nat.lt_succ_iff_lt_or_eq, or_and_right, exists_or, exists_eq_left]

theorem Loading.rounds (h : Loading L b f a p r k₀ D) (hf : WellFormed f) (hs : f.size ≤ 2 ^ 25)
    (hb : BlankRounds L f a p 0 (o, k₀)) (hn : n ≤ f.header.phnum)
    (hl : loadSegments L p a n 0 (o, k₀) = .ok (o', k')) :
    ∃ D', Segments L b f a p r (o, k₀) n o' k' D' := by
  induction n generalizing o' k' with
  | zero =>
    cases hl
    exact ⟨D, h, fun ⟨i, hi, _⟩ => absurd hi (Nat.not_lt_zero i), fun _ => rfl,
      fun i hi => absurd hi (Nat.not_lt_zero i)⟩
  | succ n ih =>
    rw [loadSegments_add, bind_ok] at hl
    obtain ⟨⟨o₁, k₁⟩, h1, h2⟩ := hl
    obtain ⟨D₁, hseg⟩ := ih (by omega) h1
    have hhdr : 58 ≤ f.size := by
      have := hf.header
      omega
    have hin := hf.inside hs (show n < f.header.phnum by omega)
    rw [Nat.zero_add, hseg.loading.segments_succ hhdr (by omega)] at h2
    have hcov := f.entryCovered_succ n
    rcases hseg.loading.round hhdr hin (n.zero_add ▸ hb n (o₁, k₁) (by omega) h1) h2 with
      ⟨ht, rfl, rfl⟩ | ⟨ht, rfl, tmp, hp⟩
    · rw [or_iff_left (fun hc => ht hc.1)] at hcov
      refine ⟨D₁, hseg.loading, fun hc => hseg.covered (hcov.mp hc),
          fun hc => hseg.uncovered (hc ∘ hcov.mpr),
        fun i hi hti => ?_⟩
      rcases Nat.lt_succ_iff_lt_or_eq.mp hi with hi | rfl
      · exact hseg.placed i hi hti
      · exact absurd hti ht
    · have hkept := hp.kept hseg.loading (hin.block ht).2
      have hnew := hp.inPlace (hf.segments n (by omega) ht) hf.size
      refine ⟨_, hp.loading, fun hc => ?_, fun hc => ?_, fun i hi hti => ?_⟩
      · split
        · rfl
        · rename_i he
          exact hseg.covered ((hcov.mp hc).resolve_right fun hn => he hn.2)
      · rw [if_neg fun he => hc (hcov.mpr (.inr ⟨ht, he⟩))]
        exact hseg.uncovered fun hn => hc (hcov.mpr (.inl hn))
      · rcases Nat.lt_succ_iff_lt_or_eq.mp hi with hi | rfl
        · obtain ⟨oᵢ, kᵢ, t, kᵢ', h3, h4, h5⟩ := hseg.placed i hi hti
          exact ⟨oᵢ, kᵢ, t, kᵢ', h3, h4, h5.later hkept⟩
        · obtain ⟨heap, m, ha, -⟩ := hp.mapped
          exact ⟨o₁, k₁, tmp, _, h1, ha, hnew⟩

theorem execve_image (hr : SpaceReach L b k D) (hb : BlankExec L junk filename f k)
    (hrun : k.RunsOn r) (hf : WellFormed f)
    (hx : execve L junk filename f k = .ok k') : ∃ p o, k'.currentTask = some p ∧
      (k'.task p).context.sepc = u64 (f.header.entry + o) ∧
      (f.EntryCovered f.header.phnum → o = 0) ∧
      (¬ f.EntryCovered f.header.phnum → o = junk) ∧
      ∀ i < f.header.phnum, (f.proghdr i).type = elfProgLoad → ∃ kᵢ tmp kᵢ',
        beforeRound L junk filename f k i = .ok kᵢ ∧ kᵢ.alloc L (f.proghdr i).memsz =
          .ok (tmp, kᵢ') ∧
        ∀ j < (f.proghdr i).memsz,
          transPa k'.phys.mem (k'.task p).pgtable ((f.proghdr i).vaddr + j) = .ok (tmp + j) ∧
          k'.phys.mem (tmp + j) = if j < (f.proghdr i).filesz then f.byte ((f.proghdr i).off + j)
            else kᵢ.phys.mem (tmp + j) := by
  obtain ⟨p, k₁, a, k₂, o, k₃, stack, k₄, k₅, h1, h2, -, h3, h4, -, h5, rfl⟩ := execve_ok.mp hx
  have hinit := Loading.init hr hrun hf.size h1 h2
  have hhdr : 58 ≤ f.size := by
    have := hf.header
    omega
  obtain ⟨heap, hk, -⟩ := alloc_ok.mp h2
  have hsize := kalloc_size_le hk (hf.size.trans (by decide))
  -- the loop is the rounds there are
  have hloop := h3
  have hph := f.phnum_lt
  obtain ⟨m, hm⟩ := Nat.exists_eq_add_of_le hph.le
  rw [hm, loadSegments_add, bind_ok] at h3
  obtain ⟨⟨o', k₃'⟩, h3, h3'⟩ := h3
  obtain ⟨D₃, hseg⟩ := hinit.rounds hf hsize (hb.load _ _ _ _ h1 h2) le_rfl h3
  rw [hseg.loading.segments_end hhdr (Nat.le_add_left _ _)] at h3'
  cases h3'
  -- the stack
  obtain ⟨hload4, -, -, -, -, hstop⟩ := hseg.loading.alloc h4
  have hb4 := hb.stack _ _ _ _ _ h1 h2 hloop _ _ h4
  have hkept := (hseg.loading.alloc_kept h4).trans' (hload4.umap_kept (u64_lt _) (u64_lt _) hb4 h5)
  obtain ⟨hload5, -⟩ := hload4.umap (u64_lt _) (u64_lt _) hb4 h5
  refine ⟨p, o, rfl, ?_, hseg.covered, hseg.uncovered, fun i hi ht => ?_⟩
  · simp [entered, Kernel.setTask, hload5.header hhdr]
  · obtain ⟨oᵢ, kᵢ, tmp, kᵢ', h6, h7, h8⟩ := hseg.placed i hi ht
    have h8 := h8.later hkept
    refine ⟨kᵢ, tmp, kᵢ', ?_, h7, fun j hj => ⟨?_, h8.byte j hj⟩⟩
    · rw [beforeRound, h1, ok_bind]
      simp only [h2, h6, ok_bind]
      rfl
    · have hroot : ((entered p a o k₅).task p).pgtable = k₅.root (some p) := by
        simp [entered, Kernel.setTask, Kernel.root]
      rw [hroot]
      exact h8.trans j hj

/-- A file that is well formed, and a call that comes back. The image is as the
file describes it if and only if the blocks held zeros behind what is copied,
and the entry is in a segment or `SEPC_OFFSET` was 0. -/
theorem image_built (hr : SpaceReach L b k D) (hb : BlankExec L junk filename f k)
    (hrun : k.RunsOn r) (hf : WellFormed f)
    (hjunk : junk < 2 ^ 64) (hx : execve L junk filename f k = .ok k') :
    (∃ p, ImageBuilt f k' p) ↔ TailsZero L junk filename f k ∧
    (f.EntryCovered f.header.phnum ∨ junk = 0) := by
  obtain ⟨p, o, hcur, hsepc, hcov, huncov, hseg⟩ := execve_image hr hb hrun hf hx
  have hentry : f.header.entry < 2 ^ 64 := readLE_lt _ _ _
  constructor
  · rintro ⟨q, hq⟩
    obtain rfl : p = q := Option.some.inj (hcur.symm.trans hq.current)
    refine ⟨fun i hi ht k₁ tmp k₂ h1 h2 j hj hlt => ?_, ?_⟩
    · obtain ⟨kᵢ, tmp', kᵢ', h3, h4, h5⟩ := hseg i hi ht
      cases h1.symm.trans h3
      cases h2.symm.trans h4
      obtain ⟨h6, h7⟩ := h5 j hlt
      obtain ⟨pa, h8, h9⟩ := hq.byte i hi ht j hlt
      cases h6.symm.trans h8
      rw [h7, if_neg (by omega), if_neg (by omega)] at h9
      exact h9
    · by_contra hcon
      push Not at hcon
      obtain ⟨hno, hj0⟩ := hcon
      have he := hsepc.symm.trans hq.entry
      rw [huncov hno, u64] at he
      omega
  · rintro ⟨htails, hentry'⟩
    have ho : o = 0 := by
      by_cases hc : f.EntryCovered f.header.phnum
      · exact hcov hc
      · exact (huncov hc).trans (hentry'.resolve_left hc)
    refine ⟨p, hcur, fun i hi ht j hj => ?_, by rw [hsepc, ho, Nat.add_zero, u64_of_lt hentry]⟩
    obtain ⟨kᵢ, tmp, kᵢ', h1, h2, h3⟩ := hseg i hi ht
    obtain ⟨h4, h5⟩ := h3 j hj
    refine ⟨_, h4, h5.trans ?_⟩
    split
    · rfl
    · rename_i hge
      exact htails i hi ht kᵢ tmp kᵢ' h1 h2 j (by omega) hj

end

-- ---------------------------------------------------------------------------
-- A program of one segment
-- ---------------------------------------------------------------------------

/-- A file with one segment, of four bytes and four zeros, at `0x10000`. It is entered at `0x10000 *
e`. -/
def segmentElf (e : UInt8) : File where
  size := 120
  byte
    | 0 => 0x7f
    | 1 => 0x45
    | 2 => 0x4c
    | 3 => 0x46
    | 26 => e
    | 32 => 64
    | 56 => 1
    | 64 => 1
    | 82 => 1
    | 96 => 4
    | 104 => 8
    | _ => 0

section
variable {e : UInt8}

theorem segmentElf_header (he : e = 0 ∨ e = 1) :
    (segmentElf e).header = ⟨elfMagic, 0x10000 * e.toNat, 64, 1⟩ := by
  rcases he with rfl | rfl <;> decide

theorem segmentElf_proghdr (he : e = 0 ∨ e = 1) :
    (segmentElf e).proghdr 0 = ⟨elfProgLoad, 0, 0x10000, 4, 8⟩ := by
  rcases he with rfl | rfl <;> decide

theorem segmentElf_size (e : UInt8) : (segmentElf e).size = 120 := rfl

theorem segmentElf_phnum (he : e = 0 ∨ e = 1) :
    (segmentElf e).header.phnum = 1 := by rw [segmentElf_header he]

theorem segmentElf_rounds (he : e = 0 ∨ e = 1) (hi : i < (segmentElf e).header.phnum) : i = 0 := by
  rw [segmentElf_phnum he] at hi
  exact Nat.lt_one_iff.mp hi

theorem segmentElf_wellFormed (he : e = 0 ∨ e = 1) : WellFormed (segmentElf e) where
  size := by rw [segmentElf_size]; decide
  header := by rw [segmentElf_size]; decide
  proghdrs i hi := by
    rw [segmentElf_rounds he hi, segmentElf_header he, segmentElf_size]
    simp only [proghdrSize]
    decide
  segments i hi _ := by
    rw [segmentElf_rounds he hi, segmentElf_proghdr he]
    exact ⟨by decide, by decide, by rw [segmentElf_size]; decide, by decide, by decide⟩

theorem kernelVpns_low (L : Layout) (hx : x < 0x80000000) : vpn x ∉ kernelVpns L := by
  intro hm
  obtain ⟨v, hv, he⟩ := List.mem_map.mp hm
  have hslot := kernelRange_slot L hv
  rw [he] at hslot
  simp only [ix2, vpn, pgSize, kernelSlot] at hslot
  omega

/-- A call of `execve` for the file, where memory is blank. -/
structure Executed (L : Layout) (junk : ℕ) (name : ℕ → UInt8) (f : File) (k k' : Kernel) :
    Prop where
  exec : execve L junk name f k = .ok k'
  blank : BlankExec L junk name f k
  tails : TailsZero L junk name f k

/-- The loop over the program headers of the file, which is at `a`. -/
structure SegmentLoaded (L : Layout) (e : UInt8) (a p o : ℕ) (k k' : Kernel) : Prop where
  loop : loadSegments L p a (2 ^ 16) 0 (o, k) =
    .ok (if (segmentElf e).EntryIn 0 then 0 else o, k')
  blank : BlankSegment L (segmentElf e) a p 0 k
  zero : ∀ tmp k₁, k.alloc L ((segmentElf e).proghdr 0).memsz = .ok (tmp, k₁) →
    ∀ j < 8, k.phys.mem (tmp + j) = 0
  context : ∀ q, (k'.task q).context = (k.task q).context

theorem Loading.execSegment (hload : Loading L b (segmentElf e) a p r k D)
    (h : Making L b k p (n + 22) D (kernelVpns L)) (he : e = 0 ∨ e = 1) (o : ℕ) :
    ∃ k' tmp D', SegmentLoaded L e a p o k k' ∧ tmp + 8 ≤ 2 ^ 52 ∧
      Making L b k' p (n + 19) D' (kernelVpns L ∪ {c | c ∈ vpns (pagesOf 0x10000 tmp 8)}) := by
  have hphnum := segmentElf_phnum he
  have hph := segmentElf_proghdr he
  have hs : 58 ≤ (segmentElf e).size := by rw [segmentElf_size]; decide
  have hin : SegmentInside (segmentElf e) 0 := (segmentElf_wellFormed he).inside
    (by rw [segmentElf_size]; decide) (by rw [hphnum]; exact Nat.one_pos)
  have ht : ((segmentElf e).proghdr 0).type = elfProgLoad := by rw [hph]
  -- the block, and what is copied to it
  obtain ⟨tmp, heap, ha, hzero, hpage, hstart, hstop, h1⟩ :=
    h.alloc (m := n + 21) ((segmentElf e).proghdr 0).memsz (by rw [hph]; decide)
      (by rw [hph, show kallocOrder 8 = 0 by decide]; omega)
  obtain ⟨m, hm, -⟩ := hload.copy hin ht ha
  obtain ⟨-, hout, -⟩ := hload.copied hin ht ha hm
  have h2 := h1.store (m := m) fun x hx => hout x fun hx' => hx (.inr ⟨hx'.1, hx'.2.trans_le
    (Nat.add_le_add_left (hin.block ht).2 tmp)⟩)
  have hblank : BlankSegment L (segmentElf e) a p 0 k := by
    intro tmp' k' m' _ ha' hm'
    cases ha.symm.trans ha'
    cases hm.symm.trans hm'
    exact h2.blank _
  -- its mapping
  have htmp : tmp + 8 ≤ 2 ^ 52 := by
    have := L.pmmEnd_lt
    omega
  have hpages : (pagesOf 0x10000 tmp 8).length = 1 := by
    rw [pagesOf, length_pagesFrom]
    decide
  obtain ⟨k', hu, h3, -⟩ := h2.umap (m := n + 19) (show pgSize ∣ 0x10000 by decide) hpage
    (show 0x10000 + 8 ≤ 2 ^ 38 by decide) htmp (fun x _ hlt => kernelVpns_low L (by omega))
    (by omega)
  have hu' : SkyOS.umap L p ((segmentElf e).proghdr 0).vaddr tmp ((segmentElf e).proghdr 0).memsz
      ((withHeap k heap).setMem m) = .ok k' := by rw [hph]; exact hu
  obtain ⟨hround, hplaced⟩ := hload.round_ok hs hin ht hblank ha hm hu' o
  have hloop : loadSegments L p a (2 ^ 16) 0 (o, k) =
      .ok (if (segmentElf e).EntryIn 0 then 0 else o, k') := by
    obtain ⟨j, hj⟩ := Nat.exists_eq_add_of_le (show 1 ≤ 2 ^ 16 by decide)
    rw [hj, loadSegments_add, hload.segments_succ hs (by rw [hphnum]; exact Nat.one_pos), hround,
      ok_bind]
    exact hplaced.loading.segments_end hs hphnum.le
  have hctx (q : ℕ) : (k'.task q).context = (k.task q).context := by
    rw [umap_context hu q]
    rfl
  refine ⟨k', tmp, _, ⟨hloop, hblank, ?_, hctx⟩, htmp, h3⟩
  intro tmp' k₁ ha' j hj
  cases ha.symm.trans ha'
  have hlen : kallocLen ((segmentElf e).proghdr 0).memsz = 4096 := by rw [hph]; decide
  exact hzero _ ⟨Nat.le_add_right _ _, by omega⟩

theorem stackVpns_free (L : Layout) (htmp : tmp + 8 ≤ 2 ^ 52) (h0 : 0x3fffffc000 ≤ x)
    (hlt : x < 0x3fffffc000 + pgSize * 4) :
    vpn x ∉ kernelVpns L ∪ {c | c ∈ vpns (pagesOf 0x10000 tmp 8)} := by
  rw [Set.mem_union, not_or]
  refine ⟨kernelVpns_stack L h0 hlt, fun hm => ?_⟩
  obtain ⟨v, hv, hvpn⟩ := List.mem_map.mp hm
  obtain ⟨i, hi, rfl⟩ := (mem_pages (by decide) (by omega)).mp hv
  simp only [vpn, pgSize] at hvpn h0 hlt hi
  omega

theorem Roomy.execSegment {T : Option ℕ → Shape} {P : Set ℕ} (h : Roomy L k T P D n)
    (hr : SpaceReach L b k D)
    (hrun : k.RunsOn r) (hf : freePid k = some p) (hn : 24 ≤ n)
    (hleaf : ∀ c, c ∉ vpns (pagesOf kernelStart kernelStart (kernelRange L)) →
      leafAt k.phys.mem (T none) c = none)
    (he : e = 0 ∨ e = 1) (junk : ℕ) (name : ℕ → UInt8) :
    ∃ a k₅, Executed L junk name (segmentElf e) k
      (entered p a (if (segmentElf e).EntryIn 0 then 0 else junk) k₅) := by
  obtain ⟨n, rfl⟩ := Nat.exists_eq_add_of_le' hn
  have hsize : (segmentElf e).size < 2 ^ 32 := by rw [segmentElf_size]; decide
  obtain ⟨k₁, a, k₂, h1, h2, h3, -, hctx⟩ :=
    Making.readFile (f := segmentElf e) (n := n + 22) h hr hf hleaf
      (by rw [segmentElf_size]; decide) hsize name
  have hload := Loading.init hr hrun hsize h1 h2
  have hmagic : (readElfhdr ((segmentElf e).load k₂.phys.mem a) a).magic = elfMagic := by
    have hmagic := hload.magic (by rw [segmentElf_size]; decide)
    rw [segmentElf_header he] at hmagic
    exact hmagic
  generalize hk : k₂.setMem ((segmentElf e).load k₂.phys.mem a) = k₃ at h3 hload
  obtain ⟨k₄, tmp, D', hseg, htmp, h4⟩ := hload.execSegment h3 he junk
  have hsp : (k₄.task p).context.reg .sp = sv39UserSpAddr := by
    rw [hseg.context p, ← hk]
    exact congrArg (fun c => c.reg .sp) hctx
  obtain ⟨stack, heap, k₅, h5, hal, h6, hblank, -⟩ := h4.stack (by omega) hsp fun x h0 hlt =>
    stackVpns_free L htmp h0 hlt
  refine ⟨a, k₅, execve_ok.mpr ⟨p, k₁, a, k₂, _, k₄, stack, _, k₅, h1, h2, hmagic,
    hk ▸ hseg.loop, h5, hal, h6, rfl⟩,
    ⟨fun p' k₁' a' k₂' h1' h2' => ?_, fun p' k₁' a' k₂' y h1' h2' hy => ?_⟩,
      fun i hi _ k₁' tmp' k₂' hk' ha' j hj hlt => ?_⟩
  · cases h1.symm.trans h1'
    cases h2.symm.trans h2'
    rw [hk]
    intro i y hi hy
    obtain rfl : i = 0 := segmentElf_rounds he (by omega)
    cases hy
    exact hseg.blank
  · cases h1.symm.trans h1'
    cases h2.symm.trans h2'
    rw [hk] at hy
    obtain rfl := Except.ok.inj (hseg.loop.symm.trans hy)
    intro stack' k' h5'
    obtain ⟨rfl, rfl⟩ := Prod.mk.inj (Except.ok.inj (h5.symm.trans h5'))
    exact hblank _
  · obtain rfl := segmentElf_rounds he hi
    have hbefore : beforeRound L junk name (segmentElf e) k 0 = .ok k₃ := by
      rw [beforeRound, h1, ok_bind]
      simp only [h2, ok_bind]
      rw [hk]
      rfl
    cases hbefore.symm.trans hk'
    exact hseg.zero _ _ ha' j (by rwa [segmentElf_proghdr he] at hlt)

end

theorem boots_ready (L : Layout) (b : Buddy) : ∃ k T P, SpaceReach L b k ∅ ∧
    Roomy L k T P ∅ bootRoom ∧
    k.RunsOn none ∧ freePid k = some 0 ∧
    ∀ c, c ∉ vpns (pagesOf kernelStart kernelStart (kernelRange L)) → leafAt k.phys.mem (T none) c =
      none := by
  obtain ⟨pg, s, hk, hb, hboot⟩ := boots L b
  let k : Kernel := { coldKernel pg s with csr := ⟨0, 0, 0, 0, 0, 0, 0, satpOf pg⟩ }
  obtain ⟨T, P, h, hleaf⟩ := hboot k rfl rfl fun _ => rfl
  exact ⟨k, fun _ => T, P, .boot rfl (fun _ => rfl) (hb _) hk, h, ⟨trivial, rfl⟩,
    freePid_iff.mpr ⟨rfl, by decide, by simp [k, coldKernel]⟩, hleaf⟩

/-- The segment is there, zeros and all. -/
theorem image_built_segment : ∃ k k' D p, SpaceReach sampleLayout zeroed k D ∧
    execve sampleLayout 0 (fun _ => 0) (segmentElf 1) k = .ok k' ∧
      ImageBuilt (segmentElf 1) k' p := by
  obtain ⟨k, T, P, hr, h, hrun, hf, hleaf⟩ := boots_ready sampleLayout zeroed
  obtain ⟨a, k₅, hx⟩ := h.execSegment hr hrun hf (by decide) hleaf (.inr rfl) 0 (fun _ => 0)
  obtain ⟨p, hp⟩ :=
      (image_built hr hx.blank hrun (segmentElf_wellFormed (.inr rfl)) (by decide) hx.exec).mpr
    ⟨hx.tails, .inr rfl⟩
  exact ⟨k, _, _, p, hr, hx.exec, hp⟩

/-- `SEPC_OFFSET` is not set without a segment that holds the entry. -/
theorem image_entry_junk : ∃ k k' D, SpaceReach sampleLayout zeroed k D ∧
    BlankExec sampleLayout 1 (fun _ => 0) (segmentElf 0) k ∧ k.RunsOn none ∧
      WellFormed (segmentElf 0) ∧
    execve sampleLayout 1 (fun _ => 0) (segmentElf 0) k = .ok k' ∧
      ¬ ∃ p, ImageBuilt (segmentElf 0) k' p := by
  obtain ⟨k, T, P, hr, h, hrun, hf, hleaf⟩ := boots_ready sampleLayout zeroed
  obtain ⟨a, k₅, hx⟩ := h.execSegment hr hrun hf (by decide) hleaf (.inl rfl) 1 (fun _ => 0)
  have hwf := segmentElf_wellFormed (e := 0) (.inl rfl)
  refine ⟨k, _, _, hr, hx.blank, hrun, hwf, hx.exec, fun himage => ?_⟩
  obtain ⟨p, o, hcur, hsepc, -, huncov, -⟩ := execve_image hr hx.blank hrun hwf hx.exec
  have hno : ¬ (segmentElf 0).EntryCovered (segmentElf 0).header.phnum := by
    rintro ⟨i, hi, -, hin⟩
    obtain rfl := segmentElf_rounds (.inl rfl) hi
    exact absurd hin (by decide)
  obtain ⟨q, hq⟩ := himage
  obtain rfl : p = q := Option.some.inj (hcur.symm.trans hq.current)
  have he := hsepc.symm.trans hq.entry
  rw [huncov hno, segmentElf_header (.inl rfl)] at he
  exact absurd he (by decide)

end SkyOS
