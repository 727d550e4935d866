import SkyOS.Proc.FirstProcess

/-!
# Loading a file

While `execve` goes through the program headers, the file stays where it was
read to: a segment is copied to a block of its own, and `umap` writes to tables
only. So every header that is read is the header in the file.
-/

namespace SkyOS

open ByteMem

-- ---------------------------------------------------------------------------
-- The file
-- ---------------------------------------------------------------------------

namespace File

def header (f : File) : Elfhdr := readElfhdr f.byte 0

def phOff (f : File) (i : ℕ) : ℕ := u32 (f.header.phoff + i * proghdrSize)

def proghdr (f : File) (i : ℕ) : Proghdr := readProghdr f.byte (f.phOff i)

end File

/-- The bytes of a segment that come from the file. `memcpy` takes a 32-bit
length. -/
def Proghdr.copied (ph : Proghdr) : ℕ := u32 ph.filesz

/-- What round `i` reads is in the file, and what it copies fits the block. -/
structure SegmentInside (f : File) (i : ℕ) : Prop where
  type : f.phOff i + 4 ≤ f.size
  rest : (f.proghdr i).type = elfProgLoad → f.phOff i + 48 ≤ f.size
  bytes : (f.proghdr i).type = elfProgLoad → 0 < (f.proghdr i).copied →
    (f.proghdr i).off + (f.proghdr i).copied ≤ f.size
  block : (f.proghdr i).type = elfProgLoad →
    (f.proghdr i).copied ≤ (f.proghdr i).memsz ∧
      (f.proghdr i).copied ≤ kallocLen (f.proghdr i).memsz

/-- The tables that `umap` makes for segment `i` come from pages without entries. -/
def BlankSegment (L : Layout) (f : File) (a p i : ℕ) (k : Kernel) : Prop :=
  ∀ tmp k₁ m, (f.proghdr i).type = elfProgLoad → k.alloc L (f.proghdr i).memsz = .ok (tmp, k₁) →
    copyIn k₁.csr tmp (u64 (a + (f.proghdr i).off)) (f.proghdr i).copied k₁.phys.mem = .ok m →
    BlankPages L ⟨m, k₁.phys.heap⟩
      (tablesMissing m (k₁.task p).pgtable (f.proghdr i).vaddr tmp (f.proghdr i).memsz)

def BlankRounds (L : Layout) (f : File) (a p i : ℕ) (x : ℕ × Kernel) : Prop :=
  ∀ n y, i + n < f.header.phnum → loadSegments L p a n i x = .ok y →
    BlankSegment L f a p (i + n) y.2

def BlankLoad (L : Layout) (junk : ℕ) (filename : ℕ → UInt8) (f : File) (k : Kernel) : Prop :=
  ∀ p k₁ a k₂, allocProcess L k = .ok (p, k₁) → (named p filename k₁).alloc L f.size = .ok (a, k₂) →
    BlankRounds L f a p 0 (junk, k₂.setMem (f.load k₂.phys.mem a))

def BlankStack (L : Layout) (p : ℕ) (k : Kernel) : Prop :=
  ∀ stack k₁, k.alloc L (pgSize * 4) = .ok (stack, k₁) →
      BlankPages L k₁.phys (tablesMissing k₁.phys.mem
    (k₁.task p).pgtable (u64Sub ((k₁.task p).context.reg .sp) (4 * pgSize))
      (u64Sub stack (4 * pgSize)) (pgSize * 4))

/-- All tables that `execve` makes come from pages without entries. -/
structure BlankExec (L : Layout) (junk : ℕ) (filename : ℕ → UInt8) (f : File) (k : Kernel) :
    Prop where
  load : BlankLoad L junk filename f k
  stack : ∀ p k₁ a k₂ y, allocProcess L k = .ok (p, k₁) → (named p filename k₁).alloc L f.size =
      .ok (a, k₂) →
    loadSegments L p a (2 ^ 16) 0 (junk, k₂.setMem (f.load k₂.phys.mem a)) = .ok y →
      BlankStack L p y.2

/-- Process `p` is being made from the file at `a`, on the tables of space `r`. -/
structure Loading (L : Layout) (b : Buddy) (f : File) (a p : ℕ) (r : Option ℕ) (k : Kernel)
    (D : Set ℕ) : Prop where
  reach : SpaceReach L b k D
  runs : k.RunsOn r
  pid : k.pidmap p ≠ 0
  start : L.pmmStart ≤ a
  stop : a + f.size ≤ L.pmmEnd
  held : ∀ i < f.size, a + i ∈ D
  file : ∀ i < f.size, k.phys.mem (a + i) = f.byte i

section
variable {L : Layout} {b : Buddy} {f : File} {a p : ℕ} {r : Option ℕ} {k k' k₁ : Kernel} {D : Set ℕ}
    {m : Mem}

theorem Loading.readLE (h : Loading L b f a p r k D) (ho : o + n ≤ f.size) :
    ByteMem.readLE k.phys.mem (a + o) n = ByteMem.readLE f.byte o n :=
  readLE_congr fun i hi => by rw [Nat.add_assoc, h.file _ (by omega)]

-- ---------------------------------------------------------------------------
-- Steps
-- ---------------------------------------------------------------------------

theorem Kernel.RunsOn.congr (h : k.RunsOn r) (hpid : k'.pidmap = k.pidmap)
    (hroot : ∀ r, k'.root r = k.root r)
    (hcsr : k'.csr = k.csr) : k'.RunsOn r := by
  refine ⟨?_, by rw [hcsr, hroot]; exact h.2⟩
  cases r with
  | none => trivial
  | some q =>
    rw [Kernel.HasSpace, hpid]
    exact h.1

theorem Loading.store (h : Loading L b f a p r k D) (hm : ∀ x ∉ D, m x = k.phys.mem x)
    (hf : ∀ i < f.size, m (a + i) = f.byte i) : Loading L b f a p r (k.setMem m) D :=
  { h with
    reach := h.reach.store hm
    runs := h.runs.congr rfl (fun r => by cases r <;> rfl) rfl
    file := hf }

theorem Loading.alloc (h : Loading L b f a p r k D) (ha : k.alloc L size = .ok (tmp, k')) :
    Loading L b f a p r k' (D ∪ blockBytes tmp size) ∧ (∃ heap, k' = withHeap k heap) ∧
      (∀ x ∈ D, x ∉ blockBytes tmp size) ∧ pgSize ∣ tmp ∧ L.pmmStart ≤ tmp ∧
        tmp + kallocLen size ≤ L.pmmEnd := by
  obtain ⟨T, P, hs⟩ := spaceReach_spaces h.reach
  obtain ⟨heap, hk, rfl⟩ := alloc_ok.mp ha
  have hg := hs.owned.grant hk
  refine ⟨{ h with reach := h.reach.alloc ha, runs := ?_, held := fun i hi => .inl (h.held i hi) },
    ⟨heap, rfl⟩, fun x hx => Set.disjoint_left.mp hg.apart (hs.data x hx).1, hg.page, hg.start,
      hg.stop⟩
  exact h.runs.congr rfl (fun r => by cases r <;> rfl) rfl

theorem Loading.umap (h : Loading L b f a p r k D) (hva : va < 2 ^ 64) (hpa : pa < 2 ^ 64)
    (hb : BlankPages L k.phys (tablesMissing k.phys.mem (k.task p).pgtable va pa size))
    (hu : umap L p va pa size k = .ok k') : Loading L b f a p r k' D ∧
      ∀ x ∈ D, k'.phys.mem x = k.phys.mem x := by
  obtain ⟨T, P, hs⟩ := spaceReach_spaces h.reach
  have hp : k.HasSpace (some p) := h.pid
  obtain ⟨l, Tp, hmap, -, -, hg, -⟩ := umap_ok hs hp hva hpa hb hu
  have hkeep : ∀ x ∈ D, k'.phys.mem x = k.phys.mem x := fun x hx => hs.keep_data hp hmap.ext hg hx
  exact ⟨{ h with
    reach := h.reach.umap h.pid hva hpa hb hu
    runs := h.runs.congr (umap_pidmap hu) (umap_root hu) (umap_csr hu)
    pid := by rw [umap_pidmap hu]; exact h.pid
    file := fun i hi => (hkeep _ (h.held i hi)).trans (h.file i hi) }, hkeep⟩

-- ---------------------------------------------------------------------------
-- One round
-- ---------------------------------------------------------------------------

theorem Loading.magic (h : Loading L b f a p r k D) (hs : 4 ≤ f.size) :
    (readElfhdr k.phys.mem a).magic = f.header.magic := by
  have h0 := h.readLE (o := 0) (n := 4) hs
  rwa [Nat.add_zero] at h0

theorem Loading.header (h : Loading L b f a p r k D) (hs : 58 ≤ f.size) :
    readElfhdr k.phys.mem a = f.header := by
  have h0 := h.magic (by omega)
  simp only [File.header, readElfhdr] at h0 ⊢
  rw [h0, h.readLE (by omega), h.readLE (by omega), h.readLE (by omega)]

theorem Loading.type (h : Loading L b f a p r k D) (hi : SegmentInside f i) :
    (readProghdr k.phys.mem (a + f.phOff i)).type = (f.proghdr i).type := h.readLE hi.type

theorem Loading.proghdr (h : Loading L b f a p r k D) (hi : f.phOff i + 48 ≤ f.size) :
    readProghdr k.phys.mem (a + f.phOff i) = f.proghdr i := by
  simp only [File.proghdr, readProghdr, Nat.add_assoc]
  rw [h.readLE (by omega), h.readLE (by omega), h.readLE (by omega), h.readLE (by omega),
    h.readLE (by omega)]

def File.EntryIn (f : File) (i : ℕ) : Prop :=
  (f.proghdr i).vaddr ≤ f.header.entry ∧
    f.header.entry < u64 ((f.proghdr i).vaddr + (f.proghdr i).memsz)

instance (f : File) (i : ℕ) : Decidable (f.EntryIn i) := inferInstanceAs (Decidable (_ ∧ _))

/-- Segment `ph` of the file has been copied to a block at `tmp` and mapped. -/
structure Placed (L : Layout) (b : Buddy) (f : File) (a p : ℕ) (r : Option ℕ) (ph : Proghdr)
    (k : Kernel) (D : Set ℕ)
    (tmp : ℕ) (k' : Kernel) : Prop where
  page : pgSize ∣ tmp
  stop : tmp + kallocLen ph.memsz ≤ L.pmmEnd
  apart : ∀ x ∈ D, x ∉ blockBytes tmp ph.memsz
  mapped : ∃ heap m, k.alloc L ph.memsz = .ok (tmp, withHeap k heap) ∧
    (∀ j < ph.copied, m (tmp + j) = f.byte (ph.off + j)) ∧
    (∀ x, ¬ (tmp ≤ x ∧ x < tmp + ph.copied) → m x = k.phys.mem x) ∧
    Loading L b f a p r ((withHeap k heap).setMem m) (D ∪ blockBytes tmp ph.memsz) ∧
    BlankPages L ⟨m, heap⟩ (tablesMissing m (k.task p).pgtable ph.vaddr tmp ph.memsz) ∧
    umap L p ph.vaddr tmp ph.memsz ((withHeap k heap).setMem m) = .ok k'
  loading : Loading L b f a p r k' (D ∪ blockBytes tmp ph.memsz)

theorem File.proghdr_lt (f : File) (i : ℕ) :
    (f.proghdr i).vaddr < 2 ^ 64 ∧ (f.proghdr i).off < 2 ^ 64 :=
  ⟨readLE_lt _ _ _, readLE_lt _ _ _⟩

theorem Loading.copy (h : Loading L b f a p r k D) (hi : SegmentInside f i)
    (ht : (f.proghdr i).type = elfProgLoad)
    (ha : k.alloc L (f.proghdr i).memsz = .ok (tmp, k')) :
    ∃ m, copyIn k'.csr tmp (u64 (a + (f.proghdr i).off)) (f.proghdr i).copied k'.phys.mem = .ok m ∧
      (∀ j < (f.proghdr i).copied, m (tmp + j) = f.byte ((f.proghdr i).off + j)) ∧
      ∀ x, ¬ (tmp ≤ x ∧ x < tmp + (f.proghdr i).copied) → m x = k.phys.mem x := by
  obtain ⟨h1, ⟨heap, rfl⟩, hap, -, -, -⟩ := h.alloc ha
  have hend := L.pmmEnd_lt
  have hstop := h.stop
  have hin : ∀ j < (f.proghdr i).copied, (f.proghdr i).off + j < f.size := fun j hj => by
    have := hi.bytes ht (by omega)
    omega
  have hblk : ∀ x, tmp ≤ x ∧ x < tmp + (f.proghdr i).copied →
      x ∈ blockBytes tmp (f.proghdr i).memsz := fun x hx =>
    ⟨hx.1, hx.2.trans_le (Nat.add_le_add_left (hi.block ht).2 tmp)⟩
  have hcp :
      ∃ m, copyIn k.csr tmp (u64 (a + (f.proghdr i).off)) (f.proghdr i).copied k.phys.mem = .ok m ∧
      (∀ j < (f.proghdr i).copied, m (tmp + j) = k.phys.mem (a + ((f.proghdr i).off + j))) ∧
      ∀ x, ¬ (tmp ≤ x ∧ x < tmp + (f.proghdr i).copied) → m x = k.phys.mem x := by
    refine copyIn_direct (fun m' j hm' hj => ?_) fun j hj hx =>
      hap _ (h.held _ (hin j hj)) (hblk _ hx)
    have hlt := hin j hj
    have hstore := h1.reach.store (m := m') fun x hx => hm' x fun hx' => hx (.inr (hblk x hx'))
    rw [u64_of_lt (show a + (f.proghdr i).off < 2 ^ 64 by omega), u64_of_lt (by omega),
      Nat.add_assoc]
    refine hstore.loads_kernel (r := r) (h1.runs.congr rfl (fun r => by cases r <;> rfl) rfl)
      rfl ?_ ?_
    · exact (L.start_lt.le.trans h.start).trans (Nat.le_add_right _ _)
    · exact lt_of_lt_of_le (Nat.add_lt_add_left hlt a) hstop
  obtain ⟨m, hm, hcopy, hkeep⟩ := hcp
  exact ⟨m, hm, fun j hj => (hcopy j hj).trans (h.file _ (hin j hj)), hkeep⟩

theorem offset_page (h : pgSize ∣ x) : offset x = 0 := by
  obtain ⟨c, rfl⟩ := h
  rw [offset, show pgSize - 1 = 2 ^ 12 - 1 by decide, Nat.and_two_pow_sub_one_eq_mod]
  exact Nat.mul_mod_right _ _

/-- The bytes of the segment are in the block, and the file is where it was. -/
theorem Loading.copied (h : Loading L b f a p r k D) (hi : SegmentInside f i)
    (ht : (f.proghdr i).type = elfProgLoad) (ha : k.alloc L (f.proghdr i).memsz = .ok (tmp, k₁))
    (hm : copyIn k₁.csr tmp (u64 (a + (f.proghdr i).off)) (f.proghdr i).copied k₁.phys.mem =
      .ok m) :
    (∀ j < (f.proghdr i).copied, m (tmp + j) = f.byte ((f.proghdr i).off + j)) ∧
      (∀ x, ¬ (tmp ≤ x ∧ x < tmp + (f.proghdr i).copied) → m x = k.phys.mem x) ∧
      Loading L b f a p r (k₁.setMem m) (D ∪ blockBytes tmp (f.proghdr i).memsz) := by
  obtain ⟨h1, -, hap, -, -, -⟩ := h.alloc ha
  obtain ⟨m', hm', hcopy, hkeep⟩ := h.copy hi ht ha
  obtain rfl : m' = m := Except.ok.inj (hm'.symm.trans hm)
  have hmem : k₁.phys.mem = k.phys.mem := by
    obtain ⟨heap, -, rfl⟩ := alloc_ok.mp ha
    rfl
  have hblk : ∀ x, tmp ≤ x ∧ x < tmp + (f.proghdr i).copied →
      x ∈ blockBytes tmp (f.proghdr i).memsz := fun x hx =>
    ⟨hx.1, hx.2.trans_le (Nat.add_le_add_left (hi.block ht).2 tmp)⟩
  refine ⟨hcopy, hkeep, h1.store (fun x hx => ?_) fun j hj => ?_⟩
  · exact (hkeep x fun hx' => hx (.inr (hblk x hx'))).trans (congrFun hmem x).symm
  · exact (hkeep _ fun hx' => hap _ (h.held j hj) (hblk _ hx')).trans (h.file j hj)

theorem Loading.round_ok (h : Loading L b f a p r k D) (hs : 58 ≤ f.size) (hi : SegmentInside f i)
    (ht : (f.proghdr i).type = elfProgLoad) (hb : BlankSegment L f a p i k)
    (ha : k.alloc L (f.proghdr i).memsz = .ok (tmp, k₁))
    (hm : copyIn k₁.csr tmp (u64 (a + (f.proghdr i).off)) (f.proghdr i).copied k₁.phys.mem = .ok m)
    (hu : SkyOS.umap L p (f.proghdr i).vaddr tmp (f.proghdr i).memsz (k₁.setMem m) = .ok k')
    (o : ℕ) :
    loadSegment L p a i (o, k) = .ok (if f.EntryIn i then 0 else o, k') ∧
      Placed L b f a p r (f.proghdr i) k D tmp k' := by
  have hoff : u32 ((readElfhdr k.phys.mem a).phoff + i * proghdrSize) = f.phOff i := by
    rw [h.header hs]; rfl
  have hrest := hi.rest ht
  obtain ⟨-, ⟨heap, rfl⟩, hap, hpage, -, hstop⟩ := h.alloc ha
  obtain ⟨hcopy, hkeep, h2⟩ := h.copied hi ht ha hm
  have hend := L.pmmEnd_lt
  have hblank : BlankPages L ⟨m, heap⟩ (tablesMissing m (k.task p).pgtable (f.proghdr i).vaddr tmp
    (f.proghdr i).memsz) := hb tmp (withHeap k heap) m ht ha hm
  obtain ⟨h3, -⟩ := h2.umap (f.proghdr_lt i).1 (by omega) hblank hu
  have hm :
      copyIn (withHeap k heap).csr tmp (u64 (a + (f.proghdr i).off)) (u32 (f.proghdr i).filesz)
      (withHeap k heap).phys.mem = .ok m := hm
  refine ⟨?_, hpage, hstop, hap, ⟨heap, m, ha, hcopy, hkeep, h2, hblank, hu⟩, h3⟩
  unfold loadSegment
  simp only [hoff, h.type hi]
  rw [if_neg (not_not.mpr ht), h.proghdr hrest, ha, ok_bind]
  dsimp only
  rw [if_neg (by simpa using align_of_dvd hpage), hm, ok_bind,
    show readProghdr m (a + f.phOff i) = f.proghdr i from h2.proghdr hrest, hu, ok_bind,
      h3.proghdr hrest,
    h3.header hs, offset_page hpage]
  by_cases he : f.EntryIn i
  · rw [if_pos he, if_pos (show _ ∧ _ from he)]
    rfl
  · rw [if_neg he, if_neg (show ¬ (_ ∧ _) from he)]
    rfl

/-- A round takes its segment from the file and leaves the file as it is. -/
theorem Loading.round (h : Loading L b f a p r k D) (hs : 58 ≤ f.size) (hi : SegmentInside f i)
    (hb : BlankSegment L f a p i k) (hl : loadSegment L p a i (o, k) = .ok (o', k')) :
    (f.proghdr i).type ≠ elfProgLoad ∧ o' = o ∧ k' = k ∨
      (f.proghdr i).type = elfProgLoad ∧ o' = (if f.EntryIn i then 0 else o) ∧
      ∃ tmp, Placed L b f a p r (f.proghdr i) k D tmp k' := by
  have hl' := hl
  have hoff : u32 ((readElfhdr k.phys.mem a).phoff + i * proghdrSize) = f.phOff i := by
    rw [h.header hs]; rfl
  unfold loadSegment at hl
  simp only [hoff, h.type hi] at hl
  split at hl
  · rename_i ht
    rw [pure_ok, Prod.mk.injEq] at hl
    exact .inl ⟨ht, hl.1.symm, hl.2.symm⟩
  · rename_i ht
    have ht := not_not.mp ht
    have hrest := hi.rest ht
    rw [h.proghdr hrest, bind_ok] at hl
    obtain ⟨⟨tmp, k₁⟩, ha, hl⟩ := hl
    dsimp only at hl
    obtain ⟨-, -, -, hpage, -⟩ := h.alloc ha
    rw [if_neg (by simpa using align_of_dvd hpage), bind_ok] at hl
    obtain ⟨m, hm, hl⟩ := hl
    obtain ⟨-, -, h2⟩ := h.copied hi ht ha hm
    rw [show readProghdr m (a + f.phOff i) = f.proghdr i from h2.proghdr hrest, bind_ok] at hl
    obtain ⟨k₂, hu, hl⟩ := hl
    obtain ⟨hround, hp⟩ := h.round_ok hs hi ht hb ha hm hu o
    rw [hround, Except.ok.injEq, Prod.mk.injEq] at hl'
    exact .inr ⟨ht, hl'.1.symm, tmp, hl'.2 ▸ hp⟩

-- ---------------------------------------------------------------------------
-- All rounds
-- ---------------------------------------------------------------------------

theorem loadSegments_add (n m i : ℕ) (x : ℕ × Kernel) : loadSegments L p a (n + m) i x =
    loadSegments L p a n i x >>= loadSegments L p a m (i + n) := by
  induction n generalizing i x with
  | zero => rw [Nat.zero_add, Nat.add_zero]; rfl
  | succ n ih =>
    rw [show n + 1 + m = n + m + 1 by omega, loadSegments, loadSegments]
    split
    · rw [bind_assoc]
      refine congrArg _ (funext fun x => ?_)
      rw [ih, show i + 1 + n = i + (n + 1) by omega]
    · -- the loop is over
      rename_i hi
      rw [ok_bind]
      cases m with
      | zero => rfl
      | succ m => rw [loadSegments, if_neg (by omega)]

theorem Loading.segments_succ (h : Loading L b f a p r k D) (hs : 58 ≤ f.size)
    (hn : i < f.header.phnum) :
    loadSegments L p a 1 i (o, k) = loadSegment L p a i (o, k) := by
  rw [loadSegments, if_pos (by rw [h.header hs]; exact hn)]
  exact bind_pure _

theorem Loading.segments_end (h : Loading L b f a p r k D) (hs : 58 ≤ f.size)
    (hn : f.header.phnum ≤ i) :
    loadSegments L p a n i (o, k) = .ok (o, k) := by
  cases n with
  | zero => rfl
  | succ n => rw [loadSegments, if_neg (by rw [h.header hs]; omega)]

theorem BlankRounds.head (h : BlankRounds L f a p i x) (hi : i < f.header.phnum) :
    BlankSegment L f a p i x.2 :=
  h 0 x hi rfl

theorem BlankRounds.next (h : BlankRounds L f a p i (o, k)) (hl : Loading L b f a p r k D)
    (hs : 58 ≤ f.size)
    (h1 : loadSegment L p a i (o, k) = .ok x) : BlankRounds L f a p (i + 1) x := fun n y hn hy => by
  have hsum : i + 1 + n = i + (n + 1) := by omega
  rw [hsum] at hn ⊢
  refine h (n + 1) y hn ?_
  rw [loadSegments, if_pos (by rw [hl.header hs]; omega), h1, ok_bind, hy]

theorem File.phnum_lt (f : File) : f.header.phnum < 2 ^ 16 := readLE_lt _ _ _

-- ---------------------------------------------------------------------------
-- Before the loop
-- ---------------------------------------------------------------------------

theorem Kernel.RunsOn.process (h : k.RunsOn r) (ha : allocProcess L k = .ok (p, k')) :
    k'.RunsOn r := by
  obtain ⟨hf, t, heap, -, -, rfl⟩ := allocProcess_ok.mp ha
  obtain ⟨hp0, -⟩ := freePid_iff.mp hf
  obtain ⟨hr, hsatp⟩ := h
  cases r with
  | none => exact ⟨trivial, by simpa [withProcess, Kernel.root] using hsatp⟩
  | some q =>
    have hq : q ≠ p := by
      rintro rfl
      exact hr hp0
    refine ⟨by simpa [withProcess, Kernel.HasSpace, hq] using hr, ?_⟩
    simpa [withProcess, Kernel.root, hq] using hsatp

theorem Loading.init (hr : SpaceReach L b k D) (hrun : k.RunsOn r) (hsize : f.size < 2 ^ 32)
    (ha : allocProcess L k = .ok (p, k')) (hf : (named p filename k').alloc L f.size =
      .ok (a, k₂)) :
    Loading L b f a p r (k₂.setMem (f.load k₂.phys.mem a)) (D ∪ blockBytes a f.size) := by
  have hroot : ∀ r, (named p filename k').root r = k'.root r := fun r => by
    cases r with
    | none => rfl
    | some q => by_cases hq : q = p <;> simp_all [Kernel.root, named, Kernel.setTask]
  have h1 : SpaceReach L b (named p filename k') D := (hr.process ha).other rfl rfl hroot
  obtain ⟨T, P, hs⟩ := spaceReach_spaces h1
  obtain ⟨heap, hk, rfl⟩ := alloc_ok.mp hf
  have hg := hs.owned.grant hk
  have hlen : f.size ≤ kallocLen f.size := (u32_of_lt hsize).symm.le.trans (u32_le_kallocLen hk)
  have hpid : (named p filename k').pidmap p ≠ 0 := by
    obtain ⟨-, t, heap', -, -, rfl⟩ := allocProcess_ok.mp ha
    simp [named, Kernel.setTask, withProcess]
  have hout : ∀ x ∉ D ∪ blockBytes a f.size, f.load (named p filename k').phys.mem a x =
      (named p filename k').phys.mem x := fun x hx => File.load_outside _ _ fun hin =>
    hx (.inr ⟨hin.1, hin.2.trans_le (Nat.add_le_add_left hlen a)⟩)
  refine ⟨(h1.alloc hf).store hout, ?_, hpid, hg.start, ?_, fun i hi => .inr ?_, fun i hi => ?_⟩
  · exact (hrun.process ha).congr rfl (fun r => (by cases r <;> rfl : _ = _).trans (hroot r)) rfl
  · exact (Nat.add_le_add_left hlen a).trans hg.stop
  · exact ⟨Nat.le_add_right a i, by omega⟩
  · change f.load _ a (a + i) = _
    rw [File.load, if_pos (by omega), Nat.add_sub_cancel_left]

end

end SkyOS
