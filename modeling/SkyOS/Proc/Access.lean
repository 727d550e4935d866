import SkyOS.Proc.Image
import SkyOS.Lib.Traced

/-!
# What execve touches

`execve` with every read from the file, every byte it writes to a segment and every call
of `umap`. None of the header's fields is compared with the size of the file.
-/

namespace SkyOS

open ByteMem Traced

-- ---------------------------------------------------------------------------
-- Accesses
-- ---------------------------------------------------------------------------

/-- A call of `umap` for the process `p`, and the block that `kalloc` returned for it when it
was asked for `len` bytes. -/
structure Mapping where
  p : ℕ
  va : ℕ
  pa : ℕ
  size : ℕ
  block : ℕ
  len : ℕ

inductive Access
  /-- `n` bytes from `elfcontent + off` on. -/
  | read (off n : ℕ)
  /-- Byte `j` of the block for `memsz` bytes. -/
  | write (j memsz : ℕ)
  | map (x : Mapping)

/-- Reads stay in the `size` bytes of the file, and writes in the segment and
in the block that was allocated for it. -/
def Access.Inside (size : ℕ) : Access → Prop
  | .read off n => ∀ j < n, u64 (off + j) < size
  | .write j memsz => j < memsz ∧ j < kallocLen memsz
  | .map _ => True

abbrev Touching := Traced Access Stop

def copyInT (c : Csr) (dst src off memsz : ℕ) : ℕ → Mem → Touching Mem
  | 0, m => pure m
  | n + 1, m => do
    let m ← copyInT c dst src off memsz n m
    emit (.read (off + n) 1)
    let pa ← loadAddr m c (u64 (src + n))
    emit (.write n memsz)
    return Function.update m (dst + n) (m pa)

def loadSegmentT (L : Layout) (p elfcontent i : ℕ) (r : ℕ × Kernel) : Touching (ℕ × Kernel) := do
  let (sepcOffset, k) := r
  emit (.read 32 8)
  let header := readElfhdr k.phys.mem elfcontent
  let off := u32 (header.phoff + i * proghdrSize)
  let ph := readProghdr k.phys.mem (elfcontent + off)
  emit (.read off 4)
  if ph.type ≠ elfProgLoad then return (sepcOffset, k)
  emit (.read (off + 40) 8)
  let len := ph.memsz
  let (tmp, k) ← k.alloc L len
  if !align tmp then fail (.panic "...")
  emit (.read (off + 8) 8)
  emit (.read (off + 32) 8)
  let m ← copyInT k.csr tmp (u64 (elfcontent + ph.off)) ph.off len (u32 ph.filesz) k.phys.mem
  let ph := readProghdr m (elfcontent + off)
  emit (.read (off + 16) 8)
  emit (.read (off + 40) 8)
  emit (.map ⟨p, ph.vaddr, tmp, ph.memsz, tmp, len⟩)
  let k ← umap L p ph.vaddr tmp ph.memsz (k.setMem m)
  let ph := readProghdr k.phys.mem (elfcontent + off)
  let header := readElfhdr k.phys.mem elfcontent
  emit (.read (off + 16) 8)
  emit (.read 24 8)
  emit (.read (off + 40) 8)
  let sepcOffset := if ph.vaddr ≤ header.entry ∧ header.entry < u64 (ph.vaddr + ph.memsz) then
    offset tmp else sepcOffset
  -- the log
  emit (.read (off + 16) 8)
  emit (.read (off + 8) 8)
  return (sepcOffset, k)

def loadSegmentsT (L : Layout) (p elfcontent : ℕ) : ℕ → ℕ → ℕ × Kernel → Touching (ℕ × Kernel)
  | 0, _, r => pure r
  | fuel + 1, i, r => do
    emit (.read 56 2)
    if i < (readElfhdr r.2.phys.mem elfcontent).phnum then
      let r ← loadSegmentT L p elfcontent i r
      loadSegmentsT L p elfcontent fuel (i + 1) r
    else return r

def execveT (L : Layout) (junk : ℕ) (filename : ℕ → UInt8) (file : File) (k : Kernel) :
    Touching Kernel := do
  let (p, k) ← allocProcess L k
  let k := named p filename k
  let (elfcontent, k) ← k.alloc L file.size
  let k := k.setMem (file.load k.phys.mem elfcontent)
  emit (.read 0 4)
  if (readElfhdr k.phys.mem elfcontent).magic ≠
    elfMagic then fail (.panic "not ELF format binary code")
  emit (.read 24 8)
  let (sepcOffset, k) ← loadSegmentsT L p elfcontent (2 ^ 16) 0 (junk, k)
  let (stack, k) ← k.alloc L (pgSize * 4)
  if !align stack then fail (.panic "stack paddr not aligned")
  emit (.map ⟨p, u64Sub ((k.task p).context.reg .sp) (4 * pgSize), u64Sub stack (4 * pgSize),
    pgSize * 4, stack, pgSize * 4⟩)
  let k ← umap L p (u64Sub ((k.task p).context.reg .sp) (4 * pgSize)) (u64Sub stack (4 * pgSize))
    (pgSize * 4) k
  emit (.read 24 8)
  return entered p elfcontent sepcOffset k

section
variable {L : Layout}

theorem copyInT_result (c : Csr) (dst src off memsz n : ℕ) (m : Mem) :
    (copyInT c dst src off memsz n m).result = copyIn c dst src n m := by
  induction n with
  | zero => rfl
  | succ n ih => simp [copyInT, copyIn, ih]

theorem loadSegmentT_result (p a i : ℕ) (x : ℕ × Kernel) :
    (loadSegmentT L p a i x).result = loadSegment L p a i x := by
  obtain ⟨o, k⟩ := x
  unfold loadSegmentT loadSegment
  rw [result_bind, result_emit, pure_bind, result_bind, result_emit, pure_bind, result_ite]
  refine ite_congr rfl (fun _ => rfl) fun _ => ?_
  rw [result_bind, result_emit, pure_bind, result_bind, result_lift]
  refine bind_congr fun ⟨tmp, k₁⟩ => result_check _ _ ?_
  rw [result_bind, result_emit, pure_bind, result_bind, result_emit, pure_bind, result_bind,
    copyInT_result]
  refine bind_congr fun m => ?_
  rw [result_bind, result_emit, pure_bind, result_bind, result_emit, pure_bind, result_bind,
    result_emit, pure_bind, result_bind, result_lift]
  refine bind_congr fun k₂ => ?_
  simp only [result_bind, result_emit, pure_bind, result_pure]
  split <;> rfl

theorem loadSegmentsT_result (p a n i : ℕ) (x : ℕ × Kernel) :
    (loadSegmentsT L p a n i x).result = loadSegments L p a n i x := by
  induction n generalizing i x with
  | zero => rfl
  | succ n ih =>
    simp [loadSegmentsT, loadSegments, loadSegmentT_result, ih]
    rfl

theorem switchTo_entered (p a o : ℕ) (k : Kernel) :
    switchTo { k.setTask p { k.task p with context := { (k.task p).context with
      sepc := u64 ((readElfhdr k.phys.mem a).entry + o) } } with currentTask := some p } =
          .ok (entered p a o k) := by
  rw [switchTo, show ({ k.setTask p { k.task p with context := { (k.task p).context with
      sepc := u64 ((readElfhdr k.phys.mem a).entry + o) } } with currentTask := some p } :
        Kernel).current = .ok p from rfl,
    ok_bind]
  simp [entered, Kernel.setTask]

theorem execveT_result (junk : ℕ) (filename : ℕ → UInt8) (f : File) (k : Kernel) :
    (execveT L junk filename f k).result = execve L junk filename f k := by
  unfold execveT execve
  rw [result_bind, result_lift]
  refine bind_congr fun x => ?_
  rw [result_bind, result_lift]
  refine bind_congr fun ⟨a, k⟩ => ?_
  rw [result_bind, result_emit, pure_bind]
  refine result_check _ _ ?_
  rw [result_bind, result_emit, pure_bind, result_bind, loadSegmentsT_result]
  refine bind_congr fun ⟨o, k⟩ => ?_
  rw [result_bind, result_lift]
  refine bind_congr fun ⟨stack, k⟩ => ?_
  refine result_check _ _ ?_
  generalize umap L x.1 (u64Sub ((k.task x.1).context.reg Reg.sp) (4 * pgSize))
    (u64Sub stack (4 * pgSize)) (pgSize * 4) k = u
  cases u with
  | error e => rfl
  | ok k => exact (switchTo_entered x.1 a o k).symm

-- ---------------------------------------------------------------------------
-- One round
-- ---------------------------------------------------------------------------

theorem Access.inside_read (h : off + n ≤ size) : (Access.read off n).Inside size := fun j hj =>
  (Nat.mod_le _ _).trans_lt (by omega)

theorem Access.Inside.le
    (h : (Access.read (u32 off + d) n).Inside size) (hn : 0 < n) (hd : d + n ≤ 2 ^ 32) :
    u32 off + d + n ≤ size := by
  have hlt := u32_lt off
  have h := h (n - 1) (by omega)
  rw [u64_of_lt (by omega)] at h
  omega

def CopyInside (size off memsz n : ℕ) : Prop :=
  ∀ j < n, u64 (off + j) < size ∧ j < memsz ∧ j < kallocLen memsz

theorem copyInT_all_of (h : CopyInside size off memsz n) (c : Csr) (dst src : ℕ) (m : Mem) :
    (copyInT c dst src off memsz n m).All (Access.Inside size) := by
  induction n with
  | zero => exact all_pure m
  | succ n ih =>
    rw [copyInT, all_bind]
    refine ⟨ih fun j hj => h j (by omega), fun m' _ => ?_⟩
    rw [all_emit_bind, all_lift_bind]
    refine ⟨fun j hj => ?_, fun pa _ => ?_⟩
    · rw [show j = 0 by omega]
      exact (h n n.lt_succ_self).1
    · rw [all_emit_bind]
      exact ⟨(h n n.lt_succ_self).2, all_pure _⟩

theorem copyInT_inside {c : Csr} {dst src : ℕ} {m m' : Mem} (hc : copyIn c dst src n m = .ok m')
    (h : (copyInT c dst src off memsz n m).All (Access.Inside size)) :
    CopyInside size off memsz n := by
  induction n generalizing m' with
  | zero => exact fun j hj => absurd hj (Nat.not_lt_zero j)
  | succ n ih =>
    rw [copyIn, bind_ok] at hc
    obtain ⟨m₁, h1, hc⟩ := hc
    rw [bind_ok] at hc
    obtain ⟨pa, h2, -⟩ := hc
    rw [copyInT, all_bind] at h
    obtain ⟨hall, h⟩ := h
    have h := h m₁ (by rw [copyInT_result, h1])
    rw [all_emit_bind, all_lift_bind] at h
    obtain ⟨hread, h⟩ := h
    have h := h pa h2
    rw [all_emit_bind] at h
    intro j hj
    rcases Nat.lt_succ_iff_lt_or_eq.mp hj with hj | rfl
    · exact ih h1 hall j hj
    · exact ⟨hread 0 Nat.one_pos, h.1⟩

theorem copyInside_iff (ho : off < 2 ^ 64) (hs : size < 2 ^ 32) (hn : n < 2 ^ 32) :
    CopyInside size off memsz n ↔ (0 < n → off + n ≤ size) ∧ n ≤ memsz ∧ n ≤ kallocLen memsz := by
  constructor
  · intro h
    rcases Nat.eq_zero_or_pos n with rfl | hpos
    · exact ⟨fun h0 => absurd h0 (lt_irrefl 0), Nat.zero_le _, Nat.zero_le _⟩
    -- the first byte says that the sum does not wrap, the last one the rest
    have h0 := (h 0 hpos).1
    rw [u64_of_lt (by omega)] at h0
    obtain ⟨h1, h2, h3⟩ := h (n - 1) (by omega)
    rw [u64_of_lt (by omega)] at h1
    exact ⟨fun _ => by omega, by omega, by omega⟩
  · rintro ⟨h1, h2, h3⟩ j hj
    have h1 := h1 (by omega)
    rw [u64_of_lt (by omega)]
    exact ⟨by omega, by omega, by omega⟩

variable {b : Buddy} {f : File} {a p : ℕ} {r : Option ℕ} {k k' : Kernel} {D : Set ℕ}

theorem SegmentInside.copy (h : SegmentInside f i) (hs : f.size < 2 ^ 32)
    (ht : (f.proghdr i).type = elfProgLoad) :
    CopyInside f.size (f.proghdr i).off (f.proghdr i).memsz (f.proghdr i).copied :=
  (copyInside_iff (f.proghdr_lt i).2 hs (u32_lt _)).mpr ⟨h.bytes ht, h.block ht⟩

theorem Loading.round_all (h : Loading L b f a p r k D) (hs : 58 ≤ f.size) (hsize : f.size < 2 ^ 32)
    (hi : SegmentInside f i) : (loadSegmentT L p a i (o, k)).All (Access.Inside f.size) := by
  have hoff : u32 ((readElfhdr k.phys.mem a).phoff + i * proghdrSize) = f.phOff i := by
    rw [h.header hs]; rfl
  unfold loadSegmentT
  simp only [hoff, h.type hi]
  rw [all_emit_bind, all_emit_bind]
  refine ⟨Access.inside_read (by omega), Access.inside_read hi.type, ?_⟩
  refine (all_ite _ _ _).mpr ⟨fun _ => all_pure _, fun ht => ?_⟩
  have ht := not_not.mp ht
  have hrest := hi.rest ht
  rw [h.proghdr hrest, all_emit_bind, all_lift_bind]
  refine ⟨Access.inside_read (by omega), fun ⟨tmp, k₁⟩ _ => (all_check _ _ _).mpr fun _ => ?_⟩
  rw [all_emit_bind, all_emit_bind, all_bind]
  refine ⟨Access.inside_read (by omega), Access.inside_read (by omega),
      copyInT_all_of (hi.copy hsize ht) _ _ _ _,
    fun m _ => ?_⟩
  rw [all_emit_bind, all_emit_bind, all_emit_bind, all_lift_bind]
  refine ⟨Access.inside_read (by omega), Access.inside_read (by omega), trivial, fun k₂ _ => ?_⟩
  rw [all_emit_bind, all_emit_bind, all_emit_bind, all_emit_bind, all_emit_bind]
  exact ⟨Access.inside_read (by omega), Access.inside_read (by omega),
      Access.inside_read (by omega),
    Access.inside_read (by omega), Access.inside_read (by omega), all_pure _⟩

theorem Loading.round_inside (h : Loading L b f a p r k D) (hs : 58 ≤ f.size)
    (hsize : f.size < 2 ^ 32)
    (hl : loadSegment L p a i (o, k) = .ok x)
    (hall : (loadSegmentT L p a i (o, k)).All (Access.Inside f.size)) : SegmentInside f i := by
  have hoff : u32 ((readElfhdr k.phys.mem a).phoff + i * proghdrSize) = f.phOff i := by
    rw [h.header hs]; rfl
  unfold loadSegmentT at hall
  unfold loadSegment at hl
  simp only [hoff] at hall hl
  rw [all_emit_bind, all_emit_bind] at hall
  obtain ⟨-, hread, hall⟩ := hall
  have htype : f.phOff i + 4 ≤ f.size := hread.le (d := 0) (by decide) (by decide)
  have hteq : (readProghdr k.phys.mem (a + f.phOff i)).type = (f.proghdr i).type := h.readLE htype
  rw [hteq] at hall hl
  by_cases ht : (f.proghdr i).type = elfProgLoad
  · rw [if_neg (not_not.mpr ht), all_emit_bind, all_lift_bind] at hall
    obtain ⟨hread, hall⟩ := hall
    have hrest : f.phOff i + 48 ≤ f.size := hread.le (d := 40) (by decide) (by decide)
    rw [if_neg (not_not.mpr ht), h.proghdr hrest, bind_ok] at hl
    obtain ⟨⟨tmp, k₁⟩, ha, hl⟩ := hl
    rw [h.proghdr hrest] at hall
    obtain ⟨-, -, -, hpage, -⟩ := h.alloc ha
    have hal : ¬ (!align tmp) = true := by simpa using align_of_dvd hpage
    have hall := (all_check _ _ _).mp (hall _ ha) hal
    rw [all_emit_bind, all_emit_bind, all_bind] at hall
    obtain ⟨-, -, hcopy, -⟩ := hall
    dsimp only at hl
    rw [if_neg hal, bind_ok] at hl
    obtain ⟨m, hm, -⟩ := hl
    obtain ⟨hbytes, hblock⟩ :=
      (copyInside_iff (f.proghdr_lt i).2 hsize (u32_lt _)).mp (copyInT_inside hm hcopy)
    exact ⟨htype, fun _ => hrest, fun _ => hbytes, fun _ => hblock⟩
  · exact ⟨htype, fun h0 => absurd h0 ht, fun h0 => absurd h0 ht, fun h0 => absurd h0 ht⟩

-- ---------------------------------------------------------------------------
-- All rounds
-- ---------------------------------------------------------------------------

theorem Loading.segments_all (h : Loading L b f a p r k D) (hs : 58 ≤ f.size)
    (hsize : f.size < 2 ^ 32)
    (hb : BlankRounds L f a p i (o, k)) (hin : ∀ j, i ≤ j → j < f.header.phnum →
      SegmentInside f j) (n : ℕ) :
    (loadSegmentsT L p a n i (o, k)).All (Access.Inside f.size) := by
  induction n generalizing i o k D with
  | zero => exact all_pure _
  | succ n ih =>
    rw [loadSegmentsT, all_emit_bind]
    refine ⟨Access.inside_read (by omega), ?_⟩
    split
    · rename_i hi
      rw [h.header hs] at hi
      have hb1 := hb.head hi
      have hi := hin i le_rfl hi
      rw [all_bind]
      refine ⟨h.round_all hs hsize hi, fun ⟨o', k'⟩ hl => ?_⟩
      rw [loadSegmentT_result] at hl
      have hb2 := hb.next h hs hl
      have hin : ∀ j, i + 1 ≤ j → j < f.header.phnum → SegmentInside f j :=
        fun j hj => hin j (by omega)
      rcases h.round hs hi hb1 hl with ⟨-, rfl, rfl⟩ | ⟨-, -, tmp, hp⟩
      · exact ih h hb2 hin
      · exact ih hp.loading hb2 hin
    · exact all_pure _

theorem Loading.segments_inside (h : Loading L b f a p r k D) (hs : 58 ≤ f.size)
    (hsize : f.size < 2 ^ 32)
    (hb : BlankRounds L f a p i (o, k)) (hn : f.header.phnum ≤ i + n)
    (hl : loadSegments L p a n i (o, k) = .ok x)
    (hall : (loadSegmentsT L p a n i (o, k)).All (Access.Inside f.size)) (hj : i ≤ j)
    (hjn : j < f.header.phnum) :
    SegmentInside f j := by
  induction n generalizing i o k D with
  | zero => omega
  | succ n ih =>
    have hi : i < (readElfhdr k.phys.mem a).phnum := by
      rw [h.header hs]
      omega
    rw [loadSegments, if_pos hi, bind_ok] at hl
    obtain ⟨⟨o₁, k₁⟩, h1, hl⟩ := hl
    rw [loadSegmentsT, all_emit_bind, if_pos hi, all_bind] at hall
    obtain ⟨-, hround, hall⟩ := hall
    have hin := h.round_inside hs hsize h1 hround
    have hrest := hall _ (by rw [loadSegmentT_result, h1])
    rcases Nat.eq_or_lt_of_le hj with rfl | hj
    · exact hin
    have hb1 := hb.next h hs h1
    rcases h.round hs hin (hb.head (by omega)) h1 with ⟨-, rfl, rfl⟩ | ⟨-, -, tmp, hp⟩
    · exact ih h hb1 (by omega) hl hrest hj
    · exact ih hp.loading hb1 (by omega) hl hrest hj

-- ---------------------------------------------------------------------------
-- execve
-- ---------------------------------------------------------------------------

/-- What the reads and writes of the loader need of a file. -/
structure Contained (f : File) : Prop where
  magic : 4 ≤ f.size
  header : f.header.magic = elfMagic → 58 ≤ f.size
  segments : f.header.magic = elfMagic → ∀ i < f.header.phnum, SegmentInside f i

theorem execveT_all {q : Access → Prop} (hq : ∀ x, q (.map x)) :
    (execveT L junk filename f k).All q ↔ ∀ p k₁ a k₂,
    allocProcess L k = .ok (p, k₁) → (named p filename k₁).alloc L f.size = .ok (a, k₂) →
    q (.read 0 4) ∧ ((readElfhdr (f.load k₂.phys.mem a) a).magic = elfMagic → q (.read 24 8) ∧
      (loadSegmentsT L p a (2 ^ 16) 0 (junk, k₂.setMem (f.load k₂.phys.mem a))).All q) := by
  constructor
  · intro h p k₁ a k₂ h1 h2
    unfold execveT at h
    have h := all_lift_bind.mp h _ h1
    have h := all_lift_bind.mp h _ h2
    rw [all_emit_bind] at h
    have h2 := (all_check _ _ _).mp h.2
    refine ⟨h.1, fun hm => ?_⟩
    have h3 := h2 (not_not.mpr hm)
    rw [all_emit_bind, all_bind] at h3
    exact ⟨h3.1, h3.2.1⟩
  · intro h
    unfold execveT
    refine all_lift_bind.mpr fun ⟨p, k₁⟩ h1 => all_lift_bind.mpr fun ⟨a, k₂⟩ h2 => ?_
    obtain ⟨h3, h4⟩ := h p k₁ a k₂ h1 h2
    refine all_emit_bind.mpr ⟨h3, (all_check _ _ _).mpr fun hm => ?_⟩
    obtain ⟨h5, h6⟩ := h4 (not_not.mp hm)
    refine all_emit_bind.mpr ⟨h5,
      all_bind.mpr ⟨h6, fun ⟨o, k₃⟩ _ => all_lift_bind.mpr fun ⟨stack, k₄⟩ _ => ?_⟩⟩
    refine (all_check _ _ _).mpr fun _ => ?_
    generalize SkyOS.umap L p (u64Sub ((k₄.task p).context.reg .sp) (4 * pgSize))
      (u64Sub stack (4 * pgSize)) (pgSize * 4) k₄ = u
    exact all_emit_bind.mpr ⟨hq _, all_lift_bind.mpr fun k₅ _ => all_emit_bind.mpr ⟨h5, all_pure _⟩⟩

/-- The process and the block for the file are all that a wrong magic leaves. -/
theorem execve_rejects (hs : 4 ≤ f.size) (hm : f.header.magic ≠ elfMagic) :
    execve L junk filename f k = (do
    let (p, k) ← allocProcess L k
    let _ ← (named p filename k).alloc L f.size
    throw (.panic "not ELF format binary code")) := by
  unfold execve
  refine bind_congr fun ⟨p, k₁⟩ => bind_congr fun ⟨a, k₂⟩ => ?_
  have hload : (readElfhdr (k₂.setMem (f.load k₂.phys.mem a)).phys.mem a).magic =
      f.header.magic := by
    refine readLE_congr fun i hi => ?_
    change f.load _ a (a + i) = _
    rw [File.load, if_pos (by omega), Nat.add_sub_cancel_left, Nat.zero_add]
  exact if_pos (hload ▸ hm)

/-- A file that contains what its headers ask for is loaded without reads or
writes elsewhere, and no other file is when `execve` comes back. All that is
checked is the magic, before anything is mapped. -/
theorem execve_accesses (hr : SpaceReach L b k D) (hb : BlankLoad L junk filename f k)
    (hrun : k.RunsOn r)
    (hs : f.size < 2 ^ 32) :
    (Contained f → (execveT L junk filename f k).All (Access.Inside f.size)) ∧
    (∀ k', execve L junk filename f k = .ok k' →
      ((execveT L junk filename f k).All (Access.Inside f.size) ↔ Contained f)) ∧
    (4 ≤ f.size → f.header.magic ≠ elfMagic → execve L junk filename f k = (do
      let (p, k) ← allocProcess L k
      let _ ← (named p filename k).alloc L f.size
      throw (.panic "not ELF format binary code"))) := by
  have hall : Contained f → (execveT L junk filename f k).All (Access.Inside f.size) := by
    intro hc
    refine (execveT_all fun _ => trivial).mpr fun p k₁ a k₂ h1 h2 =>
      ⟨Access.inside_read hc.magic, fun hm => ?_⟩
    have hinit := Loading.init hr hrun hs h1 h2
    have hm : f.header.magic = elfMagic := (hinit.magic hc.magic).symm.trans hm
    have hhdr := hc.header hm
    exact ⟨Access.inside_read (by omega),
      hinit.segments_all hhdr hs (hb _ _ _ _ h1 h2) (fun i _ hi => hc.segments hm i hi) _⟩
  refine ⟨hall, fun k' hx => ⟨fun h => ?_, hall⟩, execve_rejects⟩
  obtain ⟨p, k₁, a, k₂, o, k₃, -, -, -, h1, h2, hm, h3, -⟩ := execve_ok.mp hx
  have hinit := Loading.init hr hrun hs h1 h2
  obtain ⟨hread, hrest⟩ := (execveT_all fun _ => trivial).mp h p k₁ a k₂ h1 h2
  obtain ⟨-, hseg⟩ := hrest hm
  have hmagic : 4 ≤ f.size := by
    have h3 := hread 3 (by decide)
    rw [u64_of_lt (by decide)] at h3
    omega
  have hph := f.phnum_lt
  generalize 2 ^ 16 = n at hph h3 hseg
  obtain ⟨m, rfl⟩ := Nat.exists_eq_add_of_lt hph
  have hhdr : 58 ≤ f.size := by
    rw [loadSegmentsT, all_emit_bind] at hseg
    have h3 := hseg.1 1 (by decide)
    rw [u64_of_lt (by decide)] at h3
    omega
  exact ⟨hmagic, fun _ => hhdr,
    fun _ i hi => hinit.segments_inside hhdr hs (hb _ _ _ _ h1 h2) (by omega) h3 hseg
    (Nat.zero_le i) hi⟩

-- ---------------------------------------------------------------------------
-- Two files
-- ---------------------------------------------------------------------------

theorem segmentElf_contained : Contained (segmentElf 1) where
  magic := by decide
  header _ := by decide
  segments _ i hi := (segmentElf_wellFormed (.inr rfl)).inside (by decide) hi

/-- The file with one segment is loaded, and all accesses are inside. -/
theorem execve_accesses_segment : ∃ k k' D, SpaceReach sampleLayout zeroed k D ∧
    execve sampleLayout 0 (fun _ => 0) (segmentElf 1) k = .ok k' ∧
    (execveT sampleLayout 0 (fun _ => 0) (segmentElf 1) k).All
    (Access.Inside (segmentElf 1).size) := by
  obtain ⟨k, T, P, hr, h, hrun, hf, hleaf⟩ := boots_ready sampleLayout zeroed
  obtain ⟨a, k₅, hx⟩ := h.execSegment hr hrun hf (by decide) hleaf (.inr rfl) 0 (fun _ => 0)
  exact ⟨k, _, _, hr, hx.exec,
    (execve_accesses hr hx.blank.load hrun (by decide)).1 segmentElf_contained⟩

def truncatedElf : File := ⟨4, emptyElf.byte⟩

end

/-- The entry is read 20 bytes behind the end of the file. -/
theorem execve_reads_outside : ∃ k, SpaceReach sampleLayout zeroed k ∅ ∧
    BlankLoad sampleLayout 0 (fun _ => 0) truncatedElf k ∧ k.RunsOn none ∧
    .read 24 8 ∈ (execveT sampleLayout 0 (fun _ => 0) truncatedElf k).events ∧
    ¬ (Access.read 24 8).Inside truncatedElf.size := by
  obtain ⟨k, T, P, hr, h, hrun, hf, hleaf⟩ := boots_ready sampleLayout zeroed
  have hphnum : truncatedElf.header.phnum = 0 := by decide
  refine ⟨k, hr, fun _ _ _ _ _ _ i _ hi => absurd hi (by omega), hrun, ?_,
    fun h => absurd (h 0 (by decide)) (by decide)⟩
  by_contra hno
  have hall : (execveT sampleLayout 0 (fun _ => 0) truncatedElf k).All (· ≠ .read 24 8) :=
    fun w hw he => hno (he ▸ hw)
  obtain ⟨n, hn⟩ : ∃ n, bootRoom = n + 2 := ⟨bootRoom - 2, by decide⟩
  rw [hn] at h
  obtain ⟨k₁, a, k₂, h1, h2, -⟩ :=
    Making.readFile (f := truncatedElf) h hr hf hleaf (by decide) (by decide) (fun _ => 0)
  refine (((execveT_all (by simp)).mp hall _ _ _ _ h1 h2).2 ?_).1 rfl
  have hmagic := truncatedElf.readLE_load k₂.phys.mem a (o := 0) (n := 4) (by decide)
  rw [Nat.add_zero] at hmagic
  exact hmagic.trans (by decide)

end SkyOS
