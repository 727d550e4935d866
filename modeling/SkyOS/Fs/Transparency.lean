import SkyOS.Fs.CacheLaws
import SkyOS.Fs.Ops

/-!
# The sector cache is not seen

As long as no new cluster is cleared, calls of the file system return what they
would return without the cache, and leave the same disk. Clearing a cluster
leaves zeros in the buffer under the tag of a sector of the FAT.
-/

namespace SkyOS

open ByteMem WriteBack

-- ---------------------------------------------------------------------------
-- Writes that do not clear
-- ---------------------------------------------------------------------------

theorem nonzero_calm (n : ℕ) : (nonzero n).calm := by
  unfold nonzero
  split <;> exact trivial

theorem getSector_calm (n : ℕ) : (getSector n : Fs Unit).calm := trivial
theorem putSector_calm (n : ℕ) : (putSector n : Fs Unit).calm := trivial
theorem flushSector_calm : (flushSector : Fs Unit).calm := trivial

theorem getLe_calm (off n : ℕ) : (getLe off n).calm := (getLe_onBuf off n).calm
theorem putLe_calm (off n v : ℕ) : (putLe off n v).calm := (putLe_onBuf off n v).calm

theorem fatGetNextCluster_calm (h : Fat) (c : ℕ) : (fatGetNextCluster h c).calm := by
  refine Prog.calm_bind (nonzero_calm _) fun _ => Prog.calm_bind (getSector_calm _) fun _ => ?_
  split
  · refine Prog.calm_bind ?_ fun _ => ?_
    · unfold getFat12
      split
      · exact Prog.calm_bind (getLe_calm _ _) fun _ => Prog.calm_bind (getSector_calm _) fun _ =>
          Prog.calm_bind (getLe_calm _ _) fun _ => trivial
      · exact getLe_calm _ _
    · split <;> exact trivial
  · exact getLe_calm _ _
  · exact Prog.calm_bind (getLe_calm _ _) fun _ => trivial

theorem fatSetCopy_calm (h : Fat) (c v i : ℕ) : (fatSetCopy h c v i).calm := by
  unfold fatSetCopy
  split
  · refine Prog.calm_bind (nonzero_calm _) fun _ => Prog.calm_bind (getSector_calm _) fun _ => ?_
    split
    · split
      · exact Prog.calm_bind (getLe_calm _ _) fun _ => Prog.calm_bind (putLe_calm _ _ _) fun _ =>
          Prog.calm_bind (putSector_calm _) fun _ => Prog.calm_bind (getSector_calm _) fun _ =>
            Prog.calm_bind (putLe_calm _ _ _) fun _ => putSector_calm _
      · exact Prog.calm_bind (putLe_calm _ _ _) fun _ => Prog.calm_bind (putSector_calm _) fun _ =>
          Prog.calm_bind (getSector_calm _) fun _ => Prog.calm_bind (getLe_calm _ _) fun _ =>
            Prog.calm_bind (putLe_calm _ _ _) fun _ => putSector_calm _
    · refine Prog.calm_bind (getLe_calm _ _) fun _ => ?_
      split <;> exact Prog.calm_bind (putLe_calm _ _ _) fun _ => putSector_calm _
  · exact Prog.calm_bind (nonzero_calm _) fun _ => Prog.calm_bind (getSector_calm _) fun _ =>
      Prog.calm_bind (putLe_calm _ _ _) fun _ => putSector_calm _
  · exact Prog.calm_bind (nonzero_calm _) fun _ => Prog.calm_bind (getSector_calm _) fun _ =>
      Prog.calm_bind (getLe_calm _ _) fun _ => Prog.calm_bind (putLe_calm _ _ _) fun _ =>
        putSector_calm _

theorem fatSetNextCluster_calm (h : Fat) (c v : ℕ) : (fatSetNextCluster h c v).calm := by
  unfold fatSetNextCluster
  generalize h.numFats = n, 0 = i
  induction n generalizing i with
  | zero => exact trivial
  | succ n ih => exact Prog.calm_bind (fatSetCopy_calm _ _ _ _) fun _ => ih _

theorem findFree_calm (h : Fat) (n i : ℕ) : (findFree h n i).calm := by
  induction n generalizing i with
  | zero => exact trivial
  | succ n ih =>
    refine Prog.calm_bind (fatGetNextCluster_calm _ _) fun _ => ?_
    split
    · exact trivial
    · exact ih _

theorem fatFindFreeCluster_calm (h : Fat) : (fatFindFreeCluster h).calm := by
  refine Prog.calm_bind (findFree_calm _ _ _) fun r => ?_
  split
  · exact trivial
  · refine Prog.calm_bind (findFree_calm _ _ _) fun r => ?_
    split <;> exact trivial

theorem fatAllocNextCluster_calm (h : Fat) (c : ℕ) : (fatAllocNextCluster h c false).calm := by
  refine Prog.calm_bind (fatGetNextCluster_calm _ _) fun _ => ?_
  split
  · exact trivial
  · refine Prog.calm_bind (fatFindFreeCluster_calm _) fun _ => ?_
    dsimp only
    split
    · exact trivial
    · exact Prog.calm_bind (fatSetNextCluster_calm _ _ _) fun _ =>
          Prog.calm_bind (fatSetNextCluster_calm _ _ _)
        fun _ => trivial

theorem fatWriteChunk_calm (fat : Fat) (s o n : ℕ) (b : ℕ → UInt8) :
    (fatWriteChunk fat s o n b).calm := by
  unfold fatWriteChunk
  split
  · exact Prog.calm_bind (getSector_calm _) fun _ => Prog.calm_bind (writeBuf_onBuf _ _ _).calm
      fun _ => putSector_calm _
  · exact Prog.calm_bind flushSector_calm fun _ => Prog.calm_bind (writeBuf_onBuf _ _ _).calm
      fun _ => putSector_calm _

theorem fatWriteLoop_calm (b : ℕ → UInt8) (n fuel i s o : ℕ) (fat : Fat) (h : Handle)
    (hs : h.size ≠ 0) :
    (fatWriteLoop b n fuel i s o fat h).calm := by
  induction fuel generalizing i s o fat h with
  | zero => exact trivial
  | succ fuel ih =>
    unfold fatWriteLoop
    dsimp only
    split
    · exact trivial
    · refine Prog.calm_bind (fatWriteChunk_calm _ _ _ _ _) fun _ => ?_
      split
      · exact trivial
      · split
        · rw [show (h.size == 0) = false by simpa using hs]
          refine Prog.calm_bind (fatAllocNextCluster_calm _ _) fun _ => ?_
          split
          · exact trivial
          · exact ih _ _ _ _ _ hs
        · exact ih _ _ _ _ _ hs

theorem fatFirstAlloc_calm (fat : Fat) (h : Handle) (size : ℤ) :
    (fatFirstAlloc fat h size).calm := by
  unfold fatFirstAlloc
  split
  · refine Prog.calm_bind (fatFindFreeCluster_calm _) fun _ => ?_
    dsimp only
    split
    · exact trivial
    · exact Prog.calm_bind (fatSetNextCluster_calm _ _ _) fun _ => trivial
  · exact trivial

theorem fatFileSync_calm (h : Handle) : (fatFileSync h).calm :=
  Prog.calm_bind (getSector_calm _) fun _ => Prog.calm_bind (putLe_calm _ _ _) fun _ =>
    Prog.calm_bind (putLe_calm _ _ _) fun _ => Prog.calm_bind (putLe_calm _ _ _) fun _ =>
      Prog.calm_bind (putSector_calm _) fun _ => flushSector_calm

theorem fatFirstAlloc_size (fat : Fat) (h : Handle) (size : ℤ) :
    (fatFirstAlloc fat h size).ensures fun r => ∀ p ∈ r, p.2.size = h.size := by
  unfold fatFirstAlloc
  split
  · refine Prog.ensures_bind (Prog.ensures_true _) fun _ _ => ?_
    dsimp only
    split
    · exact nofun
    · refine Prog.ensures_bind (Prog.ensures_true _) fun _ _ => ?_
      rintro _ ⟨⟩
      rfl
  · rintro _ ⟨⟩
    rfl

theorem fatWrite_quiet (fat : Fat) (h : Handle) (hs : h.size ≠ 0) (b : ℕ → UInt8) (size : ℤ)
    (c : Cached Sector) :
    (fatWrite fat h b size).quiet c := by
  refine (Prog.quiet_bind _ _ _).mpr ⟨(fatFirstAlloc_calm fat h size).quiet c, fun r c₁ hr => ?_⟩
  have hsize := (fatFirstAlloc_size fat h size).cached hr
  split
  · exact trivial
  · rename_i fat' h'
    have hs' : h'.size ≠ 0 := hsize _ rfl ▸ hs
    refine Prog.calm.quiet (Prog.calm_bind ?_ fun _ =>
        Prog.calm_bind (fatWriteLoop_calm _ _ _ _ _ _ _ _ hs')
      fun _ => ?_) c₁
    · refine Prog.calm_bind (nonzero_calm _) fun _ => ?_
      split
      · exact trivial
      · exact Prog.calm_bind (nonzero_calm _) fun _ => trivial
    · dsimp only
      split
      · split
        · exact Prog.calm_bind (fatFileSync_calm _) fun _ => trivial
        · exact trivial
      · exact trivial

-- ---------------------------------------------------------------------------
-- Calls
-- ---------------------------------------------------------------------------

theorem fatVolInit_ensures : fatVolInit.ensures fun vol => vol.fat.sectorsPerCluster ≠ 0 := by
  refine Prog.ensures_bind (Prog.ensures_true _) fun _ _ =>
      Prog.ensures_bind (Prog.ensures_true _) fun _ _ =>
    Prog.ensures_bind (Prog.ensures_true _) fun _ _ => ?_
  unfold nonzero
  split
  · exact trivial
  · exact ‹_›

theorem FsState.setHandle_fat (st : FsState) (h : Handle) (r : Ref) :
    (st.setHandle h r).vol.fat = st.vol.fat := by
  cases r <;> rfl

theorem FsOp.run_ensures (op : FsOp) (st : FsState) (hs : st.vol.fat.sectorsPerCluster ≠ 0) :
    (op.run st).ensures fun r => r.2.vol.fat.sectorsPerCluster ≠ 0 := by
  have keeps {fat : Fat} (h : fat = st.vol.fat) : fat.sectorsPerCluster ≠ 0 := h ▸ hs
  have same {fat : Fat} (h : st.vol.fat.Same fat) : fat.sectorsPerCluster ≠ 0 :=
    h.sectorsPerCluster ▸ hs
  cases op with
  | volInit => exact Prog.ensures_bind fatVolInit_ensures fun _ h => h
  | opens name flags i =>
      exact Prog.ensures_bind (fatOpen_same st.vol name flags) fun _ h => keeps h
  | chdir name => exact Prog.ensures_bind (fatChdir_same st.vol name) fun _ h => keeps h
  | unlink name => exact Prog.ensures_bind (fatUnlink_same st.vol name) fun _ h => keeps h
  | readdir dir ent | read file size | lseek file offset whence =>
    exact Prog.ensures_bind (Prog.ensures_true _) fun _ _ => keeps (FsState.setHandle_fat _ _ _)
  | write file b size =>
    exact Prog.ensures_bind (fatWrite_same _ _ b size) fun _ h =>
      same ((FsState.setHandle_fat _ _ _).symm ▸ h)
  | create name flags i => exact Prog.ensures_bind (fatCreate_same _ _ _ _) fun _ h => same h
  | mkdir name => exact Prog.ensures_bind (fatMkdir_same _ _) fun _ h => same h
  | sync file => exact Prog.ensures_bind (Prog.ensures_true _) fun _ _ => hs

theorem FsOp.run_transparent (op : FsOp) (st : FsState) (hs : st.vol.fat.sectorsPerCluster ≠ 0) :
    Transparent (op.run st) := by
  cases op with
  | volInit => exact .bind fatVolInit_transparent fun _ => .pure _
  | opens name flags i => exact .bind (fatOpen_transparent _ _ _) fun _ => .pure _
  | chdir name => exact .bind (fatChdir_transparent _ _) fun _ => .pure _
  | readdir dir ent => exact .bind (fatReaddirLoop_transparent _ _ _ _ _) fun _ => .pure _
  | read file size => exact .bind (fatRead_transparent _ _ _) fun _ => .pure _
  | lseek file offset whence => exact .bind (fatLseek_transparent _ _ _ _) fun _ => .pure _
  | write file b size => exact .bind (fatWrite_transparent _ hs _ _ _) fun _ => .pure _
  | create name flags i => exact .bind (fatCreate_transparent _ hs _ _ _) fun _ => .pure _
  | mkdir name => exact .bind (fatMkdir_transparent _ hs _) fun _ => .pure _
  | unlink name => exact .bind (fatUnlink_transparent _ _) fun _ => .pure _
  | sync file => exact .bind (fatFileSync_transparent _) fun _ => .pure _

theorem runOps_transparent (ops : List FsOp) (st : FsState)
    (hs : st.vol.fat.sectorsPerCluster ≠ 0) :
    Transparent (runOps ops st) := by
  induction ops generalizing st with
  | nil => exact .pure _
  | cons op ops ih =>
    exact .bind_ensures (op.run_transparent st hs) (op.run_ensures st hs) fun r hr =>
      .bind (ih _ hr) fun _ => .pure _

theorem runFs_transparent (files : ℕ → Handle) (ops : List FsOp) : Transparent (runFs files ops) :=
  .bind_ensures fatVolInit_transparent fatVolInit_ensures fun _ hs => runOps_transparent ops _ hs

-- ---------------------------------------------------------------------------
-- Runs
-- ---------------------------------------------------------------------------

theorem runOps_quiet_append (ops rest : List FsOp) (st : FsState) (c : Cached Sector)
    (h : (runOps (ops ++ rest) st).quiet c) : (runOps ops st).quiet c := by
  induction ops generalizing st c with
  | nil => exact trivial
  | cons op ops ih =>
    obtain ⟨h₁, h₂⟩ := (Prog.quiet_bind _ _ _).mp h
    refine (Prog.quiet_bind _ _ _).mpr ⟨h₁, fun r c' hr => ?_⟩
    refine (Prog.quiet_bind _ _ _).mpr ⟨ih r.2 c' ((Prog.quiet_bind _ _ _).mp (h₂ r c' hr)).1,
      fun _ _ _ => trivial⟩

theorem runFs_quiet_first {files : ℕ → Handle} {ops pre : List FsOp} {c : Cached Sector}
    (h : (runFs files ops).quiet c)
    (hpre : pre <+: ops) : (runFs files pre).quiet c := by
  obtain ⟨rest, rfl⟩ := hpre
  obtain ⟨h₁, h₂⟩ := (Prog.quiet_bind _ _ _).mp h
  exact (Prog.quiet_bind _ _ _).mpr ⟨h₁, fun vol c' hv =>
    runOps_quiet_append pre rest _ c' (h₂ vol c' hv)⟩

theorem coldCache_coherent (dev : ℕ → Sector) : (coldCache dev).Coherent := ⟨nofun, nofun⟩

structure Unseen (c : Cached Sector) (d : Direct Sector) : Prop where
  clean : c.dirty = false → ∀ t, c.tag = some t → c.buf = c.dev t
  disk : c.disk = d.disk

/-- The run `ops` does with the cache what it does without. -/
structure SameRun (dev : ℕ → Sector) (files : ℕ → Handle) (ops : List FsOp) : Prop where
  related :
    Related (fun _ => Unseen) ((runFs files ops).cached (coldCache dev))
    ((runFs files ops).direct ⟨fun _ => 0, dev⟩)

theorem cache_unseen {dev : ℕ → Sector} {files : ℕ → Handle} {ops : List FsOp}
    (hq : (runFs files ops).quiet (coldCache dev)) (hpre : pre <+: ops) :
    SameRun dev files pre := by
  have hrun :=
    (runFs_transparent files pre).run (coldCache_coherent dev) (runFs_quiet_first hq hpre)
  exact ⟨hrun.mono fun _ _ _ h => ⟨fun hd t ht => h.coherent.clean t ht hd, h.disk⟩⟩

/-- FAT12, with clusters of one sector, one FAT in sector 1, and a root directory
in sector 2 that has one file. The file is `A`, and is empty. -/
def emptyFileDisk (n : ℕ) : Sector :=
  let boot := writeLE (writeLE (writeLE (fun _ => 0) 11 2 512) 13 1 1) 14 2 1
  let boot := writeLE (writeLE (writeLE (writeLE boot 16 1 1) 17 2 16) 19 2 20) 22 2 1
  let fat := writeLE (fun _ => 0) 0 3 0xFFFFF8
  let dir : Mem := fun i => if i = 0 then 0x41 else if i < 12 then 0x20 else 0
  .ofMem (if n = 0 then boot else if n = 1 then fat else if n = 2 then dir else fun _ => 0)

def noFiles (_ : ℕ) : Handle := ⟨0, 0, 0, 0, false, 0, 0, 0⟩

def openA (flags : ℕ) : FsOp := .opens (.ofList [0x41]) flags 0

def writeSevens (size : ℤ) : FsOp := .write (.file 0) (fun _ => 7) size

def shortWrite : List FsOp := [openA 0, writeSevens 100]

theorem cache_unseen_shortWrite : SameRun emptyFileDisk noFiles shortWrite :=
  cache_unseen (by decide +kernel) (List.prefix_refl shortWrite)

/-- A write that fills a cluster, and does not sync the directory entry. -/
def fillsCluster : List FsOp := [openA oAsync, writeSevens 512]

/-- The tag is 1 and the buffer is clean, but its first byte is not that of sector 1. -/
def stale : Except Stop (α × Cached Sector) → Bool
  | .ok (_, c) => !c.dirty && c.tag == some 1 && c.buf 0 != c.dev 1 0
  | .error _ => false

theorem fillsCluster_stale : stale ((runFs noFiles fillsCluster).cached (coldCache emptyFileDisk)) =
    true := by
  decide +kernel

theorem SameRun.not_stale (h : SameRun dev files ops) :
    stale ((runFs files ops).cached (coldCache dev)) = false := by
  have hrel := h.related
  match hc : (runFs files ops).cached (coldCache dev), hd :
      (runFs files ops).direct ⟨fun _ => 0, dev⟩ with
  | .error _, _ => rfl
  | .ok _, .error _ => rw [hc, hd] at hrel; exact hrel.elim
  | .ok (r, c), .ok (r', d) =>
    rw [hc, hd] at hrel
    by_contra hstale
    simp only [stale, Bool.not_eq_false, Bool.and_eq_true, Bool.not_eq_true', beq_iff_eq,
      bne_iff_ne] at hstale
    exact hstale.2 (congrFun (hrel.2.clean hstale.1.1 1 hstale.1.2) 0)

theorem cleared_cluster_seen : ¬ SameRun emptyFileDisk noFiles fillsCluster := fun h =>
  Bool.false_ne_true (h.not_stale.symm.trans fillsCluster_stale)

end SkyOS
