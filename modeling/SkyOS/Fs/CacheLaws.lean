import SkyOS.Fs.Write

/-!
# The file system behind its cache

Every function but the clearing of a new cluster keeps to the discipline of the
cache, so that it does what it would do on the device.
-/

namespace SkyOS

open ByteMem WriteBack

-- ---------------------------------------------------------------------------
-- Programs on the buffer
-- ---------------------------------------------------------------------------

theorem inBuf_onBuf (off n : ℕ) : (inBuf off n).onBuf := by
  unfold inBuf
  split <;> exact trivial

theorem getLe_onBuf (off n : ℕ) : (getLe off n).onBuf :=
  Prog.onBuf_bind (inBuf_onBuf off n) fun _ => Prog.onBuf_bind (p := loadBuf) (fun _ => trivial)
    fun _ => trivial

theorem putLe_onBuf (off n v : ℕ) : (putLe off n v).onBuf :=
  Prog.onBuf_bind (inBuf_onBuf off n) fun _ => Prog.onBuf_bind (p := loadBuf) (fun _ => trivial)
    fun _ => trivial

theorem readBuf_onBuf (off n : ℕ) : (readBuf off n).onBuf :=
  Prog.onBuf_bind (inBuf_onBuf off n) fun _ => Prog.onBuf_bind (p := loadBuf) (fun _ => trivial)
    fun _ => trivial

theorem writeBuf_onBuf (off n : ℕ) (b : ℕ → UInt8) : (writeBuf off n b).onBuf :=
  Prog.onBuf_bind (inBuf_onBuf off n) fun _ => Prog.onBuf_bind (p := loadBuf) (fun _ => trivial)
    fun _ => trivial

-- ---------------------------------------------------------------------------
-- Reading
-- ---------------------------------------------------------------------------

theorem nonzero_transparent (n : ℕ) : Transparent (nonzero n) := by
  unfold nonzero
  split
  · exact .fail _
  · exact .pure ()

theorem inBuf_transparent (off n : ℕ) : Transparent (inBuf off n) := by
  unfold inBuf
  split
  · exact .pure ()
  · exact .fail _

theorem getLe_transparent (off n : ℕ) : Transparent (getLe off n) :=
  .bind (inBuf_transparent off n) fun _ => .bind .load fun _ => .pure _

theorem readBuf_transparent (off n : ℕ) : Transparent (readBuf off n) :=
  .bind (inBuf_transparent off n) fun _ => .bind .load fun _ => .pure _

theorem getFat12_transparent (h : Fat) (s o : ℕ) : Transparent (getFat12 h s o) := by
  unfold getFat12
  split
  · exact .bind (getLe_transparent _ _) fun _ => .bind (.get _) fun _ =>
      .bind (getLe_transparent _ _) fun _ => .pure _
  · exact getLe_transparent _ _

theorem fatGetNextCluster_transparent (h : Fat) (c : ℕ) : Transparent (fatGetNextCluster h c) := by
  refine .bind (nonzero_transparent _) fun _ => .bind (.get _) fun _ => ?_
  split
  · refine .bind (getFat12_transparent _ _ _) fun _ => ?_
    split <;> exact .pure _
  · exact getLe_transparent _ _
  · exact .bind (getLe_transparent _ _) fun _ => .pure _

theorem followChain_transparent (h : Fat) (n c : ℕ) : Transparent (followChain h n c) := by
  induction n generalizing c with
  | zero => exact .pure c
  | succ n ih => exact .bind (fatGetNextCluster_transparent h c) ih

theorem fatLseek_transparent (fat : Fat) (h : Handle) (off : ℕ) (w : Whence) :
    Transparent (fatLseek fat h off w) := by
  unfold fatLseek
  dsimp only
  split
  · exact .pure _
  · split
    · exact .pure _
    · split
      · exact .fail _
      · exact .bind (followChain_transparent _ _ _) fun _ => .pure _

theorem fatFileSectorOffset_transparent (fat : Fat) (h : Handle) :
    Transparent (fatFileSectorOffset fat h) := by
  refine .bind (nonzero_transparent _) fun _ => ?_
  split
  · exact .pure _
  · exact .bind (nonzero_transparent _) fun _ => .pure _

theorem fatReadLoop_transparent (fat : Fat) (fuel n s o : ℕ) (h : Handle) :
    Transparent (fatReadLoop fat fuel n s o h) := by
  induction fuel generalizing n s o h with
  | zero => exact .pure _
  | succ fuel ih =>
    unfold fatReadLoop
    split
    · exact .pure _
    · refine .bind (.get _) fun _ => .bind (readBuf_transparent _ _) fun l => ?_
      dsimp only
      split
      · exact .pure _
      · split
        · refine .bind (fatGetNextCluster_transparent _ _) fun c => ?_
          split
          · exact .pure _
          · exact .bind (ih _ _ _ _) fun _ => .pure _
        · exact .bind (ih _ _ _ _) fun _ => .pure _

theorem fatRead_transparent (fat : Fat) (h : Handle) (size : ℤ) :
    Transparent (fatRead fat h size) :=
  .bind (fatFileSectorOffset_transparent fat h) fun _ => fatReadLoop_transparent _ _ _ _ _ _

theorem fatVolInit_transparent : Transparent fatVolInit :=
  .bind (.get 0) fun _ => .bind .load fun _ => .bind (nonzero_transparent _) fun _ =>
    .bind (nonzero_transparent _) fun _ => .pure _

-- ---------------------------------------------------------------------------
-- Directories
-- ---------------------------------------------------------------------------

theorem asciiFromUtf16_transparent (d : Mem) (n src : ℕ) (i : ℤ) (name : ℕ → UInt8) :
    Transparent (asciiFromUtf16 d n src i name) := by
  induction n generalizing src i name with
  | zero => exact .pure _
  | succ n ih =>
    unfold asciiFromUtf16
    dsimp only
    split
    · exact .pure _
    · split
      · exact .fail _
      · split
        · exact .pure _
        · exact ih _ _ _

theorem readLongName_transparent (d : Mem) (csum : ℕ) (name : ℕ → UInt8) :
    Transparent (readLongName d csum name) := by
  unfold readLongName
  dsimp only
  refine .bind (asciiFromUtf16_transparent _ _ _ _ _) fun _ => ?_
  split
  · exact .pure _
  · refine .bind (asciiFromUtf16_transparent _ _ _ _ _) fun _ => ?_
    split
    · exact .pure _
    · refine .bind (asciiFromUtf16_transparent _ _ _ _ _) fun _ => ?_
      split <;> exact .pure _

theorem fatReaddirLoop_transparent (fat : Fat) (fuel csum : ℕ) (ent : Dirent) (h : Handle) :
    Transparent (fatReaddirLoop fat fuel csum ent h) := by
  induction fuel generalizing csum ent h with
  | zero => exact .fail _
  | succ fuel ih =>
    refine .bind (fatRead_transparent _ _ _) fun _ => ?_
    dsimp only
    split
    · exact .pure _
    · split
      · exact .pure _
      · split
        · exact ih _ _ _
        · split
          · exact .bind (readLongName_transparent _ _ _) fun _ => ih _ _ _
          · exact .pure _

theorem seekEmptyLoop_transparent (fat : Fat) (n fuel pos i : ℕ) (h : Handle) :
    Transparent (seekEmptyLoop fat n fuel pos i h) := by
  induction fuel generalizing pos i h with
  | zero => exact .fail _
  | succ fuel ih =>
    refine .bind (fatRead_transparent _ _ _) fun _ => ?_
    dsimp only
    split
    · exact .pure _
    · split
      · exact .pure _
      · split
        · split
          · exact .pure _
          · exact ih _ _ _
        · exact ih _ _ _

theorem fatDirSeekEmpty_transparent (fat : Fat) (dir : Handle) (n : ℕ) :
    Transparent (fatDirSeekEmpty fat dir n) :=
  .bind (fatLseek_transparent _ _ _ _) fun _ => .bind (seekEmptyLoop_transparent _ _ _ _ _ _)
      fun _ =>
    .bind (fatLseek_transparent _ _ _ _) fun _ => .pure _

theorem fatComparesfn_transparent (name : CStr) (l : List UInt8) :
    Transparent (fatComparesfn name l) := by
  unfold fatComparesfn
  dsimp only
  split
  · split
    · exact .fail _
    · exact .pure _
  · exact .pure _

theorem entryMatches_transparent (name : CStr) (e : Dirent) :
    Transparent (entryMatches name e) := by
  unfold entryMatches
  split
  · exact .pure _
  · exact fatComparesfn_transparent _ _

theorem fatOpenLoop_transparent (fat : Fat) (name : CStr) (flags fuel : ℕ) (ent : Dirent)
    (dir : Handle) :
    Transparent (fatOpenLoop fat name flags fuel ent dir) := by
  induction fuel generalizing ent dir with
  | zero => exact .fail _
  | succ fuel ih =>
    refine .bind (fatReaddirLoop_transparent _ _ _ _ _) fun (r, ent, dir) => ?_
    dsimp only
    split
    · exact .pure _
    · refine .bind (entryMatches_transparent _ _) fun found => ?_
      split
      · refine .bind (fatLseek_transparent _ _ _ _) fun _ =>
            .bind (fatFileSectorOffset_transparent _ _) fun _ =>
          .bind (fatRead_transparent _ _ _) fun _ => ?_
        split
        · exact .pure _
        · split
          · exact .pure _
          · split <;> exact .pure _
      · exact ih _ _

theorem fatOpen_transparent (vol : Vol) (name : CStr) (flags : ℕ) :
    Transparent (fatOpen vol name flags) := by
  unfold fatOpen
  split
  · exact .pure _
  · exact .bind (fatLseek_transparent _ _ _ _) fun _ => .bind (fatOpenLoop_transparent _ _ _ _ _ _)
      fun _ => .pure _

-- ---------------------------------------------------------------------------
-- The FAT
-- ---------------------------------------------------------------------------

theorem findFree_transparent (h : Fat) (n i : ℕ) : Transparent (findFree h n i) := by
  induction n generalizing i with
  | zero => exact .pure _
  | succ n ih =>
    refine .bind (fatGetNextCluster_transparent _ _) fun _ => ?_
    split
    · exact .pure _
    · exact ih _

theorem fatFindFreeCluster_transparent (h : Fat) : Transparent (fatFindFreeCluster h) := by
  refine .bind (findFree_transparent _ _ _) fun r => ?_
  split
  · exact .pure _
  · refine .bind (findFree_transparent _ _ _) fun r => ?_
    split <;> exact .pure _

theorem fat32SetNextCluster_transparent (h : Fat) (i c v : ℕ) :
    Transparent (fat32SetNextCluster h i c v) :=
  .bind (nonzero_transparent _) fun _ => .after (sim_get_held _) fun _ =>
      .bind (sim_held_onBuf (getLe_onBuf _ _)) fun _ =>
    .bind (sim_held_onBuf (putLe_onBuf _ _ _)) fun _ => sim_put_held _

theorem fat16SetNextCluster_transparent (h : Fat) (i c v : ℕ) :
    Transparent (fat16SetNextCluster h i c v) :=
  .bind (nonzero_transparent _) fun _ => .after (sim_get_held _) fun _ =>
    .bind (sim_held_onBuf (putLe_onBuf _ _ _)) fun _ => sim_put_held _

theorem fat12SetNextCluster_transparent (h : Fat) (i c v : ℕ) :
    Transparent (fat12SetNextCluster h i c v) := by
  refine .bind (nonzero_transparent _) fun _ => .after (sim_get_held _) fun _ => ?_
  split
  · split
    · exact .bind (sim_held_onBuf (getLe_onBuf _ _)) fun _ =>
          .bind (sim_held_onBuf (putLe_onBuf _ _ _)) fun _ =>
        .bind (sim_put_held _) fun _ => .bind (sim_get_held _) fun _ =>
          .bind (sim_held_onBuf (putLe_onBuf _ _ _)) fun _ => sim_put_held _
    · exact .bind (sim_held_onBuf (putLe_onBuf _ _ _)) fun _ => .bind (sim_put_held _) fun _ =>
        .bind (sim_get_held _) fun _ => .bind (sim_held_onBuf (getLe_onBuf _ _)) fun _ =>
          .bind (sim_held_onBuf (putLe_onBuf _ _ _)) fun _ => sim_put_held _
  · refine .bind (sim_held_onBuf (getLe_onBuf _ _)) fun _ => ?_
    split
    · exact .bind (sim_held_onBuf (putLe_onBuf _ _ _)) fun _ => sim_put_held _
    · exact .bind (sim_held_onBuf (putLe_onBuf _ _ _)) fun _ => sim_put_held _

theorem fatSetCopy_transparent (h : Fat) (c v i : ℕ) : Transparent (fatSetCopy h c v i) := by
  unfold fatSetCopy
  split
  · exact fat12SetNextCluster_transparent _ _ _ _
  · exact fat16SetNextCluster_transparent _ _ _ _
  · exact fat32SetNextCluster_transparent _ _ _ _

theorem fatSetCopies_transparent (h : Fat) (c v n i : ℕ) :
    Transparent (fatSetCopies h c v n i) := by
  induction n generalizing i with
  | zero => exact .pure _
  | succ n ih => exact .bind (fatSetCopy_transparent _ _ _ _) fun _ => ih _

theorem fatSetNextCluster_transparent (h : Fat) (c v : ℕ) : Transparent (fatSetNextCluster h c v) :=
  fatSetCopies_transparent _ _ _ _ _

-- ---------------------------------------------------------------------------
-- What a volume keeps
-- ---------------------------------------------------------------------------

def Fat.Same (h h' : Fat) : Prop := ∃ i, h' = { h with lastClusterAlloc := i }

theorem Fat.Same.refl (h : Fat) : h.Same h := ⟨_, rfl⟩

theorem Fat.Same.trans {h₁ h₂ h₃ : Fat} : h₁.Same h₂ → h₂.Same h₃ → h₁.Same h₃ := by
  rintro ⟨_, rfl⟩ ⟨i, rfl⟩
  exact ⟨i, rfl⟩

theorem Fat.Same.sectorsPerCluster {h h' : Fat} : h.Same h' →
    h'.sectorsPerCluster = h.sectorsPerCluster := by
  rintro ⟨_, rfl⟩
  rfl

theorem fatFindFreeCluster_same (h : Fat) : (fatFindFreeCluster h).ensures fun r => h.Same r.2 := by
  refine Prog.ensures_bind (Prog.ensures_true _) fun r _ => ?_
  split
  · exact ⟨_, rfl⟩
  · refine Prog.ensures_bind (Prog.ensures_true _) fun r _ => ?_
    split
    · exact ⟨_, rfl⟩
    · exact .refl h

theorem fatAllocNextCluster_same (h : Fat) (c : ℕ) (clear : Bool) :
    (fatAllocNextCluster h c clear).ensures fun r => h.Same r.2 := by
  refine Prog.ensures_bind (Prog.ensures_true _) fun r _ => ?_
  split
  · exact .refl h
  · refine Prog.ensures_bind (fatFindFreeCluster_same h) fun (next, h') hs => ?_
    dsimp only at hs ⊢
    split
    · exact hs
    · refine Prog.ensures_bind (Prog.ensures_true _) fun _ _ =>
          Prog.ensures_bind (Prog.ensures_true _) fun _ _ => ?_
      split
      · exact Prog.ensures_bind (Prog.ensures_true _) fun _ _ =>
            Prog.ensures_bind (Prog.ensures_true _) fun _ _ =>
          Prog.ensures_bind (Prog.ensures_true _) fun _ _ => hs
      · exact hs

theorem fatFirstAlloc_same (fat : Fat) (h : Handle) (size : ℤ) :
    (fatFirstAlloc fat h size).ensures fun r => ∀ p ∈ r, fat.Same p.1 := by
  unfold fatFirstAlloc
  split
  · refine Prog.ensures_bind (fatFindFreeCluster_same fat) fun (c, fat') hs => ?_
    dsimp only at hs ⊢
    split
    · exact nofun
    · refine Prog.ensures_bind (Prog.ensures_true _) fun _ _ => ?_
      rintro _ ⟨⟩
      exact hs
  · rintro _ ⟨⟩
    exact .refl fat

theorem fatWriteLoop_same (b : ℕ → UInt8) (n fuel i s o : ℕ) (fat : Fat) (h : Handle) :
    (fatWriteLoop b n fuel i s o fat h).ensures fun r => fat.Same r.2.1 := by
  induction fuel generalizing i s o fat h with
  | zero => exact .refl fat
  | succ fuel ih =>
    unfold fatWriteLoop
    dsimp only
    split
    · exact .refl fat
    · refine Prog.ensures_bind (Prog.ensures_true _) fun _ _ => ?_
      split
      · exact .refl fat
      · split
        · refine Prog.ensures_bind (fatAllocNextCluster_same fat _ _) fun (next, fat') hs => ?_
          dsimp only at hs ⊢
          split
          · exact hs
          · exact (ih _ _ _ _ _).mono fun _ => hs.trans
        · exact ih _ _ _ _ _

theorem fatWrite_same (fat : Fat) (h : Handle) (b : ℕ → UInt8) (size : ℤ) :
    (fatWrite fat h b size).ensures fun r => fat.Same r.2.1 := by
  refine Prog.ensures_bind (fatFirstAlloc_same fat h size) fun r hr => ?_
  split
  · exact .refl fat
  · refine Prog.ensures_bind (Prog.ensures_true _) fun _ _ => ?_
    refine Prog.ensures_bind (fatWriteLoop_same _ _ _ _ _ _ _ _) fun r hs => ?_
    have hs := (hr _ rfl).trans hs
    dsimp only
    split
    · split
      · exact Prog.ensures_bind (Prog.ensures_true _) fun _ _ => hs
      · exact hs
    · exact hs

theorem fatOpen_same (vol : Vol) (name : CStr) (flags : ℕ) :
    (fatOpen vol name flags).ensures fun r => r.2.2.fat = vol.fat := by
  unfold fatOpen
  split
  · exact rfl
  · exact Prog.ensures_bind (Prog.ensures_true _) fun _ _ =>
      Prog.ensures_bind (Prog.ensures_true _) fun _ _ => rfl

theorem fatChdir_same (vol : Vol) (name : CStr) :
    (fatChdir vol name).ensures fun r => r.2.fat = vol.fat :=
  Prog.ensures_bind (fatOpen_same vol name 0) fun _ h => h

theorem fatUnlink_same (vol : Vol) (name : CStr) :
    (fatUnlink vol name).ensures fun r => r.2.fat = vol.fat := by
  refine Prog.ensures_bind (fatOpen_same vol name 0) fun r h => ?_
  split
  · exact h
  · split
    · exact h
    · exact Prog.ensures_bind (Prog.ensures_true _) fun _ _ =>
          Prog.ensures_bind (Prog.ensures_true _) fun _ _ =>
        Prog.ensures_bind (Prog.ensures_true _) fun _ _ =>
          Prog.ensures_bind (Prog.ensures_true _) fun _ _ => h

theorem writeLongEntries_same (name : CStr) (sname : ℕ → UInt8) (n : ℕ) (last : Bool) (vol : Vol) :
    (writeLongEntries name sname n last vol).ensures fun r => vol.fat.Same r.2.fat := by
  induction n generalizing last vol with
  | zero => exact .refl _
  | succ n ih =>
    refine Prog.ensures_bind (fatWrite_same vol.fat vol.cwd _ _) fun r hs => ?_
    dsimp only
    split
    · exact hs
    · exact (ih _ _).mono fun _ => hs.trans

theorem newDirCluster_same (vol : Vol) (attr : UInt8) :
    (newDirCluster vol attr).ensures fun r => vol.fat.Same r.2.fat := by
  unfold newDirCluster
  split
  · refine Prog.ensures_bind (fatFindFreeCluster_same vol.fat) fun r hs => ?_
    dsimp only
    split
    · exact hs
    · exact Prog.ensures_bind (Prog.ensures_true _) fun _ _ => hs
  · exact .refl _

theorem shortNameSearch_same (name : CStr) (fuel i : ℕ) (file : Option Handle) (vol : Vol) :
    (shortNameSearch name fuel i file vol).ensures fun r => r.2.2.fat = vol.fat := by
  induction fuel generalizing i file vol with
  | zero => exact rfl
  | succ fuel ih =>
    refine Prog.ensures_bind (fatOpen_same vol _ 0) fun r hs => ?_
    dsimp only
    split
    · exact hs
    · exact (ih _ _ _).mono fun _ h => h.trans hs

theorem fatDirCreateFile_same (vol : Vol) (name : CStr) (attr : UInt8) :
    (fatDirCreateFile vol name attr).ensures fun r => vol.fat.Same r.2.2.fat := by
  refine Prog.ensures_bind (fatOpen_same vol name 0) fun (r, file, vol₁) hs => ?_
  have same {v : Vol} (h : v.fat = vol.fat) : vol.fat.Same v.fat := h ▸ .refl _
  dsimp only at hs ⊢
  split
  · exact same hs
  · refine Prog.ensures_bind (shortNameSearch_same name 9 1 none vol₁) fun (sname, file,
        vol₂) hs' => ?_
    have hs := same (hs'.trans hs)
    dsimp only at hs ⊢
    split
    · exact hs
    · split
      · exact hs
      · refine Prog.ensures_bind (Prog.ensures_true _) fun _ _ =>
          Prog.ensures_bind (writeLongEntries_same _ _ _ _ _) fun (ok, vol₃) hs₃ => ?_
        have hs := hs.trans hs₃
        dsimp only at hs ⊢
        split
        · exact hs
        · refine Prog.ensures_bind (newDirCluster_same _ _) fun (cluster, vol₄) hs₄ => ?_
          have hs := hs.trans hs₄
          dsimp only at hs ⊢
          split
          · exact hs
          · refine Prog.ensures_bind (fatWrite_same _ _ _ _) fun (i, fat, cwd) hs₅ => ?_
            have hs := hs.trans hs₅
            dsimp only at hs ⊢
            split
            · exact hs
            · refine Prog.ensures_bind (fatOpen_same ⟨fat, cwd⟩ name 0) fun (r, file,
                  vol₆) hs₆ => ?_
              show vol.fat.Same vol₆.fat
              rw [show vol₆.fat = fat from hs₆]
              exact hs

theorem fatMkdir_same (vol : Vol) (name : CStr) :
    (fatMkdir vol name).ensures fun r => vol.fat.Same r.2.fat := by
  refine Prog.ensures_bind (fatDirCreateFile_same vol name _) fun (r, file, vol₁) hs => ?_
  dsimp only at hs ⊢
  split
  · exact hs
  · split
    · exact hs
    · refine Prog.ensures_bind (Prog.ensures_true _) fun _ _ =>
          Prog.ensures_bind (Prog.ensures_true _) fun _ _ =>
        Prog.ensures_bind (Prog.ensures_true _) fun _ _ => ?_
      refine Prog.ensures_bind (fatWrite_same _ _ _ _) fun _ h₁ => ?_
      exact Prog.ensures_bind (fatWrite_same _ _ _ _) fun _ h₂ => hs.trans (h₁.trans h₂)

theorem fatCreate_same (vol : Vol) (name : CStr) (flags : ℕ) (file : Handle) :
    (fatCreate vol name flags file).ensures fun r => vol.fat.Same r.2.2.fat :=
  Prog.ensures_bind (fatDirCreateFile_same vol name _) fun _ hs => hs

-- ---------------------------------------------------------------------------
-- Writing
-- ---------------------------------------------------------------------------

theorem sim_clearSectors (n s : ℕ) (hn : n ≠ 0) : Sim Loose (clearSectors n s) fun _ => Agree := by
  obtain ⟨n, rfl⟩ := Nat.exists_eq_succ_of_ne_zero hn
  exact .bind (sim_write (Q := fun _ _ _ => False) _) fun _ _ _ h => h.elim

theorem fatAllocNextCluster_transparent (h : Fat) (hs : h.sectorsPerCluster ≠ 0) (c : ℕ)
    (clear : Bool) :
    Transparent (fatAllocNextCluster h c clear) := by
  refine .bind (fatGetNextCluster_transparent _ _) fun next => ?_
  split
  · exact .pure _
  · refine .bind_ensures (fatFindFreeCluster_transparent h) (fatFindFreeCluster_same h) fun (next,
        h') hsame => ?_
    have hs' : h'.sectorsPerCluster ≠ 0 := hsame.sectorsPerCluster ▸ hs
    dsimp only
    split
    · exact .pure _
    · refine .bind (fatSetNextCluster_transparent _ _ _) fun _ =>
          .bind (fatSetNextCluster_transparent _ _ _) fun _ => ?_
      split
      · refine .after sim_flush_loose fun _ => .bind (sim_loose_onBuf (writeBuf_onBuf _ _ _))
            fun _ => ?_
        exact .bind (sim_clearSectors _ _ hs') fun _ => Transparent.pure _
      · exact .pure _

theorem fatFileSync_transparent (h : Handle) : Transparent (fatFileSync h) :=
  .after (sim_get_held _) fun _ => .bind (sim_held_onBuf (putLe_onBuf _ _ _)) fun _ =>
    .bind (sim_held_onBuf (putLe_onBuf _ _ _)) fun _ => .bind (sim_held_onBuf (putLe_onBuf _ _ _))
        fun _ =>
      .bind (sim_put_held _) fun _ => Transparent.flush

theorem fatWriteChunk_transparent (fat : Fat) (s o n : ℕ) (b : ℕ → UInt8) :
    Transparent (fatWriteChunk fat s o n b) := by
  unfold fatWriteChunk
  split
  · exact .after (sim_get_held _) fun _ => .bind (sim_held_onBuf (writeBuf_onBuf _ _ _)) fun _ =>
      sim_put_held _
  · exact .after sim_flush_loose fun _ => .bind (sim_loose_onBuf (writeBuf_onBuf _ _ _)) fun _ =>
      sim_put_loose _

theorem fatWriteLoop_transparent (b : ℕ → UInt8) (n fuel i s o : ℕ) (fat : Fat)
    (hs : fat.sectorsPerCluster ≠ 0)
    (h : Handle) : Transparent (fatWriteLoop b n fuel i s o fat h) := by
  induction fuel generalizing i s o fat h with
  | zero => exact .pure _
  | succ fuel ih =>
    unfold fatWriteLoop
    dsimp only
    split
    · exact .pure _
    · refine .bind (fatWriteChunk_transparent _ _ _ _ _) fun _ => ?_
      split
      · exact .pure _
      · split
        · refine .bind_ensures (fatAllocNextCluster_transparent fat hs _ _)
              (fatAllocNextCluster_same fat _ _)
            fun (next, fat') hsame => ?_
          dsimp only
          split
          · exact .pure _
          · exact ih _ _ _ _ (hsame.sectorsPerCluster ▸ hs) _
        · exact ih _ _ _ _ hs _

theorem fatFirstAlloc_transparent (fat : Fat) (h : Handle) (size : ℤ) :
    Transparent (fatFirstAlloc fat h size) := by
  unfold fatFirstAlloc
  split
  · refine .bind (fatFindFreeCluster_transparent fat) fun _ => ?_
    dsimp only
    split
    · exact .pure _
    · exact .bind (fatSetNextCluster_transparent _ _ _) fun _ => .pure _
  · exact .pure _

theorem fatWrite_transparent (fat : Fat) (hs : fat.sectorsPerCluster ≠ 0) (h : Handle)
    (b : ℕ → UInt8) (size : ℤ) :
    Transparent (fatWrite fat h b size) := by
  refine .bind_ensures (fatFirstAlloc_transparent _ _ _) (fatFirstAlloc_same fat h size)
    fun r hr => ?_
  split
  · exact .pure _
  · refine .bind (fatFileSectorOffset_transparent _ _) fun _ =>
      .bind (fatWriteLoop_transparent _ _ _ _ _ _ _ ((hr _ rfl).sectorsPerCluster ▸ hs) _)
        fun _ => ?_
    dsimp only
    split
    · split
      · exact .bind (fatFileSync_transparent _) fun _ => .pure _
      · exact .pure _
    · exact .pure _

theorem fatChainUnlink_transparent (fat : Fat) (fuel c : ℕ) :
    Transparent (fatChainUnlink fat fuel c) := by
  induction fuel generalizing c with
  | zero => exact .fail _
  | succ fuel ih =>
    unfold fatChainUnlink
    split
    · exact .pure _
    · exact .bind (fatGetNextCluster_transparent _ _) fun _ =>
        .bind (fatSetNextCluster_transparent _ _ _) fun _ => ih _

theorem fatChdir_transparent (vol : Vol) (name : CStr) : Transparent (fatChdir vol name) :=
  .bind (fatOpen_transparent _ _ _) fun _ => .pure _

theorem fatUnlink_transparent (vol : Vol) (name : CStr) : Transparent (fatUnlink vol name) := by
  refine .bind (fatOpen_transparent _ _ _) fun _ => ?_
  split
  · exact .pure _
  · split
    · exact .pure _
    · exact .bind (fatChainUnlink_transparent _ _ _) fun _ => .after (sim_get_held _) fun _ =>
        .bind (sim_held_onBuf (putLe_onBuf _ _ _)) fun _ => .bind (sim_put_held _) fun _ =>
          Transparent.pure _

theorem writeLongEntries_transparent (name : CStr) (sname : ℕ → UInt8) (n : ℕ) (last : Bool)
    (vol : Vol)
    (hs : vol.fat.sectorsPerCluster ≠ 0) :
    Transparent (writeLongEntries name sname n last vol) := by
  induction n generalizing last vol with
  | zero => exact .pure _
  | succ n ih =>
    refine .bind_ensures (fatWrite_transparent _ hs _ _ _) (fatWrite_same vol.fat vol.cwd _ _)
      fun _ hsame => ?_
    dsimp only
    split
    · exact .pure _
    · exact ih _ _ (hsame.sectorsPerCluster ▸ hs)

theorem newDirCluster_transparent (vol : Vol) (attr : UInt8) :
    Transparent (newDirCluster vol attr) := by
  unfold newDirCluster
  split
  · refine .bind (fatFindFreeCluster_transparent _) fun _ => ?_
    dsimp only
    split
    · exact .pure _
    · exact .bind (fatSetNextCluster_transparent _ _ _) fun _ => .pure _
  · exact .pure _

theorem shortNameSearch_transparent (name : CStr) (fuel i : ℕ) (file : Option Handle) (vol : Vol) :
    Transparent (shortNameSearch name fuel i file vol) := by
  induction fuel generalizing i file vol with
  | zero => exact .pure _
  | succ fuel ih =>
    refine .bind (fatOpen_transparent _ _ _) fun _ => ?_
    dsimp only
    split
    · exact .pure _
    · exact ih _ _ _

theorem fatDirCreateFile_transparent (vol : Vol) (hs : vol.fat.sectorsPerCluster ≠ 0) (name : CStr)
    (attr : UInt8) :
    Transparent (fatDirCreateFile vol name attr) := by
  refine .bind_ensures (fatOpen_transparent _ _ _) (fatOpen_same vol name 0) fun (r, file,
    vol₁) h₁ => ?_
  dsimp only at h₁ ⊢
  rw [← h₁] at hs
  split
  · exact .pure _
  · refine .bind_ensures (shortNameSearch_transparent _ _ _ _ _)
        (shortNameSearch_same name 9 1 none vol₁)
      fun (sname, file, vol₂) h₂ => ?_
    dsimp only at h₂ ⊢
    rw [← h₂] at hs
    split
    · exact .pure _
    · split
      · exact .pure _
      · refine .bind (fatDirSeekEmpty_transparent _ _ _) fun cwd => .bind_ensures
          (writeLongEntries_transparent _ _ _ _ _ hs) (writeLongEntries_same _ _ _ _ _) fun (ok,
            vol₃) h₃ => ?_
        have hs₃ := h₃.sectorsPerCluster ▸ hs
        dsimp only at hs₃ ⊢
        split
        · exact .pure _
        · refine .bind_ensures (newDirCluster_transparent _ _) (newDirCluster_same _ _)
              fun (cluster, vol₄) h₄ => ?_
          have hs₄ := h₄.sectorsPerCluster ▸ hs₃
          dsimp only at hs₄ ⊢
          split
          · exact .pure _
          · refine .bind (fatWrite_transparent _ hs₄ _ _ _) fun _ => ?_
            split
            · exact .pure _
            · exact .bind (fatOpen_transparent _ _ _) fun _ => .pure _

theorem putSectors_transparent (n s : ℕ) : Transparent (putSectors n s) := by
  induction n generalizing s with
  | zero => exact .pure _
  | succ n ih => exact .bind (.put _) fun _ => ih _

/-- The first of the writes takes the buffer out of the hands of its old tag. -/
theorem sim_putSectors (n s : ℕ) (hn : n ≠ 0) : Sim Loose (putSectors n s) fun _ => Agree := by
  obtain ⟨n, rfl⟩ := Nat.exists_eq_succ_of_ne_zero hn
  exact .bind (sim_put_loose _) fun _ => putSectors_transparent _ _

theorem fatMkdir_transparent (vol : Vol) (hs : vol.fat.sectorsPerCluster ≠ 0) (name : CStr) :
    Transparent (fatMkdir vol name) := by
  refine .bind_ensures (fatDirCreateFile_transparent vol hs _ _) (fatDirCreateFile_same vol name _)
    fun (r, file, vol₁) h₁ => ?_
  have hs₁ := h₁.sectorsPerCluster ▸ hs
  dsimp only at hs₁ ⊢
  split
  · exact .pure _
  · split
    · exact .pure _
    · refine .after sim_flush_loose fun _ => .bind (sim_loose_onBuf (writeBuf_onBuf _ _ _)) fun _ =>
        .bind (sim_putSectors _ _ hs₁) fun _ => ?_
      refine Transparent.bind_ensures (fatWrite_transparent _ hs₁ _ _ _) (fatWrite_same _ _ _ _)
        fun _ h₂ => ?_
      exact .bind (fatWrite_transparent _ (h₂.sectorsPerCluster ▸ hs₁) _ _ _) fun _ => .pure _

theorem fatCreate_transparent (vol : Vol) (hs : vol.fat.sectorsPerCluster ≠ 0) (name : CStr)
    (flags : ℕ) (file : Handle) :
    Transparent (fatCreate vol name flags file) :=
      .bind (fatDirCreateFile_transparent vol hs _ _) fun _ => .pure _

end SkyOS
