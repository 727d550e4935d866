import SkyOS.Fs.Seeking

/-!
# The records of a directory

`fat_readdir` goes from record to record as `fat_read` returns them. The records can
be anything: the place of a long name in `d_name` is what the record says it is.
-/

namespace SkyOS

open ByteMem WriteBack

-- ---------------------------------------------------------------------------
-- Reading comes back
-- ---------------------------------------------------------------------------

section
variable {fat : Fat} {D : Disk} {h : Handle}

structure Handle.After (h h' : Handle) (n : ℕ) : Prop where
  size : h'.size = h.size
  rootFlag : h'.rootFlag = h.rootFlag
  firstCluster : h'.firstCluster = h.firstCluster
  position : h'.position % 2 ^ 32 = (h.position + n) % 2 ^ 32

theorem Handle.After.zero (h : Handle) : h.After h 0 := ⟨rfl, rfl, rfl, rfl⟩

theorem Handle.After.chunk {h h' : Handle} {k c : ℕ}
    (ha : Handle.After { h with position := u32 (h.position + c), curCluster := d } h' k) :
    h.After h' (c + k) := by
  refine ⟨ha.size, ha.rootFlag, ha.firstCluster, ?_⟩
  have := ha.position
  unfold u32 at this
  dsimp only at this
  omega

def Disk.chunk (D : Disk) (s o n : ℕ) : List UInt8 :=
  (List.range (min (maxSectorSize - o) n)).map fun i => (D s).mem (o + i)

theorem Disk.chunk_zero (D : Disk) (s o : ℕ) : D.chunk s o 0 = [] := by
  rw [Disk.chunk, Nat.min_zero, List.range_zero, List.map_nil]

/-- Of a request for `n` bytes at `o` of sector `s`. -/
structure Handle.Reads (h : Handle) (D : Disk) (s o n : ℕ) (r : List UInt8 × Handle) : Prop where
  after : h.After r.2 r.1.length
  length : r.1.length ≤ n
  chunk : D.chunk s o n <+: r.1

theorem fatReadLoop_total (hb : fat.bytesPerSector = maxSectorSize) (ho : o < maxSectorSize)
    (hn : n ≤ fuel) :
    Does .univ (On D) (fatReadLoop fat fuel n s o h) fun r c => On D c ∧ h.Reads D s o n r := by
  induction fuel generalizing n s o h with
  | zero =>
    obtain rfl : n = 0 := by omega
    exact .pure fun _ hc => ⟨hc, .zero h, le_rfl, D.chunk_zero s o ▸ List.nil_prefix⟩
  | succ fuel ih =>
    unfold fatReadLoop
    split
    · rename_i h0
      exact .pure fun _ hc => ⟨hc, .zero h, Nat.zero_le _, h0 ▸ D.chunk_zero s o ▸ List.nil_prefix⟩
    · rename_i h0
      refine (gives_get (Set.mem_univ _)).bind <| (gives_readBuf s (by omega)).bind ?_
      dsimp only
      have hl : ((List.range (min (fat.bytesPerSector - o) n)).map fun i => (D s).mem (o + i)) =
        D.chunk s o n := by rw [hb, Disk.chunk]
      have hlen : (D.chunk s o n).length = min (fat.bytesPerSector - o) n := by
        rw [hb, Disk.chunk]; simp
      rw [hl, ← hlen]
      rw [hb] at hlen
      have hle : (D.chunk s o n).length ≤ n := by omega
      have hstop {d : ℕ} : h.Reads D s o n
          (D.chunk s o n,
              { h with position := u32 (h.position + (D.chunk s o n).length), curCluster := d }) :=
        ⟨.chunk (k := 0) (.zero _), hle, List.prefix_rfl⟩
      have hrest (s' d : ℕ) :
          Does .univ (On D) (fatReadLoop fat fuel (n - (D.chunk s o n).length) s' 0
            { h with position := u32 (h.position + (D.chunk s o n).length), curCluster := d } >>=
                fun r =>
          pure (D.chunk s o n ++ r.1, r.2)) fun r c => On D c ∧ h.Reads D s o n r := by
        refine (ih (by decide) (by omega)).bind fun r => .pure fun c hc =>
          ⟨hc.1, ?_, ?_, List.prefix_append _ _⟩
        · rw [List.length_append]
          exact .chunk hc.2.after
        · rw [List.length_append]
          have := hc.2.length
          omega
      split
      · exact .pure fun _ hc => ⟨hc.toOn, hstop⟩
      · split
        · refine ((fatGetNextCluster_gives hb (Set.subset_univ _)).pre fun _ h => h.toOn).bind ?_
          split
          · exact .pure fun _ hc => ⟨hc, hstop⟩
          · exact hrest _ _
        · exact (hrest _ _).pre fun _ h => h.toOn

theorem fatRead_moves (hb : fat.bytesPerSector = maxSectorSize) (hs : fat.sectorsPerCluster ≠ 0)
    (h : Handle) (n : ℤ) :
    Does .univ (On D) (fatRead fat h n) fun r c => On D c ∧
      h.Reads D (fat.sectorAt h) (h.position % fat.bytesPerSector)
      (h.request h.position n).toNat r := by
  refine (fatFileSectorOffset_at hb hs h).bind (fatReadLoop_total hb ?_ le_rfl)
  rw [hb]
  exact Nat.mod_lt _ (by decide)

theorem fatRead_total (hb : fat.bytesPerSector = maxSectorSize) (hs : fat.sectorsPerCluster ≠ 0)
    (h : Handle) (n : ℤ) :
    Does .univ (On D) (fatRead fat h n) fun _ => On D :=
    (fatRead_moves hb hs h n).post fun _ _ h => h.1

def Fat.read (fat : Fat) (D : Disk) (h : Handle) : List UInt8 × Handle :=
  match (fatRead fat h direntSize).cached (coldCache D) with
  | .ok (r, _) => r
  | .error _ => ([], h)

theorem fatRead_record (hb : fat.bytesPerSector = maxSectorSize) (hs : fat.sectorsPerCluster ≠ 0)
    (h : Handle) :
    Gives .univ (On D) (fatRead fat h direntSize) (fat.read D h) (On D) := by
  have htotal := fatRead_total (D := D) hb hs h direntSize
  obtain ⟨-, r, c, hrun, -⟩ := htotal _ (coldCache_on D)
  have hread : fat.read D h = r := by rw [Fat.read, hrun]
  rw [hread]
  exact (fatRead_blind fat h _).gives (fatRead_transparent fat h _) (fatRead_calm fat h _) htotal
    (coldCache_on D) hrun

def Fat.scan (fat : Fat) (D : Disk) (h : Handle) : ℕ → List UInt8 × Handle
  | 0 => fat.read D h
  | k + 1 => fat.scan D (fat.read D h).2 k

def Fat.record (fat : Fat) (D : Disk) (h : Handle) (k : ℕ) : List UInt8 := (fat.scan D h k).1

end

-- ---------------------------------------------------------------------------
-- Long names
-- ---------------------------------------------------------------------------

def charAt (d : Mem) (src j : ℕ) : ℕ := readLE d (src + 2 * j) 2

/-- The characters before `j` are neither the last one nor not ASCII. -/
def GoesOn (d : Mem) (src j : ℕ) : Prop := ∀ l < j, charAt d src l ≠ 0 ∧ charAt d src l ≤ 127

/-- Those of `count` characters that are written at `i` are written to `d_name`. -/
def PieceFits (d : Mem) (count src : ℕ) (i : ℤ) : Prop :=
  ∀ j < count, GoesOn d src j → charAt d src j ≤ 127 → 0 ≤ i + j ∧ i + j < 256

def PieceEnds (d : Mem) (count src : ℕ) : Prop := ∃ j < count, GoesOn d src j ∧ charAt d src j = 0

def nameIndex (d : Mem) : ℤ := (((readLE d 0 1 &&& 0x3f : ℕ) : ℤ) - 1) * 13

def LongFits (d : Mem) : Prop :=
  PieceFits d 5 1 (nameIndex d) ∧ (PieceEnds d 5 1 ∨
    PieceFits d 6 14 (nameIndex d + 5) ∧ (PieceEnds d 6 14 ∨ PieceFits d 2 28 (nameIndex d + 11)))

instance (d : Mem) (src j : ℕ) : Decidable (GoesOn d src j) :=
  inferInstanceAs (Decidable (∀ l < j, _))
instance (d : Mem) (count src : ℕ) (i : ℤ) : Decidable (PieceFits d count src i) :=
  inferInstanceAs (Decidable (∀ j < count, _))
instance (d : Mem) (count src : ℕ) : Decidable (PieceEnds d count src) :=
  inferInstanceAs (Decidable (∃ j < count, _))
instance (d : Mem) : Decidable (LongFits d) := inferInstanceAs (Decidable (_ ∧ (_ ∨ _)))

section
variable {d : Mem}

theorem charAt_succ (d : Mem) (src j : ℕ) : charAt d (src + 2) j = charAt d src (j + 1) := by
  unfold charAt
  congr 1
  omega

theorem goesOn_succ (src j : ℕ) :
    GoesOn d src (j + 1) ↔ (charAt d src 0 ≠ 0 ∧ charAt d src 0 ≤ 127) ∧ GoesOn d (src + 2) j := by
  simp only [GoesOn, charAt_succ]
  exact Nat.forall_lt_succ_left

theorem pieceFits_succ (count src : ℕ) (i : ℤ) : PieceFits d (count + 1) src i ↔
    (charAt d src 0 ≤ 127 → 0 ≤ i ∧ i < 256) ∧
    (charAt d src 0 ≠ 0 ∧ charAt d src 0 ≤ 127 → PieceFits d count (src + 2) (i + 1)) := by
  simp only [PieceFits, charAt_succ]
  rw [Nat.forall_lt_succ_left]
  refine and_congr ?_ ⟨fun h hc j hj hg hle => ?_, fun h j hj hg hle => ?_⟩
  · simp [GoesOn]
  · have := h j hj ((goesOn_succ src j).mpr ⟨hc, hg⟩) hle
    push_cast at this
    omega
  · obtain ⟨hc, hg⟩ := (goesOn_succ src j).mp hg
    have := h hc j hj hg hle
    push_cast
    omega

theorem pieceEnds_succ (count src : ℕ) : PieceEnds d (count + 1) src ↔
    charAt d src 0 = 0 ∨ (charAt d src 0 ≠ 0 ∧ charAt d src 0 ≤ 127) ∧
      PieceEnds d count (src + 2) := by
  simp only [PieceEnds, charAt_succ]
  rw [Nat.exists_lt_succ_left]
  refine or_congr ?_ ⟨fun ⟨j, hj, hg, hz⟩ => ?_, fun ⟨hc, j, hj, hg, hz⟩ => ?_⟩
  · simp [GoesOn]
  · obtain ⟨hc, hg⟩ := (goesOn_succ src j).mp hg
    exact ⟨hc, j, hj, hg, hz⟩
  · exact ⟨j, hj, (goesOn_succ src j).mpr ⟨hc, hg⟩, hz⟩

theorem asciiFromUtf16_wild (hw : ¬ PieceFits d count src i) (name : ℕ → UInt8) :
    asciiFromUtf16 d count src i name = stop .wild := by
  induction count generalizing src i name with
  | zero => exact absurd (fun j hj => absurd hj (Nat.not_lt_zero j)) hw
  | succ count ih =>
    rw [pieceFits_succ] at hw
    unfold asciiFromUtf16
    change (if charAt d src 0 > 127 then _ else _) = _
    by_cases hbig : charAt d src 0 > 127
    · exact absurd ⟨fun h => by omega, fun h => by omega⟩ hw
    rw [if_neg hbig]
    by_cases hin : i < 0 ∨ 256 ≤ i
    · rw [if_pos hin]
    rw [if_neg hin]
    by_cases hz : charAt d src 0 = 0
    · exact absurd ⟨fun _ => by omega, fun h => absurd hz h.1⟩ hw
    · change (if charAt d src 0 = 0 then _ else _) = _
      rw [if_neg hz]
      exact ih (fun hfits => hw ⟨fun _ => by omega, fun _ => hfits⟩) _

theorem asciiFromUtf16_fits (hf : PieceFits d count src i) (name : ℕ → UInt8) :
    ∃ r name', asciiFromUtf16 d count src i name = pure (r, name') ∧
    (r = 0 ↔ PieceEnds d count src) ∧
      (r ≠ 2 → i + count ≠ 256 → name 255 = 0 → name' 255 = 0) := by
  induction count generalizing src i name with
  | zero => exact ⟨1, name, rfl, by simp [PieceEnds], fun _ _ => id⟩
  | succ count ih =>
    obtain ⟨hhere, hrest⟩ := (pieceFits_succ count src i).mp hf
    rw [pieceEnds_succ]
    unfold asciiFromUtf16
    change ∃ r name', (if charAt d src 0 > 127 then _ else _) = _ ∧ _
    by_cases hbig : charAt d src 0 > 127
    · rw [if_pos hbig]
      exact ⟨2, name, rfl, by omega, fun h => absurd rfl h⟩
    rw [if_neg hbig, if_neg (by omega)]
    change ∃ r name', (if charAt d src 0 = 0 then _ else _) = _ ∧ _
    by_cases hz : charAt d src 0 = 0
    · rw [if_pos hz]
      refine ⟨0, _, rfl, by simp [hz], fun _ _ h255 => ?_⟩
      rw [show readLE d src 2 = 0 from hz, Function.update_apply]
      split
      · rfl
      · exact h255
    · rw [if_neg hz]
      obtain ⟨r, name', hrun, hends, hzero⟩ :=
        ih (hrest ⟨hz, by omega⟩) (Function.update name i.toNat (.ofNat (readLE d src 2)))
      refine ⟨r, name', hrun, ?_, fun hr hne h255 => ?_⟩
      · rw [hends]
        exact ⟨fun h => .inr ⟨⟨hz, by omega⟩, h⟩, fun h => (h.resolve_left hz).2⟩
      · by_cases h255' : i = 255
        · -- the character after this one is not ASCII
          exfalso
          obtain ⟨count, rfl⟩ :=
            Nat.exists_eq_succ_of_ne_zero (show count ≠ 0 by push_cast at hne; omega)
          have hnext := ((pieceFits_succ count (src + 2) (i + 1)).mp (hrest ⟨hz, by omega⟩)).1
          have hbig : charAt d (src + 2) 0 > 127 := by
            by_contra hle
            have := hnext (by omega)
            omega
          unfold asciiFromUtf16 at hrun
          rw [if_pos (show readLE d (src + 2) 2 > 127 from hbig)] at hrun
          exact hr (congrArg Prod.fst (Prog.pure.inj hrun)).symm
        · refine hzero hr (by push_cast at hne; omega) ?_
          rwa [Function.update_of_ne (by omega)]

def Ended (csum : ℕ) (name : ℕ → UInt8) : Prop := csum < 256 → name 255 = 0

theorem Ended.unless {c : Prop} [Decidable c] (he : ¬ c → Ended csum name) :
    Ended (if c then 2 ^ 16 - 1 else csum) name := by
  split
  · exact fun hlt => absurd hlt (by decide)
  · rename_i hc
    exact he hc

theorem readLongName_wild (hw : ¬ LongFits d) (csum : ℕ) (name : ℕ → UInt8) :
    readLongName d csum name = stop .wild := by
  unfold LongFits nameIndex at hw
  unfold readLongName
  dsimp only
  generalize (if readLE d 0 1 &&& 0x40 ≠ 0 then _ else _ : ℕ × (ℕ → UInt8)) = start
  obtain ⟨csum, name⟩ := start
  dsimp only
  by_cases hf₁ : PieceFits d 5 1 ((((readLE d 0 1 &&& 0x3f : ℕ) : ℤ) - 1) * 13)
  · obtain ⟨r₁, name₁, hrun₁, hends₁, -⟩ := asciiFromUtf16_fits hf₁ name
    have hno₁ : ¬ PieceEnds d 5 1 := fun h => hw ⟨hf₁, .inl h⟩
    rw [hrun₁]
    change (if r₁ = 0 then _ else _) = _
    rw [if_neg (fun h => hno₁ (hends₁.mp h))]
    by_cases hf₂ : PieceFits d 6 14 ((((readLE d 0 1 &&& 0x3f : ℕ) : ℤ) - 1) * 13 + 5)
    · obtain ⟨r₂, name₂, hrun₂, hends₂, -⟩ := asciiFromUtf16_fits hf₂ name₁
      have hno₂ : ¬ PieceEnds d 6 14 := fun h => hw ⟨hf₁, .inr ⟨hf₂, .inl h⟩⟩
      rw [hrun₂]
      change (if r₂ = 0 then _ else _) = _
      rw [if_neg (fun h => hno₂ (hends₂.mp h)), asciiFromUtf16_wild fun h =>
        hw ⟨hf₁, .inr ⟨hf₂, .inr h⟩⟩]
      rfl
    · rw [asciiFromUtf16_wild hf₂]
      rfl
  · rw [asciiFromUtf16_wild hf₁]
    rfl

theorem readLongName_fits (hf : LongFits d) (he : Ended csum name) :
    ∃ csum' name', readLongName d csum name = pure (csum', name') ∧ Ended csum' name' := by
  unfold LongFits nameIndex at hf
  obtain ⟨hf₁, hf⟩ := hf
  unfold readLongName
  dsimp only
  have hstart :
      Ended (if readLE d 0 1 &&& 0x40 ≠ 0 then (readLE d 13 1,
      fun i => if i < 256 then 0 else name i) else (csum, name)).1
      (if readLE d 0 1 &&& 0x40 ≠ 0 then (readLE d 13 1, fun i => if i < 256 then 0 else name i)
          else (csum, name)).2 := by
    split
    · exact fun _ => rfl
    · exact he
  generalize (if readLE d 0 1 &&& 0x40 ≠ 0 then _ else _ : ℕ × (ℕ → UInt8)) = start at *
  obtain ⟨csum₀, name₀⟩ := start
  dsimp only at hstart ⊢
  have he₀ : Ended (if csum₀ ≠ readLE d 13 1 then 2 ^ 16 - 1 else csum₀) name₀ :=
    .unless fun _ => hstart
  generalize (if csum₀ ≠ readLE d 13 1 then 2 ^ 16 - 1 else csum₀) = csum₁ at *
  obtain ⟨r₁, name₁, hrun₁, hends₁, hzero₁⟩ := asciiFromUtf16_fits hf₁ name₀
  rw [hrun₁]
  change ∃ csum' name', (if r₁ = 0 then _ else _) = _ ∧ _
  have he₁ : Ended (if r₁ = 2 then 2 ^ 16 - 1 else csum₁) name₁ := .unless fun hr hlt =>
    hzero₁ hr (by omega) (he₀ hlt)
  by_cases h₁ : r₁ = 0
  · rw [if_pos h₁]
    rw [if_neg (by omega)] at he₁
    exact ⟨_, _, rfl, he₁⟩
  rw [if_neg h₁]
  obtain ⟨hf₂, hf⟩ := hf.resolve_left fun h => h₁ (hends₁.mpr h)
  obtain ⟨r₂, name₂, hrun₂, hends₂, hzero₂⟩ := asciiFromUtf16_fits hf₂ name₁
  rw [hrun₂]
  change ∃ csum' name', (if r₂ = 0 then _ else _) = _ ∧ _
  generalize (if r₁ = 2 then 2 ^ 16 - 1 else csum₁) = csum₂ at *
  have he₂ : Ended (if r₂ = 2 then 2 ^ 16 - 1 else csum₂) name₂ := .unless fun hr hlt =>
    hzero₂ hr (by omega) (he₁ hlt)
  by_cases h₂ : r₂ = 0
  · rw [if_pos h₂]
    rw [if_neg (by omega)] at he₂
    exact ⟨_, _, rfl, he₂⟩
  rw [if_neg h₂]
  obtain ⟨r₃, name₃, hrun₃, -, hzero₃⟩ :=
    asciiFromUtf16_fits (hf.resolve_left fun h => h₂ (hends₂.mpr h)) name₂
  rw [hrun₃]
  change ∃ csum' name', (if r₃ = 0 then _ else _) = _ ∧ _
  generalize (if r₂ = 2 then 2 ^ 16 - 1 else csum₂) = csum₃ at *
  have he₃ : Ended (if r₃ = 2 then 2 ^ 16 - 1 else csum₃) name₃ := .unless fun hr hlt =>
    hzero₃ hr (by omega) (he₂ hlt)
  by_cases h₃ : r₃ = 0
  · rw [if_pos h₃]
    rw [if_neg (by omega)] at he₃
    exact ⟨_, _, rfl, he₃⟩
  · rw [if_neg h₃]
    exact ⟨_, _, rfl, he₃⟩

end

-- ---------------------------------------------------------------------------
-- fat_readdir
-- ---------------------------------------------------------------------------

def Skipped (l : List UInt8) : Prop := l.length = direntSize ∧ entryMem l 0 ≠ 0 ∧
  (entryMem l 0 = 0xe5 ∨ entryAttr (entryMem l) = fatAttrVolumeId ∨
    entryAttr (entryMem l) = fatAttrLongName)

def IsLong (l : List UInt8) : Prop := l.length = direntSize ∧ entryMem l 0 ≠ 0 ∧
    entryMem l 0 ≠ 0xe5 ∧
  entryAttr (entryMem l) = fatAttrLongName

instance (l : List UInt8) : Decidable (Skipped l) :=
  inferInstanceAs (Decidable (_ ∧ _ ∧ (_ ∨ _ ∨ _)))
instance (l : List UInt8) : Decidable (IsLong l) := inferInstanceAs (Decidable (_ ∧ _ ∧ _ ∧ _))

/-- The long names that are met among `n` records are inside `d_name`. -/
def Fat.RecordsFit (fat : Fat) (D : Disk) (h : Handle) (n : ℕ) : Prop :=
  ∀ k < n, (∀ j < k, Skipped (fat.record D h j)) → IsLong (fat.record D h k) →
    LongFits (entryMem (fat.record D h k))

section
variable {fat : Fat} {D : Disk} {h : Handle}

theorem Fat.recordsFit_succ (fat : Fat) (D : Disk) (h : Handle) (n : ℕ) :
    fat.RecordsFit D h (n + 1) ↔
    (IsLong (fat.read D h).1 → LongFits (entryMem (fat.read D h).1)) ∧
      (Skipped (fat.read D h).1 → fat.RecordsFit D (fat.read D h).2 n) := by
  unfold Fat.RecordsFit
  rw [Nat.forall_lt_succ_left]
  refine and_congr ?_ ⟨fun hr hs k hk hj => ?_, fun hr k hk hj => ?_⟩
  · simp [Fat.record, Fat.scan]
  · refine hr k hk fun j hj' => ?_
    rcases j with - | j
    · exact hs
    · exact hj j (by omega)
  · exact hr (hj 0 (Nat.succ_pos k)) k hk fun j hj' => hj (j + 1) (by omega)

theorem fatReaddirLoop_wild_iff (hb : fat.bytesPerSector = maxSectorSize)
    (hs : fat.sectorsPerCluster ≠ 0) (he : Ended csum ent.dName)
    {c : Cached Sector} (hc : On D c) :
    (fatReaddirLoop fat n csum ent h).cached c = .error .wild ↔ ¬ fat.RecordsFit D h n := by
  induction n generalizing csum ent h c with
  | zero => exact ⟨nofun, fun hn => absurd (fun k hk => absurd hk (Nat.not_lt_zero k)) hn⟩
  | succ n ih =>
    obtain ⟨-, c', hrun, hc'⟩ := (fatRead_record hb hs h).run hc
    rw [Fat.recordsFit_succ]
    generalize fat.read D h = r at *
    obtain ⟨l, h'⟩ := r
    unfold fatReaddirLoop
    rw [Prog.cached_bind, hrun]
    change Prog.cached (if l.length ≠ direntSize then _ else _) c' = _ ↔ _
    dsimp only
    by_cases hlen : l.length ≠ direntSize
    · rw [if_pos hlen]
      exact ⟨nofun, fun hno => absurd ⟨fun h => absurd h.1 hlen, fun h => absurd h.1 hlen⟩ hno⟩
    rw [if_neg hlen]
    have hlen := not_not.mp hlen
    by_cases hend : entryMem l 0 = 0
    · rw [if_pos hend]
      exact ⟨nofun, fun hno => absurd ⟨fun h => absurd hend h.2.1, fun h => absurd hend h.2.1⟩ hno⟩
    rw [if_neg hend]
    by_cases hskip : entryMem l 0 = 0xe5 ∨ entryAttr (entryMem l) = fatAttrVolumeId
    · have hnot : ¬ IsLong l := by
        rintro ⟨-, -, hdel, hattr⟩
        rcases hskip with h | h
        · exact hdel h
        · exact absurd (hattr.symm.trans h) (by decide)
      rw [if_pos hskip, ih he hc', not_iff_not]
      exact ⟨fun h => ⟨fun hl => absurd hl hnot, fun _ => h⟩,
        fun h => h.2 ⟨hlen, hend, hskip.imp id .inl⟩⟩
    rw [if_neg hskip]
    push Not at hskip
    by_cases hlong : entryAttr (entryMem l) = fatAttrLongName
    · rw [if_pos hlong]
      by_cases hfits : LongFits (entryMem l)
      · obtain ⟨csum', name', hname, he'⟩ := readLongName_fits hfits he
        rw [hname]
        have hrest : (fatReaddirLoop fat n csum' { ent with dName := name' } h').cached c' =
            .error .wild ↔ ¬ fat.RecordsFit D h' n :=
          ih he' hc'
        refine hrest.trans (not_iff_not.mpr ?_)
        exact ⟨fun h => ⟨fun _ => hfits, fun _ => h⟩, fun h => h.2 ⟨hlen, hend, .inr (.inr hlong)⟩⟩
      · rw [readLongName_wild hfits]
        exact ⟨fun _ h => hfits (h.1 ⟨hlen, hend, hskip.1, hlong⟩), fun _ => rfl⟩
    · rw [if_neg hlong]
      refine ⟨nofun, fun hno => absurd ⟨fun h => absurd h.2.2.2 hlong, fun h => ?_⟩ hno⟩
      rcases h.2.2 with h | h | h
      · exact absurd h hskip.1
      · exact absurd h hskip.2
      · exact absurd h hlong

theorem shortNameLoop_le (d : Mem) (fuel i j : ℕ) (name : ℕ → UInt8) :
    (shortNameLoop d fuel i j name).1 ≤ j + fuel := by
  induction fuel generalizing i j name with
  | zero => exact le_rfl
  | succ fuel ih =>
    unfold shortNameLoop
    split
    · split
      · exact (ih _ _ _).trans (by omega)
      · exact (ih _ _ _).trans (by omega)
    · exact Nat.le_add_right _ _

theorem readShortName_ends (d : Mem) (name : ℕ → UInt8) : ∃ i < 256, readShortName d name i = 0 :=
  ⟨_, (shortNameLoop_le d 11 0 0 name).trans_lt (by decide), Function.update_self _ _ _⟩

theorem fatReaddirLoop_ends (he : Ended csum ent.dName) :
    (fatReaddirLoop fat n csum ent h).ensures fun r =>
    ∀ e, r.1 = some e → ∃ i < 256, e.dName i = 0 := by
  induction n generalizing csum ent h with
  | zero => exact trivial
  | succ n ih =>
    refine Prog.ensures_bind (Prog.ensures_true _) fun r _ => ?_
    dsimp only
    split
    · exact nofun
    split
    · exact nofun
    split
    · exact ih he
    split
    · refine Prog.ensures_bind (P := fun r => Ended r.1 r.2) ?_ fun r hr => ih hr
      by_cases hf : LongFits (entryMem r.1)
      · obtain ⟨csum', name', hname, he'⟩ := readLongName_fits hf he
        rw [hname]
        exact he'
      · rw [readLongName_wild hf]
        exact trivial
    · rintro e ⟨⟩
      dsimp only
      by_cases hcsum : csum = (fatDirentChksum (entryMem r.1)).toNat
      · rw [if_neg (not_not.mpr hcsum)]
        split
        · exact readShortName_ends _ _
        · exact ⟨255, by decide, he (hcsum ▸ UInt8.toNat_lt _)⟩
      · rw [if_pos hcsum, if_pos (Function.update_self _ _ _)]
        exact readShortName_ends _ _

end

end SkyOS
