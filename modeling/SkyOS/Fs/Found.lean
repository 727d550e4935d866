import SkyOS.Fs.Opening

/-!
# What is found

`fat_open` returns the fields of a record of the directory, and where the record is.
Records are read one after the other from the start, so that they do not cross the end
of a sector.
-/

namespace SkyOS

open ByteMem WriteBack

def Disk.record (D : Disk) (s o : ℕ) : Mem := fun i => (D s).mem (o + i)

/-- The handle is that of a regular file, with the record it was opened from. -/
structure Found (D : Disk) (f : Handle) : Prop where
  aligned : f.direntOffset % direntSize = 0
  inside : f.direntOffset < maxSectorSize
  attr : entryAttr (D.record f.direntSector f.direntOffset) &&& fatAttrDirectory = 0
  size : f.size = readLE (D.record f.direntSector f.direntOffset) 28 4
  first : f.firstCluster = readLE (D.record f.direntSector f.direntOffset) 20 2 <<< 16 |||
    readLE (D.record f.direntSector f.direntOffset) 26 2
  start : f.position = 0 ∧ f.curCluster = f.firstCluster ∧ f.rootFlag = false

def Handle.Aligned (h : Handle) : Prop := h.position % direntSize = 0 ∧ h.size % direntSize = 0

section
variable {fat : Fat} {D : Disk} {h : Handle}

theorem Handle.After.aligned (ha : h.After h' direntSize) (hh : h.Aligned) : h'.Aligned := by
  have hpos := ha.position
  have hsize := ha.size
  unfold Handle.Aligned direntSize at *
  omega

theorem fatRead_record_at (hb : fat.bytesPerSector = maxSectorSize) (hs : fat.sectorsPerCluster ≠ 0)
    (hh : h.position % direntSize = 0) :
    Returns (On D) (fatRead fat h direntSize) fun r c => On D c ∧ h.After r.2 r.1.length ∧
      (r.1.length = direntSize →
        ∀ i < direntSize, entryMem r.1 i = D.record (fat.sectorAt h) (h.position % maxSectorSize)
        i) := by
  refine (fatRead_moves hb hs h direntSize).returns.post fun r c ⟨hc, hr⟩ =>
    ⟨hc, hr.after, fun hlen i hi => ?_⟩
  have hle := hr.length
  obtain ⟨l, hl⟩ := hr.chunk
  rw [hb] at hl
  unfold direntSize maxSectorSize at *
  have hroom : i < min (512 - h.position % 512) (h.request h.position (32 : ℕ)).toNat := by omega
  have hget :
      r.1[i]? =
      (D.chunk (fat.sectorAt h) (h.position % 512) (h.request h.position (32 : ℕ)).toNat)[i]? := by
    rw [← hl, List.getElem?_append_left (by simpa [Disk.chunk] using hroom)]
  rw [entryMem, List.getD_eq_getElem?_getD, hget, Disk.chunk, List.getElem?_map,
    List.getElem?_range hroom]
  rfl

-- ---------------------------------------------------------------------------
-- fat_open
-- ---------------------------------------------------------------------------

theorem asciiFromUtf16_returns {P : Cached Sector → Prop} (d : Mem) (count src : ℕ) (i : ℤ)
    (name : ℕ → UInt8) :
    Returns P (asciiFromUtf16 d count src i name) fun _ => P := by
  by_cases hf : PieceFits d count src i
  · obtain ⟨r, name', hrun, -⟩ := asciiFromUtf16_fits hf name
    rw [hrun]
    exact .pure fun _ => id
  · rw [asciiFromUtf16_wild hf]
    exact .fail

theorem readLongName_returns {P : Cached Sector → Prop} (d : Mem) (csum : ℕ) (name : ℕ → UInt8) :
    Returns P (readLongName d csum name) fun _ => P := by
  unfold readLongName
  refine Returns.bind (asciiFromUtf16_returns _ _ _ _ _) fun ⟨r, name⟩ => ?_
  change Returns P (if r = 0 then _ else _) _
  split
  · exact .pure fun _ => id
  refine Returns.bind (asciiFromUtf16_returns _ _ _ _ _) fun ⟨r, name⟩ => ?_
  change Returns P (if r = 0 then _ else _) _
  split
  · exact .pure fun _ => id
  refine Returns.bind (asciiFromUtf16_returns _ _ _ _ _) fun ⟨r, name⟩ => ?_
  change Returns P (if r = 0 then _ else _) _
  split <;> exact .pure fun _ => id

theorem fatReaddirLoop_aligned (hb : fat.bytesPerSector = maxSectorSize)
    (hs : fat.sectorsPerCluster ≠ 0) (hh : h.Aligned) :
    Returns (On D) (fatReaddirLoop fat n csum ent h) fun r c => On D c ∧
    (r.1 ≠ none → r.2.2.Aligned) := by
  induction n generalizing csum ent h with
  | zero => exact .fail
  | succ n ih =>
    refine Returns.bind (fatRead_record_at hb hs hh.1) fun r => ?_
    refine Returns.pre (Returns.given (P := On D) fun hr => ?_) fun c hc => ⟨hc.1, hc.2⟩
    obtain ⟨l, h'⟩ := r
    dsimp only
    split
    · exact .pure fun _ hc => ⟨hc, fun h => absurd rfl h⟩
    rename_i hlen
    have hh' : h'.Aligned := by
      have := hr.1
      rw [not_not.mp hlen] at this
      exact this.aligned hh
    split
    · exact .pure fun _ hc => ⟨hc, fun h => absurd rfl h⟩
    split
    · exact ih hh'
    split
    · exact Returns.bind (readLongName_returns _ _ _) fun r => ih hh'
    · exact .pure fun _ hc => ⟨hc, fun _ => hh'⟩

theorem fatLseek_aligned (hb : fat.bytesPerSector = maxSectorSize) (hh : h.Aligned) :
    Returns (On D) (fatLseek fat h (2 ^ 32 - direntSize) .cur) fun r c => On D c ∧ r.2.Aligned := by
  obtain ⟨hpos, hsize⟩ := hh
  have hoff : (if h.size ≠ 0 ∧ u32 (2 ^ 32 - direntSize + h.position) > h.size then h.size
      else u32 (2 ^ 32 - direntSize + h.position)) % direntSize = 0 := by
    split
    · exact hsize
    · unfold u32 direntSize at *
      omega
  unfold fatLseek
  dsimp only
  split
  · exact .pure fun _ hc => ⟨hc, hoff, hsize⟩
  · split
    · exact .fail
    · exact Returns.bind (followChain_gives hb _ _).returns fun _ => .pure fun _ hc =>
        ⟨hc.2, hoff, hsize⟩

theorem entryMatches_returns {P : Cached Sector → Prop} (name : CStr) (e : Dirent) :
    Returns P (entryMatches name e) fun _ => P := by
  unfold entryMatches
  split
  · exact .pure fun _ => id
  · unfold fatComparesfn
    dsimp only
    split
    · split
      · exact .fail
      · exact Returns.pure fun _ => id
    · exact Returns.pure fun _ => id

theorem fatFileRoot_direntSector (fat : Fat) : (fatFileRoot fat).direntSector = 0 := by
  unfold fatFileRoot
  split <;> rfl

theorem found_of_record {l : List UInt8} (hp : p % direntSize = 0)
    (hd : ∀ i < direntSize, entryMem l i = D.record s (p % maxSectorSize) i)
    (hattr : entryAttr (entryMem l) &&& fatAttrDirectory = 0) :
    Found D { fatFileInit (entryMem l) with flags, direntSector := s, direntOffset :=
      p % maxSectorSize } := by
  unfold direntSize maxSectorSize at *
  have hread (a n : ℕ) (hn : a + n ≤ 32) :
      readLE (entryMem l) a n = readLE (D.record s (p % 512)) a n :=
    readLE_congr fun i hi => hd _ (by omega)
  refine ⟨?_, Nat.mod_lt _ (by decide), ?_, hread 28 4 (by decide), ?_, rfl, rfl, rfl⟩
  · unfold direntSize
    dsimp only
    omega
  · rw [entryAttr, ← hd 11 (by decide)]
    exact hattr
  · dsimp only [fatFileInit]
    rw [hread 20 2 (by decide), hread 26 2 (by decide)]

theorem fatOpenLoop_found (hb : fat.bytesPerSector = maxSectorSize) (hs : fat.sectorsPerCluster ≠ 0)
    (hh : h.Aligned) :
    Returns (On D) (fatOpenLoop fat name flags n ent h) fun r c =>
      On D c ∧ ∀ f, r.2.1 = some f → f.direntSector ≠ 0 → Found D f := by
  induction n generalizing ent h with
  | zero => exact .fail
  | succ n ih =>
    refine Returns.bind (fatReaddirLoop_aligned hb hs hh) fun r => ?_
    obtain ⟨r, ent', dir⟩ := r
    rcases r with - | e
    · exact .pure fun _ hc => ⟨hc.1, nofun⟩
    refine Returns.pre (Returns.given (P := On D) fun hdir => ?_) fun c hc => ⟨hc.1, hc.2 nofun⟩
    refine Returns.bind (entryMatches_returns name e) fun m => ?_
    cases m with
    | false => exact ih hdir
    | true =>
      refine Returns.bind (fatLseek_aligned hb hdir) fun r => Returns.given fun hr => ?_
      refine Returns.bind (fatFileSectorOffset_at (S := .univ) hb hs r.2).returns fun q => ?_
      refine Returns.pre (Returns.given (P := On D) fun hq => ?_) fun c hc => ⟨hc.2, hc.1⟩
      refine Returns.bind (fatRead_record_at hb hs hr.1) fun l => ?_
      refine Returns.pre (Returns.given (P := On D) fun hl => ?_) fun c hc => ⟨hc.1, hc.2⟩
      obtain ⟨l, dir'⟩ := l
      rw [hq, hb]
      dsimp only at hl ⊢
      split
      · exact .pure fun _ hc => ⟨hc, nofun⟩
      rename_i hlen
      have hd := hl.2 (not_not.mp hlen)
      split
      · rename_i hattr
        refine .pure fun _ hc => ⟨hc, ?_⟩
        rintro f ⟨⟩ -
        exact found_of_record hr.1 hd hattr
      · split
        · refine .pure fun _ hc => ⟨hc, ?_⟩
          rintro f ⟨⟩ hne
          exact absurd (fatFileRoot_direntSector fat) hne
        · refine .pure fun _ hc => ⟨hc, ?_⟩
          rintro f ⟨⟩ hne
          exact absurd rfl hne

theorem fatOpen_found {vol : Vol} (hb : vol.fat.bytesPerSector = maxSectorSize)
    (hs : vol.fat.sectorsPerCluster ≠ 0)
    (hdir : vol.cwd.direntSector = 0) (hsize : vol.cwd.size % direntSize = 0) (name : CStr)
    (flags : ℕ) :
    Returns (On D) (fatOpen vol name flags) fun r c =>
      On D c ∧ r.2.2.fat = vol.fat ∧ ∀ f, r.2.1 = some f → f.direntSector ≠ 0 → Found D f := by
  unfold fatOpen
  split
  · refine .pure fun _ hc => ⟨hc, rfl, ?_⟩
    rintro f ⟨⟩ hne
    exact absurd hdir hne
  · refine Returns.bind (fatLseek_start (S := .univ) hb hs vol.cwd).returns fun r => ?_
    refine Returns.pre (Returns.given (P := On D) fun hr => ?_) fun c hc => ⟨hc.2, hc.1⟩
    subst hr
    exact Returns.bind (fatOpenLoop_found hb hs ⟨Nat.zero_mod _, hsize⟩) fun r => .pure fun _ hc =>
      ⟨hc.1, rfl, hc.2⟩

end

end SkyOS
