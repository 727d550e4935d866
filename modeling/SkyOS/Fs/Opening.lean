import SkyOS.Fs.Records

/-!
# Looking names up

`fat_comparesfn` has an array of 11 characters for a name, and follows the name with a
pointer. A name that starts with a dot is copied as it is, and a dot that comes before
the suffix is stepped over.
-/

namespace SkyOS

open ByteMem WriteBack

-- ---------------------------------------------------------------------------
-- The bytes of a record
-- ---------------------------------------------------------------------------

section
variable {d d' : Mem}

theorem asciiFromUtf16_congr (hd : ∀ i < direntSize, d i = d' i)
    (hle : src + 2 * count ≤ direntSize) (i : ℤ) (name : ℕ → UInt8) :
    asciiFromUtf16 d count src i name = asciiFromUtf16 d' count src i name := by
  unfold direntSize at *
  induction count generalizing src i name with
  | zero => rfl
  | succ count ih =>
    have hchar : readLE d src 2 = readLE d' src 2 := readLE_congr fun j hj => hd _ (by omega)
    unfold asciiFromUtf16
    have hrest (i : ℤ) (name : ℕ → UInt8) : asciiFromUtf16 d count (src + 2) i name =
        asciiFromUtf16 d' count (src + 2) i name :=
      ih (by omega) i name
    simp only [hchar, hrest]

theorem readLongName_congr (hd : ∀ i < direntSize, d i = d' i) :
    readLongName d = readLongName d' := by
  have hord : readLE d 0 1 = readLE d' 0 1 := readLE_congr fun j hj =>
    hd _ (by unfold direntSize; omega)
  have hsum : readLE d 13 1 = readLE d' 13 1 := readLE_congr fun j hj =>
    hd _ (by unfold direntSize; omega)
  have h₁ (i : ℤ) (name : ℕ → UInt8) :=
    asciiFromUtf16_congr hd (show 1 + 2 * 5 ≤ direntSize by decide) i name
  have h₂ (i : ℤ) (name : ℕ → UInt8) :=
    asciiFromUtf16_congr hd (show 14 + 2 * 6 ≤ direntSize by decide) i name
  have h₃ (i : ℤ) (name : ℕ → UInt8) :=
    asciiFromUtf16_congr hd (show 28 + 2 * 2 ≤ direntSize by decide) i name
  funext csum name
  unfold readLongName
  simp only [hord, hsum, h₁, h₂, h₃]

theorem skipSpaces_congr (hd : ∀ i < direntSize, d i = d' i) (hi : i < 11) (fuel : ℕ) :
    skipSpaces d fuel i = skipSpaces d' fuel i := by
  induction fuel generalizing i with
  | zero => rfl
  | succ fuel ih =>
    unfold skipSpaces
    rw [hd (i + 1) (by unfold direntSize; omega)]
    split
    · rename_i h
      exact ih h.2
    · rfl

theorem readShortName_congr (hd : ∀ i < direntSize, d i = d' i) :
    readShortName d = readShortName d' := by
  have hloop (fuel i j : ℕ) (name : ℕ → UInt8) : shortNameLoop d fuel i j name =
      shortNameLoop d' fuel i j name := by
    induction fuel generalizing i j name with
    | zero => rfl
    | succ fuel ih =>
      unfold shortNameLoop
      split
      · rename_i hi
        rw [hd i (by unfold direntSize; omega), skipSpaces_congr hd hi, ih, ih]
      · rfl
  funext name
  unfold readShortName
  rw [hloop]

theorem fatDirentChksum_congr (hd : ∀ i < direntSize, d i = d' i) :
    fatDirentChksum d = fatDirentChksum d' := by
  refine List.foldl_ext _ _ _ fun sum i hi => ?_
  rw [hd i (by have := List.mem_range.mp hi; unfold direntSize; omega)]

end

-- ---------------------------------------------------------------------------
-- Names
-- ---------------------------------------------------------------------------

def Dangling (name : CStr) : Prop :=
  ∃ p < 9, p + 1 = name.length ∧ name.byte p = 0x2e ∧ ∀ j < p, name.byte j ≠ 0x2e ∧
    name.byte j ≠ 0x2f

def NameFits (name : CStr) : Prop := if name.byte 0 = 0x2e then name.length ≤
    11 else ¬ Dangling name

section
variable {name : CStr}

theorem CStr.lt_of_ne (hle : i ≤ name.length) (hb : name.byte i ≠ 0) : i < name.length :=
  lt_of_le_of_ne hle fun h => hb (h ▸ name.nul)

theorem canonLoop_le (hi : 8 < i) (ha : a ≤ name.length) (fuel : ℕ) (canon : ℕ → UInt8) :
    (canonLoop name fuel i a canon).2 ≤ name.length := by
  induction fuel generalizing i a canon with
  | zero => exact ha
  | succ fuel ih =>
    unfold canonLoop
    dsimp only
    split
    · rename_i hgo
      have hlt := CStr.lt_of_ne ha hgo.2.1
      rw [if_neg (by omega), if_neg (by omega)]
      exact ih (by omega) (by omega) _
    · exact ha

theorem le_canonLoop (fuel i a : ℕ) (canon : ℕ → UInt8) :
    a ≤ (canonLoop name fuel i a canon).2 := by
  induction fuel generalizing i a canon with
  | zero => exact le_rfl
  | succ fuel ih =>
    unfold canonLoop
    dsimp only
    split
    · split
      · exact ih _ _ _
      · split
        · exact le_trans (by omega) (ih _ _ _)
        · exact le_trans (by omega) (ih _ _ _)
    · exact le_rfl

def DanglesFrom (name : CStr) (a : ℕ) : Prop :=
  ∃ p < 9, a ≤ p ∧ p + 1 = name.length ∧ name.byte p = 0x2e ∧ ∀ j < p, a ≤ j → name.byte j ≠ 0x2e ∧
    name.byte j ≠ 0x2f

theorem danglesFrom_stop (hstop : name.byte a = 0 ∨ name.byte a = 0x2f) : ¬ DanglesFrom name a := by
  rintro ⟨p, -, hle, hlast, hdot, hbefore⟩
  rcases hle.eq_or_lt with rfl | hlt
  · rcases hstop with h | h
    · exact absurd (hdot.symm.trans h) (by decide)
    · exact absurd (hdot.symm.trans h) (by decide)
  · rcases hstop with h | h
    · exact name.chars a (by omega) h
    · exact (hbefore a hlt le_rfl).2 h

theorem danglesFrom_dot (ha : a < 9) (hdot : name.byte a = 0x2e) : DanglesFrom name a ↔
    a + 1 = name.length := by
  constructor
  · rintro ⟨p, -, hle, hlast, -, hbefore⟩
    rcases hle.eq_or_lt with rfl | hlt
    · exact hlast
    · exact absurd hdot (hbefore a hlt le_rfl).1
  · exact fun h => ⟨a, ha, le_rfl, h, hdot, fun j hj hj' => absurd hj' (by omega)⟩

theorem danglesFrom_char (hdot : name.byte a ≠ 0x2e) (hslash : name.byte a ≠ 0x2f) :
    DanglesFrom name a ↔ DanglesFrom name (a + 1) := by
  constructor
  · rintro ⟨p, hp, hle, hlast, hpdot, hbefore⟩
    have hne : a ≠ p := fun h => hdot (h ▸ hpdot)
    exact ⟨p, hp, by omega, hlast, hpdot, fun j hj hj' => hbefore j hj (by omega)⟩
  · rintro ⟨p, hp, hle, hlast, hpdot, hbefore⟩
    refine ⟨p, hp, by omega, hlast, hpdot, fun j hj hj' => ?_⟩
    rcases hj'.eq_or_lt with rfl | hlt
    · exact ⟨hdot, hslash⟩
    · exact hbefore j hj hlt

theorem canonLoop_iff (hk : i + k = 8) (ha : a ≤ name.length)
    (hia : i = a ∨ a < i ∧ name.byte a = 0x2e) (canon : ℕ → UInt8) :
    (canonLoop name (k + 3) i a canon).2 ≤ name.length ↔ ¬ DanglesFrom name a := by
  induction k generalizing i a canon with
  | zero =>
    unfold canonLoop
    dsimp only
    by_cases hgo : i < 11 ∧ name.byte a ≠ 0 ∧ name.byte a ≠ 0x2f
    · have hlt := CStr.lt_of_ne ha hgo.2.1
      rw [if_pos hgo, if_neg (by omega)]
      by_cases hdot : name.byte a = 0x2e
      · -- past the dot, and past what comes after it
        rw [if_pos ⟨hdot, by omega⟩, danglesFrom_dot (by omega) hdot]
        refine ⟨fun h => ?_, fun h => canonLoop_le (by omega) (by omega) _ _⟩
        have := (le_canonLoop _ _ _ _).trans h
        omega
      · rw [if_neg fun h => hdot h.1]
        refine iff_of_true (canonLoop_le (by omega) (by omega) _ _) ?_
        rintro ⟨p, hp, hle, -, hpdot, -⟩
        obtain rfl : p = a := by
          have := hia.resolve_right fun h => hdot h.2
          omega
        exact hdot hpdot
    · rw [if_neg hgo]
      exact iff_of_true ha
        (danglesFrom_stop (by by_contra h; push Not at h; exact hgo ⟨by omega, h⟩))
  | succ k ih =>
    unfold canonLoop
    dsimp only
    by_cases hgo : i < 11 ∧ name.byte a ≠ 0 ∧ name.byte a ≠ 0x2f
    · have hlt := CStr.lt_of_ne ha hgo.2.1
      rw [if_pos hgo]
      by_cases hdot : name.byte a = 0x2e
      · rw [if_pos ⟨hdot, by omega⟩]
        exact ih (by omega) ha (.inr ⟨by omega, hdot⟩) _
      · rw [if_neg fun h => hdot h.1, if_neg fun h => hdot h.1, danglesFrom_char hdot hgo.2.2]
        have hi := hia.resolve_right fun h => hdot h.2
        exact ih (by omega) (by omega) (.inl (by omega)) _
    · rw [if_neg hgo]
      exact iff_of_true ha
        (danglesFrom_stop (by by_contra h; push Not at h; exact hgo ⟨by omega, h⟩))

theorem canonLoop_dangling (canon : ℕ → UInt8) :
    (canonLoop name 11 0 0 canon).2 ≤ name.length ↔ ¬ Dangling name := by
  rw [canonLoop_iff (k := 8) rfl (Nat.zero_le _) (.inl rfl)]
  simp [DanglesFrom, Dangling]

end

-- ---------------------------------------------------------------------------
-- fat_open
-- ---------------------------------------------------------------------------

def Live (l : List UInt8) : Prop := l.length = direntSize ∧ entryMem l 0 ≠ 0

def Fat.AllFit (fat : Fat) (D : Disk) (h : Handle) : Prop :=
  ∀ k, (∀ j < k, Live (fat.record D h j)) → IsLong (fat.record D h k) →
    LongFits (entryMem (fat.record D h k))

section
variable {fat : Fat} {D : Disk} {h : Handle} {name : CStr}

theorem Fat.AllFit.head (ha : fat.AllFit D h) (hl : IsLong (fat.read D h).1) :
    LongFits (entryMem (fat.read D h).1) :=
  ha 0 (fun j hj => absurd hj (Nat.not_lt_zero j)) hl

theorem Fat.AllFit.next (ha : fat.AllFit D h) (hl : Live (fat.read D h).1) :
    fat.AllFit D (fat.read D h).2 := by
  intro k hk hlong
  refine ha (k + 1) (fun j hj => ?_) hlong
  rcases j with - | j
  · exact hl
  · exact hk j (by omega)

theorem fatReaddirLoop_avoids (hb : fat.bytesPerSector = maxSectorSize)
    (hs : fat.sectorsPerCluster ≠ 0)
    (ha : fat.AllFit D h) (he : Ended csum ent.dName) :
    Avoids Stop.wild (On D) (fatReaddirLoop fat n csum ent h) fun r c =>
      On D c ∧ (r.1 ≠ none → fat.AllFit D r.2.2) := by
  induction n generalizing csum ent h with
  | zero => exact .fail nofun
  | succ n ih =>
    have hhead := ha.head
    have hnext := ha.next
    refine Avoids.bind (fatRead_record hb hs h).avoids fun r => ?_
    rintro c ⟨rfl, hc⟩
    revert c
    change Avoids Stop.wild (On D) _ _
    generalize fat.read D h = r at *
    obtain ⟨l, h'⟩ := r
    dsimp only at *
    by_cases hlen : l.length ≠ direntSize
    · rw [if_pos hlen]
      exact .pure fun _ hc => ⟨hc, fun h => absurd rfl h⟩
    rw [if_neg hlen]
    by_cases hend : entryMem l 0 = 0
    · rw [if_pos hend]
      exact .pure fun _ hc => ⟨hc, fun h => absurd rfl h⟩
    rw [if_neg hend]
    have hnext := hnext ⟨not_not.mp hlen, hend⟩
    by_cases hskip : entryMem l 0 = 0xe5 ∨ entryAttr (entryMem l) = fatAttrVolumeId
    · rw [if_pos hskip]
      exact ih hnext he
    rw [if_neg hskip]
    push Not at hskip
    by_cases hlong : entryAttr (entryMem l) = fatAttrLongName
    · rw [if_pos hlong]
      obtain ⟨csum', name', hname, he'⟩ :=
        readLongName_fits (hhead ⟨not_not.mp hlen, hend, hskip.1, hlong⟩) he
      rw [hname]
      exact ih hnext he'
    · rw [if_neg hlong]
      exact .pure fun _ hc => ⟨hc, fun _ => hnext⟩

def DotFits (name : CStr) : Prop := name.byte 0 = 0x2e → name.length ≤ 11

theorem entryMatches_avoids {P : Cached Sector → Prop} (hn : DotFits name) (e : Dirent) :
    Avoids Stop.wild P (entryMatches name e) fun _ => P := by
  unfold entryMatches
  split
  · exact .pure fun _ => id
  · unfold fatComparesfn
    dsimp only
    split
    · rename_i hdot
      rw [if_neg (by have := hn hdot; omega)]
      exact Avoids.pure fun _ => id
    · exact Avoids.pure fun _ => id

theorem fatLseek_total (hb : fat.bytesPerSector = maxSectorSize) (hs : fat.sectorsPerCluster ≠ 0)
    (h : Handle) (o : ℕ) (w : Whence) :
    Does .univ (On D) (fatLseek fat h o w) fun _ => On D := by
  unfold fatLseek
  dsimp only
  split
  · exact .pure fun _ => id
  · split
    · exact .pure fun _ => id
    · split
      · rename_i h0
        rw [hb] at h0
        exact absurd (Nat.mul_eq_zero.mp h0) (by simp [hs])
      · exact (followChain_gives hb _ _).bind <| .pure fun _ => id

theorem fatOpenLoop_avoids (hb : fat.bytesPerSector = maxSectorSize)
    (hs : fat.sectorsPerCluster ≠ 0)
    (ha : fat.AllFit D h) (hn : DotFits name) :
    Avoids Stop.wild (On D) (fatOpenLoop fat name flags n ent h) fun _ => On D := by
  induction n generalizing ent h with
  | zero => exact .fail nofun
  | succ n ih =>
    have he : Ended (2 ^ 16 - 1) ent.dName := fun hlt => absurd hlt (by decide)
    refine Avoids.bind (fatReaddirLoop_avoids hb hs ha he) fun r => ?_
    obtain ⟨r, ent', dir⟩ := r
    rcases r with - | e
    · exact .pure fun _ hc => hc.1
    rintro c ⟨hc, hall⟩
    have hall := hall nofun
    revert c
    change Avoids Stop.wild (On D) _ _
    refine Avoids.bind (entryMatches_avoids hn e) fun m => ?_
    cases m with
    | false => exact ih hall
    | true =>
      refine Avoids.bind (fatLseek_total hb hs dir _ _).avoids fun r => ?_
      refine Avoids.bind (fatFileSectorOffset_at (S := .univ) hb hs r.2).avoids fun q => ?_
      refine Avoids.bind ((fatRead_total hb hs r.2 _).avoids.pre fun _ h => h.2) fun l => ?_
      dsimp only
      split
      · exact .pure fun _ => id
      · split
        · exact .pure fun _ => id
        · split <;> exact .pure fun _ => id

theorem fatLseek_start {S : Set ℕ} {P : Cached Sector → Prop}
    (hb : fat.bytesPerSector = maxSectorSize) (hs : fat.sectorsPerCluster ≠ 0) (h : Handle) :
    Gives S P (fatLseek fat h 0 .set) (0, h.fresh) P := by
  have hsize : (if h.size ≠ 0 ∧ 0 > h.size then h.size else 0) = 0 := if_neg (by omega)
  unfold fatLseek
  dsimp only
  rw [hsize]
  by_cases hroot : h.rootFlag = true
  · rw [if_pos hroot]
    exact Gives.pure _ fun _ => id
  · rw [if_neg hroot, if_neg (by rw [hb]; exact Nat.mul_ne_zero hs (by decide)), Nat.zero_div]
    exact (Gives.pure h.firstCluster fun _ => id).bind <| Gives.pure _ fun _ => id

theorem fatOpen_avoids {vol : Vol} (hb : vol.fat.bytesPerSector = maxSectorSize)
    (hs : vol.fat.sectorsPerCluster ≠ 0)
    (ha : vol.fat.AllFit D vol.cwd.fresh) (hn : DotFits name) (flags : ℕ) :
    Avoids Stop.wild (On D) (fatOpen vol name flags) fun _ => On D := by
  unfold fatOpen
  split
  · exact .pure fun _ => id
  · refine Avoids.bind (fatLseek_start (S := .univ) hb hs vol.cwd).avoids ?_
    rintro ⟨o, dir⟩ c ⟨hdir, hc⟩
    obtain ⟨-, rfl⟩ := Prod.mk.injEq .. ▸ hdir
    exact Avoids.bind (R := fun _ => On D) (fatOpenLoop_avoids hb hs ha hn) (fun _ => .pure fun _ =>
      id) c hc

end

def aDirectory : Handle := ⟨0, 2, 0, 2, false, 0, 0, 0⟩

def oneFileDisk (n : ℕ) : Sector := fun i => if n = 3 then if i.val = 0 then 0x41 else if i.val ≤
    11 then 0x20 else 0 else 0

theorem oneFileDisk_allFit : fourClusters.AllFit oneFileDisk aDirectory := by
  intro k hk hlong
  match k with
  | 0 => exact absurd hlong (by decide +kernel)
  | 1 => exact absurd hlong (by decide +kernel)
  | k + 2 => exact absurd (hk 1 (by omega)).2 (by decide +kernel)

theorem oneFileDisk_entry :
    (match (fatReaddir fourClusters aDirectory ⟨fun _ => 0, 0, []⟩).cached
      (coldCache oneFileDisk) with
    | .ok ((some e, _, _), _) => e.dName 0 == 0x61
    | _ => false) = true := by decide +kernel

theorem fatOpen_dot_wild {name : CStr} (hdot : name.byte 0 = 0x2e) (hlong : 11 < name.length) :
    (fatOpen ⟨fourClusters, aDirectory⟩ name 0).cached (coldCache oneFileDisk) = .error .wild := by
  have hself : strEq dotName name.byte = false := by
    refine List.all_eq_false.mpr ⟨1, by decide, ?_⟩
    have h1 := name.chars 1 (by omega)
    rw [show dotName.byte 1 = 0 by decide]
    simpa using h1.symm
  have hentry := oneFileDisk_entry
  split at hentry
  · rename_i e ent dir c hrun
    have hfirst : e.dName 0 = 0x61 := by simpa using hentry
    have hname : strEq name e.dName = false := by
      refine List.all_eq_false.mpr ⟨0, List.mem_range.mpr (Nat.succ_pos _), ?_⟩
      rw [hdot, hfirst]
      decide
    have hmatch : entryMatches name e = stop .wild := by
      rw [entryMatches, hname, fatComparesfn]
      simp only [Bool.false_eq_true, if_false, if_pos hdot, if_pos hlong]
      rfl
    have hloop (n : ℕ) :
        (fatOpenLoop fourClusters name 0 (n + 1) ⟨fun _ => 0, 0, []⟩ aDirectory).cached
        (coldCache oneFileDisk) =
        .error .wild := by
      unfold fatOpenLoop
      rw [Prog.cached_bind, hrun]
      change Prog.cached (entryMatches name e >>= _) c = _
      rw [hmatch]
      rfl
    unfold fatOpen
    rw [hself, if_neg (by decide)]
    have hseek : (fatLseek fourClusters aDirectory 0 .set).cached (coldCache oneFileDisk) =
        .ok ((0, aDirectory), coldCache oneFileDisk) := rfl
    rw [Prog.cached_bind, hseek]
    change Prog.cached (fatOpenLoop _ _ _ readdirRounds _ _ >>= _) _ = _
    rw [Prog.cached_bind, show readdirRounds = 2 ^ 64 - 1 + 1 from rfl]
    rw [hloop]
    rfl
  · cases hentry

-- ---------------------------------------------------------------------------
-- Directories on any disk
-- ---------------------------------------------------------------------------

/-- `fat_open` with this name keeps to its arrays on every volume whose long names are
inside `d_name`, and to the name. -/
structure OpenSafe (name : CStr) : Prop where
  writes (vol : Vol) (D : Disk) (flags : ℕ) (c : Cached Sector) :
      vol.fat.bytesPerSector = maxSectorSize →
    vol.fat.sectorsPerCluster ≠ 0 → On D c → vol.fat.AllFit D vol.cwd.fresh →
      (fatOpen vol name flags).cached c ≠ .error .wild
  reads : name.byte 0 ≠ 0x2e → (canonLoop name 11 0 0 fun _ => 0x20).2 ≤ name.length

theorem openSafe_iff (name : CStr) : OpenSafe name ↔ NameFits name := by
  have hopen (hn : DotFits name) (vol : Vol) (D : Disk) (flags : ℕ) (c : Cached Sector)
      (hb : vol.fat.bytesPerSector = maxSectorSize)
      (hs : vol.fat.sectorsPerCluster ≠ 0) (hc : On D c) (ha : vol.fat.AllFit D vol.cwd.fresh) :
      (fatOpen vol name flags).cached c ≠ .error .wild := (fatOpen_avoids hb hs ha hn flags c hc).1
  unfold NameFits
  split
  · rename_i hdot
    constructor
    · intro h
      by_contra hlong
      exact h.writes _ _ _ _ rfl (by decide) (coldCache_on _) oneFileDisk_allFit
        (fatOpen_dot_wild hdot (by omega))
    · exact fun hle => ⟨hopen fun _ => hle, fun h => absurd hdot h⟩
  · rename_i hdot
    constructor
    · exact fun h => (canonLoop_dangling _).mp (h.reads hdot)
    · exact fun hd => ⟨hopen fun h => absurd h hdot, fun _ => (canonLoop_dangling _).mpr hd⟩

/-- What there is to be said for `fat_readdir` at `h`, and for `fat_open` with `name`. -/
structure DirectorySafe (fat : Fat) (h : Handle) (ent : Dirent) (name : CStr) (c : Cached Sector) :
    Prop where
  writes : (fatReaddir fat h ent).cached c ≠ .error .wild
  ends : ∀ e r c', (fatReaddir fat h ent).cached c = .ok ((some e, r), c') →
    ∃ i < 256, e.dName i = 0
  reads : ∀ d d' : Mem, (∀ i < direntSize, d i = d' i) →
    readLongName d = readLongName d' ∧ readShortName d = readShortName d' ∧
      fatDirentChksum d = fatDirentChksum d'
  opens : OpenSafe name

/-- A directory is read safely just if its long names are inside `d_name`, and a name is
looked up safely just if `fat_comparesfn` can take it. -/
theorem directory_safe_iff {fat : Fat} {D : Disk} (hb : fat.bytesPerSector = maxSectorSize)
    (hs : fat.sectorsPerCluster ≠ 0)
    {c : Cached Sector} (hc : On D c) (h : Handle) (ent : Dirent) (name : CStr) :
    DirectorySafe fat h ent name c ↔ fat.RecordsFit D h readdirRounds ∧ NameFits name := by
  have he : Ended (2 ^ 16 - 1) ent.dName := fun hlt => absurd hlt (by decide)
  have hwild : (fatReaddir fat h ent).cached c ≠ .error .wild ↔ fat.RecordsFit D h readdirRounds :=
    not_iff_comm.mp (fatReaddirLoop_wild_iff hb hs he hc).symm
  constructor
  · exact fun hsafe => ⟨hwild.mp hsafe.writes, (openSafe_iff name).mp hsafe.opens⟩
  · rintro ⟨hfit, hname⟩
    refine ⟨hwild.mpr hfit, fun e r c' hrun => ?_, fun d d' hd => ?_, (openSafe_iff name).mpr hname⟩
    · exact (fatReaddirLoop_ends he).cached hrun e rfl
    · exact ⟨readLongName_congr hd, readShortName_congr hd, fatDirentChksum_congr hd⟩

/-- Its first record is one of a long name, before the first of its characters. -/
def badOrdDisk (n : ℕ) : Sector := fun i => if n = 3 then if i.val = 0 then 0x40 else if i.val =
    1 then 0x41 else if i.val = 11 then 0x0f else 0 else 0

/-- The same record with the number of the first and last of a long name. -/
def goodOrdDisk (n : ℕ) : Sector := fun i => if n = 3 ∧ i.val = 0 then 0x41 else badOrdDisk n i

theorem goodOrdDisk_fits (n : ℕ) : fourClusters.RecordsFit goodOrdDisk aDirectory n := by
  intro k _ hk hlong
  match k with
  | 0 => decide +kernel
  | 1 => exact absurd hlong (by decide +kernel)
  | k + 2 => exact absurd (hk 1 (by omega)) (by decide +kernel)

theorem directory_safe_oneFile :
    DirectorySafe fourClusters aDirectory ⟨fun _ => 0, 0, []⟩ (.ofList [0x61, 0x2e, 0x62])
      (coldCache goodOrdDisk) := by
  refine (directory_safe_iff rfl (by decide) (coldCache_on _) _ _ _).mpr ⟨goodOrdDisk_fits _, ?_⟩
  rw [NameFits, if_neg (by decide)]
  rintro ⟨p, -, hp, hdot, -⟩
  obtain rfl : p = 2 := Nat.succ.inj hp
  exact absurd hdot (by decide)

/-- A character is written 13 places before `d_name`. -/
theorem directory_unsafe_badOrd :
    (fatReaddir fourClusters aDirectory ⟨fun _ => 0, 0, []⟩).cached (coldCache badOrdDisk) =
    .error .wild := by
  refine (fatReaddirLoop_wild_iff rfl (by decide) (fun hlt => absurd hlt (by decide))
    (coldCache_on _)).mpr fun hfit => ?_
  exact absurd (hfit 0 (by decide) (fun j hj => absurd hj (Nat.not_lt_zero j)) (by decide +kernel))
    (by decide +kernel)

end SkyOS
