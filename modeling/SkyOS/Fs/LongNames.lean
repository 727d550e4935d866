import SkyOS.Fs.Opening
import SkyOS.Fs.Rounds

/-!
# Long names

`_fat_dir_create_file` cuts a name into pieces of 13 characters and writes the last piece
first. `fat_readdir` puts them together again. What comes after the end of the name is in
the last piece and is not looked at.
-/

namespace SkyOS

open ByteMem WriteBack

-- ---------------------------------------------------------------------------
-- What is written
-- ---------------------------------------------------------------------------

def recordBytes (m : Mem) : List UInt8 := (List.range direntSize).map m

def longRecords (name : CStr) (sname : ℕ → UInt8) : ℕ → Bool → List Mem
  | 0, _ => []
  | n + 1, last => longEntry name sname n last :: longRecords name sname n false

def createdRecords (name : CStr) (sname : ℕ → UInt8) (attr : UInt8) (cluster : ℕ) : List Mem :=
  longRecords name sname (name.length / 13 + 1) true ++ [shortEntry sname attr cluster]

def writeRecords : List Mem → Vol → Fs (Bool × Vol)
  | [], vol => return (true, vol)
  | m :: ms, vol => do
    let (i, fat, cwd) ← fatWrite vol.fat vol.cwd m direntSize
    if i ≠ direntSize then return (false, ⟨fat, cwd⟩)
    writeRecords ms ⟨fat, cwd⟩

/-- These are the records that are written before the one of the short name. -/
theorem writeLongEntries_eq (name : CStr) (sname : ℕ → UInt8) (n : ℕ) (last : Bool) (vol : Vol) :
    writeLongEntries name sname n last vol = writeRecords (longRecords name sname n last) vol := by
  induction n generalizing last vol with
  | zero => rfl
  | succ n ih =>
    unfold writeLongEntries longRecords writeRecords
    simp only [ih]

theorem length_longRecords (name : CStr) (sname : ℕ → UInt8) (n : ℕ) (last : Bool) :
    (longRecords name sname n last).length = n := by
  induction n generalizing last with
  | zero => rfl
  | succ n ih => rw [longRecords, List.length_cons, ih]

theorem length_createdRecords (name : CStr) (sname : ℕ → UInt8) (attr : UInt8) (cluster : ℕ) :
    (createdRecords name sname attr cluster).length = name.length / 13 + 2 := by
  rw [createdRecords, List.length_append, length_longRecords]
  rfl

theorem writeRecords_append (l l' : List Mem) (vol : Vol) : writeRecords (l ++ l') vol = (do
    let (ok, vol) ← writeRecords l vol
    if !ok then return (false, vol)
    writeRecords l' vol) := by
  induction l generalizing vol with
  | nil => rfl
  | cons m l ih =>
    rw [List.cons_append, writeRecords, writeRecords, Prog.bind_assoc]
    refine congrArg _ (funext fun (i, fat, cwd) => ?_)
    dsimp only
    split
    · rfl
    · exact ih _

/-- A file's records are all that `_fat_dir_create_file` writes, and it looks for room for
just as many. -/
theorem fatDirCreateFile_archive (vol : Vol) (name : CStr) :
    fatDirCreateFile vol name fatAttrArchive = do
      let (r, file, vol) ← fatOpen vol name 0
      if r = 0 then return (-1, file, vol)
      let (sname, file, vol) ← shortNameSearch name 9 1 none vol
      match sname with
      | none => return (-1, file, vol)
      | some sname =>
        if sname 0 = 0x20 then return (-1, file, vol)
        let rs := createdRecords name sname fatAttrArchive 0
        let cwd ← fatDirSeekEmpty vol.fat vol.cwd rs.length
        let (ok, vol) ← writeRecords rs { vol with cwd }
        if !ok then return (-1, file, vol)
        let (r, f, vol) ← fatOpen vol name 0
        return (r, f <|> file, vol) := by
  unfold fatDirCreateFile
  refine congrArg _ (funext fun (r, file, vol₁) => ?_)
  dsimp only
  split
  · rfl
  refine congrArg _ (funext fun (found, file, vol₂) => ?_)
  rcases found with - | sname
  · rfl
  dsimp only
  split
  · rfl
  rw [length_createdRecords]
  refine congrArg _ (funext fun cwd => ?_)
  rw [writeLongEntries_eq, createdRecords, writeRecords_append, Prog.bind_assoc]
  refine congrArg _ (funext fun (ok, vol₃) => ?_)
  cases ok with
  | false => rfl
  | true =>
    have hfile : newDirCluster vol₃ fatAttrArchive = pure (some 0, vol₃) := rfl
    change newDirCluster vol₃ fatAttrArchive >>= _ =
      writeRecords [shortEntry sname fatAttrArchive 0] vol₃ >>= _
    unfold writeRecords
    rw [hfile, Prog.pure_bind, Prog.bind_assoc]
    dsimp only
    refine congrArg _ (funext fun (i, fat, cwd) => ?_)
    dsimp only
    split
    · rfl
    · rfl

section
variable {name : CStr} {sname : ℕ → UInt8} {fat : Fat} {D : Disk} {h : Handle}

theorem entryMem_recordBytes (m : Mem) (hi : i < direntSize) : entryMem (recordBytes m) i =
    m i := by
  rw [entryMem, recordBytes, List.getD_eq_getElem _ _ (by simpa using hi), List.getElem_map,
    List.getElem_range]

theorem length_recordBytes (m : Mem) : (recordBytes m).length = direntSize := by simp [recordBytes]

theorem high_zero (x : UInt8) : x.toNat / 256 = 0 := Nat.div_eq_of_lt x.toNat_lt

theorem longEntry_name1 (i : ℕ) (last : Bool) (hk : k < 5) :
    readLE (longEntry name sname i last) (1 + 2 * k) 2 = (name.byte (i * 13 + k)).toNat := by
  interval_cases k <;> simp [longEntry, List.range_succ, readLE, writeLE, high_zero]

theorem longEntry_name2 (i : ℕ) (last : Bool) (hk : k < 6) :
    readLE (longEntry name sname i last) (14 + 2 * k) 2 = (name.byte (i * 13 + (k + 5))).toNat := by
  interval_cases k <;> simp [longEntry, List.range_succ, readLE, writeLE, high_zero]

theorem longEntry_name3 (i : ℕ) (last : Bool) (hk : k < 2) :
    readLE (longEntry name sname i last) (28 + 2 * k) 2 =
    (name.byte (i * 13 + (k + 11))).toNat := by
  interval_cases k <;> simp [longEntry, List.range_succ, readLE, writeLE, high_zero]

theorem longEntry_ord (last : Bool) (hi : i < 20) :
    readLE (longEntry name sname i last) 0 1 = if last then (i + 1) ||| 0x40 else i + 1 := by
  have hlt : (if last then (i + 1) ||| 0x40 else i + 1) < 256 := by
    interval_cases i <;> cases last <;> decide
  simp [longEntry, List.range_succ, readLE, writeLE]
  omega

theorem longEntry_attr (i : ℕ) (last : Bool) : longEntry name sname i last 11 =
    fatAttrLongName := by
  simp [longEntry, List.range_succ, writeLE]

theorem longEntry_chksum (i : ℕ) (last : Bool) : readLE (longEntry name sname i last) 13 1 =
    (fatDirentChksum sname).toNat := by
  simp [longEntry, List.range_succ, readLE, writeLE]

theorem shortEntry_name (attr : UInt8) (cluster : ℕ) (hi : i < 11) :
    shortEntry sname attr cluster i = sname i := by
  unfold shortEntry
  rw [writeLE_apply_of_not_mem (by omega), writeLE_apply_of_not_mem (by omega),
    writeLE_apply_of_not_mem (by omega), if_pos hi]

theorem shortEntry_attr (attr : UInt8) (cluster : ℕ) : shortEntry sname attr cluster 11 = attr := by
  simp [shortEntry, writeLE]

theorem fatDirentChksum_short {m : Mem} (hm : ∀ i < 11, m i = sname i) :
    fatDirentChksum m = fatDirentChksum sname := by
  unfold fatDirentChksum
  refine List.foldl_ext _ _ _ fun sum i hi => ?_
  rw [hm i (List.mem_range.mp hi)]

-- ---------------------------------------------------------------------------
-- What is read
-- ---------------------------------------------------------------------------

/-- The characters from `a` up to `b` are those of the name, as far as it goes. -/
def copied (name : CStr) (a b : ℕ) (d : ℕ → UInt8) : ℕ → UInt8 := fun q =>
  if a ≤ q ∧ q < b ∧ q ≤ name.length then name.byte q else d q

theorem copied_copied (name : CStr) (d : ℕ → UInt8) (hab : a ≤ b) (hbc : b ≤ c) :
    copied name b c (copied name a b d) = copied name a c d := by
  funext q
  unfold copied
  split_ifs <;> first | rfl | omega

theorem copied_ended (d : ℕ → UInt8) (hb : name.length < b) (hbc : b ≤ c) :
    copied name a b d = copied name a c d := by
  funext q
  unfold copied
  split_ifs <;> first | rfl | omega

theorem asciiFromUtf16_copied {d : Mem}
    (hd : ∀ k < count, readLE d (src + 2 * k) 2 = (name.byte (p + k)).toNat)
    (hascii : ∀ i < name.length, name.byte i ≤ 127) (hlen : name.length ≤ 255)
    (hp : p ≤ name.length) (dst : ℕ → UInt8) :
    asciiFromUtf16 d count src p dst = pure (if p + count ≤ name.length then 1 else 0,
      copied name p (p + count) dst) := by
  induction count generalizing src p dst with
  | zero =>
    rw [if_pos (show p + 0 ≤ name.length from hp)]
    have hnone : copied name p (p + 0) dst = dst := by
      funext q
      exact if_neg (by omega)
    rw [hnone]
    rfl
  | succ count ih =>
    have hhere : readLE d src 2 = (name.byte p).toNat := hd 0 (Nat.succ_pos _)
    have hsmall : (name.byte p).toNat ≤ 127 := by
      rcases hp.eq_or_lt with rfl | hlt
      · rw [name.nul]
        decide
      · exact UInt8.le_iff_toNat_le.mp (hascii p hlt)
    have hset : Function.update dst p (name.byte p) = copied name p (p + 1) dst := by
      funext q
      unfold copied
      rw [Function.update_apply]
      split_ifs with h₁ h₂
      · rw [h₁]
      · omega
      · omega
      · rfl
    unfold asciiFromUtf16
    dsimp only
    rw [hhere, if_neg (by omega), if_neg (by omega), Int.toNat_natCast, UInt8.ofNat_toNat, hset]
    by_cases hend : name.byte p = 0
    · obtain rfl : p = name.length := by
        by_contra hne
        exact name.chars p (by omega) hend
      rw [hend, if_pos (by decide), if_neg (by omega),
        copied_ended (c := name.length + (count + 1)) dst (Nat.lt_succ_self _) (by omega)]
    · have hlt := CStr.lt_of_ne hp hend
      have hne : ¬ (name.byte p).toNat = 0 := fun h => hend (UInt8.toNat_inj.mp h)
      rw [if_neg hne]
      have hd' (k : ℕ) (hk : k < count) : readLE d (src + 2 + 2 * k) 2 =
          (name.byte (p + 1 + k)).toNat := by
        have := hd (k + 1) (by omega)
        rwa [show src + 2 * (k + 1) = src + 2 + 2 * k by omega, show p + (k + 1) = p + 1 +
          k by omega] at this
      have hrest := ih hd' hlt (copied name p (p + 1) dst)
      rw [copied_copied _ _ (by omega) (by omega), Nat.add_assoc, Nat.add_comm 1 count] at hrest
      exact hrest

def cleared (last : Bool) (dst : ℕ → UInt8) : ℕ → UInt8 := if last then fun i =>
    if i < 256 then 0 else dst i else dst

theorem longEntry_index (last : Bool) (hi : i < 20) :
    (((readLE (longEntry name sname i last) 0 1 &&& 0x3f : ℕ) : ℤ) - 1) * 13 =
    ((i * 13 : ℕ) : ℤ) := by
  rw [longEntry_ord last hi]
  interval_cases i <;> cases last <;> rfl

theorem longEntry_first (last : Bool) (hi : i < 20) :
    readLE (longEntry name sname i last) 0 1 &&& 0x40 ≠ 0 ↔ last = true := by
  rw [longEntry_ord last hi]
  interval_cases i <;> cases last <;> decide

theorem readLongName_longEntry (hascii : ∀ i < name.length, name.byte i ≤ 127)
    (hlen : name.length ≤ 255) (hi : i * 13 ≤ name.length)
    (hcsum : last = true ∨ csum = (fatDirentChksum sname).toNat) (dst : ℕ → UInt8) :
    readLongName (longEntry name sname i last) csum dst =
      pure ((fatDirentChksum sname).toNat,
        copied name (i * 13) (i * 13 + 13) (cleared last dst)) := by
  have hi20 : i < 20 := by omega
  have hstart : (if readLE (longEntry name sname i last) 0 1 &&& 0x40 ≠ 0 then
      (readLE (longEntry name sname i last) 13 1, fun i => if i < 256 then 0 else dst i) else
        (csum, dst)) =
      ((fatDirentChksum sname).toNat, cleared last dst) := by
    simp only [longEntry_first last hi20, longEntry_chksum]
    unfold cleared
    cases last with
    | true => rfl
    | false => rw [hcsum.resolve_left Bool.false_ne_true]; rfl
  unfold readLongName
  dsimp only
  rw [hstart, longEntry_index last hi20, longEntry_chksum]
  dsimp only
  rw [if_neg (by simp), asciiFromUtf16_copied (fun k hk => longEntry_name1 i last hk) hascii
    hlen hi]
  change (if (if i * 13 + 5 ≤ name.length then 1 else 0) = 0 then _ else _) = _
  by_cases h₁ : i * 13 + 5 ≤ name.length
  · rw [if_pos h₁, if_neg Nat.one_ne_zero, if_neg (show ¬ 1 = 2 by decide),
        show ((i * 13 : ℕ) : ℤ) + 5 = ((i * 13 + 5 : ℕ) : ℤ) by push_cast; rfl,
      asciiFromUtf16_copied (fun k hk =>
        (longEntry_name2 i last hk).trans (by rw [Nat.add_comm k, Nat.add_assoc])) hascii hlen h₁,
      copied_copied _ _ (by omega) (by omega)]
    rw [show i * 13 + 5 + 6 = i * 13 + 11 from rfl]
    change (if (if i * 13 + 11 ≤ name.length then 1 else 0) = 0 then _ else _) = _
    by_cases h₂ : i * 13 + 11 ≤ name.length
    · rw [if_pos h₂, if_neg Nat.one_ne_zero, if_neg (show ¬ 1 = 2 by decide),
          show ((i * 13 : ℕ) : ℤ) + 11 = ((i * 13 + 11 : ℕ) : ℤ) by push_cast; rfl,
        asciiFromUtf16_copied (fun k hk =>
          (longEntry_name3 i last hk).trans (by rw [Nat.add_comm k, Nat.add_assoc])) hascii hlen h₂,
        copied_copied _ _ (by omega) (by omega)]
      change (if (if i * 13 + 11 + 2 ≤ name.length then 1 else 0) = 0 then _ else _) = _
      by_cases h₃ : i * 13 + 11 + 2 ≤ name.length
      · rw [if_pos h₃, if_neg Nat.one_ne_zero, if_neg (show ¬ 1 = 2 by decide)]
      · rw [if_neg h₃, if_pos rfl]
    · rw [if_neg h₂, if_pos rfl, copied_ended (c := i * 13 + 13) _ (by omega) (by omega)]
  · rw [if_neg h₁, if_pos rfl, copied_ended (c := i * 13 + 13) _ (by omega) (by omega)]

-- ---------------------------------------------------------------------------
-- fat_readdir
-- ---------------------------------------------------------------------------

/-- What `fat_readdir` should make of the records. -/
structure Recovered (name : CStr) (sname : ℕ → UInt8) (attr : UInt8) (e : Dirent) : Prop where
  dName : strEq name e.dName = true
  fatAttr : e.fatAttr = attr
  fatSname : e.fatSname = (List.range 11).map sname

def Fat.Holds (fat : Fat) (D : Disk) (h : Handle) (rs : List Mem) : Prop :=
  ∀ k (hk : k < rs.length), fat.record D h k = recordBytes rs[k]

theorem Fat.Holds.cons (hr : fat.Holds D h (m :: rs)) :
    (fat.read D h).1 = recordBytes m ∧ fat.Holds D (fat.read D h).2 rs :=
  ⟨hr 0 (Nat.succ_pos _), fun k hk => hr (k + 1) (Nat.succ_lt_succ hk)⟩

theorem isLong_longEntry (last : Bool) (hi : i < 20) :
    IsLong (recordBytes (longEntry name sname i last)) := by
  have hne : 0 < readLE (longEntry name sname i last) 0 1 ∧
      readLE (longEntry name sname i last) 0 1 < 0xe5 := by
    rw [longEntry_ord last hi]
    interval_cases i <;> cases last <;> decide
  rw [readLE, readLE, Nat.mul_zero, Nat.add_zero] at hne
  refine ⟨length_recordBytes _, ?_, ?_, ?_⟩
  · rw [entryMem_recordBytes _ (by decide)]
    intro h
    rw [h] at hne
    exact absurd hne.1 (by decide)
  · rw [entryMem_recordBytes _ (by decide)]
    intro h
    rw [h] at hne
    exact absurd hne.2 (by decide)
  · exact (entryMem_recordBytes _ (by decide)).trans (longEntry_attr i last)

theorem recovered_short (hpos : 1 ≤ name.length) (h0 : sname 0 ≠ 0) (hdel : sname 0 ≠ 0xe5)
    (hattr : attr = fatAttrArchive ∨ attr = fatAttrDirectory) (cluster : ℕ)
    (hname : ∀ q ≤ name.length, ent.dName q = name.byte q) :
    IsEntry (recordBytes (shortEntry sname attr cluster)) ∧
      Recovered name sname attr
      (toDirent (fatDirentChksum sname).toNat ent
        (recordBytes (shortEntry sname attr cluster))) := by
  have hbyte (i : ℕ) (hi : i < 11) : entryMem (recordBytes (shortEntry sname attr cluster)) i =
      sname i :=
    (entryMem_recordBytes _ (hi.trans (by decide))).trans (shortEntry_name attr cluster hi)
  have ha : entryAttr (entryMem (recordBytes (shortEntry sname attr cluster))) = attr :=
    (entryMem_recordBytes _ (by decide)).trans (shortEntry_attr attr cluster)
  have hvol : attr ≠ fatAttrVolumeId := by rcases hattr with rfl | rfl <;> decide
  have hlong : attr ≠ fatAttrLongName := by rcases hattr with rfl | rfl <;> decide
  have hlive : ¬ ent.dName 0 = 0 := by
    rw [hname 0 (Nat.zero_le _)]
    exact name.chars 0 (by omega)
  have hdName :
      (toDirent (fatDirentChksum sname).toNat ent
      (recordBytes (shortEntry sname attr cluster))).dName = ent.dName := by
    unfold toDirent
    rw [fatDirentChksum_short hbyte]
    dsimp only
    rw [if_neg (not_not.mpr rfl), if_neg hlive]
  refine ⟨⟨length_recordBytes _, ?_, ?_, ?_, ?_⟩, ?_, ha, ?_⟩
  · rwa [hbyte 0 (by decide)]
  · rwa [hbyte 0 (by decide)]
  · rwa [ha]
  · rwa [ha]
  · rw [hdName, strEq, List.all_eq_true]
    intro q hq
    rw [List.mem_range] at hq
    rw [hname q (by omega)]
    exact beq_self_eq_true _
  · change (recordBytes (shortEntry sname attr cluster)).take 11 = _
    rw [recordBytes, ← List.map_take, List.take_range]
    refine List.map_congr_left fun i hi => ?_
    rw [List.mem_range] at hi
    exact shortEntry_name attr cluster (by unfold direntSize at hi; omega)

theorem fatReaddirLoop_created (hb : fat.bytesPerSector = maxSectorSize)
    (hs : fat.sectorsPerCluster ≠ 0) (hpos : 1 ≤ name.length)
    (hlen : name.length ≤ 255) (hascii : ∀ i < name.length, name.byte i ≤ 127) (h0 : sname 0 ≠ 0)
    (hdel : sname 0 ≠ 0xe5)
    (hattr : attr = fatAttrArchive ∨ attr = fatAttrDirectory) (hn : (n - 1) * 13 ≤ name.length)
    (hr : fat.Holds D h (longRecords name sname n last ++ [shortEntry sname attr cluster]))
    (hstate : last = true ∧ name.length < n * 13 ∨ last = false ∧
      csum = (fatDirentChksum sname).toNat ∧
      ∀ q, n * 13 ≤ q → q ≤ name.length → ent.dName q = name.byte q)
    (hfuel : n < fuel) : ∃ e, Gives .univ (On D) (fatReaddirLoop fat fuel csum ent h) (some e, e,
      (fat.scan D h n).2) (On D) ∧
      Recovered name sname attr e := by
  obtain ⟨fuel, rfl⟩ := Nat.exists_eq_succ_of_ne_zero (show fuel ≠ 0 by omega)
  have hread := fatRead_record (D := D) hb hs h
  obtain ⟨r, hr'⟩ : ∃ r, fat.read D h = r := ⟨_, rfl⟩
  obtain ⟨l, h'⟩ := r
  induction n generalizing h csum ent last fuel l h' with
  | zero =>
    obtain ⟨-, rfl, hname⟩ := hstate.resolve_left fun h => absurd h.2 (by omega)
    obtain ⟨he, hrec⟩ := recovered_short hpos h0 hdel hattr cluster fun q hq =>
      hname q (by omega) hq
    have hl := (Fat.Holds.cons hr).1
    rw [hr'] at hread hl
    dsimp only at hl
    subst hl
    refine ⟨_, ?_, hrec⟩
    rw [Fat.scan, hr']
    exact fatReaddirLoop_entry hread he fuel _ ent
  | succ n ih =>
    obtain ⟨hl, hrest⟩ := Fat.Holds.cons hr
    have hi : n * 13 ≤ name.length := hn
    obtain ⟨fuel, rfl⟩ := Nat.exists_eq_succ_of_ne_zero (show fuel ≠ 0 by omega)
    rw [hr'] at hread hl hrest
    dsimp only at hl hrest
    subst hl
    have hnext : ∀ q, n * 13 ≤ q → q ≤ name.length →
        copied name (n * 13) (n * 13 + 13) (cleared last ent.dName) q = name.byte q := by
      intro q hq hle
      unfold copied
      split_ifs with hin
      · rfl
      · obtain ⟨-, hshort⟩ | ⟨rfl, -, hname⟩ := hstate
        · omega
        · exact hname q (by omega) hle
    obtain ⟨e, hloop, he⟩ := @ih h' false _
        { ent with dName := copied name (n * 13) (n * 13 + 13) (cleared last ent.dName) }
      (by omega) hrest (.inr ⟨rfl, rfl, hnext⟩) fuel (by omega) (fatRead_record hb hs h') _ _ rfl
    · refine ⟨e, ?_, he⟩
      rw [Fat.scan, hr']
      refine fatReaddirLoop_long hread (isLong_longEntry last (by omega)) ?_ hloop
      rw [readLongName_congr fun i hi => entryMem_recordBytes (longEntry name sname n last) hi]
      exact readLongName_longEntry hascii hlen hi (hstate.imp And.left fun h => h.2.1) _

/-- What is written for a name is read as that name, whatever was in the entry before. -/
theorem long_name_round_trip (hb : fat.bytesPerSector = maxSectorSize)
    (hs : fat.sectorsPerCluster ≠ 0) (hpos : 1 ≤ name.length)
    (hlen : name.length ≤ 255) (hascii : ∀ i < name.length, name.byte i ≤ 127) (h0 : sname 0 ≠ 0)
    (hdel : sname 0 ≠ 0xe5)
    (hattr : attr = fatAttrArchive ∨
      attr = fatAttrDirectory) (hr : fat.Holds D h (createdRecords name sname attr cluster))
    (ent : Dirent) {c : Cached Sector} (hc : On D c) :
    (∀ vol, writeLongEntries name sname (name.length / 13 + 1) true vol =
      writeRecords (longRecords name sname (name.length / 13 + 1) true) vol) ∧
    ∃ e h' c', (fatReaddir fat h ent).cached c = .ok ((some e, e, h'), c') ∧ On D c' ∧
      Recovered name sname attr e := by
  refine ⟨writeLongEntries_eq name sname _ true, ?_⟩
  have hlast : name.length < (name.length / 13 + 1) * 13 := by omega
  have hrounds : name.length / 13 + 1 < readdirRounds :=
    lt_of_le_of_lt (show _ ≤ 20 by omega) (by decide)
  obtain ⟨e, hloop, he⟩ :
      ∃ e, Gives .univ (On D) (fatReaddirLoop fat readdirRounds (2 ^ 16 - 1) ent h)
      (some e, e, (fat.scan D h (name.length / 13 + 1)).2) (On D) ∧ Recovered name sname attr e :=
    fatReaddirLoop_created hb hs hpos hlen hascii h0 hdel hattr (by omega) hr
      (.inl ⟨rfl, hlast⟩) hrounds
  obtain ⟨-, c', hrun, hc'⟩ := hloop.run hc
  exact ⟨e, _, c', hrun, hc', he⟩

end

/-- Its second piece is the NUL alone, and what follows it in memory. -/
def thirteen : CStr where
  byte i := if i < 13 then 0x61 else if i = 13 then 0 else 0x7a
  length := 13
  nul := rfl
  chars i hi := by
    rw [if_pos hi]
    decide

def shortThirteen (i : ℕ) : UInt8 := if i < 6 then 0x41 else if i = 6 then 0x7e else if i =
    7 then 0x31 else 0x20

def createdDisk (n : ℕ) : Sector := .ofMem fun i =>
  if n = 3 then
    ((createdRecords thirteen shortThirteen fatAttrArchive 0).map recordBytes).flatten.getD i
    0 else 0

theorem createdDisk_holds :
    fourClusters.Holds createdDisk aDirectory (createdRecords thirteen shortThirteen fatAttrArchive
      0) := by
  intro k hk
  have hk : k < 3 := hk
  interval_cases k
  · decide +kernel +revert
  · decide +kernel +revert
  · decide +kernel +revert

theorem long_name_thirteen :
    (∀ vol, writeLongEntries thirteen shortThirteen (13 / 13 + 1) true vol =
      writeRecords (longRecords thirteen shortThirteen (13 / 13 + 1) true) vol) ∧
    ∃ e h' c', (fatReaddir fourClusters aDirectory ⟨fun _ => 0x7a, 0, []⟩).cached
    (coldCache createdDisk) = .ok ((some e, e, h'), c') ∧
      On createdDisk c' ∧ Recovered thirteen shortThirteen fatAttrArchive e :=
  long_name_round_trip rfl (by decide) (by decide) (by decide) (by decide) (by decide) (by decide)
      (.inl rfl) createdDisk_holds _
    (coldCache_on _)

end SkyOS
