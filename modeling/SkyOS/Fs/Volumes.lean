import SkyOS.Fs.Files
import SkyOS.Fs.Ops

/-!
# A volume with open files

What the open files are for those who use them: tapes that have nothing to do with each
other, and clusters to spare that they share. Every run of reads, writes and seeks that
the tapes can do is done by the file system, on whichever of the files, in any order.
-/

namespace SkyOS

open ByteMem WriteBack Chains

/-- The open files, and how many clusters are to spare. -/
structure Store where
  tape : ℕ → Option (Tape UInt8)
  room : ℕ

namespace Store

def put (s : Store) (i : ℕ) (t : Tape UInt8) (room : ℕ) : Store :=
  ⟨Function.update s.tape i (some t), room⟩

theorem put_self (s : Store) (i : ℕ) (t : Tape UInt8) (room : ℕ) :
    (s.put i t room).tape i = some t := Function.update_self _ _ _

theorem put_of_ne (s : Store) (t : Tape UInt8) (room : ℕ) (h : j ≠ i) :
    (s.put i t room).tape j = s.tape j := Function.update_of_ne h _ _

/-- A call, where `n` bytes need `needs n` clusters. No file is read or sought in that has no
bytes, and none gets longer than there is room for. -/
def step (needs : ℕ → ℕ) (s : Store) : FsOp → Option (FsResult × Store)
  | .read (.file i) n => do
    let t ← s.tape i
    guard (t.cells ≠ [] ∧ 0 ≤ n ∧ n < 2 ^ 31)
    return (.bytes (t.ahead n.toNat), s.put i (t.pass n.toNat) s.room)
  | .lseek (.file i) offset whence => do
    let t ← s.tape i
    let p ← lseekGoal t offset whence
    guard (t.cells ≠ [] ∨ p = 0)
    return (.position (t.seek p).pos, s.put i (t.seek p) s.room)
  | .write (.file i) b n => do
    let t ← s.tape i
    let l := (List.range n.toNat).map b
    let more := needs (t.write l).cells.length - needs t.cells.length
    guard (0 ≤ n ∧ t.pos + n.toNat < 2 ^ 31 ∧ more ≤ s.room)
    return (.int n, s.put i (t.write l) (s.room - more))
  | _ => none

def steps (needs : ℕ → ℕ) : List FsOp → Store → Option (List FsResult × Store)
  | [], s => some ([], s)
  | op :: ops, s => do
    let (r, s) ← s.step needs op
    let (rs, s) ← steps needs ops s
    return (r :: rs, s)

end Store

/-- The handles are those of the open files, which have the clusters `cs`. The records can be
written without a file or another record being touched. -/
structure Keeps (fat : Fat) (D : Disk) (files : ℕ → Handle) (cs : ℕ → List ℕ) (s : Store) :
    Prop where
  holds : ∀ i t, s.tape i = some t → (files i).Holds fat D (cs i) t
  found : ∀ i t, s.tape i = some t → Found D (files i).fresh
  apart : ∀ i t j u, s.tape i = some t → s.tape j = some u → i ≠ j → ∀ c ∈ cs i, c ∉ cs j
  outside : ∀ i t, s.tape i = some t → ∀ c, fat.InCluster c (files i).direntSector →
    c ∉ fat.spare D ∧ ∀ j u, s.tape j = some u → c ∉ cs j
  records : ∀ i t j u, s.tape i = some t → s.tape j = some u → i ≠ j →
      (files i).direntSector = (files j).direntSector →
    (files i).direntOffset + direntSize ≤ (files j).direntOffset ∨
      (files j).direntOffset + direntSize ≤ (files i).direntOffset
  room : s.room ≤ (fat.spare D).card

section
variable {fat : Fat} {D D' : Disk} {files : ℕ → Handle} {cs : ℕ → List ℕ} {s : Store}
    {t t' : Tape UInt8}

theorem Keeps.hint (hk : Keeps fat D files cs s) (l : ℕ) : Keeps (fat.hint l) D files cs s :=
  ⟨fun i t hi => (hk.holds i t hi).hint l, hk.found, hk.apart, hk.outside, hk.records, hk.room⟩

/-- The clusters of the file are old ones, and ones that were to spare. -/
theorem Keeps.apart_new (hk : Keeps fat D files cs s) (hi : s.tape i = some t)
    (hs : Handle.Served fat D D' (files i) h' (cs i) cs' t t') (hj : s.tape j = some u)
    (hji : j ≠ i) (hc : c ∈ cs') : c ∉ cs j := by
  intro hcj
  rcases hs.grows c hc with hold | hspare
  · exact hk.apart i t j u hi hj (Ne.symm hji) c hold hcj
  · exact (hk.holds j u hj).owns.spare c hcj hspare

theorem Keeps.record_new (hk : Keeps fat D files cs s) (hi : s.tape i = some t)
    (hs : Handle.Served fat D D' (files i) h' (cs i) cs' t t') (hj : s.tape j = some u)
    (hc : c ∈ cs') : ¬ fat.InCluster c (files j).direntSector := by
  intro hin
  obtain ⟨hspare, hnone⟩ := hk.outside j u hj c hin
  exact (hs.grows c hc).elim (hnone i t hi) hspare

theorem Keeps.holds_other (hf : fat.WellFormed) (hk : Keeps fat D files cs s)
    (hi : s.tape i = some t) (hs : Handle.Served fat D D' (files i) h' (cs i) cs' t t')
    (hj : s.tape j = some u) (hji : j ≠ i) : (files j).Holds fat D' (cs j) u := by
  have hh := hk.holds j u hj
  have hdata := hh.owns.data
  refine hh.frame hf.toSized (fun c hc => hs.entries c (hdata c hc) fun hc' =>
    hk.apart_new hi hs hj hji hc' hc) fun c hc x hx => ?_
  refine hs.sectors x (hf.not_isFat (hdata c hc) hx) ?_ fun d hd hx' => ?_
  · rintro rfl
    exact (hk.outside i t hi c hx).2 j u hj hc
  · exact hk.apart_new hi hs hj hji hd
      (hf.inCluster_unique (hs.holds.owns.data d hd) (hdata c hc) hx' hx ▸ hc)

theorem Keeps.found_other (hk : Keeps fat D files cs s) (hi : s.tape i = some t)
    (hs : Handle.Served fat D D' (files i) h' (cs i) cs' t t') (hj : s.tape j = some u)
    (hji : j ≠ i) : Found D' (files j).fresh := by
  have hplaced := (hk.holds j u hj).placed (hk.holds j u hj).record
  refine (hk.found j u hj).congr ?_
  exact hs.records _ _ hplaced.1 (fun _ hc => hk.record_new hi hs hj hc) hplaced.2
    (hk.records j u i t hj hi hji)

theorem Keeps.served (hf : fat.WellFormed) (hk : Keeps fat D files cs s) (hi : s.tape i = some t)
    (hs : Handle.Served fat D D' (files i) h' (cs i) cs' t t') (hroom : m ≤ (fat.spare D').card) :
    Keeps fat D' (Function.update files i h') (Function.update cs i cs') (s.put i t' m) := by
  have hplace (j : ℕ) : (Function.update files i h' j).direntSector = (files j).direntSector ∧
      (Function.update files i h' j).direntOffset = (files j).direntOffset := by
    by_cases hj : j = i
    · rw [hj, Function.update_self]
      exact hs.place
    · rw [Function.update_of_ne hj]
      exact ⟨rfl, rfl⟩
  have hopen (j : ℕ) (u : Tape UInt8) (hj : (s.put i t' m).tape j = some u) :
      ∃ u, s.tape j = some u := by
    by_cases hji : j = i
    · exact ⟨t, hji ▸ hi⟩
    · exact ⟨u, (s.put_of_ne t' m hji).symm.trans hj⟩
  constructor
  case holds =>
    intro j u hj
    by_cases hji : j = i
    · subst hji
      obtain rfl : t' = u := Option.some.inj ((s.put_self j t' m).symm.trans hj)
      rw [Function.update_self, Function.update_self]
      exact hs.holds
    · rw [Function.update_of_ne hji, Function.update_of_ne hji]
      exact hk.holds_other hf hi hs ((s.put_of_ne t' m hji).symm.trans hj) hji
  case found =>
    intro j u hj
    by_cases hji : j = i
    · subst hji
      rw [Function.update_self]
      exact hs.found (hk.found j t hi)
    · rw [Function.update_of_ne hji]
      exact hk.found_other hi hs ((s.put_of_ne t' m hji).symm.trans hj) hji
  case apart =>
    intro j u k v hj hk' hjk c hc hck
    by_cases hji : j = i
    · subst hji
      rw [Function.update_self] at hc
      rw [Function.update_of_ne (Ne.symm hjk)] at hck
      exact hk.apart_new hi hs ((s.put_of_ne t' m (Ne.symm hjk)).symm.trans hk') (Ne.symm hjk) hc
        hck
    rw [Function.update_of_ne hji] at hc
    have hj : s.tape j = some u := (s.put_of_ne t' m hji).symm.trans hj
    by_cases hki : k = i
    · rw [hki, Function.update_self] at hck
      exact hk.apart_new hi hs hj hji hck hc
    · rw [Function.update_of_ne hki] at hck
      exact hk.apart j u k v hj ((s.put_of_ne t' m hki).symm.trans hk') hjk c hc hck
  case outside =>
    intro j u hj c hin
    obtain ⟨u, hj⟩ := hopen j u hj
    rw [(hplace j).1] at hin
    have hout (hc : c ∈ cs') : False := hk.record_new hi hs hj hc hin
    obtain ⟨hspare, hnone⟩ := hk.outside j u hj c hin
    refine ⟨fun hc => hspare ?_, fun k v hk' hck => ?_⟩
    · have hmem := Fat.mem_spare.mp hc
      exact Fat.mem_spare.mpr ⟨hmem.1, (hs.entries c (Fat.spare_data hc) hout).symm.trans hmem.2⟩
    · by_cases hki : k = i
      · subst hki
        rw [Function.update_self] at hck
        exact hout hck
      · rw [Function.update_of_ne hki] at hck
        exact hnone k v ((s.put_of_ne t' m hki).symm.trans hk') hck
  case records =>
    intro j u k v hj hk' hjk
    obtain ⟨u, hj⟩ := hopen j u hj
    obtain ⟨v, hk'⟩ := hopen k v hk'
    rw [(hplace j).1, (hplace j).2, (hplace k).1, (hplace k).2]
    exact hk.records j u k v hj hk' hjk
  case room => exact hroom

-- ---------------------------------------------------------------------------
-- Calls
-- ---------------------------------------------------------------------------

/-- The file system after a call: it returns `r`, and the handles keep `s'`. -/
def Serves (fat : Fat) (run : Fs (FsResult × FsState)) (c : Cached Sector) (r : FsResult)
    (s' : Store) : Prop :=
  ∃ st' c' D' cs' l, run.cached c = .ok ((r, st'), c') ∧ On D' c' ∧ st'.vol.fat = fat.hint l ∧
      (fat.hint l).Hinted ∧
    Keeps st'.vol.fat D' st'.files cs' s'

theorem Keeps.moves {op : FsOp} (hf : st.vol.fat.WellFormed) (hl : st.vol.fat.Hinted)
    (hk : Keeps st.vol.fat D st.files cs s)
    (hi : s.tape i = some t)
    (hrun : (op.run st).cached c =
      .ok ((r, st.setHandle ((st.files i).moved st.vol.fat D (t.seek p).pos) (.file i)), c'))
    (hc' : On D c') : Serves st.vol.fat (op.run st) c r (s.put i (t.seek p) s.room) :=
  ⟨_, c', D, _, st.vol.fat.lastClusterAlloc, hrun, hc', rfl, hl,
    hk.served hf hi ((hk.holds i t hi).served hf.toSized p) hk.room⟩

theorem Keeps.read (hf : st.vol.fat.WellFormed) (hl : st.vol.fat.Hinted)
    (hk : Keeps st.vol.fat D st.files cs s) (hc : On D c)
    (hi : s.tape i = some t) (hne : t.cells ≠ []) (hn : 0 ≤ n) (hlt : n < 2 ^ 31) :
    Serves st.vol.fat (FsOp.run st (.read (.file i) n)) c (.bytes (t.ahead n.toNat))
    (s.put i (t.pass n.toNat) s.room) := by
  have hh := hk.holds i t hi
  obtain ⟨-, c', hrun, hc'⟩ := (hh.read hf hne hn hlt).run hc
  refine hk.moves hf hl hi ?_ hc'
  unfold FsOp.run
  rw [Prog.cached_bind, show st.handle (.file i) = st.files i from rfl, hrun]
  rfl

theorem Keeps.lseek (hf : st.vol.fat.WellFormed) (hl : st.vol.fat.Hinted)
    (hk : Keeps st.vol.fat D st.files cs s) (hc : On D c)
    (hi : s.tape i = some t) (hg : lseekGoal t offset whence = some p) (hp : t.cells ≠ [] ∨ p = 0) :
    Serves st.vol.fat (FsOp.run st (.lseek (.file i) offset whence)) c (.position (t.seek p).pos)
    (s.put i (t.seek p) s.room) := by
  have hh := hk.holds i t hi
  obtain ⟨-, c', hrun, hc'⟩ := (hh.lseek hf.toSized hg hp).run hc
  refine hk.moves hf hl hi ?_ hc'
  unfold FsOp.run
  rw [Prog.cached_bind, show st.handle (.file i) = st.files i from rfl, hrun]
  rfl

theorem Keeps.write (hf : st.vol.fat.WellFormed) (ha : st.vol.fat.Aligned) (hl : st.vol.fat.Hinted)
    (hk : Keeps st.vol.fat D st.files cs s)
    (hc : On D c) (hi : s.tape i = some t) (hn : 0 ≤ n) (hlt : t.pos + n.toNat < 2 ^ 31)
    (hroom : st.vol.fat.needs (t.write ((List.range n.toNat).map b)).cells.length -
      st.vol.fat.needs t.cells.length ≤ s.room) :
    Serves st.vol.fat (FsOp.run st (.write (.file i) b n)) c (.int n)
    (s.put i (t.write ((List.range n.toNat).map b))
      (s.room - (st.vol.fat.needs (t.write ((List.range n.toNat).map b)).cells.length -
        st.vol.fat.needs t.cells.length))) := by
  have hh := hk.holds i t hi
  have hspare := hk.room
  have hlen : (t.write ((List.range n.toNat).map b)).cells.length =
      max t.cells.length (t.pos + n.toNat) :=
    (t.length_laid _).trans (by rw [List.length_map, List.length_range])
  obtain ⟨l, h', D', cs', c', hrun, hc', hl', hs⟩ :=
      hh.write (b := b) hf ha hl n.toNat hlt (by rw [← hlen]; omega)
    (fun d hd hin => hd.elim ((hk.outside i t hi d hin).2 i t hi) (hk.outside i t hi d hin).1) hc
  rw [Int.toNat_of_nonneg hn] at hrun
  have hcount := hs.count
  refine ⟨(st.setFat (st.vol.fat.hint l)).setHandle h' (.file i), c', D', _, l, ?_, hc', rfl, hl',
    (hk.served hf hi hs (by omega)).hint l⟩
  unfold FsOp.run
  rw [Prog.cached_bind, show st.handle (.file i) = st.files i from rfl, hrun]
  conv_rhs => rw [← Int.toNat_of_nonneg hn]
  rfl

theorem Keeps.step (hf : st.vol.fat.WellFormed) (ha : st.vol.fat.Aligned) (hl : st.vol.fat.Hinted)
    (hk : Keeps st.vol.fat D st.files cs s)
    (hc : On D c) (hs : s.step st.vol.fat.needs op = some (r, s')) :
    Serves st.vol.fat (op.run st) c r s' := by
  match op, hs with
  | .read (.file i) n, hs =>
    simp only [Store.step, Option.bind_eq_bind, Option.bind_eq_some_iff, Option.guard_eq_some',
        Option.pure_def, Option.some.injEq,
      Prod.mk.injEq] at hs
    obtain ⟨t, hi, -, ⟨hne, hn, hlt⟩, rfl, rfl⟩ := hs
    exact hk.read hf hl hc hi hne hn hlt
  | .lseek (.file i) offset whence, hs =>
    simp only [Store.step, Option.bind_eq_bind, Option.bind_eq_some_iff, Option.guard_eq_some',
        Option.pure_def, Option.some.injEq,
      Prod.mk.injEq] at hs
    obtain ⟨t, hi, p, hg, -, hp, rfl, rfl⟩ := hs
    exact hk.lseek hf hl hc hi hg hp
  | .write (.file i) b n, hs =>
    simp only [Store.step, Option.bind_eq_bind, Option.bind_eq_some_iff, Option.guard_eq_some',
        Option.pure_def, Option.some.injEq,
      Prod.mk.injEq] at hs
    obtain ⟨t, hi, -, ⟨hn, hlt, hroom⟩, rfl, rfl⟩ := hs
    exact hk.write hf ha hl hc hi hn hlt hroom
  | .volInit, hs | .opens _ _ _, hs | .chdir _, hs | .readdir _ _, hs | .create _ _ _,
      hs | .mkdir _, hs | .unlink _, hs | .sync _, hs
  | .read .cwd _, hs | .lseek .cwd _ _, hs | .write .cwd _ _, hs => exact nomatch hs

theorem Keeps.steps (hf : st.vol.fat.WellFormed) (ha : st.vol.fat.Aligned) (hl : st.vol.fat.Hinted)
    (hk : Keeps st.vol.fat D st.files cs s)
    (hc : On D c) (hs : s.steps st.vol.fat.needs ops = some (rs, s')) :
    ∃ st' c' D' cs' l, (runOps ops st).cached c = .ok ((rs, st'), c') ∧ On D' c' ∧
      st'.vol.fat = st.vol.fat.hint l ∧
      Keeps st'.vol.fat D' st'.files cs' s' := by
  induction ops generalizing st D cs s c rs with
  | nil =>
    obtain ⟨rfl, rfl⟩ := Prod.mk.inj (Option.some.inj hs)
    exact ⟨st, c, D, cs, st.vol.fat.lastClusterAlloc, rfl, hc, rfl, hk⟩
  | cons op ops ih =>
    simp only [Store.steps, Option.bind_eq_bind, Option.bind_eq_some_iff, Option.pure_def,
      Option.some.injEq, Prod.mk.injEq] at hs
    obtain ⟨⟨r, s₁⟩, hs₁, ⟨rs', s₂⟩, hs₂, rfl, rfl⟩ := hs
    obtain ⟨st₁, c₁, D₁, cs₁, l₁, hrun₁, hc₁, hfat₁, hl₁, hk₁⟩ := hk.step hf ha hl hc hs₁
    have hfat (P : Fat → Prop) (h : P (st.vol.fat.hint l₁)) : P st₁.vol.fat := hfat₁ ▸ h
    obtain ⟨st₂, c₂, D₂, cs₂, l₂, hrun₂, hc₂, hfat₂, hk₂⟩ :=
        ih (hfat _ (hf.hint l₁)) (hfat Fat.Aligned ha) (hfat _ hl₁) hk₁ hc₁
      (hfat (fun fat => s₁.steps fat.needs ops = _) hs₂)
    refine ⟨st₂, c₂, D₂, cs₂, l₂, ?_, hc₂, hfat₂.trans (by rw [hfat₁]; rfl), hk₂⟩
    unfold runOps
    rw [Prog.cached_bind_ok]
    refine ⟨_, _, hrun₁, ?_⟩
    rw [Prog.cached_bind_ok]
    exact ⟨_, _, hrun₂, rfl⟩

/-- Calls on open files, in any order: each file is a tape of its own. -/
theorem open_files (st : FsState) (hf : st.vol.fat.WellFormed) (ha : st.vol.fat.Aligned)
    (hl : st.vol.fat.Hinted) (hk : Keeps st.vol.fat D st.files cs s)
    (hc : On D c) (ops : List FsOp) (hs : s.steps st.vol.fat.needs ops = some (rs, s')) :
    ∃ st' c' D' cs', (runOps ops st).cached c = .ok ((rs, st'), c') ∧ On D' c' ∧
      Keeps st'.vol.fat D' st'.files cs' s' := by
  obtain ⟨st', c', D', cs', -, hrun, hc', -, hk'⟩ := hk.steps hf ha hl hc hs
  exact ⟨st', c', D', cs', hrun, hc', hk'⟩

/-- Whatever was done to the open files, a handle made from a record reads what the tape has. -/
theorem files_reopened (st : FsState) (hf : st.vol.fat.WellFormed) (ha : st.vol.fat.Aligned)
    (hl : st.vol.fat.Hinted) (hk : Keeps st.vol.fat D st.files cs s)
    (hc : On D c) (ops : List FsOp) (hs : s.steps st.vol.fat.needs ops = some (rs, s')) :
    ∃ st' c' D', (runOps ops st).cached c = .ok ((rs, st'), c') ∧ On D' c' ∧
      ∀ i t, s'.tape i = some t →
      Found D' (st'.files i).fresh ∧ ∀ f n, Found D' f →
        f.direntSector = (st'.files i).direntSector →
        f.direntOffset = (st'.files i).direntOffset → f.flags &&& oAsync = 0 → t.cells ≠ [] →
          n < 2 ^ 31 →
        ∃ f' c'', (fatRead st'.vol.fat f (n : ℕ)).cached c' = .ok ((t.cells.take n, f'), c'') := by
  obtain ⟨st', c', D', cs', l, hrun, hc', hfat, hk'⟩ := hk.steps hf ha hl hc hs
  have hf' : st'.vol.fat.WellFormed := hfat ▸ hf.hint l
  refine ⟨st', c', D', hrun, hc',
    fun i t hi => ⟨hk'.found i t hi, fun f n hfound hsector hoffset hsync hne hn => ?_⟩⟩
  have hh := (hk'.holds i t hi).reopened (hk'.found i t hi) hfound hsector hoffset hsync
  obtain ⟨-, c'', hread, -⟩ := (hh.read hf' hne (Int.natCast_nonneg n) (by omega)).run hc'
  rw [Tape.ahead_start, Int.toNat_natCast] at hread
  exact ⟨_, c'', hread⟩

end

-- ---------------------------------------------------------------------------
-- Two files
-- ---------------------------------------------------------------------------

/-- The files have the clusters 4 and 5, and the clusters 2 and 3 are to spare. In the first cluster
there is room for two more bytes. -/
def twoFilesDisk (n : ℕ) : Sector :=
  .ofMem (if n = 1 then writeLE (fun _ => 0) 0 9 0xFF8FF8000000FFFFF8
    else if n = 2 then
      writeLE (writeLE (writeLE (writeLE (fun _ => 0) 26 2 4) 28 4 510) 58 2 5) 60 4 1
    else if n = 6 then writeLE (fun _ => 0) 0 1 7
    else fun _ => 0)

def twoFilesHandle (i : ℕ) : Handle :=
  ⟨if i = 0 then 510 else 1, 4 + i, 0, 4 + i, false, 0, 2, i * direntSize⟩

def twoFiles : Store where
  tape i := if i = 0 then some ⟨List.replicate 510 0, 0, Nat.zero_le _⟩
    else if i = 1 then some ⟨[7], 0, Nat.zero_le _⟩ else none
  room := 2

theorem twoFiles_open {t : Tape UInt8} (hi : twoFiles.tape i = some t) :
    i = 0 ∧ t = ⟨List.replicate 510 0, 0, Nat.zero_le _⟩ ∨
      i = 1 ∧ t = ⟨[7], 0, Nat.zero_le _⟩ := by
  unfold twoFiles at hi
  dsimp only at hi
  split at hi
  · exact .inl ⟨by assumption, (Option.some.inj hi).symm⟩
  split at hi
  · exact .inr ⟨by assumption, (Option.some.inj hi).symm⟩
  · cases hi

theorem twoFilesDisk_zero : ∀ p < 510, fourClusters.chainByte twoFilesDisk [4] p = 0 := by
  decide +kernel

theorem twoFilesDisk_last : fourClusters.next twoFilesDisk 4 = fatEoc fourClusters ∧
    fourClusters.next twoFilesDisk 5 = fatEoc fourClusters := by
  decide +kernel

theorem twoFiles_keeps :
    Keeps fourClusters twoFilesDisk twoFilesHandle (fun i => [4 + i]) twoFiles := by
  constructor
  case holds =>
    intro i t hi
    obtain ⟨rfl, rfl⟩ | ⟨rfl, rfl⟩ := twoFiles_open hi
    · refine ⟨⟨show 2 ≠ 0 by decide, rfl, Nat.zero_and _, fun _ => by decide⟩,
        List.length_replicate.symm, ?_, rfl, ?_, .inr ⟨?_, ?_, rfl⟩⟩
      · dsimp only
        rw [List.length_replicate]
        norm_num
      · dsimp only
        rw [List.length_replicate]
        refine (List.eq_replicate_iff.mpr ⟨by rw [List.length_map, List.length_range],
          fun x hx => ?_⟩).symm
        obtain ⟨p, hp, rfl⟩ := List.mem_map.mp hx
        exact twoFilesDisk_zero p (List.mem_range.mp hp)
      · exact ⟨rfl, by decide, twoFilesDisk_last.1⟩
      · dsimp only
        rw [List.length_replicate]
        decide
    · refine ⟨⟨show 2 ≠ 0 by decide, rfl, Nat.zero_and _, fun _ => by decide⟩, rfl, by decide, rfl,
        by decide +kernel, .inr ⟨?_, by decide, rfl⟩⟩
      exact ⟨rfl, by decide, twoFilesDisk_last.2⟩
  case found =>
    intro i t hi
    obtain ⟨rfl, -⟩ | ⟨rfl, -⟩ := twoFiles_open hi <;>
    exact ⟨by decide, by decide, by decide +kernel, by decide +kernel, by decide +kernel, rfl, rfl,
      rfl⟩
  case apart =>
    intro i t j u hi hj hij c hci hcj
    exact hij (by simpa using (List.mem_singleton.mp hci).symm.trans (List.mem_singleton.mp hcj))
  case outside =>
    refine fun i t _ c hin => ⟨fun hc => ?_, fun j u hj hcj => ?_⟩
    · obtain ⟨⟨h2, h4⟩, -⟩ := Fat.mem_spare.mp hc
      change c < 4 at h4
      revert hin
      change ¬ fourClusters.InCluster c 2
      interval_cases c <;> decide
    · obtain rfl := List.mem_singleton.mp hcj
      change fourClusters.InCluster (4 + j) 2 at hin
      revert hin
      obtain ⟨rfl, -⟩ | ⟨rfl, -⟩ := twoFiles_open hj <;> decide
  case records =>
    intro i t j u hi hj hij _
    unfold twoFilesHandle direntSize
    dsimp only
    omega
  case room => decide +kernel

/-- The first file is written to up to the end of its cluster and gets another one, the second one
gets longer too; then the first is read where it was written to. -/
def sixCalls : List FsOp :=
  [.lseek (.file 0) 509 .set, .write (.file 0) (fun i => .ofNat (i + 1)) 3,
    .lseek (.file 1) 1 .set, .write (.file 1) (fun _ => 9) 2,
    .lseek (.file 0) 509 .set, .read (.file 0) 5]

def sixResults : List FsResult :=
  [.position 509, .int 3, .position 1, .int 2, .position 509, .bytes [1, 2, 3]]

set_option maxRecDepth 10000 in
theorem sixCalls_steps : ∃ s' t, twoFiles.steps fourClusters.needs sixCalls =
    some (sixResults, s') ∧
    s'.tape 1 = some t ∧ t.cells = [7, 9, 9] :=
  ⟨_, _, rfl, rfl, rfl⟩

theorem open_files_two :
    ∃ s' st' c' D' cs', (runOps sixCalls ⟨⟨fourClusters, twoFilesHandle 0⟩, twoFilesHandle⟩).cached
      (coldCache twoFilesDisk) = .ok ((sixResults, st'), c') ∧ On D' c' ∧
      Keeps st'.vol.fat D' st'.files cs' s' := by
  obtain ⟨s', -, hs, -⟩ := sixCalls_steps
  exact ⟨s', open_files ⟨⟨fourClusters, twoFilesHandle 0⟩, twoFilesHandle⟩ fourClusters_wellFormed
    rfl ⟨by decide, by decide⟩ twoFiles_keeps (coldCache_on twoFilesDisk) _ hs⟩

/-- The second file is opened again, and has its three bytes. -/
theorem files_reopened_two :
    ∃ st' c' f' c'', (runOps sixCalls ⟨⟨fourClusters, twoFilesHandle 0⟩, twoFilesHandle⟩).cached
      (coldCache twoFilesDisk) = .ok ((sixResults, st'), c') ∧
    (fatRead st'.vol.fat { (st'.files 1).fresh with flags := 0 } (3 : ℕ)).cached c' =
      .ok (([7, 9, 9], f'), c'') := by
  obtain ⟨s', t, hs, hsecond, hcells⟩ := sixCalls_steps
  obtain ⟨st', c', D', hrun, -, hfiles⟩ := files_reopened
    ⟨⟨fourClusters, twoFilesHandle 0⟩, twoFilesHandle⟩ fourClusters_wellFormed rfl
    ⟨by decide, by decide⟩ twoFiles_keeps (coldCache_on twoFilesDisk) _ hs
  obtain ⟨hfound, hread⟩ := hfiles 1 t hsecond
  obtain ⟨f', c'', hread⟩ := hread { (st'.files 1).fresh with flags := 0 } 3
    ⟨hfound.aligned, hfound.inside, hfound.attr, hfound.size, hfound.first, hfound.start⟩ rfl rfl
      (Nat.zero_and _) (by simp [hcells]) (by decide)
  rw [hcells] at hread
  exact ⟨st', c', f', c'', hrun, hread⟩

end SkyOS
