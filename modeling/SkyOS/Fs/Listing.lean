import SkyOS.Fs.Directory
import SkyOS.Fs.Opening

/-!
# Listing a directory

`fat_readdir` stops at a record that begins with a zero. It does not see that the chain has
ended: after the last record of the last cluster the next call looks for a record in the
cluster whose number is the end marker.
-/

namespace SkyOS

open ByteMem WriteBack Chains

def readdirs (fat : Fat) : ℕ → Dirent → Handle → Fs (List (Option Dirent) × Dirent × Handle)
  | 0, ent, h => return ([], ent, h)
  | n + 1, ent, h => do
    let (r, ent, h) ← fatReaddir fat h ent
    let (rs, ent, h) ← readdirs fat n ent h
    return (r :: rs, ent, h)

/-- Reading from `h` gives the records `ls`, and leaves the handle `h'`. -/
def Feeds (S : Set ℕ) (fat : Fat) (D : Disk) : Handle → List (List UInt8) → Handle → Prop
  | h, [], h' => h = h'
  | h, l :: ls, h' => ∃ h₁, Gives S (On D) (fatRead fat h direntSize) (l, h₁) (On D) ∧
      Feeds S fat D h₁ ls h'

def dirBody (ls : List (List UInt8)) : List (List UInt8) := ls.takeWhile fun l => entryMem l 0 ≠ 0

def dirEntries (ls : List (List UInt8)) : List (List UInt8) := (dirBody ls).filter (IsEntry ·)

/-- What there is of a record in the entry that is returned for it, whatever the long name. -/
def shownRecord (l : List UInt8) : List UInt8 × UInt8 := (l.take 11, entryAttr (entryMem l))
def Dirent.shown (e : Dirent) : List UInt8 × UInt8 := (e.fatSname, e.fatAttr)

def Handle.records (h : Handle) (fat : Fat) (D : Disk) (n : ℕ) : List (List UInt8) :=
  (List.range n).map (h.record fat D)

/-- `rs` is what the calls return, one for each entry of `ls`, in their order, and the end. -/
def Lists (S : Set ℕ) (fat : Fat) (ls : List (List UInt8)) (ent : Dirent) (h : Handle)
    (c : Cached Sector)
    (rs : List (Option Dirent)) : Prop :=
  ∃ q c', Ran S (readdirs fat ((dirEntries ls).length + 1) ent h) c ((rs, q), c') ∧
    rs.map (Option.map Dirent.shown) = (dirEntries ls).map (fun l => some (shownRecord l)) ++ [none]

def noEntry : Dirent := ⟨fun _ => 0, 0, []⟩

/-- The directory at `h` in the clusters `cs` is listed, and `name` is looked up in it, with no
look at another sector. -/
structure Enumerated (fat : Fat) (D : Disk) (h : Handle) (cs : List ℕ) (name : CStr)
    (c : Cached Sector) : Prop where
  lists : ∀ ent, ∃ rs, Lists (fat.chainSectors cs) fat (h.records fat D (fat.recordCount cs))
    ent h c rs
  absent : ∀ vol flags rs, vol.fat = fat → vol.cwd.fresh = h → strEq dotName name.byte = false →
    Lists (fat.chainSectors cs) fat (h.records fat D (fat.recordCount cs)) noEntry h c rs →
    (∀ e, some e ∈ rs → entryMatches name e ≠ pure true) →
    ∃ vol' c', Ran (fat.chainSectors cs) (fatOpen vol name flags) c ((eNoEnt, none, vol'), c')

/-- There is a record that ends the directory, and the long names before it are inside `d_name`. -/
structure Terminated (fat : Fat) (D : Disk) (h : Handle) (cs : List ℕ) : Prop where
  ends : ∃ k < fat.recordCount cs, entryMem (h.record fat D k) 0 = 0 ∧ fat.InStep k
  fits : ∀ l ∈ dirBody (h.records fat D (fat.recordCount cs)), IsLong l → LongFits (entryMem l)

/-- The name fits the array of `fat_comparesfn`, or there is no entry to compare it with. -/
def Comparable (fat : Fat) (D : Disk) (h : Handle) (cs : List ℕ) (name : CStr) : Prop :=
  DotFits name ∨ dirEntries (h.records fat D (fat.recordCount cs)) = []

def Absent (fat : Fat) (D : Disk) (h : Handle) (cs : List ℕ) (name : CStr)
    (c : Cached Sector) : Prop :=
  ∃ rs, Lists (fat.chainSectors cs) fat (h.records fat D (fat.recordCount cs)) noEntry h c rs ∧
    ∀ e, some e ∈ rs → entryMatches name e ≠ pure true

/-- The sector of the cluster of the end marker, or a position that is not in step, wraps. -/
def Fat.Wraps (fat : Fat) (cs : List ℕ) : Prop :=
  2 ^ 32 ≤ (fatEoc fat - 2) * fat.sectorsPerCluster + fat.firstDataSector ∨
    ¬ fat.InStep (fat.recordCount cs)

section
variable {S : Set ℕ} {fat : Fat} {D : Disk} {h h' : Handle} {ls : List (List UInt8)}
    {c : Cached Sector} {ent : Dirent}

-- ---------------------------------------------------------------------------
-- Records
-- ---------------------------------------------------------------------------

theorem feeds_append {l₂ : List (List UInt8)} : Feeds S fat D h (ls ++ l₂) h' ↔
    ∃ h₁, Feeds S fat D h ls h₁ ∧ Feeds S fat D h₁ l₂ h' := by
  induction ls generalizing h with
  | nil => exact ⟨fun hl => ⟨h, rfl, hl⟩, by rintro ⟨_, rfl, hl⟩; exact hl⟩
  | cons l ls ih =>
    constructor
    · rintro ⟨h₁, hread, hrest⟩
      obtain ⟨h₂, hls, hl₂⟩ := ih.mp hrest
      exact ⟨h₂, ⟨h₁, hread, hls⟩, hl₂⟩
    · rintro ⟨h₂, ⟨h₁, hread, hls⟩, hl₂⟩
      exact ⟨h₁, hread, ih.mpr ⟨h₂, hls, hl₂⟩⟩

/-- A record before the end is one that is passed over or one that is returned. -/
theorem Live.cases {l : List UInt8} (hl : Live l) : Skipped l ∨ IsEntry l := by
  by_cases hs : entryMem l 0 = 0xe5 ∨ entryAttr (entryMem l) = fatAttrVolumeId ∨
    entryAttr (entryMem l) = fatAttrLongName
  · exact .inl ⟨hl.1, hl.2, hs⟩
  · push Not at hs
    exact .inr ⟨hl.1, hl.2, hs⟩

theorem Skipped.not_entry {l : List UInt8} (hl : Skipped l) : ¬ IsEntry l := by
  rintro ⟨-, -, hdel, hvol, hlong⟩
  rcases hl.2.2 with h | h | h
  · exact hdel h
  · exact hvol h
  · exact hlong h

theorem IsEntry.not_long {l : List UInt8} (hl : IsEntry l) : ¬ IsLong l :=
  fun h => hl.2.2.2.2 h.2.2.2

theorem Fat.InStep.mono (hk : fat.InStep k) (hle : j ≤ k) : fat.InStep j :=
  hk.imp id fun h => by omega

theorem Fat.Directory.feeds_from (hd : fat.Directory D h cs) (hf : fat.WellFormed)
    (hS : fat.chainSectors cs ⊆ S) (a n : ℕ)
    (hn : a + n ≤ fat.recordCount cs) (hin : fat.InStep (a + n - 1)) :
    Feeds S fat D (h.nth fat D a) ((List.range' a n).map (h.record fat D))
    (h.nth fat D (a + n)) := by
  induction n generalizing a with
  | zero => rfl
  | succ n ih =>
    refine ⟨_, hd.read hf (by omega) (hin.mono (by omega)) hS, ?_⟩
    have := ih (a + 1) (by omega) (hin.mono (by omega))
    rwa [Nat.add_right_comm, Nat.add_assoc] at this

theorem Fat.Directory.feeds (hd : fat.Directory D h cs) (hf : fat.WellFormed)
    (hS : fat.chainSectors cs ⊆ S)
    (hn : n ≤ fat.recordCount cs) (hin : fat.InStep (n - 1)) :
    Feeds S fat D h (h.records fat D n) (h.nth fat D n) := by
  have := hd.feeds_from hf hS 0 n (by omega) (hin.mono (by omega))
  rwa [hd.nth_zero, Nat.zero_add, ← List.range_eq_range'] at this

-- ---------------------------------------------------------------------------
-- What the calls return
-- ---------------------------------------------------------------------------

def Passed (l : List UInt8) : Prop := Skipped l ∧ (IsLong l → LongFits (entryMem l))

theorem fatReaddirLoop_skips {Q : Option Dirent × Dirent × Handle → Cached Sector → Prop}
    (hfeed : Feeds S fat D h ls h')
    (hskip : ∀ l ∈ ls, Passed l)
    (hrest : ∀ csum ent, Ended csum ent.dName →
      Does S (On D) (fatReaddirLoop fat fuel csum ent h') Q) (csum : ℕ) (ent : Dirent)
    (he : Ended csum ent.dName) :
    Does S (On D) (fatReaddirLoop fat (ls.length + fuel) csum ent h) Q := by
  induction ls generalizing h csum ent with
  | nil =>
    obtain rfl : h = h' := hfeed
    rw [List.length_nil, Nat.zero_add]
    exact hrest csum ent he
  | cons l ls ih =>
    obtain ⟨h₁, hread, hfeed⟩ := hfeed
    obtain ⟨⟨hlen, h0, hskipped⟩, hfit⟩ := hskip l List.mem_cons_self
    have hrest := ih hfeed fun x hx => hskip x (List.mem_cons_of_mem _ hx)
    rw [List.length_cons, Nat.add_right_comm]
    by_cases hover : entryMem l 0 = 0xe5 ∨ entryAttr (entryMem l) = fatAttrVolumeId
    · exact fatReaddirLoop_skip hread hlen h0 hover (hrest csum ent he)
    · push Not at hover
      have hlong : IsLong l :=
        ⟨hlen, h0, hover.1, (hskipped.resolve_left hover.1).resolve_left hover.2⟩
      obtain ⟨csum', name', hname, he'⟩ := readLongName_fits (hfit hlong) he
      exact fatReaddirLoop_long hread hlong hname (hrest csum' _ he')

theorem ended_start (name : ℕ → UInt8) : Ended (2 ^ 16 - 1) name := fun h => absurd h (by decide)

theorem fatReaddir_none (hfeed : Feeds S fat D h ls h') (hskip : ∀ l ∈ ls, Passed l)
    (hend : Gives S (On D) (fatRead fat h' direntSize) (l, h₂) (On D)) (hzero : entryMem l 0 = 0)
    (hlen : ls.length < 2 ^ 64)
    (ent : Dirent) : Does S (On D) (fatReaddir fat h ent) fun r c => r.1 = none ∧ On D c := by
  obtain ⟨fuel, hfuel⟩ := Nat.exists_eq_add_of_lt hlen
  rw [fatReaddir, readdirRounds, hfuel, Nat.add_assoc]
  refine fatReaddirLoop_skips hfeed hskip (fun csum ent _ => ?_) _ ent (ended_start _)
  refine Does.post (fatReaddirLoop_end hend (.inr hzero) fuel csum ent) fun r c hr => ?_
  rw [hr.1]
  exact ⟨rfl, hr.2⟩

theorem fatReaddir_some (hfeed : Feeds S fat D h ls h') (hskip : ∀ l ∈ ls, Passed l)
    (hread : Gives S (On D) (fatRead fat h' direntSize) (l, h₂) (On D)) (he : IsEntry l)
    (hlen : ls.length < 2 ^ 64) (ent : Dirent) :
    Does S (On D) (fatReaddir fat h ent) fun r c => (r.1.map Dirent.shown = some (shownRecord l) ∧
      r.2.2 = h₂) ∧ On D c := by
  obtain ⟨fuel, hfuel⟩ := Nat.exists_eq_add_of_lt hlen
  rw [fatReaddir, readdirRounds, hfuel, Nat.add_assoc]
  refine fatReaddirLoop_skips hfeed hskip (fun csum ent _ => ?_) _ ent (ended_start _)
  refine Does.post (fatReaddirLoop_entry hread he fuel csum ent) fun r c hr => ?_
  rw [hr.1]
  exact ⟨⟨rfl, rfl⟩, hr.2⟩

theorem readdirs_does (hfeed : Feeds S fat D h ls h') (hlive : ∀ l ∈ ls, Live l)
    (hfit : ∀ l ∈ ls, IsLong l → LongFits (entryMem l))
    (hend : Gives S (On D) (fatRead fat h' direntSize) (l, h₂) (On D)) (hzero : entryMem l 0 = 0)
    (hlen : ls.length < 2 ^ 64)
    (ent : Dirent) : Does S (On D) (readdirs fat ((ls.filter (IsEntry ·)).length + 1) ent h)
      fun r _ =>
      r.1.map (Option.map Dirent.shown) =
      (ls.filter (IsEntry ·)).map (fun l => some (shownRecord l)) ++ [none] := by
  obtain ⟨es, hes⟩ : ∃ es, ls.filter (IsEntry ·) = es := ⟨_, rfl⟩
  rw [hes]
  induction es generalizing ls h ent with
  | nil =>
    -- nothing is returned before the end
    have hskip : ∀ l ∈ ls, Passed l := fun l hl =>
      ⟨(hlive l hl).cases.resolve_right fun he =>
        List.filter_eq_nil_iff.mp hes l hl (decide_eq_true he), hfit l hl⟩
    refine (fatReaddir_none hfeed hskip hend hzero hlen ent).bind ?_
    rintro ⟨r, ent, h⟩ c ⟨rfl, -⟩
    exact Does.pure (P := fun _ => True) (fun _ _ => rfl) c trivial
  | cons e es ih =>
    obtain ⟨l₁, l₂, rfl, hskipped, he, hrest⟩ := List.filter_eq_cons_iff.mp hes
    obtain ⟨h₁, hfeed₁, h₂, hread, hfeed₂⟩ := feeds_append.mp hfeed
    have hskip : ∀ l ∈ l₁, Passed l := fun l hl =>
      ⟨(hlive l (List.mem_append_left _ hl)).cases.resolve_right fun he =>
          hskipped l hl (decide_eq_true he),
        hfit l (List.mem_append_left _ hl)⟩
    rw [List.length_append, List.length_cons] at hlen
    refine (fatReaddir_some hfeed₁ hskip hread (of_decide_eq_true he) (by omega) ent).bind ?_
    rintro ⟨r, ent, h⟩ c ⟨⟨hr, rfl⟩, hc⟩
    revert c
    change Does S (On D) _ _
    refine (ih hfeed₂ (fun l hl => hlive l (List.mem_append_right _ (List.mem_cons_of_mem _ hl)))
      (fun l hl => hfit l (List.mem_append_right _ (List.mem_cons_of_mem _ hl))) (by omega) ent
        hrest).bind ?_
    rintro ⟨rs, q⟩ c hrs
    refine Does.pure (P := fun _ => True) (fun _ _ => ?_) c trivial
    rw [List.map_cons, hrs, hr]
    rfl

-- ---------------------------------------------------------------------------
-- What the calls have read
-- ---------------------------------------------------------------------------

/-- A run of the loop comes back with an entry of `ls`, or it gets to `h'`. -/
theorem fatReaddirLoop_ran (hfeed : Feeds .univ fat D h ls h') (hlive : ∀ l ∈ ls, Live l)
    (he : Ended csum ent.dName) (hc : On D c)
    (hrun : Ran S (fatReaddirLoop fat fuel csum ent h) c ((r, q, h₂), c')) :
    (∃ l₁ l l₂, ls = l₁ ++ l :: l₂ ∧ (∀ x ∈ l₁, Passed x) ∧ IsEntry l ∧ Feeds .univ fat D h₂ l₂ h' ∧
      On D c') ∨
    (∀ x ∈ ls, Passed x) ∧ ∃ fuel csum ent c₁, On D c₁ ∧
      Ran S (fatReaddirLoop fat fuel csum ent h') c₁ ((r, q, h₂), c') := by
  induction ls generalizing h fuel csum ent c with
  | nil =>
    obtain rfl : h = h' := hfeed
    exact .inr ⟨fun _ hx => absurd hx List.not_mem_nil, fuel, csum, ent, c, hc, hrun⟩
  | cons l ls ih =>
    obtain ⟨h₁, hread, hrest⟩ := hfeed
    obtain ⟨hlen, h0⟩ := hlive l List.mem_cons_self
    have hpass (hl : Passed l) (fuel csum ent c₁) (he : Ended csum ent.dName) (hc₁ : On D c₁)
        (hrun : Ran S (fatReaddirLoop fat fuel csum ent h₁) c₁ ((r, q, h₂), c')) :
        (∃ l₁ x l₂, l :: ls = l₁ ++ x :: l₂ ∧ (∀ x ∈ l₁, Passed x) ∧ IsEntry x ∧
          Feeds .univ fat D h₂ l₂ h' ∧ On D c') ∨
        (∀ x ∈ l :: ls, Passed x) ∧ ∃ fuel csum ent c₁, On D c₁ ∧
            Ran S (fatReaddirLoop fat fuel csum ent h') c₁ ((r, q, h₂), c') := by
      rcases ih hrest (fun x hx => hlive x (List.mem_cons_of_mem _ hx)) he hc₁ hrun with
        ⟨l₁, x, l₂, rfl, hl₁, hx⟩ | ⟨hls, hx⟩
      · exact .inl ⟨l :: l₁, x, l₂, rfl, List.forall_mem_cons.mpr ⟨hl, hl₁⟩, hx⟩
      · exact .inr ⟨List.forall_mem_cons.mpr ⟨hl, hls⟩, hx⟩
    cases fuel with
    | zero => cases hrun.1
    | succ fuel =>
      unfold fatReaddirLoop at hrun
      obtain ⟨c₁, hc₁, -, hrun⟩ := hread.ran_bind hc hrun
      dsimp only at hrun
      rw [if_neg (not_not.mpr hlen), if_neg h0] at hrun
      by_cases hover : entryMem l 0 = 0xe5 ∨ entryAttr (entryMem l) = fatAttrVolumeId
      · rw [if_pos hover] at hrun
        refine hpass ⟨⟨hlen, h0, hover.imp_right .inl⟩, fun hlong => ?_⟩ fuel csum ent c₁ he
          hc₁ hrun
        rcases hover with h | h
        · exact absurd h hlong.2.2.1
        · exact absurd (hlong.2.2.2.symm.trans h) (by decide)
      rw [if_neg hover] at hrun
      push Not at hover
      by_cases hattr : entryAttr (entryMem l) = fatAttrLongName
      · rw [if_pos hattr] at hrun
        by_cases hfit : LongFits (entryMem l)
        · obtain ⟨csum', name', hname, he'⟩ := readLongName_fits hfit he
          rw [hname] at hrun
          exact hpass ⟨⟨hlen, h0, .inr (.inr hattr)⟩, fun _ => hfit⟩ fuel csum' _ c₁ he' hc₁ hrun
        · rw [readLongName_wild hfit] at hrun
          cases hrun.1
      · rw [if_neg hattr] at hrun
        cases (ran_pure.mp hrun)
        exact .inl ⟨[], l, ls, rfl, fun _ hx => absurd hx List.not_mem_nil,
          ⟨hlen, h0, hover.1, hover.2, hattr⟩, hrest, hc₁⟩

/-- Calls that return the entries of `ls` and the end have gone past all of `ls`. -/
theorem readdirs_ran (hfeed : Feeds .univ fat D h ls h') (hlive : ∀ l ∈ ls, Live l) (hc : On D c)
    (hrun : Ran S (readdirs fat ((ls.filter (IsEntry ·)).length + 1) ent h) c ((rs, q), c'))
    (hrs : rs.map (Option.map Dirent.shown) = (ls.filter (IsEntry ·)).map (fun l =>
      some (shownRecord l)) ++ [none]) :
    (∀ l ∈ ls, IsLong l → LongFits (entryMem l)) ∧
      ∃ fuel csum ent c₁ r, On D c₁ ∧ Ran S (fatReaddirLoop fat fuel csum ent h') c₁ r := by
  obtain ⟨es, hes⟩ : ∃ es, ls.filter (IsEntry ·) = es := ⟨_, rfl⟩
  rw [hes] at hrun hrs
  induction es generalizing ls h ent c rs with
  | nil =>
    obtain ⟨⟨r, ent', h₂⟩, c₁, hcall, -⟩ := ran_bind.mp hrun
    rcases fatReaddirLoop_ran hfeed hlive (ended_start _) hc hcall with ⟨l₁, l, l₂, rfl, -, he, -⟩ |
      ⟨hls, fuel, csum, ent, c₂, hc₂, hloop⟩
    · exact absurd (List.filter_eq_nil_iff.mp hes l (by simp)) (not_not.mpr (decide_eq_true he))
    · exact ⟨fun l hl => (hls l hl).2, fuel, csum, ent, c₂, _, hc₂, hloop⟩
  | cons e es ih =>
    obtain ⟨⟨r, ent', h₂⟩, c₁, hcall, hrest⟩ := ran_bind.mp hrun
    obtain ⟨⟨rs', q'⟩, c₂, hcalls, hend⟩ := ran_bind.mp hrest
    cases ran_pure.mp hend
    rcases fatReaddirLoop_ran hfeed hlive (ended_start _) hc hcall with
      ⟨l₁, l, l₂, rfl, hl₁, he, hfeed₂, hc₁⟩ | ⟨hls, -⟩
    · have hl₁' : l₁.filter (IsEntry ·) = [] := List.filter_eq_nil_iff.mpr fun x hx h =>
        (hl₁ x hx).1.not_entry (of_decide_eq_true h)
      rw [List.filter_append, hl₁', List.nil_append, List.filter_cons_of_pos (p :=
        fun x => decide (IsEntry x)) (decide_eq_true he)] at hes
      obtain rfl := (List.cons.inj hes).1
      obtain ⟨hfit, hloop⟩ :=
        ih hfeed₂ (fun x hx => hlive x (by simp [hx])) hc₁ (List.cons.inj hrs).2 hcalls
        (List.cons.inj hes).2
      refine ⟨fun x hx => ?_, hloop⟩
      rcases List.mem_append.mp hx with hx | hx
      · exact (hl₁ x hx).2
      · rcases List.mem_cons.mp hx with rfl | hx
        · exact fun hlong => absurd hlong he.not_long
        · exact hfit x hx
    · have hmem : e ∈ ls.filter (IsEntry ·) := hes ▸ List.mem_cons_self
      rw [List.mem_filter] at hmem
      exact absurd (of_decide_eq_true hmem.2) (hls e hmem.1).1.not_entry

theorem fatReaddirLoop_asks (hb : fat.bytesPerSector = maxSectorSize)
    (hs : 0 < fat.sectorsPerCluster) (hsize : h.size = 0)
    (hrun : Ran S (fatReaddirLoop fat fuel csum ent h) c r) : fat.sectorAt h ∈ S := by
  cases fuel with
  | zero => exact absurd hrun.1 nofun
  | succ fuel =>
    obtain ⟨l, c₁, hread, -⟩ := ran_bind.mp hrun
    obtain ⟨c₂, -, -, hloop⟩ :=
      (fatFileSectorOffset_at (S := .univ) (P := fun _ => True) hb hs.ne' h).ran_bind trivial hread
    dsimp only at hloop
    rw [if_neg (by simp [hsize]), show (direntSize : ℤ).toNat = 31 + 1 from rfl] at hloop
    unfold fatReadLoop at hloop
    rw [if_neg (Nat.succ_ne_zero _)] at hloop
    obtain ⟨_, _, hget, -⟩ := ran_bind.mp hloop
    exact hget.2.1

-- ---------------------------------------------------------------------------
-- Looking a name up
-- ---------------------------------------------------------------------------

theorem entryMatches_pure (hn : DotFits name) (e : Dirent) : ∃ b, entryMatches name e = pure b := by
  unfold entryMatches
  split
  · exact ⟨true, rfl⟩
  · unfold fatComparesfn
    dsimp only
    split
    · rename_i hdot
      rw [if_neg (by have := hn hdot; omega)]
      exact ⟨_, rfl⟩
    · exact ⟨_, rfl⟩

theorem exists_entries {rs : List (Option Dirent)}
    (hrs : rs.map (Option.map Dirent.shown) = ls.map (fun l => some (shownRecord l)) ++ [none]) :
    ∃ es : List Dirent, es.length = ls.length ∧ rs = es.map some ++ [none] := by
  induction ls generalizing rs with
  | nil =>
    obtain ⟨r, rfl⟩ := List.length_eq_one_iff.mp (by simpa using congrArg List.length hrs)
    exact ⟨[], rfl, by simpa using hrs⟩
  | cons l ls ih =>
    cases rs with
    | nil => cases hrs
    | cons r rs =>
      obtain ⟨hr, hrs⟩ := List.cons.inj hrs
      obtain ⟨es, hlen, rfl⟩ := ih hrs
      obtain ⟨e, rfl, -⟩ := Option.map_eq_some_iff.mp hr
      exact ⟨e :: es, congrArg Nat.succ hlen, rfl⟩

/-- A name that none of the entries answers to is looked for up to the end. -/
theorem fatOpenLoop_absent {es : List Dirent} (hn : es ≠ [] → DotFits name)
    (hrun : Ran S (readdirs fat (es.length + 1) ent h) c ((es.map some ++ [none], q), c'))
    (habsent : ∀ e ∈ es, entryMatches name e ≠ pure true) (flags fuel : ℕ) :
    Ran S (fatOpenLoop fat name flags (es.length + fuel + 1) ent h) c ((eNoEnt, none, q.2),
      c') := by
  induction es generalizing ent h c with
  | nil =>
    obtain ⟨⟨r, ent', h₂⟩, c₁, hcall, hrest⟩ := ran_bind.mp hrun
    cases ran_pure.mp hrest
    exact ran_bind.mpr ⟨_, _, hcall, ran_pure.mpr rfl⟩
  | cons e es ih =>
    obtain ⟨⟨r, ent', h₂⟩, c₁, hcall, hrest⟩ := ran_bind.mp hrun
    obtain ⟨⟨rs', q'⟩, c₂, hcalls, hend⟩ := ran_bind.mp hrest
    cases ran_pure.mp hend
    have hn := hn (List.cons_ne_nil _ _)
    obtain ⟨b, hb⟩ := entryMatches_pure hn e
    obtain rfl : b = false := by
      cases b with
      | false => rfl
      | true => exact absurd hb (habsent e List.mem_cons_self)
    refine ran_bind.mpr ⟨_, _, hcall, ?_⟩
    dsimp only
    rw [hb, List.length_cons, Nat.add_right_comm es.length]
    exact ih (fun _ => hn) hcalls fun e he => habsent e (List.mem_cons_of_mem _ he)

theorem fatOpen_absent {vol : Vol} (hb : fat.bytesPerSector = maxSectorSize)
    (hs : fat.sectorsPerCluster ≠ 0) (hvol : vol.fat = fat)
    (hh : vol.cwd.fresh = h) (hdot : strEq dotName name.byte = false)
    (hn : DotFits name ∨ dirEntries ls = []) (hlists : Lists S fat ls noEntry h c rs)
    (habsent : ∀ e, some e ∈ rs → entryMatches name e ≠ pure true)
    (hlen : (dirEntries ls).length < 2 ^ 64) (flags : ℕ) :
    ∃ vol' c', Ran S (fatOpen vol name flags) c ((eNoEnt, none, vol'), c') := by
  obtain ⟨q, c', hrun, hrs⟩ := hlists
  obtain ⟨es, hes, rfl⟩ := exists_entries hrs
  obtain ⟨fuel, hfuel⟩ := Nat.exists_eq_add_of_lt hlen
  rw [← hes] at hrun hfuel
  have hn : es ≠ [] → DotFits name := fun hne => hn.resolve_right fun hnone =>
    hne (List.eq_nil_of_length_eq_zero (by rw [hes, hnone, List.length_nil]))
  have hloop := fatOpenLoop_absent hn hrun (fun e he => habsent e (by simp [he])) flags fuel
  rw [← hfuel] at hloop
  subst hvol hh
  obtain ⟨_, c₁, hseek, hr, rfl⟩ := (fatLseek_start (S := S) (P := (· = c)) hb hs vol.cwd).ran rfl
  subst hr
  refine ⟨{ vol with cwd := q.2 }, c', ?_⟩
  unfold fatOpen
  rw [hdot, if_neg (by decide)]
  exact ran_bind.mpr ⟨_, _, hseek, ran_bind.mpr ⟨_, _, hloop, ran_pure.mpr rfl⟩⟩

-- ---------------------------------------------------------------------------
-- The whole directory
-- ---------------------------------------------------------------------------

theorem Handle.record_length (h : Handle) (fat : Fat) (D : Disk) (k : ℕ) :
    (h.record fat D k).length = direntSize := by
  simp [Handle.record, Handle.bytes]

/-- The directory ends at the first record that begins with a zero, or with the chain. -/
theorem dirBody_records (h : Handle) (fat : Fat) (D : Disk) (n : ℕ) :
    ∃ m ≤ n, dirBody (h.records fat D n) = h.records fat D m ∧
    (∀ l ∈ h.records fat D m, Live l) ∧ (m < n → entryMem (h.record fat D m) 0 = 0) := by
  obtain ⟨m, hm, hrange, hall, hstop⟩ :=
    takeWhile_range (fun k => entryMem (h.record fat D k) 0 ≠ 0) n
  refine ⟨m, hm, ?_, fun l hl => ?_, fun hlt => ?_⟩
  · rw [dirBody, Handle.records, List.takeWhile_map]
    exact congrArg (List.map (h.record fat D)) hrange
  · obtain ⟨k, hk, rfl⟩ := List.mem_map.mp hl
    exact ⟨h.record_length fat D k, of_decide_eq_true (hall k (List.mem_range.mp hk))⟩
  · exact not_not.mp (of_decide_eq_false (hstop hlt))

theorem Fat.Directory.recordCount_lt (hd : fat.Directory D h cs) (hf : fat.WellFormed) :
    fat.recordCount cs < 2 ^ 64 := by
  have hnodup := hd.chain.nodup (hf.not_data ⟨le_rfl, Nat.lt_add_of_pos_right (by decide)⟩)
  have hle := Nat.mul_le_mul_right fat.sectorsPerCluster (fat.length_le_count hd.chain hnodup)
  have hlast := hf.last
  unfold Fat.recordCount
  omega

theorem Terminated.enumerated (ht : Terminated fat D h cs) (hf : fat.WellFormed)
    (hd : fat.Directory D h cs) (hc : On D c)
    (hn : Absent fat D h cs name c → Comparable fat D h cs name) :
    Enumerated fat D h cs name c := by
  obtain ⟨m, hm, hbody, hlive, hzero⟩ := dirBody_records h fat D (fat.recordCount cs)
  obtain ⟨⟨k, hk, hk0, hstep⟩, hfits⟩ := ht
  have hmk : m ≤ k := by
    by_contra hlt
    exact (hlive _ (List.mem_map_of_mem (List.mem_range.mpr (not_le.mp hlt)))).2 hk0
  have hlen : (h.records fat D m).length < 2 ^ 64 := by
    have := hd.recordCount_lt hf
    simp [Handle.records]
    omega
  rw [hbody] at hfits
  have hfeed := hd.feeds hf subset_rfl hm (hstep.mono (by omega))
  have hend := hd.read hf (S := fat.chainSectors cs) (by omega) (hstep.mono hmk) subset_rfl
  refine ⟨fun ent => ?_, fun vol flags rs hvol hh hdot hlists habsent => ?_⟩
  · obtain ⟨⟨rs, q⟩, c', hrun, hrs⟩ :=
        (readdirs_does hfeed hlive hfits hend (hzero (by omega)) hlen ent).ran hc
    refine ⟨rs, q, c', ?_⟩
    rw [dirEntries, hbody]
    exact ⟨hrun, hrs⟩
  · refine fatOpen_absent hf.sector hf.cluster.ne' hvol hh hdot (hn ⟨rs, hlists, habsent⟩) hlists
        habsent ?_ flags
    rw [dirEntries, hbody]
    exact (List.length_filter_le _ _).trans_lt hlen

theorem Fat.Directory.eoc_out (hd : fat.Directory D h cs) (hf : fat.WellFormed)
    (hw : ¬ fat.Wraps cs) :
    fat.sectorAt (h.nth fat D (fat.recordCount cs)) ∉ fat.chainSectors cs := by
  obtain ⟨hlow, hstep⟩ := not_or.mp hw
  have hphase := (not_not.mp hstep).phase
  have hcount := hf.count
  have hapart := hf.apart
  have h2 : 2 ≤ fatEoc fat := by omega
  have hlt : fatEoc fat < 2 ^ 32 := by
    have := fat.fatEoc_lt
    have : fat.width ≤ 28 := by unfold Fat.width; cases fat.type <;> decide
    have := Nat.pow_le_pow_right (show 0 < 2 by decide) this
    omega
  have hsub : u32Sub (fatEoc fat) 2 = fatEoc fat - 2 := by
    unfold u32Sub
    omega
  have hzero : fat.recordCount cs / 16 % fat.sectorsPerCluster = 0 := by
    rw [Fat.recordCount, Nat.mul_div_cancel _ (by decide), Nat.mul_mod_left]
  have hsec : fat.sectorAt (h.nth fat D (fat.recordCount cs)) = (fatEoc fat - 2) *
      fat.sectorsPerCluster + fat.firstDataSector := by
    rw [Fat.sectorAt, if_neg (by simp [Handle.nth, hd.root]), hd.nth_end hf.cluster, hf.sector,
      Handle.nth]
    dsimp only
    rw [hphase, hzero, fatFirstSectorOfCluster, hsub, Nat.add_zero, u32_of_lt (u32_lt _),
      u32_of_lt (by omega)]
  rw [hsec]
  rintro (⟨c, hc, -, hin⟩ | hfat)
  · have hdata := hd.chain.mem hc
    have hmul : (c - 2 + 1) * fat.sectorsPerCluster ≤ (fatEoc fat - 2) * fat.sectorsPerCluster :=
      Nat.mul_le_mul_right _ (by have := hdata.1; have := hdata.2; omega)
    rw [Nat.succ_mul] at hmul
    omega
  · have := hfat.2
    omega

theorem Enumerated.terminated (he : Enumerated fat D h cs name c) (hf : fat.WellFormed)
    (hd : fat.Directory D h cs) (hc : On D c)
    (hw : ¬ fat.Wraps cs) : Terminated fat D h cs := by
  obtain ⟨m, hm, hbody, hlive, hzero⟩ := dirBody_records h fat D (fat.recordCount cs)
  have hstep := not_not.mp (not_or.mp hw).2
  obtain ⟨rs, q, c', hrun, hrs⟩ := he.lists noEntry
  rw [dirEntries, hbody] at hrun hrs
  have hfeed := hd.feeds hf (Set.subset_univ _) hm (hstep.mono (by omega))
  obtain ⟨hfits, fuel, csum, ent, c₁, r, hc₁, hloop⟩ := readdirs_ran hfeed hlive hc hrun hrs
  refine ⟨?_, hbody ▸ hfits⟩
  rcases hm.eq_or_lt with rfl | hlt
  · have hsize : (h.nth fat D (fat.recordCount cs)).size = 0 := hd.size
    exact absurd (fatReaddirLoop_asks hf.sector hf.cluster hsize hloop) (hd.eoc_out hf hw)
  · exact ⟨m, hlt, hzero hlt, hstep.mono hm⟩

theorem strEq_long {name : CStr} (hlen : 11 < name.length) :
    strEq dotName name.byte = false := by
  refine List.all_eq_false.mpr ⟨1, by decide, ?_⟩
  have hchar := name.chars 1 (by omega)
  simpa [dotName, CStr.ofList] using fun h => hchar h.symm

theorem Enumerated.comparable (he : Enumerated fat D h cs name c) (hf : fat.WellFormed)
    (hd : fat.Directory D h cs)
    (habsent : Absent fat D h cs name c) : Comparable fat D h cs name := by
  obtain ⟨rs, hlists, hrs⟩ := habsent
  by_contra hno
  obtain ⟨hname, hne⟩ := not_or.mp hno
  obtain ⟨hdot, hlen⟩ : name.byte 0 = 0x2e ∧ 11 < name.length := by
    unfold DotFits at hname
    push Not at hname
    exact hname
  obtain ⟨vol', c', hopen⟩ := he.absent ⟨fat, h⟩ 0 rs rfl hd.start (strEq_long hlen) hlists hrs
  unfold fatOpen at hopen
  rw [strEq_long hlen, if_neg (by decide)] at hopen
  obtain ⟨c₀, rfl, -, hopen⟩ :=
    (fatLseek_start (S := .univ) (P := (· = c)) hf.sector hf.cluster.ne' h).ran_bind rfl hopen
  obtain ⟨fuel, hfuel⟩ : ∃ n, readdirRounds = n + 1 := ⟨readdirRounds - 1, by decide⟩
  rw [hd.start, hfuel] at hopen
  obtain ⟨x, c₁, hloop, -⟩ := ran_bind.mp hopen
  unfold fatOpenLoop at hloop
  obtain ⟨⟨r, ent, h₁⟩, c₂, hcall, hloop⟩ := ran_bind.mp hloop
  -- the first call of the list is the same
  obtain ⟨q, c₃, hrun, hshown⟩ := hlists
  obtain ⟨l, ls, hls⟩ := List.exists_cons_of_ne_nil hne
  obtain ⟨⟨r', ent', h₁'⟩, c₄, hcall', hrest⟩ := ran_bind.mp hrun
  obtain ⟨⟨rs', q'⟩, c₅, -, hend⟩ := ran_bind.mp hrest
  cases ran_pure.mp hend
  cases hcall'.1.symm.trans hcall.1
  rw [hls] at hshown
  obtain ⟨e, rfl, -⟩ := Option.map_eq_some_iff.mp (List.cons.inj hshown).1
  have hmatch := hrs e List.mem_cons_self
  obtain ⟨b, c₆, hcompare, -⟩ := ran_bind.mp hloop
  unfold entryMatches at hmatch hcompare
  split at hcompare <;> rename_i heq
  · exact hmatch (if_pos heq)
  · unfold fatComparesfn at hcompare
    dsimp only at hcompare
    rw [if_pos hdot, if_pos hlen] at hcompare
    cases hcompare.1

/-- A directory is listed, and an absent name looked up in it, if it has an end, its long names fit
and the name fits or is not compared. Unless numbers wrap it is not listed otherwise. -/
theorem directory_listed_iff (hf : fat.WellFormed) (hd : fat.Directory D h cs) (hc : On D c)
    (name : CStr) :
    (Terminated fat D h cs ∧ (Absent fat D h cs name c → Comparable fat D h cs name) →
      Enumerated fat D h cs name c) ∧
      (Enumerated fat D h cs name c → (Terminated fat D h cs ∨ fat.Wraps cs) ∧
        (Absent fat D h cs name c → Comparable fat D h cs name)) :=
  ⟨fun ht => ht.1.enumerated hf hd hc ht.2, fun he =>
    ⟨or_iff_not_imp_right.mpr fun hw => he.terminated hf hd hc hw, he.comparable hf hd⟩⟩

end

def filesDisk (n s : ℕ) : Sector := .ofMem <|
  if s = 1 then writeLE (fun _ => 0) 0 6 0x000FF8FFFFF8
  else fun i => if s = 3 ∧ i / 32 < n then if i % 32 = 11 then fatAttrArchive else 0x41 else 0

theorem filesDisk_directory (hn : n = 1 ∨ n = 16) :
    fourClusters.Directory (filesDisk n) aDirectory [2] where
  root := rfl
  size := rfl
  start := rfl
  nonempty := by decide
  chain := ⟨rfl,
    by decide, by
    rcases hn with rfl | rfl <;> exact show fourClusters.next (filesDisk _) 2 =
    0xFF8 by decide +kernel⟩

/-- A directory with one file, and a name that is looked up in it. -/
theorem directory_listed_file :
    Enumerated fourClusters (filesDisk 1) aDirectory [2] (.ofList [0x62])
      (coldCache (filesDisk 1)) := by
  refine (directory_listed_iff fourClusters_wellFormed (filesDisk_directory (.inl rfl))
    (coldCache_on _) _).1 ⟨⟨⟨1, ?_⟩, ?_⟩, ?_⟩
  · exact ⟨by decide, by decide +kernel, .inl (by decide)⟩
  · -- no attribute is that of a long name
    intro l hl hlong
    obtain ⟨k, hk, rfl⟩ := List.mem_map.mp ((List.takeWhile_sublist _).subset hl)
    have hk : k < 16 := List.mem_range.mp hk
    have hattr := hlong.2.2.2
    interval_cases k <;> exact absurd hattr (by decide +kernel)
  · exact fun _ => .inl fun hdot => absurd hdot (by decide)

/-- There is no record left for the end. -/
theorem directory_full_overrun : fourClusters.Directory (filesDisk 16) aDirectory [2] ∧
    ¬ Enumerated fourClusters (filesDisk 16) aDirectory [2] (.ofList [0x62])
    (coldCache (filesDisk 16)) := by
  have hd := filesDisk_directory (n := 16) (.inr rfl)
  have hw : ¬ fourClusters.Wraps [2] := by
    rintro (hlow | hstep)
    · exact absurd hlow (by decide)
    · exact hstep (.inl (by decide))
  refine ⟨hd, fun he => ?_⟩
  obtain ⟨k, hk, hzero, -⟩ := (he.terminated fourClusters_wellFormed hd (coldCache_on _) hw).ends
  have hk : k < 16 := hk
  interval_cases k <;> exact absurd hzero (by decide +kernel)

end SkyOS
