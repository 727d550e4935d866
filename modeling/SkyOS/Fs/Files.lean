import SkyOS.Fs.Streams
import SkyOS.Fs.Syncing
import SkyOS.Lib.Tape

/-!
# Open files

The handle of a regular file with the clusters of its file holds a tape: the bytes of the
file and a cursor. `fat_read`, `fat_lseek` and `fat_write` do to the tape what such calls
should do.
-/

namespace SkyOS

open ByteMem WriteBack Chains

/-- The clusters of a file of `n` bytes, if it has been written from the start: the last one has
room for another byte. -/
def Fat.needs (fat : Fat) (n : ℕ) : ℕ := if n = 0 then 0 else n / fat.clusterSize + 1

/-- The file has the clusters `cs`, and no cluster before it has a byte. -/
def Handle.Owns (h : Handle) (fat : Fat) (D : Disk) (cs : List ℕ) (p n : ℕ) : Prop :=
  (cs = [] ∧ h.firstCluster = 0 ∧ h.curCluster = 0 ∧ n = 0) ∨
    Chain (fat.next D) fat.IsData h.firstCluster cs (fatEoc fat) ∧ n < cs.length * fat.clusterSize ∧
      cs[p / fat.clusterSize]? = some h.curCluster

/-- The handle is at the cursor of `t`, and the file has its cells. -/
structure Handle.Holds (h : Handle) (fat : Fat) (D : Disk) (cs : List ℕ) (t : Tape UInt8) :
    Prop extends h.Regular fat where
  size : h.size = t.cells.length
  short : t.cells.length < 2 ^ 31
  position : h.position = t.pos
  cells : t.cells = (List.range t.cells.length).map (fat.chainByte D cs)
  owns : h.Owns fat D cs t.pos t.cells.length

/-- What a call leaves behind, where the handle is then `h'` and the file has the clusters `cs'`. -/
structure Handle.Served (fat : Fat) (D D' : Disk) (h h' : Handle) (cs cs' : List ℕ)
    (t t' : Tape UInt8) : Prop where
  holds : h'.Holds fat D' cs' t'
  place : h'.direntSector = h.direntSector ∧ h'.direntOffset = h.direntOffset
  grows : ∀ c ∈ cs', c ∈ cs ∨ c ∈ fat.spare D
  entries : ∀ d, fat.IsData d → d ∉ cs' → fat.next D' d = fat.next D d
  sectors : ∀ x, ¬ fat.IsFat x → x ≠ h.direntSector → (∀ c ∈ cs', ¬ fat.InCluster c x) → D' x = D x
  records : ∀ s o, ¬ fat.IsFat s → (∀ c ∈ cs', ¬ fat.InCluster c s) →
      o + direntSize ≤ maxSectorSize →
    (s = h.direntSector → o + direntSize ≤ h.direntOffset ∨ h.direntOffset + direntSize ≤ o) →
    ∀ i < direntSize, D'.record s o i = D.record s o i
  count : (fat.spare D).card + fat.needs t.cells.length ≤ (fat.spare D').card +
    fat.needs t'.cells.length
  found : Found D h.fresh → Found D' h'.fresh

def lseekGoal (t : Tape UInt8) (offset : ℕ) : Whence → Option ℕ
  | .set => some offset
  | .cur => some (u32 (offset + t.pos))
  | .fromEnd => some (u32 (offset + t.cells.length))
  | .other => none

section
variable {fat : Fat} {D D' : Disk} {h : Handle} {b : ℕ → UInt8} {cs cs' news : List ℕ}
    {t : Tape UInt8} {p : ℕ}

-- ---------------------------------------------------------------------------
-- fat_lseek and fat_read
-- ---------------------------------------------------------------------------

theorem Handle.Holds.moved (hf : fat.Sized) (hh : h.Holds fat D cs t) (hp : p ≤ t.cells.length) :
    (h.moved fat D p).Holds fat D cs (t.seek p) := by
  refine ⟨⟨hh.record, hh.root, hh.sync, hh.placed⟩, hh.size, hh.short, ?_, hh.cells, ?_⟩
  · rw [t.seek_pos, Nat.min_eq_left hp]
    rfl
  · rw [t.seek_pos, Nat.min_eq_left hp]
    rcases hh.owns with ⟨hcs, hfirst, -, hlen⟩ | ⟨hchain, hlt, -⟩
    · obtain rfl : p = 0 := by omega
      refine .inl ⟨hcs, hfirst, ?_, hlen⟩
      rw [Handle.moved_curCluster _ _ _ hh.root, Nat.zero_div, Nat.zero_div]
      exact hfirst
    · exact .inr ⟨hchain, hlt, Handle.moved_chain hf hh.root hchain (hp.trans_lt hlt)⟩

theorem Handle.Holds.moved_self (hf : fat.Sized) (hh : h.Holds fat D cs t) :
    h.moved fat D t.pos = h := by
  have hpos := hh.position
  have hcur : (h.moved fat D t.pos).curCluster = h.curCluster := by
    rcases hh.owns with ⟨-, hfirst, hcur, hlen⟩ | ⟨hchain, hlt, hcur⟩
    · have hzero : t.pos = 0 := by have := t.le; omega
      rw [hzero, Handle.moved_curCluster _ _ _ hh.root, Nat.zero_div, Nat.zero_div, hcur]
      exact hfirst
    · have hmoved := Handle.moved_chain hf hh.root hchain (t.le.trans_lt hlt)
      exact Option.some.inj (hmoved.symm.trans hcur)
  obtain ⟨size, first, position, cur, root, flags, ds, doff⟩ := h
  unfold Handle.moved at hcur ⊢
  dsimp only at hpos hcur ⊢
  rw [hcur, hpos]

theorem Handle.Holds.covers (hf : fat.WellFormed) (hh : h.Holds fat D cs t) (hne : t.cells ≠ []) :
    h.Readable fat D t.cells.length := by
  rw [Handle.Readable, if_neg (by simp [hh.root])]
  rcases hh.owns with ⟨-, -, -, hlen⟩ | ⟨hchain, hlt, -⟩
  · exact absurd (List.length_eq_zero_iff.mp hlen) hne
  · intro i hi
    have hics : i < cs.length := by
      by_contra hge
      have := Nat.mul_le_mul_right fat.clusterSize (not_lt.mp hge)
      omega
    have hdata := hchain.mem (List.getElem_mem hics)
    rw [Fat.cluster, ← hchain.get hics]
    refine ⟨hdata, fun heq => ?_⟩
    have := hf.count
    have := hdata.2
    omega

theorem Handle.Holds.read (hf : fat.WellFormed) (hh : h.Holds fat D cs t) (hne : t.cells ≠ [])
    (hn : 0 ≤ n) (hlt : n < 2 ^ 31) :
    Gives .univ (On D) (fatRead fat h n) (t.ahead n.toNat, h.moved fat D (t.pass n.toNat).pos)
    (On D) := by
  have hle := t.le
  have hshort := hh.short
  have hsize := hh.size
  have hpos := List.length_pos_iff.mpr hne
  have hreq := Handle.request_min (h := h) (p := t.pos) (by omega) (by omega) (by omega) hn hlt
  have hread := fatRead_gives hf.toSized (hh.covers hf hne) (by omega) (Set.subset_univ _) hreq
    (by rw [hsize]; omega)
  rw [hh.moved_self hf.toSized, hsize] at hread
  rw [t.pass_pos, t.ahead_eq_map hh.cells]
  have hbytes : h.bytes fat D t.pos (min n.toNat (t.cells.length - t.pos)) =
      (List.range (min n.toNat (t.cells.length - t.pos))).map fun i =>
          fat.chainByte D cs (t.pos + i) := by
    refine List.map_congr_left fun i hi => ?_
    rw [List.mem_range] at hi
    rcases hh.owns with ⟨-, -, -, hlen⟩ | ⟨hchain, hcs, -⟩
    · omega
    · exact Handle.byte_eq hf.toSized hh.root hchain (by omega)
  rw [← hbytes]
  exact hread

theorem Handle.Holds.target (hh : h.Holds fat D cs t) (offset : ℕ) (whence : Whence) :
    h.target offset whence =
    (lseekGoal t offset whence).map fun o => if t.cells.length ≠ 0 ∧
      o > t.cells.length then t.cells.length else o := by
  unfold Handle.target
  rw [hh.position, hh.size]
  cases whence <;> rfl

theorem Handle.Holds.lseek (hf : fat.Sized) (hh : h.Holds fat D cs t)
    (hg : lseekGoal t offset whence = some p) (hp : t.cells ≠ [] ∨ p = 0) :
    Gives .univ (On D) (fatLseek fat h offset whence) ((t.seek p).pos, h.moved fat D (t.seek p).pos)
    (On D) := by
  refine fatLseek_gives hf ?_
  rw [hh.target, hg, Option.map_some, t.seek_pos]
  congr 1
  rcases hp with hne | rfl
  · have hpos := List.length_pos_iff.mpr hne
    split <;> omega
  · rw [if_neg (by omega), Nat.zero_min]

-- ---------------------------------------------------------------------------
-- fat_write
-- ---------------------------------------------------------------------------

theorem Handle.Regular.recorded_next (hf : fat.WellFormed) (hr : h.Regular fat)
    (hc : fat.IsData c) :
    fat.next (h.recorded D) c = fat.next D c :=
  hf.next_congr hc fun _ hx => h.recorded_other D fun heq => (hr.placed hr.record).1 (heq ▸ hx)

theorem Handle.Regular.recorded_spare (hf : fat.WellFormed) (hr : h.Regular fat) (D : Disk) :
    fat.spare (h.recorded D) = fat.spare D := by
  ext c
  rw [Fat.mem_spare, Fat.mem_spare]
  refine and_congr_right fun hc => ?_
  rw [hr.recorded_next hf ⟨hc.1, by omega⟩]

theorem Handle.recorded_chainByte (hf : fat.Sized)
    (hout : ∀ c ∈ cs, ¬ fat.InCluster c h.direntSector) (hq : q < cs.length * fat.clusterSize) :
    fat.chainByte (h.recorded D) cs q = fat.chainByte D cs q :=
  hf.chainByte_congr (fun c hc _ hx => h.recorded_other D fun heq => hout c hc (heq ▸ hx)) hq

theorem Written.spare {n : ℕ} (hw : Written fat D D' first cs news p n b)
    (hcs : ∀ c ∈ cs, c ∉ fat.spare D) :
    (fat.spare D).card ≤ (fat.spare D').card + news.length := by
  have hsub : fat.spare D ⊆ fat.spare D' ∪ news.toFinset := by
    intro c hc
    rw [Finset.mem_union, List.mem_toFinset]
    by_cases hnew : c ∈ news
    · exact .inr hnew
    have hmem := Fat.mem_spare.mp hc
    refine .inl
      (Fat.mem_spare.mpr ⟨hmem.1, (hw.entries c (Fat.spare_data hc) fun hin => ?_).trans hmem.2⟩)
    rcases List.mem_append.mp hin with hin | hin
    · exact hcs c hin hc
    · exact hnew hin
  have hunion := (Finset.card_le_card hsub).trans (Finset.card_union_le _ _)
  have hlist := List.toFinset_card_le news
  omega

theorem Fat.needs_pos (fat : Fat) (hn : 0 < n) : fat.needs n = n / fat.clusterSize + 1 :=
  if_neg hn.ne'

theorem Fat.needs_le (fat : Fat) {n m : ℕ} (hle : n ≤ m) :
    fat.needs n ≤ m / fat.clusterSize + 1 := by
  unfold Fat.needs
  split
  · exact Nat.zero_le _
  · exact Nat.succ_le_succ (Nat.div_le_div_right hle)

theorem Written.count_needs {n : ℕ} (hw : Written fat D D' first cs news p n b) (hn : 0 < n)
    (hcs : ∀ c ∈ cs, c ∉ fat.spare D) (hneeds : fat.needs m ≤ cs.length) :
    (fat.spare D).card + fat.needs m ≤ (fat.spare D').card + fat.needs (max m (p + n)) := by
  have hspare := hw.spare hcs
  have hcount := hw.count
  have hold := fat.needs_le (Nat.le_max_left m (p + n))
  have hend : (p + n) / fat.clusterSize ≤ max m (p + n) / fat.clusterSize :=
    Nat.div_le_div_right (Nat.le_max_right m (p + n))
  rw [List.length_append] at hcount
  rw [Fat.needs_pos _ (show 0 < max m (p + n) by omega)]
  omega

theorem Written.first_lt {n : ℕ} (hf : fat.WellFormed)
    (hw : Written fat D D' first cs news p n b) (hpos : 0 < (cs ++ news).length) :
    first < 2 ^ 32 := by
  have hdata := hw.chain.mem (List.getElem_mem hpos)
  rw [hw.chain.get hpos, Function.iterate_zero, id] at hdata
  exact (hf.data_lt hdata).trans_le
    (Nat.pow_le_pow_right (by decide) (fat.width_le.trans (by decide)))

theorem Handle.Owns.length (ho : h.Owns fat D cs p n) : fat.needs n ≤ cs.length ∧
    (n = 0 ∨ n < cs.length * fat.clusterSize) := by
  rcases ho with ⟨rfl, -, -, rfl⟩ | ⟨-, hlt, -⟩
  · exact ⟨le_rfl, .inl rfl⟩
  · refine ⟨?_, .inr hlt⟩
    have hdiv := Nat.div_lt_of_lt_mul ((Nat.mul_comm _ _).symm ▸ hlt)
    unfold Fat.needs
    split <;> omega

theorem Handle.Owns.spare (ho : h.Owns fat D cs p n) : ∀ c ∈ cs, c ∉ fat.spare D := by
  rcases ho with ⟨rfl, -⟩ | ⟨hchain, -⟩
  · exact fun c hc => absurd hc List.not_mem_nil
  · exact fun c hc => Fat.chain_notMem_spare hchain hc

theorem Handle.Regular.holds_write {l : List UInt8} (hr : h.Regular fat)
    (hsize : h.size = max t.cells.length (t.pos + l.length))
    (hposition : h.position = t.pos + l.length)
    (hshort : max t.cells.length (t.pos + l.length) < 2 ^ 31)
    (ht : t.cells = (List.range t.cells.length).map (fat.chainByte D cs))
    (hchain : Chain (fat.next D') fat.IsData h.firstCluster cs' (fatEoc fat))
    (hroom : max t.cells.length (t.pos + l.length) < cs'.length * fat.clusterSize)
    (hcur : cs'[(t.pos + l.length) / fat.clusterSize]? = some h.curCluster)
    (hold : ∀ q < t.cells.length, q < t.pos ∨ t.pos + l.length ≤ q →
      fat.chainByte D' cs' q = fat.chainByte D cs q)
    (hnew : ∀ i (hi : i < l.length), fat.chainByte D' cs' (t.pos + i) = l[i]) :
    h.Holds fat D' cs' (t.write l) := by
  have hlen : (t.write l).cells.length = max t.cells.length (t.pos + l.length) := t.length_laid l
  refine ⟨hr, hsize.trans hlen.symm, hlen ▸ hshort, hposition, ?_,
    .inr ⟨hchain, hlen ▸ hroom, hcur⟩⟩
  rw [hlen]
  exact Tape.laid_eq_map ht hold hnew

theorem Found.recorded (hf : Found D f) (hsector : f.direntSector = h.direntSector)
    (hoffset : f.direntOffset = h.direntOffset)
    (hr : h.Regular fat) (hposition : h.position < 2 ^ 31) (hfirst : h.firstCluster < 2 ^ 32)
    (hsame : ¬ h.Grown → f.size = h.size ∧ f.firstCluster = h.firstCluster) :
    Found (h.recorded D) h.grown.fresh := by
  obtain ⟨-, hoff⟩ := hr.placed hr.record
  unfold Handle.recorded
  by_cases hg : h.Grown
  · rw [if_pos ⟨hg, hr.sync⟩, Handle.grown, if_pos hg]
    exact Found.synced (h := { h with size := h.position }) hf ⟨hsector, hoffset⟩ hoff
      (by dsimp only; omega) hfirst hr.root
  · obtain ⟨hs, hc⟩ := hsame hg
    rw [if_neg fun h => hg h.1, Handle.grown, if_neg hg]
    have haligned := hf.aligned
    have hinside := hf.inside
    have hattr := hf.attr
    have hsizeOf := hf.size
    have hfirstOf := hf.first
    rw [hoffset] at haligned hinside
    rw [hsector, hoffset] at hattr
    rw [hsector, hoffset, hs] at hsizeOf
    rw [hsector, hoffset, hc] at hfirstOf
    exact ⟨haligned, hinside, hattr, hsizeOf, hfirstOf, rfl, rfl, hr.root⟩

theorem Handle.Holds.written_tape {g : Handle} {n f q : ℕ} (hf : fat.WellFormed)
    (hh : h.Holds fat D cs t) (hsmall : t.pos + n < 2 ^ 31)
    (hw : Written fat D D' f cs news t.pos n b)
    (hq : (cs ++ news)[(t.pos + n) / fat.clusterSize]? = some q)
    (hg : g = { h with firstCluster := f, position := t.pos + n, curCluster := q })
    (hout : ∀ c ∈ cs ++ news, ¬ fat.InCluster c g.direntSector) :
    g.grown.Holds fat (g.recorded D') (cs ++ news) (t.write ((List.range n).map b)) := by
  have hlist : ((List.range n).map b).length = n := by rw [List.length_map, List.length_range]
  have hshort := hh.short
  have hcs := hf.clusterSize_pos
  have hcover := hh.owns.length.2
  have hreach : t.pos + n < (cs ++ news).length * fat.clusterSize := by
    have hq' := (List.getElem?_eq_some_iff.mp hq).1
    rwa [Nat.div_lt_iff_lt_mul hcs] at hq'
  have hlonger : cs.length * fat.clusterSize ≤ (cs ++ news).length * fat.clusterSize :=
    Nat.mul_le_mul_right _ (by rw [List.length_append]; omega)
  have hregular : g.Regular fat := hg ▸ ⟨hh.record, hh.root, hh.sync, hh.placed⟩
  have hchain :
      Chain (fat.next (g.recorded D')) fat.IsData g.firstCluster (cs ++ news) (fatEoc fat) := by
    rw [show g.firstCluster = f by rw [hg]]
    exact hw.chain.frame fun c hc => hregular.recorded_next hf (hw.chain.mem hc)
  rw [Handle.grown_eq hregular.record]
  refine Handle.Regular.holds_write ⟨hregular.record, hregular.root, hregular.sync,
    hregular.placed⟩ ?_ ?_ ?_ hh.cells hchain ?_ ?_ ?_ ?_
  · rw [hlist, hg, ← hh.size]
  · rw [hlist, hg]
  · rw [hlist]
    omega
  · rw [hlist]
    omega
  · rw [hlist, hg]
    exact hq
  · intro p hp hpn
    rw [hlist] at hpn
    rw [Handle.recorded_chainByte hf.toSized hout (by omega)]
    exact hw.old p (by omega) hpn
  · intro i hi
    rw [List.getElem_map, List.getElem_range]
    rw [hlist] at hi
    rw [Handle.recorded_chainByte hf.toSized hout (by omega)]
    exact hw.new i hi

theorem Handle.Holds.written {n f q : ℕ} (hf : fat.WellFormed) (hh : h.Holds fat D cs t)
    (hn : 0 < n) (hsmall : t.pos + n < 2 ^ 31)
    (hw : Written fat D D' f cs news t.pos n b)
    (hq : (cs ++ news)[(t.pos + n) / fat.clusterSize]? = some q)
    (hfirst : f = h.firstCluster ∨ t.cells.length = 0) (hout : ∀ c ∈ cs ++
      news, ¬ fat.InCluster c h.direntSector) :
    Handle.Served fat D
    (({ h with firstCluster := f, position := t.pos + n, curCluster := q } : Handle).recorded D') h
      ({ h with firstCluster := f, position := t.pos + n, curCluster := q } : Handle).grown cs
        (cs ++ news) t
      (t.write ((List.range n).map b)) := by
  generalize hg :
    ({ h with firstCluster := f, position := t.pos + n, curCluster := q } : Handle) = g
  have hregular : g.Regular fat := hg ▸ ⟨hh.record, hh.root, hh.sync, hh.placed⟩
  have hsector : g.direntSector = h.direntSector := by rw [← hg]
  have hoffset : g.direntOffset = h.direntOffset := by rw [← hg]
  constructor
  case holds => exact hh.written_tape hf hsmall hw hq hg.symm (hsector ▸ hout)
  case place =>
    rw [Handle.grown_eq hregular.record]
    exact ⟨hsector, hoffset⟩
  case grows => exact fun c hc => (List.mem_append.mp hc).imp_right (hw.free c)
  case entries => exact fun d hd hd' => (hregular.recorded_next hf hd).trans (hw.entries d hd hd')
  case sectors =>
    intro x hx hne hx'
    rw [g.recorded_other D' (hsector ▸ hne)]
    exact hw.sectors x hx hx'
  case records =>
    intro s o hs hs' ho hrec i hi
    rw [g.recorded_record D' ho (by rwa [hsector, hoffset]) hi, Disk.record, hw.sectors s hs hs']
    rfl
  case count =>
    have hlen : (t.write ((List.range n).map b)).cells.length = max t.cells.length (t.pos + n) :=
      (t.length_laid _).trans (by rw [List.length_map, List.length_range])
    rw [hregular.recorded_spare hf, hlen]
    exact hw.count_needs hn hh.owns.spare hh.owns.length.1
  case found =>
    intro hfound
    have hpos : 0 < (cs ++ news).length :=
      (Nat.zero_le _).trans_lt (List.getElem?_eq_some_iff.mp hq).1
    have hkept : Found D' h.fresh := hfound.congr fun i _ =>
      congrArg (fun b : Sector => b.mem (h.direntOffset + i))
        (hw.sectors h.direntSector (hh.placed hh.record).1 hout)
    refine hkept.recorded hsector.symm hoffset.symm hregular ?_ ?_ ?_
    · rw [← hg]
      exact hsmall
    · rw [← hg]
      exact hw.first_lt hf hpos
    · intro hng
      have hle : t.pos + n ≤ t.cells.length := by
        rw [← hh.size]
        by_contra hgt
        exact hng (hg ▸ ⟨hh.record, not_le.mp hgt⟩)
      rw [← hg]
      exact ⟨rfl, (hfirst.resolve_right (by omega)).symm⟩

theorem Handle.Holds.stays {h' : Handle} {t' : Tape UInt8} (hh : h'.Holds fat D cs t')
    (hplace : h'.direntSector = h.direntSector ∧ h'.direntOffset = h.direntOffset)
    (hfresh : h'.fresh = h.fresh)
    (hlen : t'.cells.length = t.cells.length) : Handle.Served fat D D h h' cs cs t t' where
  holds := hh
  place := hplace
  grows _ := .inl
  entries _ _ _ := rfl
  sectors _ _ _ _ := rfl
  records _ _ _ _ _ _ _ _ := rfl
  count := by rw [hlen]
  found hfound := hfresh ▸ hfound

/-- `fat_write` puts its bytes at the cursor of the tape, if there is room for them. -/
theorem Handle.Holds.write (hf : fat.WellFormed) (ha : fat.Aligned) (hl : fat.Hinted)
    (hh : h.Holds fat D cs t) (n : ℕ)
    (hsmall : t.pos + n < 2 ^ 31) (hroom : fat.needs (max t.cells.length (t.pos + n)) ≤ fat.needs
      t.cells.length + (fat.spare D).card)
    (hout : ∀ c, c ∈ cs ∨ c ∈ fat.spare D → ¬ fat.InCluster c h.direntSector) {c : Cached Sector}
    (hc : On D c) :
    ∃ l h' D' cs' c', (fatWrite fat h b n).cached c = .ok ((n, fat.hint l, h'), c') ∧ On D' c' ∧
    (fat.hint l).Hinted ∧
      Handle.Served fat D D' h h' cs cs' t (t.write ((List.range n).map b)) := by
  have hcs := hf.clusterSize_pos
  have hle := t.le
  have hsize := hh.size
  have hpos := hh.position
  rcases Nat.eq_zero_or_pos n with rfl | hn
  · have hzero := fatWrite_nothing (b := b) (D := D) hf.sector hf.cluster.ne' hh.root (by omega)
    obtain ⟨-, c', hrun, hc'⟩ := hzero.run hc
    refine ⟨fat.lastClusterAlloc, h, D, cs, c', hrun, hc', hl, ?_⟩
    rw [List.range_zero, List.map_nil, t.write_nil]
    exact hh.stays ⟨rfl, rfl⟩ rfl rfl
  rw [Fat.needs_pos _ (by omega)] at hroom
  rcases hh.owns with ⟨rfl, hfirst, hcur, hlen⟩ | ⟨hchain, hlt, hcur⟩
  · have hzero : t.pos = 0 := by omega
    rw [hlen, hzero, Nat.zero_add, Nat.zero_max, show fat.needs 0 = 0 from if_pos rfl, Nat.zero_add,
        Nat.succ_le_iff,
      Nat.div_lt_iff_lt_mul hcs] at hroom
    obtain ⟨E, news, l, f, q, c', hrun, hon, hl', hw, hq⟩ :=
      hh.toRegular.write_first (b := b) hf ha hl hcur (hpos.trans hzero) (by omega) hn hroom hc
    refine ⟨l, _, _, [] ++ news, c', hrun, hon, hl', ?_⟩
    have hserved := hh.written hf hn hsmall (hzero ▸ hw)
      (by rwa [hzero, Nat.zero_add]) (.inr hlen) fun c hc => hout c (.inr (hw.free c hc))
    rwa [hzero, Nat.zero_add] at hserved
  · have hroom' : h.position + n < (cs.length + (fat.spare D).card) * fat.clusterSize := by
      rw [← Nat.div_lt_iff_lt_mul hcs, hpos]
      have := hh.owns.length.1
      have hdiv :=
        Nat.div_le_div_right (c := fat.clusterSize) (Nat.le_max_right t.cells.length (t.pos + n))
      generalize (t.pos + n) / fat.clusterSize = k at hdiv ⊢
      generalize max t.cells.length (t.pos + n) / fat.clusterSize = k' at hdiv hroom
      omega
    obtain ⟨E, news, l, q, c', hrun, hon, hl', hw, hq⟩ :=
      hh.toRegular.write_chain (b := b) hf ha hl hchain (hpos ▸ hcur) (by omega) (by omega) hn
        hroom' hc
    rw [hpos] at hrun hon hw hq
    refine ⟨l, _, _, cs ++ news, c', hrun, hon, hl', ?_⟩
    refine hh.written hf (f := h.firstCluster) hn hsmall hw hq (.inl rfl) fun c hc => hout c ?_
    exact (List.mem_append.mp hc).imp_right (hw.free c)

-- ---------------------------------------------------------------------------
-- What a call leaves behind
-- ---------------------------------------------------------------------------

theorem Handle.Holds.served (hf : fat.Sized) (hh : h.Holds fat D cs t) (p : ℕ) :
    Handle.Served fat D D h (h.moved fat D (t.seek p).pos) cs cs t (t.seek p) := by
  have hmoved := hh.moved hf (t.seek p).le
  rw [t.seek_self] at hmoved
  exact hmoved.stays ⟨rfl, rfl⟩ rfl rfl

theorem Handle.Owns.data (ho : h.Owns fat D cs p n) : ∀ c ∈ cs, fat.IsData c := by
  rcases ho with ⟨rfl, -⟩ | ⟨hchain, -⟩
  · exact fun c hc => absurd hc List.not_mem_nil
  · exact fun c hc => hchain.mem hc

theorem Handle.Holds.frame (hf : fat.Sized) (hh : h.Holds fat D cs t)
    (hnext : ∀ c ∈ cs, fat.next D' c = fat.next D c)
    (hD : ∀ c ∈ cs, ∀ x, fat.InCluster c x → D' x = D x) : h.Holds fat D' cs t := by
  refine ⟨hh.toRegular, hh.size, hh.short, hh.position, ?_, ?_⟩
  · refine hh.cells.trans (List.map_congr_left fun q hq => (hf.chainByte_congr hD ?_).symm)
    rw [List.mem_range] at hq
    have := hh.owns.length.2
    omega
  · exact hh.owns.imp_right fun ⟨hchain, hlt, hcur⟩ => ⟨hchain.frame hnext, hlt, hcur⟩

theorem Handle.Holds.hint (hh : h.Holds fat D cs t) (l : ℕ) : h.Holds (fat.hint l) D cs t :=
  ⟨⟨hh.record, hh.root, hh.sync, hh.placed⟩, hh.size, hh.short, hh.position, hh.cells, hh.owns⟩

theorem Found.holds {f : Handle} (hfound : Found D f) (hr : f.Regular fat) (hstart : t.pos = 0)
    (hsize : f.size = t.cells.length)
    (hshort : t.cells.length < 2 ^ 31) (hcells : t.cells = (List.range t.cells.length).map
      (fat.chainByte D cs))
    (hcs : (cs = [] ∧ f.firstCluster = 0 ∧ t.cells.length = 0) ∨
      Chain (fat.next D) fat.IsData f.firstCluster cs (fatEoc fat) ∧
        t.cells.length < cs.length * fat.clusterSize) : f.Holds fat D cs t := by
  obtain ⟨hpos, hcur, -⟩ := hfound.start
  refine ⟨hr, hsize, hshort, hpos.trans hstart.symm, hcells, ?_⟩
  rcases hcs with ⟨hnil, hfirst, hlen⟩ | ⟨hchain, hlt⟩
  · exact .inl ⟨hnil, hfirst, hcur.trans hfirst, hlen⟩
  · refine .inr ⟨hchain, hlt, ?_⟩
    have hne : 0 < cs.length := Nat.pos_of_mul_pos_right ((Nat.zero_le _).trans_lt hlt)
    rw [hstart, Nat.zero_div, List.getElem?_eq_getElem hne, hchain.get hne, hcur]
    rfl

/-- A handle that is made from the record is at the start of the same file. -/
theorem Handle.Holds.reopened {f : Handle} (hh : h.Holds fat D cs t) (hfound : Found D h.fresh)
    (hfound' : Found D f)
    (hsector : f.direntSector = h.direntSector) (hoffset : f.direntOffset = h.direntOffset)
    (hsync : f.flags &&& oAsync = 0) :
    f.Holds fat D cs (t.seek 0) := by
  have hsize : f.size = h.size := by
    rw [hfound'.size, hsector, hoffset]
    exact hfound.size.symm
  have hfirst : f.firstCluster = h.firstCluster := by
    rw [hfound'.first, hsector, hoffset]
    exact hfound.first.symm
  have hr : f.Regular fat := by
    refine ⟨hsector ▸ hh.record, hfound'.start.2.2, hsync, ?_⟩
    rw [Handle.Placed, hsector, hoffset]
    exact hh.placed
  refine hfound'.holds hr (Nat.zero_min _) (hsize.trans hh.size) hh.short hh.cells ?_
  rw [hfirst]
  exact hh.owns.imp (fun ⟨hnil, hzero, _, hlen⟩ => ⟨hnil, hzero, hlen⟩) fun ⟨hchain, hlt, _⟩ =>
    ⟨hchain, hlt⟩

end

end SkyOS
