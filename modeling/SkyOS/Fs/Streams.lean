import SkyOS.Fs.Contents
import SkyOS.Fs.Found
import SkyOS.Fs.Seeking

/-!
# Writing to a file

`fat_write` on the handle of a regular file, with a chain or with no cluster yet, on a volume
where the clusters begin at multiples of their size, and as long as there are clusters to
spare. The last cluster has room for one more byte, since `fat_write` takes the next cluster
as soon as one is full.
-/

namespace SkyOS

open ByteMem WriteBack Chains

def Fat.Aligned (h : Fat) : Prop := h.firstDataSector % h.sectorsPerCluster = 0

/-- What is known of a chain after `n` bytes of `b` are written to it at `p`: `news` are new
clusters. -/
structure Written (fat : Fat) (D D' : Disk) (first : ℕ) (cs news : List ℕ) (p n : ℕ)
    (b : ℕ → UInt8) : Prop where
  chain : Chain (fat.next D') fat.IsData first (cs ++ news) (fatEoc fat)
  free : ∀ c ∈ news, c ∈ fat.spare D
  entries : ∀ d, fat.IsData d → d ∉ cs ++ news → fat.next D' d = fat.next D d
  sectors : ∀ x, ¬ fat.IsFat x → (∀ c ∈ cs ++ news, ¬ fat.InCluster c x) → D' x = D x
  count : (cs ++ news).length ≤ max cs.length ((p + n) / fat.clusterSize + 1)
  old : ∀ q < cs.length * fat.clusterSize, q < p ∨ p + n ≤ q → fat.chainByte D' (cs ++ news) q =
    fat.chainByte D cs q
  new : ∀ i < n, fat.chainByte D' (cs ++ news) (p + i) = b i

/-- The handle of a regular file, whose record is kept up to date. -/
structure Handle.Regular (h : Handle) (fat : Fat) : Prop where
  record : h.direntSector ≠ 0
  root : h.rootFlag = false
  sync : h.flags &&& oAsync = 0
  placed : h.Placed fat

section
variable {fat : Fat} {D D' : Disk} {h : Handle} {b : ℕ → UInt8} {cs news : List ℕ}

theorem Fat.Aligned.span (ha : fat.Aligned) : fat.span = fat.sectorsPerCluster := by
  rw [Fat.span, show fat.firstDataSector % fat.sectorsPerCluster = 0 from ha, Nat.sub_zero]

-- ---------------------------------------------------------------------------
-- Chains
-- ---------------------------------------------------------------------------

theorem Fat.chain_split (hchain : Chain (fat.next D) fat.IsData first cs m) (hk : cs[k]? = some c) :
    cs = cs.take k ++ (c :: cs.drop (k + 1)) ∧ Chain (fat.next D) fat.IsData first (cs.take k) c ∧
      Chain (fat.next D) fat.IsData c (c :: cs.drop (k + 1)) m := by
  obtain ⟨hlt, rfl⟩ := List.getElem?_eq_some_iff.mp hk
  have hsplit : cs = cs.take k ++ (cs[k] :: cs.drop (k + 1)) := by
    rw [← List.drop_eq_getElem_cons hlt, List.take_append_drop]
  have hparts := hchain
  rw [hsplit] at hparts
  obtain ⟨d, hd, hrest⟩ := Chain.append.mp hparts
  obtain rfl := hrest.1
  refine ⟨hsplit, hd, hrest⟩

theorem Handle.byte_eq (hf : fat.Sized) (hroot : h.rootFlag = false)
    (hchain : Chain (fat.next D) fat.IsData h.firstCluster cs m)
    (hp : p < cs.length * fat.clusterSize) : h.byte fat D p = fat.chainByte D cs p := by
  have hpos := hf.cluster
  have hi : p / fat.clusterSize < cs.length := Nat.div_lt_of_lt_mul (by rwa [Nat.mul_comm] at hp)
  have hdiv : p / maxSectorSize / fat.sectorsPerCluster = p / fat.clusterSize := by
    rw [Nat.div_div_eq_div_mul, hf.clusterSize_eq, Nat.mul_comm]
  have hmod : p % fat.clusterSize / maxSectorSize = p / maxSectorSize % fat.sectorsPerCluster := by
    rw [hf.clusterSize_eq, Nat.mul_comm, Nat.mod_mul_right_div_self]
  have hoff : p % fat.clusterSize % maxSectorSize = p % maxSectorSize := by
    rw [hf.clusterSize_eq, Nat.mod_mul_left_mod]
  have hdata : fat.IsData cs[p / fat.clusterSize] := hchain.mem (List.getElem_mem hi)
  rw [Fat.chainByte, Fat.clusterByte, Handle.byte, Handle.sectorOf, if_neg (by simp [hroot]),
      hf.sector, hdiv, hmod, hoff,
    List.getD_eq_getElem _ _ hi, (hf.firstSector hdata).1, Fat.cluster, ← hchain.get hi]

theorem Handle.moved_chain (hf : fat.Sized) (hroot : h.rootFlag = false)
    (hchain : Chain (fat.next D) fat.IsData h.firstCluster cs m)
    (hp : p < cs.length * fat.clusterSize) :
    cs[p / fat.clusterSize]? = some (h.moved fat D p).curCluster := by
  have hi : p / fat.clusterSize < cs.length := Nat.div_lt_of_lt_mul (by rwa [Nat.mul_comm] at hp)
  have hdiv : p / maxSectorSize / fat.sectorsPerCluster = p / fat.clusterSize := by
    rw [Nat.div_div_eq_div_mul, hf.clusterSize_eq, Nat.mul_comm]
  rw [Handle.moved_curCluster _ _ _ hroot, hf.sector, hdiv, List.getElem?_eq_getElem hi,
    Fat.cluster, hchain.get hi]

theorem Spot.place_spot (hf : fat.Sized) (h : Handle) (D : Disk) (rest : List ℕ) :
    (h.spot fat D rest).place = h.position % fat.clusterSize := by
  have hmod := Nat.mod_mul (a := maxSectorSize) (b := fat.sectorsPerCluster) (x := h.position)
  rw [hf.clusterSize_eq, Nat.mul_comm, hmod, Nat.mul_comm, Nat.add_comm]
  rfl

section
variable {s : Spot} {u : Stored} {front : List ℕ} {n : ℕ}

theorem Stored.Lays.front_fresh (hf : fat.WellFormed)
    (hchain : Chain (fat.next s.disk) fat.IsData first (front ++ s.cluster :: s.rest) (fatEoc fat))
    (hu : u.Lays s fat b n) (hd : d ∈ front) : d ∉ u.clusters s := by
  have hout : ¬ fat.IsData (fatEoc fat) := hf.not_data ⟨le_rfl, Nat.lt_add_of_pos_right (by decide)⟩
  intro hmem
  rcases List.mem_append.mp (show d ∈ (s.cluster :: s.rest) ++ u.news from hmem) with hmem | hmem
  · exact List.disjoint_of_nodup_append (hchain.nodup hout) hd hmem
  · exact Fat.chain_notMem_spare hchain (List.mem_append_left _ hd) (hu.free d hmem)

theorem Stored.Lays.front_same (hf : fat.WellFormed)
    (hchain : Chain (fat.next s.disk) fat.IsData first (front ++ s.cluster :: s.rest) (fatEoc fat))
    (hu : u.Lays s fat b n) (hd : d ∈ front) (hx : fat.InCluster d x) : u.disk x = s.disk x := by
  have hdata := hchain.mem (List.mem_append_left _ hd)
  refine hu.sectors x (hf.not_isFat hdata hx) fun e he hx' => hu.front_fresh hf hchain hd ?_
  exact hf.inCluster_unique hdata (hu.chain.mem he) hx hx' ▸ he

theorem Fat.front_div (hf : fat.Sized) (k p : ℕ) :
    (k * fat.clusterSize + p) / fat.clusterSize = k + p / fat.clusterSize := by
  rw [Nat.mul_comm, Nat.mul_add_div hf.clusterSize_pos]

/-- The clusters before the one of the spot take no part in what the loop does. -/
theorem Stored.Lays.joined (hf : fat.WellFormed)
    (hchain : Chain (fat.next s.disk) fat.IsData first (front ++ s.cluster :: s.rest) (fatEoc fat))
    (hu : u.Lays s fat b n) :
    Written fat s.disk u.disk first (front ++ s.cluster :: s.rest) u.news
      (front.length * fat.clusterSize + s.place) (n - s.done) (fun i => b (s.done + i)) := by
  have hlist : front ++ s.cluster :: s.rest ++ u.news = front ++ u.clusters s :=
    List.append_assoc ..
  have hrear := hf.chainByte_drop
  obtain ⟨c, hfront, hrest⟩ := Chain.append.mp hchain
  obtain rfl := hrest.1
  constructor
  case chain =>
    rw [hlist]
    exact Chain.append.mpr ⟨_, hfront.frame fun d hd =>
      hu.entries d (hfront.mem hd) (hu.front_fresh hf hchain hd), hu.chain⟩
  case free => exact hu.free
  case entries =>
    intro d hd hd'
    rw [hlist] at hd'
    exact hu.entries d hd fun hmem => hd' (List.mem_append_right _ hmem)
  case sectors =>
    intro x hx hx'
    rw [hlist] at hx'
    exact hu.sectors x hx fun c hc => hx' c (List.mem_append_right _ hc)
  case count =>
    have hcount := hu.count
    rw [hlist, Nat.add_assoc, Fat.front_div hf.toSized, List.length_append, List.length_append,
      List.length_cons]
    omega
  case old =>
    intro q hq hout
    rw [hlist]
    rcases Nat.lt_or_ge q (front.length * fat.clusterSize) with hqk | hqk
    · rw [Fat.chainByte_append hqk, Fat.chainByte_append hqk]
      exact hf.chainByte_congr (fun d hd x hx => hu.front_same hf hchain hd hx) hqk
    · obtain ⟨r, rfl⟩ := Nat.exists_eq_add_of_le hqk
      rw [hrear, hrear]
      rw [List.length_append, List.length_cons, Nat.add_mul] at hq
      exact hu.old r (by rw [Nat.add_comm 1]; omega) (by omega)
  case new =>
    intro i hi
    rw [hlist, Nat.add_assoc, hrear]
    exact hu.new i hi

end

theorem Stored.Lays.written {u : Stored} {n : ℕ} (hf : fat.WellFormed)
    (hchain : Chain (fat.next D) fat.IsData first cs (fatEoc fat))
    (hk : cs[h.position / fat.clusterSize]? = some h.curCluster)
    (hu : u.Lays (h.spot fat D (cs.drop (h.position / fat.clusterSize + 1))) fat b n) :
    Written fat D u.disk first cs u.news h.position n b ∧
    (cs ++ u.news)[(h.position + n) / fat.clusterSize]? = some u.cluster := by
  have hsplit := (Fat.chain_split hchain hk).1
  have hlen : (cs.take (h.position / fat.clusterSize)).length = h.position / fat.clusterSize :=
    List.length_take_of_le (List.getElem?_eq_some_iff.mp hk).1.le
  have hplace := Spot.place_spot hf.toSized h D (cs.drop (h.position / fat.clusterSize + 1))
  have hpos : h.position / fat.clusterSize * fat.clusterSize + h.position % fat.clusterSize =
      h.position := by
    rw [Nat.mul_comm, Nat.div_add_mod]
  have hspot : (h.spot fat D (cs.drop (h.position / fat.clusterSize + 1))).cluster =
      h.curCluster := rfl
  have hrest : (h.spot fat D (cs.drop (h.position / fat.clusterSize + 1))).rest =
      cs.drop (h.position / fat.clusterSize + 1) := rfl
  have hdisk : (h.spot fat D (cs.drop (h.position / fat.clusterSize + 1))).disk = D := rfl
  have hdone : (h.spot fat D (cs.drop (h.position / fat.clusterSize + 1))).done = 0 := rfl
  generalize h.spot fat D (cs.drop (h.position / fat.clusterSize + 1)) = s at *
  rw [← hspot, ← hrest] at hsplit
  subst hdisk
  have hw := hu.joined hf (hsplit ▸ hchain)
  have hcluster := hu.cluster
  rw [← hsplit, hlen, hplace, hpos, hdone] at hw
  rw [hplace, hdone, Nat.sub_zero] at hcluster
  simp only [Nat.sub_zero, Nat.zero_add] at hw
  refine ⟨hw, ?_⟩
  have hlist : cs ++ u.news = cs.take (h.position / fat.clusterSize) ++ u.clusters s := by
    conv_lhs => rw [hsplit]
    exact List.append_assoc ..
  have hdiv : (h.position + n) / fat.clusterSize = h.position / fat.clusterSize +
      (h.position % fat.clusterSize + n) / fat.clusterSize := by
    conv_lhs => rw [← hpos, Nat.add_assoc, Fat.front_div hf.toSized]
  rw [hlist, hdiv, List.getElem?_append_right (hlen.le.trans (Nat.le_add_right _ _)), hlen,
    Nat.add_sub_cancel_left]
  exact hcluster

-- ---------------------------------------------------------------------------
-- fat_write
-- ---------------------------------------------------------------------------

theorem Handle.close_syncs (hp : h.Placed fat) (hflag : h.flags &&& oAsync = 0) (hg : h.Grown) :
    Gives .univ (Apart fat.table D) h.close h.grown (On (h.recorded D)) := by
  obtain ⟨hout, hoff⟩ := hp hg.1
  unfold Handle.close Handle.recorded Handle.grown
  rw [if_pos hg, if_pos hg, if_pos hflag, if_pos ⟨hg, hflag⟩]
  exact (fatFileSync_gives (h := { h with size := h.position }) hout hoff).bind
    (Gives.pure _ fun _ hc => hc)

theorem fatWrite_coherent (hs : fat.sectorsPerCluster ≠ 0) (hsize : h.size ≠ 0)
    {c c' : Cached Sector} {n : ℤ} (hc : c.Coherent)
    (hrun : (fatWrite fat h b n).cached c = .ok (r, c')) : c'.Coherent := by
  have hrel := (fatWrite_transparent fat hs h b n).run hc (fatWrite_quiet fat h hsize b n c)
  rw [hrun] at hrel
  revert hrel
  generalize (fatWrite fat h b n).direct _ = d
  intro hrel
  match d, hrel with
  | .ok (_, _), hrel => exact hrel.2.coherent

theorem fatWrite_nothing (hb : fat.bytesPerSector = maxSectorSize) (hs : fat.sectorsPerCluster ≠ 0)
    (hroot : h.rootFlag = false)
    (hp : h.position ≤ h.size) :
    Gives .univ (On D) (fatWrite fat h b (0 : ℕ)) (0, fat, h) (On D) := by
  unfold fatWrite fatFirstAlloc
  rw [if_neg (by simp), Prog.pure_bind]
  dsimp only
  refine (fatFileSectorOffset_at hb hs h).bind ?_
  rw [if_neg (by simp [hroot])]
  dsimp only [Int.toNat_natCast, fatWriteLoop]
  rw [Prog.pure_bind]
  dsimp only
  rw [if_neg (by omega)]
  exact Gives.pure _ fun _ => id

theorem fatWriteSeen_syncs {n : ℕ} {rest : List ℕ} (hf : fat.WellFormed) (hl : fat.Hinted)
    (hr : h.Regular fat)
    (hs : (h.spot fat D rest).Ready fat (fatEoc fat)) (hlt : h.position < 2 ^ 32) :
    Does .univ (Apart fat.table D) (fatWriteSeen fat h b n) fun r c =>
      ∃ u l, Stores fat (h.size == 0) b n (h.spot fat D rest) u ∧
      r = (u.seen, u.done, fat.hint l, (h.stored (h.spot fat D rest) u).grown) ∧
      (fat.hint l).Hinted ∧
      c.disk = (h.stored (h.spot fat D rest) u).recorded u.disk ∧
      ((h.stored (h.spot fat D rest) u).Grown →
        On ((h.stored (h.spot fat D rest) u).recorded u.disk) c) := by
  rw [fatWriteSeen_eq hf hs.data hr.root]
  have hrun := fatWriteLoopSeen_stores (b := b) hf (l := fat.lastClusterAlloc) hl hs (.inl rfl) rfl
    hr.root rfl hlt (Nat.sub_le n _)
  refine Does.bind hrun fun r => ?_
  rintro c ⟨u, l, hu, rfl, hl', hc⟩
  have hp : (h.stored (h.spot fat D rest) u).Placed fat := hr.placed
  revert c
  change Does .univ _ _ _
  by_cases hg : (h.stored (h.spot fat D rest) u).Grown
  · refine (Handle.close_syncs hp hr.sync hg).bind (Does.pure ?_)
    exact fun c hc => ⟨u, l, hu, rfl, hl', hc.disk, fun _ => hc⟩
  · refine (Handle.close_gives hp).bind (Does.pure ?_)
    exact fun c hc => ⟨u, l, hu, rfl, hl', hc.disk, fun hg' => absurd hg' hg⟩

theorem Handle.Regular.write_chain {n : ℕ} (hf : fat.WellFormed) (ha : fat.Aligned)
    (hl : fat.Hinted) (hr : h.Regular fat)
    (hchain : Chain (fat.next D) fat.IsData h.firstCluster cs (fatEoc fat))
    (hk : cs[h.position / fat.clusterSize]? = some h.curCluster)
    (hpos : h.position ≤ h.size) (hsmall : h.position + n < 2 ^ 31) (hn : 0 < n)
    (hroom : h.position + n < (cs.length + (fat.spare D).card) * fat.clusterSize)
    {c : Cached Sector} (hc : On D c) :
    ∃ E news l q c', (fatWrite fat h b n).cached c =
      .ok ((n, fat.hint l, ({ h with position := h.position + n, curCluster := q }).grown), c') ∧
      On (({ h with position := h.position + n, curCluster := q } : Handle).recorded E) c' ∧
        (fat.hint l).Hinted ∧
      Written fat D E h.firstCluster cs news h.position n b ∧
          (cs ++ news)[(h.position + n) / fat.clusterSize]? = some q := by
  obtain ⟨-, -, hspot⟩ := Fat.chain_split hchain hk
  have hlt := (List.getElem?_eq_some_iff.mp hk).1
  have hdiv := Nat.div_add_mod h.position fat.clusterSize
  have hready :
      (h.spot fat D (cs.drop (h.position / fat.clusterSize + 1))).Ready fat (fatEoc fat) :=
    ⟨hspot, hf.not_data ⟨le_rfl, Nat.lt_add_of_pos_right (by decide)⟩,
      ha.span ▸ Nat.mod_lt _ hf.cluster, Nat.mod_lt _ (by decide)⟩
  have hroomy : (h.spot fat D (cs.drop (h.position / fat.clusterSize + 1))).Roomy fat n := by
    unfold Spot.Roomy
    rw [Spot.place_spot hf.toSized]
    change _ + (n - 0) <
      (1 + (cs.drop (h.position / fat.clusterSize + 1)).length + (fat.spare D).card) * _
    have hparts : cs.length + (fat.spare D).card =
        h.position / fat.clusterSize + (1 + (cs.drop (h.position / fat.clusterSize + 1)).length +
            (fat.spare D).card) := by
      rw [List.length_drop]
      omega
    rw [hparts, Nat.add_mul, Nat.mul_comm] at hroom
    omega
  obtain ⟨-, r, c', hrun, u, l, hu, rfl, hl', hdisk, hon⟩ :=
    fatWriteSeen_syncs (b := b) (n := n) hf hl hr hready (by omega) c (hc.apart _)
  have hlay := hu.lays hf ha.span hready (Nat.zero_le _) hroomy
  obtain ⟨hwritten, hq⟩ := hlay.written hf hchain hk
  have hdone := hlay.done
  have hstored : h.stored (h.spot fat D (cs.drop (h.position / fat.clusterSize + 1))) u =
      { h with position := h.position + n, curCluster := u.cluster } := by
    rw [Handle.stored, hdone]
    change ({ h with position := u32 (h.position + (n - 0)), curCluster := u.cluster } : Handle) = _
    rw [Nat.sub_zero, u32_of_lt (by omega)]
  have hwrite := (fatWriteSeen_erases fat h b n).run hrun
  rw [hstored] at hdisk hon hwrite
  rw [hdone] at hwrite
  refine ⟨u.disk, u.news, l, u.cluster, c', hwrite, ?_, hl', hwritten, hq⟩
  by_cases hsize : h.size = 0
  · exact hon ⟨hr.record, show h.position + n > h.size by omega⟩
  · exact ⟨hdisk, fatWrite_coherent hf.cluster.ne' hsize hc.coherent hwrite⟩

-- ---------------------------------------------------------------------------
-- The first cluster
-- ---------------------------------------------------------------------------

theorem Written.unhint {l n : ℕ} (h : Written (fat.hint l) D D' first cs news p n b) :
    Written fat D D' first cs news p n b :=
  ⟨h.chain, h.free, h.entries, h.sectors, h.count, h.old, h.new⟩

theorem Fat.WellFormed.next_ended (hf : fat.WellFormed) (hc : fat.IsData c) (hd : fat.IsData d) :
    fat.next (fat.set c (fatEoc fat) D) d = if d = c then fatEoc fat else fat.next D d := by
  by_cases hdc : d = c
  · rw [if_pos hdc, hdc, hf.table.next_set_self hc.2 fat.fatEoc_lt_width]
  · rw [if_neg hdc, hf.table.next_set_of_ne hc.2 hd.2 (Ne.symm hdc)]

theorem Fat.WellFormed.spare_ended (hf : fat.WellFormed) (hc : c ∈ fat.spare D) :
    fat.spare (fat.set c (fatEoc fat) D) = (fat.spare D).erase c := by
  have hpos := fat.fatEoc_pos
  ext d
  rw [Finset.mem_erase, Fat.mem_spare, Fat.mem_spare]
  by_cases hd : 2 ≤ d ∧ d < fat.clusterCount
  · rw [hf.next_ended (Fat.spare_data hc) ⟨hd.1, by omega⟩]
    by_cases hdc : d = c
    · rw [if_pos hdc]
      exact iff_of_false (fun h => by omega) fun h => h.1 hdc
    · rw [if_neg hdc]
      exact ⟨fun h => ⟨hdc, h⟩, fun h => h.2⟩
  · exact iff_of_false (fun h => hd h.1) fun h => hd h.2.1

theorem fatFirstAlloc_gives {n : ℕ} (hf : fat.WellFormed) (hcur : h.curCluster = 0) (hn : 0 < n)
    (hc : 2 ≤ c)
    (hfree : fat.freeCluster D = (c, fat.hint c)) : Gives .univ (On D) (fatFirstAlloc fat h n)
      (some (fat.hint c, { h with firstCluster := c, curCluster := c }))
      (On (fat.set c (fatEoc fat) D)) := by
  unfold fatFirstAlloc
  rw [if_pos ⟨hcur, by omega⟩]
  refine (fatFindFreeCluster_gives hf.sector).bind ?_
  rw [hfree]
  dsimp only
  rw [if_neg (by omega)]
  refine (fatSetNextCluster_gives (h := fat.hint c) hf.sector c _).bind ?_
  rw [Fat.hint_set]
  exact Gives.pure _ fun _ => id

/-- After its first cluster is there, a file is written to like any other. -/
theorem fatWrite_first {n : ℤ} {fat' : Fat} {h' : Handle} {c c' : Cached Sector}
    (hrun : (fatFirstAlloc fat h n).cached c = .ok (some (fat', h'), c'))
    (hcur : h'.curCluster ≠ 0) :
    (fatWrite fat h b n).cached c = (fatWrite fat' h' b n).cached c' := by
  unfold fatWrite
  rw [Prog.cached_bind, hrun]
  have hnone : fatFirstAlloc fat' h' n = pure (some (fat', h')) := by
    unfold fatFirstAlloc
    rw [if_neg fun h => hcur h.1]
  rw [hnone, Prog.pure_bind]
  rfl

theorem Handle.Regular.write_first {n : ℕ} (hf : fat.WellFormed) (ha : fat.Aligned)
    (hl : fat.Hinted) (hr : h.Regular fat)
    (hcur : h.curCluster = 0) (hpos : h.position = 0) (hsmall : n < 2 ^ 31) (hn : 0 < n)
    (hroom : n < (fat.spare D).card * fat.clusterSize) {c : Cached Sector} (hc : On D c) :
    ∃ E news l f q c', (fatWrite fat h b n).cached c =
        .ok ((n, fat.hint l,
          ({ h with firstCluster := f, position := n, curCluster := q }).grown), c') ∧
      On (({ h with firstCluster := f, position := n, curCluster := q } : Handle).recorded E) c' ∧
        (fat.hint l).Hinted ∧
      Written fat D E f [] news 0 n b ∧ news[n / fat.clusterSize]? = some q := by
  rcases Fat.freeCluster_cases hl D with ⟨-, hnone⟩ | ⟨f, h2, hfc, hzero, hfree⟩
  · have hempty : fat.spare D = ∅ :=
      Finset.eq_empty_of_forall_notMem fun c hc =>
        have h := Fat.mem_spare.mp hc; hnone c h.1.1 h.1.2 h.2
    rw [hempty, Finset.card_empty, Nat.zero_mul] at hroom
    exact absurd hroom (Nat.not_lt_zero n)
  have hmem : f ∈ fat.spare D := Fat.mem_spare.mpr ⟨⟨h2, hfc⟩, hzero⟩
  have hdata := Fat.spare_data hmem
  have hspare := hf.spare_ended hmem
  have hcard := Finset.card_erase_add_one hmem
  obtain ⟨-, c₁, hfirst, hc₁⟩ := (fatFirstAlloc_gives (h := h) hf hcur hn h2 hfree).run hc
  have hrun := fatWrite_first (b := b) hfirst (show f ≠ 0 by omega)
  have hchain : Chain (fat.next (fat.set f (fatEoc fat) D)) fat.IsData f [f] (fatEoc fat) := by
    refine ⟨rfl, hdata, ?_⟩
    rw [hf.next_ended hdata hdata, if_pos rfl]
    rfl
  obtain ⟨E, news, l, q, c', hwrite, hon, hl', hw, hq⟩ := Handle.Regular.write_chain
    (h := { h with firstCluster := f, curCluster := f }) (b := b) (n :=
      n) (hf.hint f) ha (.hint h2 hfc)
    ⟨hr.record, hr.root, hr.sync, hr.placed⟩ hchain (by simp [hpos]) (by simp [hpos])
      (by simpa [hpos] using hsmall) hn
    (by
      change h.position + n < (1 + (fat.spare (fat.set f (fatEoc fat) D)).card) * fat.clusterSize
      rw [hspare, hpos, Nat.zero_add, Nat.add_comm 1, hcard]
      exact hroom) hc₁
  dsimp only at hwrite hon hq
  rw [hpos, Nat.zero_add] at hwrite hon hq
  have hw := hw.unhint
  rw [hpos] at hw hrun
  refine ⟨E, f :: news, l, f, q, c', hrun.trans hwrite, hon, hl',
    ⟨hw.chain, ?_, ?_, ?_, ?_, ?_, hw.new⟩, hq⟩
  · intro d hd
    rcases List.mem_cons.mp hd with rfl | hd
    · exact hmem
    · have := hw.free d hd
      rw [hspare] at this
      exact Finset.mem_of_mem_erase this
  · intro d hd hd'
    refine (hw.entries d hd hd').trans ((hf.next_ended hdata hd).trans (if_neg ?_))
    rintro rfl
    exact hd' List.mem_cons_self
  · exact fun x hx hx' => (hw.sectors x hx hx').trans (hf.table.set_outside hdata.2 hx _)
  · refine hw.count.trans ?_
    rw [List.length_singleton, List.length_nil]
    generalize (0 + n) / fat.clusterSize = k
    omega
  · intro q hq
    rw [List.length_nil, Nat.zero_mul] at hq
    exact absurd hq (Nat.not_lt_zero q)

end

end SkyOS
