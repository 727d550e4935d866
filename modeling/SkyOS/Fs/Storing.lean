import SkyOS.Fs.Extending
import SkyOS.Lib.Chains

/-!
# Storing bytes

The loop of `fat_write` goes along a chain and sets the bytes of its clusters, and where
the chain ends it takes new clusters. `Stores` says what a round can come to. A round that
ends with a sector goes on in the next one, or in the next cluster where the number of the
sector is a multiple of `sectors_per_cluster`: `span` sectors after the start of a cluster.
-/

namespace SkyOS

open ByteMem WriteBack Chains

-- ---------------------------------------------------------------------------
-- The clusters that are written
-- ---------------------------------------------------------------------------

/-- The loop of `fat_write`, with the clusters it was in and the sectors it wrote. -/
def fatWriteLoopSeen (b : ℕ → UInt8) (n : ℕ) : ℕ → ℕ → ℕ → ℕ → Fat → Handle →
    Fs (List (ℕ × ℕ) × ℕ × Fat × Handle)
  | 0, i, _, _, fat, h => return ([], i, fat, h)
  | fuel + 1, i, sector, offset, fat, h => do
    if n ≤ i then return ([], i, fat, h)
    let chunk := min (fat.bytesPerSector - offset) (n - i)
    fatWriteChunk fat sector offset chunk fun j => b (i + j)
    let seen := (h.curCluster, sector)
    let h := { h with position := u32 (h.position + chunk) }
    let i := i + chunk
    if h.position % fat.bytesPerSector ≠ 0 then return ([seen], i, fat, h)
    let sector := u32 (sector + 1)
    if !h.rootFlag ∧ sector % fat.sectorsPerCluster = 0 then
      let (next, fat) ← fatAllocNextCluster fat h.curCluster (h.size == 0)
      if next = 0 then return ([seen], i, fat, h)
      let (l, r) ← fatWriteLoopSeen b n fuel i (fatFirstSectorOfCluster fat next) 0 fat
        { h with curCluster := next }
      return (seen :: l, r)
    else
      let (l, r) ← fatWriteLoopSeen b n fuel i sector 0 fat h
      return (seen :: l, r)

theorem fatWriteLoopSeen_erases (b : ℕ → UInt8) (n fuel i sector offset : ℕ) (fat : Fat)
    (h : Handle) :
    Erases (fatWriteLoopSeen b n fuel i sector offset fat h)
    (fatWriteLoop b n fuel i sector offset fat h) := by
  induction fuel generalizing i sector offset fat h with
  | zero => exact .pure _ _
  | succ fuel ih =>
    unfold fatWriteLoopSeen fatWriteLoop
    refine .ite (.pure _ _) (.bind fun _ =>
      .ite (.pure _ _) (.ite (.bind fun r => .ite (.pure _ _) ?_) ?_))
    · exact (ih _ _ _ _ _).map _
    · exact (ih _ _ _ _ _).map _

-- ---------------------------------------------------------------------------
-- Rounds
-- ---------------------------------------------------------------------------

namespace Fat

def span (h : Fat) : ℕ := h.sectorsPerCluster - h.firstDataSector % h.sectorsPerCluster

end Fat

/-- The loop of `fat_write` before a round: the cluster and those of the chain behind it,
the sector in the cluster, the offset in that, and how many bytes are done. -/
structure Spot where
  disk : Disk
  cluster : ℕ
  rest : List ℕ
  index : ℕ
  offset : ℕ
  done : ℕ

namespace Spot

def sector (s : Spot) (fat : Fat) : ℕ := fatFirstSectorOfCluster fat s.cluster + s.index

def wrote (s : Spot) (fat : Fat) (b : ℕ → UInt8) (len : ℕ) : Disk :=
  s.disk.write (s.sector fat) s.offset len fun j => b (s.done + j)

def filled (s : Spot) (fat : Fat) (b : ℕ → UInt8) : Disk := s.wrote fat b (maxSectorSize - s.offset)

def next (s : Spot) (disk : Disk) (cluster : ℕ) (rest : List ℕ) (index : ℕ) : Spot :=
  ⟨disk, cluster, rest, index, 0, s.done + (maxSectorSize - s.offset)⟩

end Spot

/-- What the loop comes to: `news` are the new clusters. -/
structure Stored where
  disk : Disk
  news : List ℕ
  cluster : ℕ
  done : ℕ
  seen : List (ℕ × ℕ)

def Stored.after (t : Stored) (x : ℕ × ℕ) (news : List ℕ) : Stored :=
  { t with news := news ++ t.news, seen := x :: t.seen }

inductive Stores (fat : Fat) (clear : Bool) (b : ℕ → UInt8) (n : ℕ) : Spot → Stored → Prop
  | done (h : n ≤ s.done) : Stores fat clear b n s ⟨s.disk, [], s.cluster, s.done, []⟩
  | inside (h : s.done < n) (hlt : s.offset + (n - s.done) < maxSectorSize) :
      Stores fat clear b n s ⟨s.wrote fat b (n - s.done), [], s.cluster, n,
        [(s.cluster, s.sector fat)]⟩
  | sector (h : s.done < n) (hge : maxSectorSize ≤ s.offset + (n - s.done))
      (hk : s.index + 1 < fat.span)
      (hrest : Stores fat clear b n (s.next (s.filled fat b) s.cluster s.rest (s.index + 1)) t) :
      Stores fat clear b n s (t.after (s.cluster, s.sector fat) [])
  | follow (h : s.done < n) (hge : maxSectorSize ≤ s.offset + (n - s.done))
      (hk : s.index + 1 = fat.span) (hc : s.rest = c :: rest)
      (hrest : Stores fat clear b n (s.next (s.filled fat b) c rest 0) t) :
        Stores fat clear b n s (t.after (s.cluster, s.sector fat) [])
  | extend (h : s.done < n) (hge : maxSectorSize ≤ s.offset + (n - s.done))
      (hk : s.index + 1 = fat.span) (hc : s.rest = [])
      (h2 : 2 ≤ c) (hcc : c < fat.clusterCount) (hfree : fat.next (s.filled fat b) c = 0)
      (hrest : Stores fat clear b n (s.next (fat.extended (s.filled fat b) s.cluster c clear) c
        [] 0) t) :
      Stores fat clear b n s (t.after (s.cluster, s.sector fat) [c])
  | full (h : s.done < n) (hge : maxSectorSize ≤ s.offset + (n - s.done))
      (hk : s.index + 1 = fat.span) (hc : s.rest = [])
      (hnone : ∀ c, 2 ≤ c → c < fat.clusterCount → fat.next (s.filled fat b) c ≠ 0) :
      Stores fat clear b n s ⟨s.filled fat b, [], s.cluster, s.done + (maxSectorSize - s.offset),
        [(s.cluster, s.sector fat)]⟩

structure Spot.Ready (s : Spot) (fat : Fat) (m : ℕ) : Prop where
  chain : Chain (fat.next s.disk) fat.IsData s.cluster (s.cluster :: s.rest) m
  out : ¬ fat.IsData m
  index : s.index < fat.span
  offset : s.offset < maxSectorSize

/-- The chain ends where `fat_alloc_next_cluster` can see it, or the loop does not get there. -/
def Spot.Seen (s : Spot) (fat : Fat) (m n : ℕ) : Prop :=
  m = fatEoc fat ∨ s.index * maxSectorSize + s.offset + (n - s.done) < (1 + s.rest.length) *
    (fat.span * maxSectorSize)

section
variable {fat : Fat} {s : Spot} {t : Stored} {D : Disk} {b : ℕ → UInt8}

theorem Fat.Sized.span_le (hf : fat.Sized) : fat.span ≤ fat.sectorsPerCluster ∧ 0 < fat.span := by
  have := Nat.mod_lt fat.firstDataSector hf.cluster
  unfold Fat.span
  omega

theorem Fat.Sized.span_iff (hf : fat.Sized) (hc : fat.IsData c) (hk : k < fat.span) :
    (fatFirstSectorOfCluster fat c + k + 1) % fat.sectorsPerCluster = 0 ↔ k + 1 = fat.span := by
  have hlt := Nat.mod_lt fat.firstDataSector hf.cluster
  have hdiv := Nat.div_add_mod fat.firstDataSector fat.sectorsPerCluster
  have hmod : (fatFirstSectorOfCluster fat c + k + 1) % fat.sectorsPerCluster =
      (fat.firstDataSector % fat.sectorsPerCluster + (k + 1)) % fat.sectorsPerCluster := by
    rw [(hf.firstSector hc).1, Nat.mod_add_mod, Nat.add_assoc, Nat.add_assoc, Nat.add_comm,
      Nat.add_mul_mod_self_right]
  rw [hmod]
  unfold Fat.span at *
  constructor
  · intro h0
    by_contra hne
    rw [Nat.mod_eq_of_lt (by omega)] at h0
    omega
  · intro hend
    rw [show fat.firstDataSector % fat.sectorsPerCluster + (k + 1) = fat.sectorsPerCluster by omega,
      Nat.mod_self]

theorem fatWriteChunk_gives {T : Set ℕ} (hb : fat.bytesPerSector = maxSectorSize) (hs : sec ∉ T)
    (ho : o + len ≤ maxSectorSize)
    (src : ℕ → UInt8) :
    Gives .univ (Apart T D) (fatWriteChunk fat sec o len src) () (On (D.write sec o len src)) := by
  unfold fatWriteChunk
  rw [hb]
  by_cases hlen : len < maxSectorSize
  · rw [if_pos hlen]
    exact (gives_getApart (Set.mem_univ _) hs).bind <|
      ((gives_writeBuf ho src).pre fun _ h => h.editing).bind <| gives_put _
  · obtain ⟨rfl, rfl⟩ : o = 0 ∧ len = maxSectorSize := by omega
    rw [if_neg hlen]
    refine gives_flushApart.bind fun _ => ?_
    rintro c ⟨buf, hbuf⟩
    refine (gives_writeSpare ho src).bind ?_ c hbuf
    rw [Sector.fill_all, ← Sector.fill_all (D sec)]
    exact gives_putSpare sec

theorem Disk.write_of_ne (D : Disk) (hne : sec' ≠ sec) (o len : ℕ) (src : ℕ → UInt8) :
    D.write sec o len src sec' = D sec' :=
  Function.update_of_ne hne _ _

-- ---------------------------------------------------------------------------
-- The next round
-- ---------------------------------------------------------------------------

namespace Spot.Ready

theorem data (hs : s.Ready fat m) : fat.IsData s.cluster := hs.chain.2.1

theorem inCluster (hf : fat.WellFormed) (hs : s.Ready fat m) :
    fat.InCluster s.cluster (s.sector fat) := by
  have := hs.index
  have := hf.span_le.1
  unfold Fat.InCluster Spot.sector
  omega

theorem not_isFat (hf : fat.WellFormed) (hs : s.Ready fat m) : ¬ fat.IsFat (s.sector fat) :=
  hf.not_isFat hs.data (hs.inCluster hf)

theorem wrote_next (hf : fat.WellFormed) (hs : s.Ready fat m) (len : ℕ) (hc : fat.IsData c) :
    fat.next (s.wrote fat b len) c = fat.next s.disk c :=
  hf.next_congr hc fun _ hsec =>
    Disk.write_of_ne _ (fun heq => hs.not_isFat hf (by rwa [heq] at hsec)) _ _ _

theorem wrote_chain (hf : fat.WellFormed) (hs : s.Ready fat m) (len : ℕ) :
    Chain (fat.next (s.wrote fat b len)) fat.IsData s.cluster (s.cluster :: s.rest) m :=
  hs.chain.frame fun _ hc => hs.wrote_next hf len (hs.chain.mem hc)

theorem sector (hf : fat.WellFormed) (hs : s.Ready fat m) (hk : s.index + 1 < fat.span) :
    (s.next (s.filled fat b) s.cluster s.rest (s.index + 1)).Ready fat m :=
  ⟨hs.wrote_chain hf _, hs.out, hk, Nat.succ_pos _⟩

theorem follow (hf : fat.WellFormed) (hs : s.Ready fat m) (hc : s.rest = c :: l) :
    (s.next (s.filled fat b) c l 0).Ready fat m := by
  have hchain := hs.wrote_chain (b := b) hf (maxSectorSize - s.offset)
  rw [hc] at hchain
  obtain ⟨rfl, -, -⟩ := hchain.2.2
  exact ⟨hchain.2.2, hs.out, hf.span_le.2, Nat.succ_pos _⟩

theorem next_eq (hf : fat.WellFormed) (hs : s.Ready fat m) (len : ℕ) :
    fat.next (s.wrote fat b len) s.cluster = s.rest.headD m := by
  have hchain := (hs.wrote_chain (b := b) hf len).2.2
  cases hr : s.rest with
  | nil => rw [hr] at hchain; exact hchain
  | cons c rest => rw [hr] at hchain; exact hchain.1

theorem extend (hf : fat.WellFormed) (hs : s.Ready fat m) (h2 : 2 ≤ c) (hcc : c < fat.clusterCount)
    (hfree : fat.next (s.filled fat b) c = 0) (heoc : fat.next (s.filled fat b) s.cluster =
      fatEoc fat) (clear : Bool) :
    (s.next (fat.extended (s.filled fat b) s.cluster c clear) c [] 0).Ready fat (fatEoc fat) := by
  have hc : fat.IsData c := ⟨h2, by omega⟩
  have hne : c ≠ s.cluster := by
    rintro rfl
    have := fat.fatEoc_pos
    omega
  refine ⟨⟨rfl, hc, ?_⟩, ?_, hf.span_le.2, Nat.succ_pos _⟩
  · exact (hf.extended_next hs.data hc clear hc).trans ((if_neg hne).trans (if_pos rfl))
  · have := hf.count
    exact fun hd => absurd hd.2 (by omega)

end Spot.Ready

theorem u32_add_u32 (x a c : ℕ) : u32 (u32 (x + a) + c) = u32 (x + (a + c)) := by
  unfold u32
  omega

theorem Stores.le (h : Stores fat clear b n s t) : s.done ≤ t.done := by
  induction h with
  | done | inside | full => dsimp only; omega
  | sector _ _ _ _ ih | follow _ _ _ _ _ ih | extend _ _ _ _ _ _ _ _ ih =>
    exact (Nat.le_add_right _ _).trans ih

def Handle.stored (h : Handle) (s : Spot) (t : Stored) : Handle :=
  { h with position := u32 (h.position + (t.done - s.done)), curCluster := t.cluster }

theorem Handle.stored_done {h : Handle} (hcur : h.curCluster = s.cluster)
    (hlt : h.position < 2 ^ 32) :
    h.stored s ⟨s.disk, [], s.cluster, s.done, []⟩ = h := by
  obtain ⟨size, first, position, cur, root, flags, ds, doff⟩ := h
  dsimp only at hcur hlt
  rw [Handle.stored, ← hcur]
  dsimp only
  rw [Nat.sub_self, Nat.add_zero, u32_of_lt hlt]

/-- After a round that filled its sector. -/
def Handle.stepped (h : Handle) (s : Spot) (cluster : ℕ) : Handle :=
  { h with position := u32 (h.position + (maxSectorSize - s.offset)), curCluster := cluster }

theorem Handle.stored_next (h : Handle) (disk : Disk) (cluster : ℕ) (rest : List ℕ) (index : ℕ)
    (x : ℕ × ℕ) (news : List ℕ) (hle : s.done + (maxSectorSize - s.offset) ≤ t.done) :
    (h.stepped s cluster).stored (s.next disk cluster rest index) t =
      h.stored s (t.after x news) := by
  unfold Handle.stored Handle.stepped Spot.next Stored.after
  dsimp only
  rw [u32_add_u32]
  congr 2
  omega

theorem Handle.stored_full (h : Handle) (disk : Disk) (seen : List (ℕ × ℕ)) :
    h.stored s ⟨disk, [], s.cluster, s.done + (maxSectorSize - s.offset), seen⟩ =
      h.stepped s s.cluster := by
  unfold Handle.stored Handle.stepped
  dsimp only
  rw [Nat.add_sub_cancel_left]

theorem round_rest {m o n d : ℕ} (hlen : m ≤ o + (n - d)) (ho : o < m) :
    m + (n - (d + (m - o))) = o + (n - d) := by omega

theorem Spot.Seen.sector (hm : s.Seen fat m n) (hlen : maxSectorSize ≤ s.offset + (n - s.done))
    (hoff : s.offset < maxSectorSize) (disk : Disk) :
    (s.next disk s.cluster s.rest (s.index + 1)).Seen fat m n := by
  refine hm.imp id fun hlt => ?_
  unfold Spot.next
  dsimp only
  rw [Nat.succ_mul, Nat.add_zero, Nat.add_assoc, round_rest hlen hoff, ← Nat.add_assoc]
  exact hlt

theorem Spot.Seen.follow {rest : List ℕ} (hm : s.Seen fat m n)
    (hlen : maxSectorSize ≤ s.offset + (n - s.done)) (hoff : s.offset < maxSectorSize)
    (hend : s.index + 1 = fat.span) (hrest : s.rest = c :: rest) (disk : Disk) :
    (s.next disk c rest 0).Seen fat m n := by
  refine hm.imp id fun hlt => ?_
  rw [Nat.add_assoc, ← round_rest hlen hoff, ← Nat.add_assoc, ← Nat.succ_mul, Nat.succ_eq_add_one,
      hend, hrest, List.length_cons,
    ← Nat.add_assoc, Nat.succ_mul, Nat.add_comm _ (fat.span * maxSectorSize)] at hlt
  unfold Spot.next
  dsimp only
  rw [Nat.zero_mul, Nat.zero_add]
  exact Nat.lt_of_add_lt_add_left hlt

theorem Spot.Seen.eoc (hm : s.Seen fat m n) (hlen : maxSectorSize ≤ s.offset + (n - s.done))
    (hoff : s.offset < maxSectorSize) (hend : s.index + 1 = fat.span) (hrest : s.rest = []) :
    m = fatEoc fat := by
  refine hm.resolve_right fun hlt => ?_
  rw [Nat.add_assoc, ← round_rest hlen hoff, ← Nat.add_assoc, ← Nat.succ_mul,
    Nat.succ_eq_add_one, hend, hrest, List.length_nil, Nat.add_zero, Nat.one_mul] at hlt
  exact absurd hlt (Nat.not_lt.mpr (Nat.le_add_right _ _))

-- ---------------------------------------------------------------------------
-- The next cluster
-- ---------------------------------------------------------------------------

theorem Spot.Ready.alloc_follow {rest : List ℕ} (hf : fat.WellFormed) (hs : s.Ready fat m)
    (hrest : s.rest = c :: rest) (clear : Bool) :
    Gives .univ (On (s.filled fat b)) (fatAllocNextCluster (fat.hint l) s.cluster clear)
      (c, fat.hint l) (On (s.filled fat b)) := by
  have hnext := hs.next_eq (b := b) hf (maxSectorSize - s.offset)
  rw [hrest] at hnext
  have hne : (fat.hint l).next (s.filled fat b) s.cluster ≠ fatEoc (fat.hint l) := by
    rw [Fat.hint_next]
    refine fun heq => hf.not_data ⟨le_rfl, Nat.lt_add_of_pos_right (by decide)⟩
      ((show fatEoc fat = c from ?_) ▸ (hs.follow (b := b) hf hrest).data)
    exact heq.symm.trans hnext
  have hfollow := fatAllocNextCluster_follow (h := fat.hint l) hf.sector hne clear
  rwa [show (fat.hint l).next (s.filled fat b) s.cluster = c from hnext] at hfollow

theorem Spot.Ready.alloc_extend (hf : fat.WellFormed) (hs : s.Ready fat m)
    (heoc : fat.next (s.filled fat b) s.cluster = fatEoc fat) (h2 : 2 ≤ c)
    (hcc : c < fat.clusterCount)
    (hfree : (fat.hint l).freeCluster (s.filled fat b) = (c, (fat.hint l).hint c)) (clear : Bool) :
    Gives .univ (On (s.filled fat b)) (fatAllocNextCluster (fat.hint l) s.cluster clear)
      (c, fat.hint c) (Apart fat.table (fat.extended (s.filled fat b) s.cluster c clear)) := by
  have hextend := fatAllocNextCluster_extend (hf.hint l) (show (fat.hint l).IsData s.cluster from
    hs.data) ⟨h2, Nat.lt_add_right 2 hcc⟩ heoc hfree clear
  rwa [Fat.hint_extended] at hextend

-- ---------------------------------------------------------------------------
-- The loop
-- ---------------------------------------------------------------------------

/-- What the loop should come to from `s`. -/
def Spot.Comes (s : Spot) (fat : Fat) (b : ℕ → UInt8) (n : ℕ) (h : Handle)
    (r : List (ℕ × ℕ) × ℕ × Fat × Handle) (c : Cached Sector) : Prop :=
  ∃ t l, Stores fat (h.size == 0) b n s t ∧ r = (t.seen, t.done, fat.hint l, h.stored s t) ∧
    (fat.hint l).Hinted ∧ Apart fat.table t.disk c

/-- The loop comes to that from every spot that may follow `s`. -/
def Spot.GoesOn (s : Spot) (fat : Fat) (b : ℕ → UInt8) (n fuel : ℕ) (h : Handle) : Prop :=
  ∀ disk cluster rest index l m, (fat.hint l).Hinted →
    (s.next disk cluster rest index).Ready fat m → (s.next disk cluster rest index).Seen fat m n →
    Does .univ (Apart fat.table disk)
      (fatWriteLoopSeen b n fuel (s.done + (maxSectorSize - s.offset))
        (fatFirstSectorOfCluster fat cluster + index) 0 (fat.hint l) (h.stepped s cluster))
      ((s.next disk cluster rest index).Comes fat b n (h.stepped s cluster))

theorem Spot.Comes.after {h : Handle} {p : Fs (List (ℕ × ℕ) × ℕ × Fat × Handle)} {disk : Disk}
    {cluster index : ℕ} {rest : List ℕ}
    (hrun : Does .univ (Apart fat.table disk) p
      ((s.next disk cluster rest index).Comes fat b n (h.stepped s cluster)))
    (hafter : ∀ t, Stores fat (h.size == 0) b n (s.next disk cluster rest index) t →
      Stores fat (h.size == 0) b n s (t.after (s.cluster, s.sector fat) news)) :
    Does .univ (Apart fat.table disk) (do
      let (l, r) ← p
      return ((s.cluster, s.sector fat) :: l, r)) (s.Comes fat b n h) := by
  refine Does.bind hrun fun r => ?_
  rintro c ⟨t, l, ht, rfl, hl, hc⟩
  refine Does.pure (P := (· = c)) ?_ c rfl
  rintro c rfl
  refine ⟨_, l, hafter t ht, ?_, hl, hc⟩
  rw [h.stored_next disk cluster rest index (s.cluster, s.sector fat) news ht.le]
  rfl

theorem Spot.GoesOn.cluster {h : Handle} (hgo : s.GoesOn fat b n fuel h) (hf : fat.WellFormed)
    (hl : (fat.hint l).Hinted) (hs : s.Ready fat m) (hm : s.Seen fat m n) (hn : s.done < n)
    (hlen : maxSectorSize ≤ s.offset + (n - s.done)) (hend : s.index + 1 = fat.span) :
    Does .univ (On (s.filled fat b)) (do
      let (next, fat') ← fatAllocNextCluster (fat.hint l) s.cluster (h.size == 0)
      if next = 0 then
        return ([(s.cluster, s.sector fat)], s.done + (maxSectorSize - s.offset), fat',
          h.stepped s s.cluster)
      let (l, r) ← fatWriteLoopSeen b n fuel (s.done + (maxSectorSize - s.offset))
        (fatFirstSectorOfCluster fat' next) 0 fat' (h.stepped s next)
      return ((s.cluster, s.sector fat) :: l, r)) (s.Comes fat b n h) := by
  have hoff := hs.offset
  cases hrest : s.rest with
  | cons c rest =>
    -- the chain goes on
    have hs' := hs.follow (b := b) hf hrest
    have h2 : 2 ≤ c := hs'.data.1
    refine (hs.alloc_follow hf hrest _).bind ?_
    dsimp only
    rw [if_neg (by omega)]
    have hrun := hgo _ c rest 0 l m hl hs' (hm.follow hlen hoff hend hrest _)
    rw [Nat.add_zero] at hrun
    exact (Spot.Comes.after hrun fun t ht => .follow hn hlen hend hrest ht).pre fun _ hc =>
      hc.apart _
  | nil =>
    have heoc : fat.next (s.filled fat b) s.cluster = fatEoc fat := by
      have hnext := hs.next_eq (b := b) hf (maxSectorSize - s.offset)
      rw [hrest] at hnext
      exact hnext.trans (hm.eoc hlen hoff hend hrest)
    rcases Fat.freeCluster_cases hl (s.filled fat b) with ⟨hfree, hnone⟩ |
      ⟨c, h2, hcc, hzero, hfree⟩
    · refine (fatAllocNextCluster_full (h := fat.hint l) hf.sector heoc hfree (h.size == 0)).bind ?_
      dsimp only
      rw [if_pos rfl, ← h.stored_full (s.filled fat b) [(s.cluster, s.sector fat)]]
      exact Does.pure fun c hc => ⟨_, l, .full hn hlen hend hrest hnone, rfl, hl, hc.apart _⟩
    · refine (hs.alloc_extend hf heoc h2 hcc hfree _).bind ?_
      dsimp only
      rw [if_neg (by omega)]
      have hrun := hgo _ c [] 0 c (fatEoc fat) (.hint h2 hcc)
        (hs.extend hf h2 hcc hzero heoc (h.size == 0)) (.inl rfl)
      rw [Nat.add_zero] at hrun
      exact Spot.Comes.after hrun fun t ht => .extend hn hlen hend hrest h2 hcc hzero ht

theorem fatWriteLoopSeen_stores {h : Handle} (hf : fat.WellFormed) (hl : (fat.hint l).Hinted)
    (hs : s.Ready fat m) (hm : s.Seen fat m n)
    (hcur : h.curCluster = s.cluster) (hroot : h.rootFlag = false)
    (hpos : h.position % maxSectorSize = s.offset)
    (hlt : h.position < 2 ^ 32) (hfuel : n - s.done ≤ fuel) :
    Does .univ (Apart fat.table s.disk)
      (fatWriteLoopSeen b n fuel s.done (s.sector fat) s.offset (fat.hint l) h)
      (s.Comes fat b n h) := by
  induction fuel generalizing s l h m with
  | zero =>
    refine Does.pure fun c hc => ⟨_, l, .done (by omega), ?_, hl, hc⟩
    rw [Handle.stored_done hcur hlt]
  | succ fuel ih =>
    unfold fatWriteLoopSeen
    by_cases hn : n ≤ s.done
    · rw [if_pos hn]
      refine Does.pure fun c hc => ⟨_, l, .done hn, ?_, hl, hc⟩
      rw [Handle.stored_done hcur hlt]
    rw [if_neg hn]
    have hn := not_le.mp hn
    have hoff := hs.offset
    have hidx := hs.index
    have hspan := hf.span_le.1
    obtain ⟨hfirst, hlast⟩ := hf.firstSector hs.data
    have hb : (fat.hint l).bytesPerSector = maxSectorSize := hf.sector
    rw [hb]
    refine (fatWriteChunk_gives hb (hs.not_isFat hf) (by omega) _).bind ?_
    dsimp only
    have hmod (len : ℕ) : u32 (h.position + len) % maxSectorSize =
        (s.offset + len) % maxSectorSize := by
      rw [← hpos]
      unfold u32 maxSectorSize
      omega
    rw [hmod]
    by_cases hlen : s.offset + (n - s.done) < maxSectorSize
    · -- the bytes end inside the sector
      rw [show min (maxSectorSize - s.offset) (n - s.done) = n - s.done by omega,
        if_pos (by rw [Nat.mod_eq_of_lt hlen]; omega)]
      refine Does.pure fun c hc => ⟨_, l, .inside hn hlen, ?_, hl, hc.apart _⟩
      rw [hcur, show s.done + (n - s.done) = n by omega]
      simp [Handle.stored, ← hcur]
    have hlen := not_lt.mp hlen
    have hfull : s.offset + (maxSectorSize - s.offset) = maxSectorSize := by omega
    rw [show min (maxSectorSize - s.offset) (n - s.done) = maxSectorSize - s.offset by omega,
      if_neg (by rw [hfull]; simp),
      u32_of_lt (show s.sector fat + 1 < 2 ^ 32 by unfold Spot.sector; omega)]
    have hgo : s.GoesOn fat b n fuel h := by
      intro disk cluster rest index l m hl hs' hm'
      refine ih hl hs' hm' rfl hroot ?_ (u32_lt _) (by unfold Spot.next; dsimp only; omega)
      exact (hmod _).trans (by rw [hfull, Nat.mod_self]; rfl)
    have hsame : { h with position := u32 (h.position + (maxSectorSize - s.offset)) } =
        h.stepped s s.cluster := by rw [Handle.stepped, ← hcur]
    have htest : (!h.rootFlag) = true ∧ (s.sector fat + 1) % (fat.hint l).sectorsPerCluster = 0 ↔
        s.index + 1 = fat.span := by
      rw [hroot]
      exact (and_iff_right rfl).trans (hf.span_iff hs.data hidx)
    by_cases hend : s.index + 1 = fat.span
    · rw [if_pos (htest.mpr hend), hsame, hcur]
      exact hgo.cluster hf hl hs hm hn hlen hend
    · rw [if_neg (mt htest.mp hend), hsame, hcur]
      have hk : s.index + 1 < fat.span := by omega
      exact (Spot.Comes.after (hgo _ s.cluster s.rest (s.index + 1) l m hl (hs.sector hf hk)
        (hm.sector hlen hoff _)) fun t ht => .sector hn hlen hk ht).pre fun _ hc => hc.apart _

-- ---------------------------------------------------------------------------
-- fat_write
-- ---------------------------------------------------------------------------

/-- `fat_write`, with the clusters it was in and the sectors it wrote. -/
def fatWriteSeen (fat : Fat) (h : Handle) (b : ℕ → UInt8) (size : ℤ) :
    Fs (List (ℕ × ℕ) × ℕ × Fat × Handle) := do
  match ← fatFirstAlloc fat h size with
  | none => return ([], 0, fat, { h with firstCluster := 0 })
  | some (fat, h) =>
    let size := if h.rootFlag ∧ u32 (h.position + u32OfInt size) > h.size then
      intOfU32 (u32Sub h.size h.position) else size
    let (sector, offset) ← fatFileSectorOffset fat h
    let (seen, i, fat, h) ← fatWriteLoopSeen b size.toNat size.toNat 0 sector offset fat h
    if h.direntSector ≠ 0 ∧ h.position > h.size then
      let h := { h with size := h.position }
      if h.flags &&& oAsync = 0 then fatFileSync h
      return (seen, i, fat, h)
    else return (seen, i, fat, h)

theorem fatWriteSeen_erases (fat : Fat) (h : Handle) (b : ℕ → UInt8) (size : ℤ) :
    Erases (fatWriteSeen fat h b size) (fatWrite fat h b size) := by
  refine .bind fun r => ?_
  rcases r with - | ⟨fat, h⟩
  · exact .pure _ _
  · refine .bind fun ⟨sector, offset⟩ => (fatWriteLoopSeen_erases _ _ _ _ _ _ _ _).bind_seen
        fun seen r => ?_
    refine .ite ?_ (.pure _ _)
    dsimp only
    split
    · exact .bind fun _ => .pure _ _
    · exact .pure _ _

/-- The disk with the size and the first cluster of the file in its record. -/
def Handle.synced (h : Handle) (D : Disk) : Disk := D.edit h.direntSector fun b =>
  ((b.put (h.direntOffset + 28) 4 h.size).put (h.direntOffset + 20) 2 (h.firstCluster >>> 16)).put
      (h.direntOffset + 26) 2
    (h.firstCluster &&& 0xFFFF)

def Handle.Grown (h : Handle) : Prop := h.direntSector ≠ 0 ∧ h.position > h.size

instance (h : Handle) : Decidable h.Grown := inferInstanceAs (Decidable (_ ∧ _))

def Handle.grown (h : Handle) : Handle := if h.Grown then { h with size := h.position } else h

def Handle.recorded (h : Handle) (D : Disk) : Disk := if h.Grown ∧
    h.flags &&& oAsync = 0 then h.grown.synced D else D

/-- The record of a regular file is in a sector, and that is not one of the FAT. -/
def Handle.Placed (h : Handle) (fat : Fat) : Prop :=
  h.direntSector ≠ 0 → ¬ fat.IsFat h.direntSector ∧ h.direntOffset + direntSize ≤ maxSectorSize

def Handle.spot (h : Handle) (fat : Fat) (D : Disk) (rest : List ℕ) : Spot :=
  ⟨D, h.curCluster, rest, h.position / maxSectorSize % fat.sectorsPerCluster,
    h.position % maxSectorSize, 0⟩

section
variable {h : Handle}

theorem fatFileSync_gives {T : Set ℕ} (hs : h.direntSector ∉ T)
    (ho : h.direntOffset + direntSize ≤ maxSectorSize) :
    Gives .univ (Apart T D) (fatFileSync h) () (On (h.synced D)) := by
  unfold direntSize at ho
  refine (gives_getApart (Set.mem_univ _) hs).bind <| ((gives_putLe (by omega) _).pre fun _ h =>
    h.editing).bind ?_
  refine (gives_putLe (by omega) _).bind <| (gives_putLe (by omega) _).bind <| (gives_put _).bind ?_
  exact gives_flush.post fun _ h => h.1

theorem sectorAt_spot (hf : fat.WellFormed) (hdata : fat.IsData h.curCluster)
    (hroot : h.rootFlag = false) :
    fat.sectorAt h = fatFirstSectorOfCluster fat h.curCluster +
      h.position / maxSectorSize % fat.sectorsPerCluster := by
  obtain ⟨hfirst, hlt⟩ := hf.firstSector hdata
  have hmod := Nat.mod_lt (h.position / maxSectorSize) hf.cluster
  rw [Fat.sectorAt, if_neg (by simp [hroot]), hf.sector, u32_of_lt (by omega)]

def Handle.close (h : Handle) : Fs Handle :=
  if h.Grown then do
    if h.flags &&& oAsync = 0 then fatFileSync { h with size := h.position }
    return { h with size := h.position }
  else return h

theorem fatFileSectorOffset_eq (hf : fat.WellFormed) (hdata : fat.IsData h.curCluster)
    (hroot : h.rootFlag = false) :
    fatFileSectorOffset fat h =
      pure (fatFirstSectorOfCluster fat h.curCluster +
      h.position / maxSectorSize % fat.sectorsPerCluster,
      h.position % maxSectorSize) := by
  have hpos := hf.cluster
  have hat := sectorAt_spot hf hdata hroot
  rw [Fat.sectorAt, if_neg (by simp [hroot])] at hat
  unfold fatFileSectorOffset nonzero
  rw [if_neg (by rw [hf.sector]; decide), if_neg (by simp [hroot]), if_neg (by omega), ← hat,
    hf.sector]
  rfl

theorem fatWriteSeen_eq (hf : fat.WellFormed) (hdata : fat.IsData h.curCluster)
    (hroot : h.rootFlag = false) (b : ℕ → UInt8) (n : ℕ) :
    fatWriteSeen fat h b n = do
      let (seen, i, fat, h) ← fatWriteLoopSeen b n n 0
        (fatFirstSectorOfCluster fat h.curCluster +
          h.position / maxSectorSize % fat.sectorsPerCluster) (h.position % maxSectorSize) fat h
      let h ← h.close
      return (seen, i, fat, h) := by
  have h2 := hdata.1
  unfold fatWriteSeen fatFirstAlloc
  rw [if_neg (by omega), Prog.pure_bind]
  dsimp only
  rw [fatFileSectorOffset_eq hf hdata hroot, Prog.pure_bind, if_neg (by simp [hroot])]
  refine congrArg _ (funext fun r => ?_)
  unfold Handle.close
  dsimp only
  by_cases hg : r.2.2.2.Grown
  · rw [if_pos hg, if_pos (show r.2.2.2.direntSector ≠ 0 ∧ r.2.2.2.position > r.2.2.2.size from hg)]
    split
    · rw [Prog.bind_assoc]
      rfl
    · rfl
  · rw [if_neg hg,
        if_neg (show ¬ (r.2.2.2.direntSector ≠ 0 ∧ r.2.2.2.position > r.2.2.2.size) from hg)]
    rfl

theorem Handle.close_gives (hp : h.Placed fat) :
    Gives .univ (Apart fat.table D) h.close h.grown (Apart fat.table (h.recorded D)) := by
  unfold Handle.close Handle.recorded Handle.grown
  by_cases hg : h.Grown
  · obtain ⟨hout, hoff⟩ := hp hg.1
    rw [if_pos hg, if_pos hg]
    by_cases hflag : h.flags &&& oAsync = 0
    · rw [if_pos hflag, if_pos ⟨hg, hflag⟩]
      exact (fatFileSync_gives (h := { h with size := h.position }) hout hoff).bind
        (Gives.pure _ fun _ hc => hc.apart _)
    · rw [if_neg hflag, if_neg fun h => hflag h.2]
      exact Gives.pure _ fun _ => id
  · rw [if_neg hg, if_neg hg, if_neg fun h => hg h.1]
    exact Gives.pure _ fun _ => id

theorem fatWriteSeen_stores {n : ℕ} (hf : fat.WellFormed) (hl : fat.Hinted)
    (hs : (h.spot fat D rest).Ready fat m)
    (hm : (h.spot fat D rest).Seen fat m n) (hroot : h.rootFlag = false) (hlt : h.position < 2 ^ 32)
    (hp : h.Placed fat) :
    Does .univ (Apart fat.table D) (fatWriteSeen fat h b n) fun r c =>
      ∃ t l', Stores fat (h.size == 0) b n (h.spot fat D rest) t ∧
      r = (t.seen, t.done, fat.hint l', (h.stored (h.spot fat D rest) t).grown) ∧
      (fat.hint l').Hinted ∧
      Apart fat.table ((h.stored (h.spot fat D rest) t).recorded t.disk) c := by
  rw [fatWriteSeen_eq hf hs.data hroot]
  have hrun := fatWriteLoopSeen_stores (b := b) hf (l := fat.lastClusterAlloc) hl hs hm rfl hroot
    rfl hlt (Nat.sub_le n _)
  refine Does.bind hrun fun r => ?_
  rintro c ⟨t, l', ht, rfl, hl', hc⟩
  have hp' : (h.stored (h.spot fat D rest) t).Placed fat := hp
  revert c
  change Does .univ _ _ _
  refine (Handle.close_gives hp').bind (Does.pure ?_)
  exact fun c hc => ⟨t, l', ht, rfl, hl', hc⟩

end

end

end SkyOS
