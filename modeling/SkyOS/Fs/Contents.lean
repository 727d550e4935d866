import SkyOS.Fs.Appending

/-!
# What is in a chain

The bytes of a chain are those of its clusters, one after the other. Where the clusters
begin at multiples of their size, `fat_write` leaves a cluster where it ends; then a write
sets the bytes of the chain that it is at, and no other byte that a file could have.
-/

namespace SkyOS

open ByteMem WriteBack Chains

namespace Fat

def chainByte (h : Fat) (D : Disk) (cs : List ℕ) (p : ℕ) : UInt8 :=
  h.clusterByte D (cs.getD (p / h.clusterSize) 0) (p % h.clusterSize)

end Fat

section
variable {fat : Fat} {D D' : Disk} {s : Spot} {t : Stored} {b : ℕ → UInt8}

-- ---------------------------------------------------------------------------
-- Bytes
-- ---------------------------------------------------------------------------

theorem Fat.Sized.clusterSize_eq (hf : fat.Sized) :
    fat.clusterSize = fat.sectorsPerCluster * maxSectorSize := by
  rw [Fat.clusterSize, hf.sector]

theorem Fat.Sized.clusterSize_pos (hf : fat.Sized) : 0 < fat.clusterSize := by
  rw [hf.clusterSize_eq]
  exact Nat.mul_pos hf.cluster (by decide)

theorem Fat.Sized.byte_inCluster (hf : fat.Sized) (c : ℕ) (hy : y < fat.clusterSize) :
    fat.InCluster c (fatFirstSectorOfCluster fat c + y / maxSectorSize) := by
  rw [hf.clusterSize_eq] at hy
  exact ⟨Nat.le_add_right _ _, Nat.add_lt_add_left (Nat.div_lt_of_lt_mul (by rwa [Nat.mul_comm])) _⟩

theorem Fat.Sized.clusterByte_congr (hf : fat.Sized) (hD : ∀ x, fat.InCluster c x → D' x = D x)
    (hy : y < fat.clusterSize) :
    fat.clusterByte D' c y = fat.clusterByte D c y := by
  rw [Fat.clusterByte, Fat.clusterByte, hD _ (hf.byte_inCluster c hy)]

theorem Fat.Sized.chainByte_congr (hf : fat.Sized)
    (hD : ∀ c ∈ cs, ∀ x, fat.InCluster c x → D' x = D x)
    (hp : p < cs.length * fat.clusterSize) : fat.chainByte D' cs p = fat.chainByte D cs p := by
  have hi := Nat.div_lt_of_lt_mul (by rwa [Nat.mul_comm] at hp)
  rw [Fat.chainByte, Fat.chainByte, List.getD_eq_getElem _ _ hi]
  exact hf.clusterByte_congr (hD _ (List.getElem_mem hi)) (Nat.mod_lt _ hf.clusterSize_pos)

theorem Fat.chainByte_append (hp : p < cs.length * fat.clusterSize) (l : List ℕ) :
    fat.chainByte D (cs ++ l) p = fat.chainByte D cs p := by
  have hi := Nat.div_lt_of_lt_mul (by rwa [Nat.mul_comm] at hp)
  rw [Fat.chainByte, Fat.chainByte, List.getD_append _ _ _ _ hi]

theorem Fat.Sized.chainByte_drop (hf : fat.Sized) (D : Disk) (cs l : List ℕ) (p : ℕ) :
    fat.chainByte D (cs ++ l) (cs.length * fat.clusterSize + p) = fat.chainByte D l p := by
  rw [Fat.chainByte, Fat.chainByte, Nat.mul_comm cs.length, Nat.mul_add_div hf.clusterSize_pos,
      Nat.mul_add_mod,
    List.getD_append_right _ _ _ _ (Nat.le_add_right _ _), Nat.add_sub_cancel_left]

theorem Fat.chainByte_head (fat : Fat) (D : Disk) (c : ℕ) (cs : List ℕ) (hp : p < fat.clusterSize) :
    fat.chainByte D (c :: cs) p = fat.clusterByte D c p := by
  rw [Fat.chainByte, Nat.div_eq_of_lt hp, Nat.mod_eq_of_lt hp]
  rfl

theorem Fat.Sized.chainByte_tail (hf : fat.Sized) (D : Disk) (c : ℕ) (cs : List ℕ) (p : ℕ) :
    fat.chainByte D (c :: cs) (fat.clusterSize + p) = fat.chainByte D cs p := by
  have h := hf.chainByte_drop D [c] cs p
  rwa [List.length_singleton, Nat.one_mul] at h

theorem Sector.mem_fill (t : Sector) (o n : ℕ) (src : ℕ → UInt8) (hi : i < maxSectorSize) :
    (t.fill o n src).mem i = if o ≤ i ∧ i < o + n then src (i - o) else t.mem i := by
  rw [Sector.mem, dif_pos hi, Sector.fill, Sector.mem, dif_pos hi]

-- ---------------------------------------------------------------------------
-- One round
-- ---------------------------------------------------------------------------

namespace Spot

def place (s : Spot) : ℕ := s.index * maxSectorSize + s.offset

/-- There are clusters for the rest of `n` bytes, and for the byte after them. -/
def Roomy (s : Spot) (fat : Fat) (n : ℕ) : Prop :=
  s.place + (n - s.done) < (1 + s.rest.length + (fat.spare s.disk).card) * fat.clusterSize

end Spot

theorem Spot.wrote_byte (fat : Fat) (b : ℕ → UInt8) (hlen : s.offset + len ≤ maxSectorSize)
    (y : ℕ) :
    fat.clusterByte (s.wrote fat b len) s.cluster y =
      if s.place ≤ y ∧ y < s.place + len then b (s.done + (y - s.place)) else
        fat.clusterByte s.disk s.cluster y := by
  have hy := Nat.div_add_mod y maxSectorSize
  have hlt := Nat.mod_lt y (show 0 < maxSectorSize by decide)
  unfold Fat.clusterByte Spot.wrote Disk.write Disk.edit Spot.sector Spot.place
  by_cases hi : y / maxSectorSize = s.index
  · rw [hi] at hy ⊢
    rw [Function.update_self, Sector.mem_fill _ _ _ _ hlt, Nat.mul_comm s.index]
    refine if_congr (by omega) ?_ rfl
    congr 2
    omega
  · rw [Function.update_of_ne (by omega), if_neg]
    rintro ⟨hle, hlt'⟩
    unfold maxSectorSize at *
    omega

theorem Spot.Ready.wrote_other (hf : fat.WellFormed) (hs : s.Ready fat m) (len : ℕ)
    (hx : ¬ fat.InCluster s.cluster x) :
    s.wrote fat b len x = s.disk x :=
  Disk.write_of_ne _ (by rintro rfl; exact hx (hs.inCluster hf)) _ _ _

theorem Spot.Ready.place_lt (hf : fat.WellFormed) (hs : s.Ready fat m) :
    s.place < fat.clusterSize := by
  have hle := Nat.mul_le_mul_right maxSectorSize (hs.index.trans_le hf.span_le.1)
  have := hs.offset
  rw [Nat.succ_mul] at hle
  rw [hf.clusterSize_eq, Spot.place]
  omega

theorem Spot.Ready.wrote_chainByte (hf : fat.WellFormed) (hs : s.Ready fat m) (len : ℕ)
    (hlen : s.offset + len ≤ maxSectorSize)
    (hin : s.place + len ≤ fat.clusterSize) (hp : p < (1 + s.rest.length) * fat.clusterSize) :
    fat.chainByte (s.wrote fat b len) (s.cluster :: s.rest) p =
      if s.place ≤ p ∧ p < s.place + len then b (s.done + (p - s.place)) else
        fat.chainByte s.disk (s.cluster :: s.rest) p := by
  rcases Nat.lt_or_ge p fat.clusterSize with hlt | hge
  · rw [Fat.chainByte_head _ _ _ _ hlt, Fat.chainByte_head _ _ _ _ hlt, s.wrote_byte fat b hlen]
  · rw [if_neg (by omega)]
    obtain ⟨q, rfl⟩ := Nat.exists_eq_add_of_le hge
    rw [Nat.add_mul, Nat.one_mul] at hp
    rw [hf.chainByte_tail, hf.chainByte_tail]
    refine hf.chainByte_congr (fun c hc x hx => hs.wrote_other hf _ fun hx' => ?_) (by omega)
    have hnodup := hs.chain.nodup hs.out
    rw [List.nodup_cons] at hnodup
    exact hnodup.1 (hf.inCluster_unique hs.data (hs.chain.mem (List.mem_cons_of_mem _ hc)) hx'
      hx ▸ hc)

theorem Fat.chain_notMem_spare (hchain : Chain (fat.next D) fat.IsData a cs (fatEoc fat))
    (hc : c ∈ cs) : c ∉ fat.spare D := by
  have hpos := fat.fatEoc_pos
  obtain ⟨l₁, l₂, rfl⟩ := List.append_of_mem hc
  obtain ⟨d, -, rfl, -, hrest⟩ := Chain.append.mp hchain
  intro hmem
  have hzero := (Fat.mem_spare.mp hmem).2
  cases l₂ with
  | nil =>
    have heoc : fat.next D d = fatEoc fat := hrest
    omega
  | cons e l₂ =>
    obtain ⟨he, hdata, -⟩ := hrest
    have h2 := hdata.1
    omega

-- ---------------------------------------------------------------------------
-- The loop
-- ---------------------------------------------------------------------------

def Stored.clusters (t : Stored) (s : Spot) : List ℕ := s.cluster :: (s.rest ++ t.news)

/-- All `n` bytes are in the chain, and the loop is where the next one goes. -/
structure Stored.Lays (t : Stored) (s : Spot) (fat : Fat) (b : ℕ → UInt8) (n : ℕ) : Prop where
  chain : Chain (fat.next t.disk) fat.IsData s.cluster (t.clusters s) (fatEoc fat)
  free : ∀ c ∈ t.news, c ∈ fat.spare s.disk
  entries : ∀ d, fat.IsData d → d ∉ t.clusters s → fat.next t.disk d = fat.next s.disk d
  sectors : ∀ x, ¬ fat.IsFat x → (∀ c ∈ t.clusters s, ¬ fat.InCluster c x) → t.disk x = s.disk x
  done : t.done = n
  cluster : (t.clusters s)[(s.place + (n - s.done)) / fat.clusterSize]? = some t.cluster
  count : (t.clusters s).length ≤
    max (1 + s.rest.length) ((s.place + (n - s.done)) / fat.clusterSize + 1)
  old : ∀ p < (1 + s.rest.length) * fat.clusterSize, p < s.place ∨ s.place + (n - s.done) ≤ p →
    fat.chainByte t.disk (t.clusters s) p = fat.chainByte s.disk (s.cluster :: s.rest) p
  new : ∀ i < n - s.done, fat.chainByte t.disk (t.clusters s) (s.place + i) = b (s.done + i)

theorem Stored.Lays.within (hf : fat.WellFormed) (hs : s.Ready fat (fatEoc fat))
    (hlt : s.place + (n - s.done) < fat.clusterSize)
    (hlen : s.offset + (n - s.done) ≤ maxSectorSize) (l : List (ℕ × ℕ)) :
    Stored.Lays ⟨s.wrote fat b (n - s.done), [], s.cluster, n, l⟩ s fat b n := by
  have hclusters : Stored.clusters ⟨s.wrote fat b (n - s.done), [], s.cluster, n, l⟩ s =
      s.cluster :: s.rest := by
    rw [Stored.clusters, List.append_nil]
  constructor
  case chain =>
    rw [hclusters]
    exact hs.wrote_chain hf _
  case free => exact fun c hc => absurd hc List.not_mem_nil
  case entries => exact fun d hd _ => hs.wrote_next hf _ hd
  case sectors =>
    rw [hclusters]
    exact fun x _ hx => hs.wrote_other hf _ (hx _ List.mem_cons_self)
  case done => rfl
  case cluster =>
    rw [hclusters, Nat.div_eq_of_lt hlt]
    rfl
  case count =>
    rw [hclusters, List.length_cons, Nat.add_comm]
    exact Nat.le_max_left _ _
  case old =>
    intro p hp hout
    rw [hclusters, hs.wrote_chainByte hf _ hlen hlt.le hp, if_neg (by omega)]
  case new =>
    intro i hi
    have hle : fat.clusterSize ≤ (1 + s.rest.length) * fat.clusterSize :=
      Nat.le_mul_of_pos_left _ (by omega)
    rw [hclusters, hs.wrote_chainByte hf _ hlen hlt.le (by omega), if_pos (by omega),
      Nat.add_sub_cancel_left]

theorem Spot.next_place (hs : s.offset < maxSectorSize) (disk : Disk) (c : ℕ) (rest : List ℕ) :
    (s.next disk c rest (s.index + 1)).place = s.place + (maxSectorSize - s.offset) := by
  unfold Spot.place Spot.next
  dsimp only
  rw [Nat.succ_mul]
  omega

theorem Spot.next_done (s : Spot) (disk : Disk) (c : ℕ) (rest : List ℕ) (k : ℕ) :
    (s.next disk c rest k).done = s.done + (maxSectorSize - s.offset) := rfl

theorem Spot.Ready.place_filled (hf : fat.WellFormed) (hs : s.Ready fat m)
    (hk : s.index + 1 < fat.span) :
    s.place + (maxSectorSize - s.offset) < fat.clusterSize := by
  have hle := Nat.mul_le_mul_right maxSectorSize (hk.trans_le hf.span_le.1)
  have hoff := hs.offset
  rw [hf.clusterSize_eq, Spot.place]
  rw [Nat.succ_mul, Nat.succ_mul] at hle
  omega

/-- A sector of the cluster is filled, and the loop goes on in the next one. -/
theorem Stored.Lays.sector (hf : fat.WellFormed) (hs : s.Ready fat (fatEoc fat))
    (hge : maxSectorSize ≤ s.offset + (n - s.done))
    (hk : s.index + 1 < fat.span)
    (h : t.Lays (s.next (s.filled fat b) s.cluster s.rest (s.index + 1)) fat b n) (x : ℕ × ℕ) :
    (t.after x []).Lays s fat b n := by
  have hplace := s.next_place hs.offset (s.filled fat b) s.cluster s.rest
  have hdone := s.next_done (s.filled fat b) s.cluster s.rest (s.index + 1)
  have hlt := hs.place_filled hf hk
  have hoff := hs.offset
  have hend : (s.next (s.filled fat b) s.cluster s.rest (s.index + 1)).place +
      (n - (s.next (s.filled fat b) s.cluster s.rest (s.index + 1)).done) =
      s.place + (n - s.done) := by
    rw [hplace, hdone]
    omega
  have hfilled (p : ℕ) :=
    hs.wrote_chainByte (b := b) (p := p) hf (maxSectorSize - s.offset) (by omega) hlt.le
  have hold := h.old
  have hnew := h.new
  have hcluster := h.cluster
  have hcount := h.count
  rw [hend] at hcluster hcount hold
  rw [hplace] at hold hnew
  rw [hdone] at hnew
  have hle : fat.clusterSize ≤ (1 + s.rest.length) * fat.clusterSize :=
    Nat.le_mul_of_pos_left _ (by omega)
  rw [show s.wrote fat b (maxSectorSize - s.offset) = s.filled fat b from rfl] at hfilled
  generalize maxSectorSize - s.offset = g at *
  constructor
  case chain => exact h.chain
  case free =>
    intro c hc
    rw [← show fat.spare (s.filled fat b) = fat.spare s.disk from hs.spare_wrote hf _]
    exact h.free c hc
  case entries => exact fun d hd hout => (h.entries d hd hout).trans (hs.wrote_next hf _ hd)
  case sectors =>
    intro x hx hout
    exact (h.sectors x hx hout).trans (hs.wrote_other hf _ (hout _ List.mem_cons_self))
  case done => exact h.done
  case cluster => exact hcluster
  case count => exact hcount
  case old => exact fun p hp hout =>
    (hold p hp (by omega)).trans ((hfilled p hp).trans (if_neg (by omega)))
  case new =>
    intro i hi
    rcases Nat.lt_or_ge i g with hlt' | hge'
    · have hp : s.place + i < (1 + s.rest.length) * fat.clusterSize := by omega
      have hbyte := (hfilled _ hp).trans (if_pos (by omega))
      rw [Nat.add_sub_cancel_left] at hbyte
      exact (hold _ hp (.inl (by omega))).trans hbyte
    · obtain ⟨j, rfl⟩ := Nat.exists_eq_add_of_le hge'
      have hrest := hnew j (by omega)
      rw [Nat.add_assoc, Nat.add_assoc] at hrest
      exact hrest

/-- The cluster is filled to its end, and the loop goes on in `c`, with `rest` behind it. -/
structure Spot.Leaves (s : Spot) (fat : Fat) (b : ℕ → UInt8) (disk : Disk) (c : ℕ) (rest : List ℕ) :
    Prop where
  next : fat.next disk s.cluster = c
  own : ∀ x, fat.InCluster s.cluster x → disk x = s.filled fat b x
  entries : ∀ d, fat.IsData d → d ≠ s.cluster → d ≠ c → fat.next disk d = fat.next s.disk d
  sectors : ∀ x, ¬ fat.IsFat x → ¬ fat.InCluster s.cluster x → ¬ fat.InCluster c x →
    disk x = s.disk x
  bytes : ∀ p < s.rest.length * fat.clusterSize, fat.chainByte disk (c :: rest) p =
    fat.chainByte s.disk s.rest p
  length : s.rest.length ≤ 1 + rest.length ∧ 1 + rest.length ≤ max s.rest.length 1

theorem Spot.place_end (hf : fat.Sized) (hs : s.offset < maxSectorSize)
    (hk : s.index + 1 = fat.sectorsPerCluster) :
    s.place + (maxSectorSize - s.offset) = fat.clusterSize := by
  rw [hf.clusterSize_eq, ← hk, Spot.place, Nat.succ_mul]
  omega

/-- Nothing that comes after this round is in the cluster. -/
theorem Spot.Leaves.kept {disk : Disk} {rest : List ℕ} (hf : fat.WellFormed)
    (hs : s.Ready fat (fatEoc fat)) (hl : s.Leaves fat b disk c rest)
    (h : t.Lays (s.next disk c rest 0) fat b n)
    (hout : s.cluster ∉ t.clusters (s.next disk c rest 0)) (hy : y < fat.clusterSize) :
    fat.clusterByte t.disk s.cluster y =
      if s.place ≤ y ∧ y < s.place + (maxSectorSize - s.offset) then b (s.done + (y - s.place))
      else fat.clusterByte s.disk s.cluster y := by
  have hoff := hs.offset
  rw [← s.wrote_byte fat b (by omega)]
  refine hf.clusterByte_congr (fun z hz => (h.sectors z (hf.not_isFat hs.data hz) fun d hd hz' =>
    ?_).trans (hl.own z hz)) hy
  exact hout (hf.inCluster_unique hs.data (h.chain.mem hd) hz hz' ▸ hd)

theorem Stored.Lays.behind {disk : Disk} {news : List ℕ} (hf : fat.WellFormed)
    (hs : s.Ready fat (fatEoc fat)) (hge : maxSectorSize ≤ s.offset + (n - s.done))
    (hk : s.index + 1 = fat.sectorsPerCluster) (hl : s.Leaves fat b disk c rest)
    (h : t.Lays (s.next disk c rest 0) fat b n)
    (hlist : (t.after x news).clusters s = s.cluster :: t.clusters (s.next disk c rest 0))
    (hout : s.cluster ∉ t.clusters (s.next disk c rest 0)) (hfree : ∀ d ∈ news ++
      t.news, d ∈ fat.spare s.disk) :
    (t.after x news).Lays s fat b n := by
  have hoff := hs.offset
  have hend := Spot.place_end hf.toSized hoff hk
  have hpos := hf.clusterSize_pos
  have hzero : (s.next disk c rest 0).place = 0 := by simp [Spot.place, Spot.next]
  have hdone := s.next_done disk c rest 0
  have hold : ∀ p < (1 + rest.length) * fat.clusterSize, p < (s.next disk c rest 0).place ∨
    (s.next disk c rest 0).place + (n - (s.next disk c rest 0).done) ≤ p →
    fat.chainByte t.disk (t.clusters (s.next disk c rest 0)) p =
      fat.chainByte disk (c :: rest) p := h.old
  have hnew := h.new
  have hcluster := h.cluster
  have hcount : (t.clusters (s.next disk c rest 0)).length ≤
    max (1 + rest.length)
      (((s.next disk c rest 0).place + (n - (s.next disk c rest 0).done)) / fat.clusterSize +
      1) := h.count
  have hlink : fat.next t.disk s.cluster = c := (h.entries _ hs.data hout).trans hl.next
  rw [hzero, hdone] at hold hnew hcluster hcount
  have hbyte (y : ℕ) (hy : y < fat.clusterSize) := hl.kept hf hs h hout hy
  have hplace : s.place + (n - s.done) =
      fat.clusterSize + (n - (s.done + (maxSectorSize - s.offset))) := by omega
  rw [Nat.zero_add] at hold hcluster hcount
  generalize maxSectorSize - s.offset = g at *
  constructor
  case chain =>
    rw [hlist]
    refine ⟨rfl, hs.data, ?_⟩
    rw [show fat.next (t.after x news).disk s.cluster = c from hlink]
    exact h.chain
  case free => exact hfree
  case entries =>
    intro d hd hd'
    rw [hlist, List.mem_cons, not_or] at hd'
    refine (h.entries d hd hd'.2).trans (hl.entries d hd hd'.1 ?_)
    rintro rfl
    exact hd'.2 List.mem_cons_self
  case sectors =>
    intro z hz hz'
    rw [hlist] at hz'
    exact (h.sectors z hz fun d hd => hz' d (List.mem_cons_of_mem _ hd)).trans
      (hl.sectors z hz (hz' _ List.mem_cons_self)
        (hz' _ (List.mem_cons_of_mem _ List.mem_cons_self)))
  case done => exact h.done
  case cluster =>
    rw [hlist, hplace, Nat.add_div_left _ hpos, List.getElem?_cons_succ]
    exact hcluster
  case count =>
    have hlen := hl.length
    rw [hlist, hplace, Nat.add_div_left _ hpos, List.length_cons]
    generalize (n - (s.done + g)) / fat.clusterSize = k at hcount ⊢
    omega
  case old =>
    intro p hp hpn
    rw [hlist]
    rcases Nat.lt_or_ge p fat.clusterSize with hlt | hge'
    · rw [Fat.chainByte_head _ _ _ _ hlt, Fat.chainByte_head _ _ _ _ hlt]
      exact (hbyte p hlt).trans (if_neg (by omega))
    · obtain ⟨q, rfl⟩ := Nat.exists_eq_add_of_le hge'
      rw [Nat.add_mul, Nat.one_mul] at hp
      have hle := Nat.mul_le_mul_right fat.clusterSize hl.length.1
      rw [hf.chainByte_tail, hf.chainByte_tail]
      exact (hold q (by omega) (.inr (by omega))).trans (hl.bytes q (by omega))
  case new =>
    intro i hi
    rw [hlist]
    rcases Nat.lt_or_ge i g with hlt | hge'
    · rw [Fat.chainByte_head _ _ _ _ (by omega)]
      refine (hbyte _ (by omega)).trans ((if_pos (by omega)).trans ?_)
      rw [Nat.add_sub_cancel_left]
    · obtain ⟨j, rfl⟩ := Nat.exists_eq_add_of_le hge'
      have hrest := hnew j (by omega)
      rw [Nat.zero_add, Nat.add_assoc] at hrest
      rw [← Nat.add_assoc, hend, hf.chainByte_tail]
      exact hrest

theorem Spot.Ready.leaves_follow {rest : List ℕ} (hf : fat.WellFormed) (hs : s.Ready fat m)
    (hk : s.index + 1 = fat.sectorsPerCluster)
    (hc : s.rest = c :: rest) : s.Leaves fat b (s.filled fat b) c rest where
  next := by
    have hnext := hs.next_eq (b := b) hf (maxSectorSize - s.offset)
    rwa [hc] at hnext
  own _ _ := rfl
  entries d hd _ _ := hs.wrote_next hf _ hd
  sectors x _ hx _ := hs.wrote_other hf _ hx
  bytes p hp := by
    have hoff := hs.offset
    have hend := Spot.place_end hf.toSized hoff hk
    have hlt : fat.clusterSize + p < (1 + s.rest.length) * fat.clusterSize := by
      rw [Nat.add_mul, Nat.one_mul]
      omega
    have hbyte := hs.wrote_chainByte (b := b) hf (maxSectorSize - s.offset) (by omega) hend.le hlt
    rw [if_neg (by omega), hf.chainByte_tail, hf.chainByte_tail] at hbyte
    rw [← hc]
    exact hbyte
  length := by
    rw [hc, List.length_cons]
    omega

theorem Spot.Ready.leaves_extend (hf : fat.WellFormed) (hs : s.Ready fat (fatEoc fat))
    (hc : s.rest = []) (hdata : fat.IsData c)
    (hne : c ≠ s.cluster) (clear : Bool) :
    s.Leaves fat b (fat.extended (s.filled fat b) s.cluster c clear) c [] where
  next := by rw [hf.extended_next hs.data hdata clear hs.data, if_pos rfl]
  own x hx := hf.extended_other hs.data hdata clear (hf.not_isFat hs.data hx) fun hx' =>
    hne (hf.inCluster_unique hdata hs.data hx' hx)
  entries d hd hd₁ hd₂ := by
    rw [hf.extended_next hs.data hdata clear hd, if_neg hd₁, if_neg hd₂]
    exact hs.wrote_next hf _ hd
  sectors x hx hx₁ hx₂ :=
    (hf.extended_other hs.data hdata clear hx hx₂).trans (hs.wrote_other hf _ hx₁)
  bytes p hp := by
    rw [hc, List.length_nil, Nat.zero_mul] at hp
    exact absurd hp (Nat.not_lt_zero p)
  length := by
    rw [hc]
    exact ⟨Nat.zero_le _, Nat.le_max_right _ _⟩

-- ---------------------------------------------------------------------------
-- Room
-- ---------------------------------------------------------------------------

theorem Spot.Roomy.sector (hf : fat.WellFormed) (hs : s.Ready fat m)
    (hge : maxSectorSize ≤ s.offset + (n - s.done)) (h : s.Roomy fat n) :
    (s.next (s.filled fat b) s.cluster s.rest (s.index + 1)).Roomy fat n := by
  have hoff := hs.offset
  have hspare : fat.spare (s.filled fat b) = fat.spare s.disk := hs.spare_wrote hf _
  unfold Spot.Roomy at *
  rw [s.next_place hoff, s.next_done]
  rw [← hspare] at h
  refine lt_of_eq_of_lt ?_ h
  omega

theorem Spot.Roomy.follow {rest : List ℕ} (hf : fat.WellFormed) (hs : s.Ready fat m)
    (hge : maxSectorSize ≤ s.offset + (n - s.done))
    (hk : s.index + 1 = fat.sectorsPerCluster) (hc : s.rest = c :: rest) (h : s.Roomy fat n) :
    (s.next (s.filled fat b) c rest 0).Roomy fat n := by
  have hoff := hs.offset
  have hend := Spot.place_end hf.toSized hoff hk
  have hspare : fat.spare (s.filled fat b) = fat.spare s.disk := hs.spare_wrote hf _
  have hzero : (s.next (s.filled fat b) c rest 0).place = 0 := by simp [Spot.place, Spot.next]
  unfold Spot.Roomy at *
  rw [← hspare, hc, List.length_cons, show 1 + (rest.length + 1) +
      (fat.spare (s.filled fat b)).card =
    1 + rest.length + (fat.spare (s.filled fat b)).card + 1 by omega, Nat.succ_mul] at h
  rw [hzero, s.next_done]
  change 0 + (n - (s.done + (maxSectorSize - s.offset))) <
    (1 + rest.length + (fat.spare (s.filled fat b)).card) * fat.clusterSize
  omega

theorem Spot.Roomy.extend (hf : fat.WellFormed) (hs : s.Ready fat (fatEoc fat))
    (hge : maxSectorSize ≤ s.offset + (n - s.done))
    (hk : s.index + 1 = fat.sectorsPerCluster) (hc : s.rest = []) (hmem : c ∈ fat.spare s.disk)
    (clear : Bool) (h : s.Roomy fat n) :
    (s.next (fat.extended (s.filled fat b) s.cluster c clear) c [] 0).Roomy fat n := by
  have hoff := hs.offset
  have hpos := fat.fatEoc_pos
  have hend := Spot.place_end hf.toSized hoff hk
  have hspare : fat.spare (s.filled fat b) = fat.spare s.disk := hs.spare_wrote hf _
  have hmem' : c ∈ fat.spare (s.filled fat b) := hspare ▸ hmem
  have hne : fat.next (s.filled fat b) s.cluster ≠ 0 := by
    have heoc : fat.next (s.filled fat b) s.cluster = fatEoc fat := hs.eoc hf hc b _
    omega
  have hcard := Finset.card_erase_add_one hmem'
  have hzero : (s.next (fat.extended (s.filled fat b) s.cluster c clear) c [] 0).place = 0 := by
    simp [Spot.place, Spot.next]
  unfold Spot.Roomy at *
  rw [← hspare, ← hcard, hc, List.length_nil, ← Nat.add_assoc, Nat.succ_mul] at h
  rw [hzero, s.next_done]
  change 0 + (n - (s.done + (maxSectorSize - s.offset))) <
    (1 + 0 + (fat.spare (fat.extended (s.filled fat b) s.cluster c clear)).card) * fat.clusterSize
  rw [hf.spare_extended hs.data hne hmem']
  omega

theorem Spot.wrote_zero (s : Spot) (fat : Fat) (b : ℕ → UInt8) : s.wrote fat b 0 = s.disk := by
  have hfill (u : Sector) (src : ℕ → UInt8) : u.fill s.offset 0 src = u :=
    funext fun i => if_neg (by omega)
  unfold Spot.wrote Disk.write Disk.edit
  dsimp only
  rw [hfill, Function.update_eq_self]

theorem Stores.lays (h : Stores fat clear b n s t) (hf : fat.WellFormed)
    (hspan : fat.span = fat.sectorsPerCluster)
    (hs : s.Ready fat (fatEoc fat)) (hn : s.done ≤ n) (hroom : s.Roomy fat n) :
    t.Lays s fat b n := by
  induction h with
  | @done s hle =>
    obtain rfl := Nat.le_antisymm hle hn
    have hlay :=
      Stored.Lays.within (b := b) hf hs (by rw [Nat.sub_self, Nat.add_zero]; exact hs.place_lt hf)
      (by have := hs.offset; omega) []
    rwa [Nat.sub_self, s.wrote_zero] at hlay
  | @inside s hlt hin =>
    refine .within hf hs ?_ hin.le _
    have hle := Nat.mul_le_mul_right maxSectorSize (hs.index.trans_le hf.span_le.1)
    rw [Nat.succ_mul] at hle
    rw [hf.clusterSize_eq, Spot.place]
    omega
  | @sector t s hlt hge hk _ ih =>
    have hoff := hs.offset
    exact .sector hf hs hge hk (ih (hs.sector hf hk) (by rw [s.next_done]; omega)
      (hroom.sector hf hs hge)) _
  | @follow c rest t s hlt hge hk hc _ ih =>
    have hoff := hs.offset
    have hk' := hk.trans hspan
    have hlay := ih (hs.follow hf hc) (by rw [s.next_done]; omega) (hroom.follow hf hs hge hk' hc)
    have hfree (d : ℕ) (hd : d ∈ t.news) : d ∈ fat.spare s.disk := by
      rw [← show fat.spare (s.filled fat b) = fat.spare s.disk from hs.spare_wrote hf _]
      exact hlay.free d hd
    refine .behind hf hs hge hk' (hs.leaves_follow hf hk' hc) hlay ?_ ?_ hfree
    · rw [Stored.clusters, hc]
      rfl
    · intro hmem
      have hnodup := hs.chain.nodup hs.out
      rw [hc, List.nodup_cons] at hnodup
      rcases List.mem_append.mp (show s.cluster ∈ (c :: rest) ++ t.news from hmem) with hmem | hmem
      · exact hnodup.1 hmem
      · exact Fat.chain_notMem_spare hs.chain List.mem_cons_self (hfree _ hmem)
  | @extend c t s hlt hge hk hc h2 hcc hfree _ ih =>
    have hoff := hs.offset
    have hk' := hk.trans hspan
    have heoc : fat.next (s.filled fat b) s.cluster = fatEoc fat := hs.eoc hf hc b _
    have hpos := fat.fatEoc_pos
    have hspare : fat.spare (s.filled fat b) = fat.spare s.disk := hs.spare_wrote hf _
    have hmem : c ∈ fat.spare (s.filled fat b) := Fat.mem_spare.mpr ⟨⟨h2, hcc⟩, hfree⟩
    have hne : c ≠ s.cluster := by
      rintro rfl
      omega
    have hlay :=
      ih (hs.extend hf h2 hcc hfree heoc clear) (by rw [s.next_done]; omega)
      (hroom.extend hf hs hge hk' hc (hspare ▸ hmem) clear)
    have hnews (d : ℕ) (hd : d ∈ t.news) : d ∈ fat.spare s.disk := by
      have h : d ∈ fat.spare (fat.extended (s.filled fat b) s.cluster c clear) := hlay.free d hd
      rw [hf.spare_extended hs.data (by omega) hmem, hspare] at h
      exact Finset.mem_of_mem_erase h
    refine .behind hf hs hge hk' (hs.leaves_extend hf hc (Fat.spare_data hmem) hne clear) hlay
      ?_ ?_ ?_
    · rw [Stored.clusters, hc]
      rfl
    · intro hin
      rcases List.mem_cons.mp hin with heq | hin
      · exact hne heq.symm
      · exact Fat.chain_notMem_spare hs.chain List.mem_cons_self (hnews _ hin)
    · intro d hd
      rcases List.mem_cons.mp hd with rfl | hd
      · exact hspare ▸ hmem
      · exact hnews d hd
  | @full s hlt hge hk hc hnone =>
    -- the room is not used up
    have hspare : fat.spare (s.filled fat b) = fat.spare s.disk := hs.spare_wrote hf _
    have hempty : fat.spare (s.filled fat b) = ∅ :=
      Finset.eq_empty_of_forall_notMem fun c hc =>
        have h := Fat.mem_spare.mp hc; hnone c h.1.1 h.1.2 h.2
    have hend := Spot.place_end hf.toSized hs.offset (hk.trans hspan)
    rw [Spot.Roomy, ← hspare, hempty, hc] at hroom
    simp only [List.length_nil, Finset.card_empty, Nat.add_zero, Nat.one_mul] at hroom
    omega

end

end SkyOS
