import SkyOS.Fs.Storing

/-!
# Appending

A write from inside the last cluster of a chain. `fat_alloc_next_cluster` knows the end of
the chain by one of its eight markers, `fat_find_free_cluster` does not look at the last
two clusters, and `fat_write` leaves a cluster where the number of the sector says so.
-/

namespace SkyOS

open ByteMem WriteBack Chains

namespace Fat

def spare (h : Fat) (D : Disk) : Finset ℕ := {c ∈ Finset.Ico 2 h.clusterCount | h.next D c = 0}

end Fat

namespace Spot

def room (s : Spot) (fat : Fat) : ℕ :=
  fat.span * maxSectorSize - (s.index * maxSectorSize + s.offset)

def total (s : Spot) (fat : Fat) : ℕ :=
  s.room fat + (fat.spare s.disk).card * (fat.span * maxSectorSize)

end Spot

/-- What has come of a write that began in the last cluster. -/
structure Stored.Extends (t : Stored) (s : Spot) (fat : Fat) (n : ℕ) : Prop where
  news : ∀ c ∈ t.news, c ∈ fat.spare s.disk
  seen : ∀ x ∈ t.seen, (x.1 = s.cluster ∨ x.1 ∈ t.news) ∧ fat.InCluster x.1 x.2
  frame : ∀ d, fat.IsData d → d ≠ s.cluster → fat.next s.disk d ≠ 0 ∨ fat.clusterCount ≤ d →
    fat.next t.disk d = fat.next s.disk d
  link : fat.next t.disk s.cluster = t.news.headD (fatEoc fat)
  stay : t.news = [] → t.done ≤ s.done + s.room fat
  enough : n ≤ s.done + s.total fat → n ≤ t.done
  short : s.done + s.total fat < n → t.done < n
  full : t.done < n → fat.spare t.disk = ∅

section
variable {fat : Fat} {s : Spot} {t : Stored} {D : Disk} {b : ℕ → UInt8}

theorem Fat.mem_spare : c ∈ fat.spare D ↔ (2 ≤ c ∧ c < fat.clusterCount) ∧ fat.next D c = 0 := by
  rw [Fat.spare, Finset.mem_filter, Finset.mem_Ico]

theorem Fat.spare_data (hc : c ∈ fat.spare D) : fat.IsData c := by
  have := (Fat.mem_spare.mp hc).1
  exact ⟨this.1, by omega⟩

theorem Fat.spare_congr {D' : Disk} (h : ∀ c, fat.IsData c → fat.next D' c = fat.next D c) :
    fat.spare D' = fat.spare D := by
  refine Finset.filter_congr fun c hc => ?_
  rw [Finset.mem_Ico] at hc
  rw [h c ⟨hc.1, by omega⟩]

theorem Fat.WellFormed.spare_extended (hf : fat.WellFormed) (hc : fat.IsData c)
    (hne : fat.next D c ≠ 0) (hc' : c' ∈ fat.spare D)
    (clear : Bool) : fat.spare (fat.extended D c c' clear) = (fat.spare D).erase c' := by
  have hdata := Fat.spare_data hc'
  have h2 := hdata.1
  have heoc := fat.fatEoc_pos
  ext d
  rw [Finset.mem_erase, Fat.mem_spare, Fat.mem_spare]
  by_cases hd : 2 ≤ d ∧ d < fat.clusterCount
  · rw [hf.extended_next hc hdata clear ⟨hd.1, by omega⟩]
    by_cases hdc : d = c
    · subst hdc
      rw [if_pos rfl]
      exact iff_of_false (fun h => by omega) fun h => hne h.2.2
    · rw [if_neg hdc]
      by_cases hdc' : d = c'
      · rw [if_pos hdc']
        exact iff_of_false (fun h => by omega) fun h => h.1 hdc'
      · rw [if_neg hdc']
        exact ⟨fun h => ⟨hdc', h⟩, fun h => h.2⟩
  · exact iff_of_false (fun h => hd h.1) fun h => hd h.2.1

theorem Spot.Ready.spare_wrote (hf : fat.WellFormed) (hs : s.Ready fat m) (len : ℕ) :
    fat.spare (s.wrote fat b len) = fat.spare s.disk :=
  Fat.spare_congr fun _ hc => hs.wrote_next hf len hc

theorem Spot.Ready.eoc (hf : fat.WellFormed) (hs : s.Ready fat m) (hrest : s.rest = [])
    (b : ℕ → UInt8) (len : ℕ) :
    fat.next (s.wrote fat b len) s.cluster = m := by
  have := hs.next_eq (b := b) hf len
  rwa [hrest] at this

theorem Spot.room_sector (hs : s.offset < maxSectorSize) (hk : s.index + 1 < fat.span)
    (disk : Disk) :
    (maxSectorSize - s.offset) + (s.next disk s.cluster s.rest (s.index + 1)).room fat =
      s.room fat := by
  have hle := Nat.mul_le_mul_right maxSectorSize hk
  unfold Spot.room Spot.next
  rw [Nat.succ_mul, Nat.succ_mul] at *
  dsimp only
  omega

theorem Spot.room_end (hk : s.index + 1 = fat.span) : s.room fat = maxSectorSize - s.offset := by
  unfold Spot.room
  rw [← hk, Nat.succ_mul]
  omega

theorem Spot.room_next (disk : Disk) (c : ℕ) (rest : List ℕ) :
    (s.next disk c rest 0).room fat = fat.span * maxSectorSize := by
  unfold Spot.room Spot.next
  dsimp only
  omega

theorem Stored.Extends.inside (hs : s.Ready fat (fatEoc fat)) (hf : fat.WellFormed)
    (hrest : s.rest = []) (hn : s.done < n)
    (hlt : s.offset + (n - s.done) < maxSectorSize) :
    Stored.Extends ⟨s.wrote fat b (n - s.done), [], s.cluster, n, [(s.cluster, s.sector fat)]⟩ s
      fat n where
  news := nofun
  seen x hx := by
    obtain rfl := List.mem_singleton.mp hx
    exact ⟨.inl rfl, hs.inCluster hf⟩
  frame d hd _ _ := hs.wrote_next hf _ hd
  link := hs.eoc hf hrest _ _
  stay _ := by
    have hle := Nat.mul_le_mul_right maxSectorSize hs.index
    rw [Nat.succ_mul] at hle
    unfold Spot.room
    dsimp only
    omega
  enough _ := le_rfl
  short hlt' := by
    have hle := Nat.mul_le_mul_right maxSectorSize hs.index
    rw [Nat.succ_mul] at hle
    unfold Spot.total Spot.room at hlt'
    omega
  full h := absurd h (lt_irrefl _)

theorem Stored.Extends.sector (hs : s.Ready fat (fatEoc fat)) (hf : fat.WellFormed)
    (hk : s.index + 1 < fat.span)
    (h : t.Extends (s.next (s.filled fat b) s.cluster s.rest (s.index + 1)) fat n) :
    (t.after (s.cluster, s.sector fat) []).Extends s fat n := by
  have hroom := Spot.room_sector hs.offset hk (s.filled fat b)
  have hspare := hs.spare_wrote (b := b) hf (maxSectorSize - s.offset)
  have htotal : (s.next (s.filled fat b) s.cluster s.rest (s.index + 1)).done +
      (s.next (s.filled fat b) s.cluster s.rest (s.index + 1)).total fat =
          s.done + s.total fat := by
    unfold Spot.total
    rw [← hroom, show (s.next (s.filled fat b) s.cluster s.rest (s.index + 1)).disk = s.filled fat b
        from rfl,
      show fat.spare (s.filled fat b) = fat.spare s.disk from hspare]
    unfold Spot.next
    dsimp only
    omega
  refine ⟨fun c hc => ?_, fun x hx => ?_, fun d hd hne hfree => ?_, h.link, fun hnews => ?_,
      fun hle => h.enough (htotal ▸ hle),
    fun hlt => h.short (htotal ▸ hlt), h.full⟩
  · rw [← hspare]
    exact h.news c hc
  · rcases List.mem_cons.mp hx with rfl | hx
    · exact ⟨.inl rfl, hs.inCluster hf⟩
    · exact h.seen x hx
  · have hsame : fat.next (s.filled fat b) d = fat.next s.disk d := hs.wrote_next hf _ hd
    exact (h.frame d hd hne (hfree.imp (fun h0 => by rwa [← hsame] at h0) id)).trans hsame
  · rw [← hroom, ← Nat.add_assoc]
    exact h.stay hnews

theorem Stored.Extends.extend (hs : s.Ready fat (fatEoc fat)) (hf : fat.WellFormed)
    (hrest : s.rest = []) (hk : s.index + 1 = fat.span)
    (hc : c ∈ fat.spare s.disk) (clear : Bool)
    (h : t.Extends (s.next (fat.extended (s.filled fat b) s.cluster c clear) c [] 0) fat n) :
    (t.after (s.cluster, s.sector fat) [c]).Extends s fat n := by
  have heoc := hs.eoc hf hrest b (maxSectorSize - s.offset)
  have hpos := fat.fatEoc_pos
  have hne : fat.next (s.filled fat b) s.cluster ≠ 0 := fun h0 => by
    have := heoc.symm.trans h0
    omega
  have hwrote : fat.spare (s.filled fat b) = fat.spare s.disk := hs.spare_wrote hf _
  have hc' : c ∈ fat.spare (s.filled fat b) := hwrote ▸ hc
  have hdata := Fat.spare_data hc
  have hspare := hf.spare_extended hs.data hne hc' clear
  have hnext := fun d hd => hf.extended_next (D := s.filled fat b) hs.data hdata clear (d := d) hd
  have hcs : c ≠ s.cluster := fun heq => hne (heq ▸ (Fat.mem_spare.mp hc').2)
  have htotal : (s.next (fat.extended (s.filled fat b) s.cluster c clear) c [] 0).done +
      (s.next (fat.extended (s.filled fat b) s.cluster c clear) c [] 0).total fat =
          s.done + s.total fat := by
    have hcard := Finset.card_erase_add_one hc
    unfold Spot.total
    rw [Spot.room_next, Spot.room_end hk]
    unfold Spot.next
    dsimp only
    rw [hspare, hwrote, ← hcard, Nat.succ_mul]
    omega
  refine ⟨fun d hd => ?_, fun x hx => ?_, fun d hd hne' hfree => ?_, ?_, nofun,
      fun hle => h.enough (htotal ▸ hle),
    fun hlt => h.short (htotal ▸ hlt), h.full⟩
  · rcases List.mem_cons.mp hd with rfl | hd
    · exact hc
    · have := h.news d hd
      unfold Spot.next at this
      dsimp only at this
      rw [hspare, hwrote] at this
      exact Finset.mem_of_mem_erase this
  · rcases List.mem_cons.mp hx with rfl | hx
    · exact ⟨.inl rfl, hs.inCluster hf⟩
    · obtain ⟨hin, hsec⟩ := h.seen x hx
      refine ⟨.inr ?_, hsec⟩
      rcases hin with hin | hin
      · exact List.mem_cons.mpr (.inl hin)
      · exact List.mem_cons_of_mem _ hin
  · have hsame : fat.next (s.filled fat b) d = fat.next s.disk d := hs.wrote_next hf _ hd
    have hdc : d ≠ c := by
      rintro rfl
      have hmem := Fat.mem_spare.mp hc
      rcases hfree with h0 | hge
      · exact h0 hmem.2
      · omega
    have hstep : fat.next (fat.extended (s.filled fat b) s.cluster c clear) d =
        fat.next s.disk d := by
      rw [hnext d hd, if_neg hne', if_neg hdc, hsame]
    exact (h.frame d hd hdc (hfree.imp (fun h0 => by rwa [← hstep] at h0) id)).trans hstep
  · -- the new cluster is behind this one
    have hlink : fat.next (fat.extended (s.filled fat b) s.cluster c clear) s.cluster = c := by
      rw [hnext _ hs.data, if_pos rfl]
    have h2 := hdata.1
    refine (h.frame s.cluster hs.data (Ne.symm hcs) (.inl ?_)).trans hlink
    exact fun h0 => by have := hlink.symm.trans h0; omega

theorem Stored.Extends.end_full (hs : s.Ready fat (fatEoc fat)) (hf : fat.WellFormed)
    (hrest : s.rest = []) (hk : s.index + 1 = fat.span)
    (hnone : ∀ c, 2 ≤ c → c < fat.clusterCount → fat.next (s.filled fat b) c ≠ 0) :
    Stored.Extends ⟨s.filled fat b, [], s.cluster, s.done + (maxSectorSize - s.offset),
      [(s.cluster, s.sector fat)]⟩ s fat n := by
  have hempty : fat.spare (s.filled fat b) = ∅ :=
    Finset.eq_empty_of_forall_notMem fun c hc =>
      have h := Fat.mem_spare.mp hc; hnone c h.1.1 h.1.2 h.2
  have htotal : s.total fat = maxSectorSize - s.offset := by
    have hwrote : fat.spare (s.filled fat b) = fat.spare s.disk := hs.spare_wrote hf _
    rw [Spot.total, ← hwrote, hempty, Finset.card_empty, Nat.zero_mul, Nat.add_zero,
      Spot.room_end hk]
  refine ⟨nofun, fun x hx => ?_, fun d hd _ _ => hs.wrote_next hf _ hd, hs.eoc hf hrest _ _,
      fun _ => ?_, fun hle => ?_,
    fun hlt => ?_, fun _ => hempty⟩
  · obtain rfl := List.mem_singleton.mp hx
    exact ⟨.inl rfl, hs.inCluster hf⟩
  · rw [Spot.room_end hk]
  · rwa [htotal] at hle
  · rwa [htotal] at hlt

theorem Stores.extends (h : Stores fat clear b n s t) (hf : fat.WellFormed)
    (hs : s.Ready fat (fatEoc fat)) (hrest : s.rest = []) :
    t.Extends s fat n := by
  induction h with
  | done hn =>
    refine ⟨nofun, nofun, fun _ _ _ _ => rfl, ?_, fun _ => Nat.le_add_right _ _, fun _ => hn,
      fun hlt => by dsimp only; omega, fun hlt => absurd hlt (Nat.not_lt.mpr hn)⟩
    have := hs.chain.2.2
    rwa [hrest] at this
  | inside hn hlt => exact .inside hs hf hrest hn hlt
  | sector hn hge hk _ ih => exact .sector hs hf hk (ih (hs.sector hf hk) hrest)
  | follow hn hge hk hc => exact absurd (hc.symm.trans hrest) nofun
  | extend hn hge hk hc h2 hcc hfree _ ih =>
    have hmem : _ ∈ fat.spare _ := Fat.mem_spare.mpr ⟨⟨h2, hcc⟩, hfree⟩
    have hmem := hs.spare_wrote (b := b) hf _ ▸ hmem
    exact .extend hs hf hrest hk hmem _ (ih (hs.extend hf h2 hcc hfree (hs.eoc hf hrest b _) _) rfl)
  | full hn hge hk hc hnone => exact .end_full hs hf hrest hk hnone

-- ---------------------------------------------------------------------------
-- Where a write goes wrong
-- ---------------------------------------------------------------------------

theorem Returns.trivially {P : Cached Sector → Prop} (p : Fs α) : Returns P p fun _ _ => True :=
  fun _ _ _ _ _ => trivial

theorem fatWriteLoopSeen_head {P : Cached Sector → Prop} (hi : i < n) (fuel sector offset : ℕ)
    (fat : Fat) (h : Handle) :
    Returns P (fatWriteLoopSeen b n (fuel + 1) i sector offset fat h) fun r _ =>
    (h.curCluster, sector) ∈ r.1 := by
  unfold fatWriteLoopSeen
  rw [if_neg (Nat.not_le.mpr hi)]
  refine Returns.bind (Returns.trivially _) fun _ => ?_
  dsimp only
  split
  · exact .pure fun _ _ => List.mem_cons_self
  split
  · refine Returns.bind (Returns.trivially _) fun r => ?_
    split
    · exact .pure fun _ _ => List.mem_cons_self
    · exact Returns.bind (Returns.trivially _) fun _ => .pure fun _ _ => List.mem_cons_self
  · exact Returns.bind (Returns.trivially _) fun _ => .pure fun _ _ => List.mem_cons_self

theorem Fat.Sized.not_boundary (hf : fat.Sized) (hc : fat.IsData c) (hk : fat.span ≤ k)
    (hlt : k < fat.sectorsPerCluster) :
    (fatFirstSectorOfCluster fat c + k + 1) % fat.sectorsPerCluster ≠ 0 := by
  have hmod := Nat.mod_lt fat.firstDataSector hf.cluster
  have hsum : (fatFirstSectorOfCluster fat c + k + 1) % fat.sectorsPerCluster =
      (fat.firstDataSector % fat.sectorsPerCluster + (k + 1)) % fat.sectorsPerCluster := by
    rw [(hf.firstSector hc).1, Nat.mod_add_mod, Nat.add_assoc, Nat.add_assoc, Nat.add_comm,
      Nat.add_mul_mod_self_right]
  unfold Fat.span at hk
  rw [hsum, Nat.mod_eq_sub_mod (by omega), Nat.mod_eq_of_lt (by omega)]
  omega

theorem Fat.Sized.boundary_iff (hf : fat.Sized) (hc : fat.IsData c)
    (hk : k < fat.sectorsPerCluster) :
    (fatFirstSectorOfCluster fat c + k + 1) % fat.sectorsPerCluster = 0 ↔ k + 1 = fat.span := by
  rcases Nat.lt_or_ge k fat.span with hlt | hge
  · exact hf.span_iff hc hlt
  · exact iff_of_false (hf.not_boundary hc hge hk) (by omega)

def Fat.wrongTurn (fat : Fat) (D : Disk) (c k : ℕ) : ℕ × ℕ :=
  if k < fat.span then (fat.next D c, fatFirstSectorOfCluster fat (fat.next D c)) else
    (c, fatFirstSectorOfCluster fat c + fat.sectorsPerCluster)

/-- The marker is taken for a cluster. -/
theorem fatWriteLoopSeen_follows {h : Handle} {l : ℕ} (hb : fat.bytesPerSector = maxSectorSize)
    (hne : fat.next D h.curCluster ≠ fatEoc fat) (hne0 : fat.next D h.curCluster ≠ 0) (hi : i < n)
    (p : ℕ) (x : ℕ × ℕ) :
    Returns (On D) (do
      let (next, fat) ← fatAllocNextCluster (fat.hint l) h.curCluster (h.size == 0)
      if next = 0 then return ([x], i, fat, { h with position := p })
      let (l, r) ← fatWriteLoopSeen b n (fuel + 1) i (fatFirstSectorOfCluster fat next) 0 fat
        { h with position := p, curCluster := next }
      return (x :: l, r)) fun r _ =>
      (fat.next D h.curCluster, fatFirstSectorOfCluster fat (fat.next D h.curCluster)) ∈ r.1 := by
  have hfollow := fatAllocNextCluster_follow (h := fat.hint l) (D := D) (c := h.curCluster) hb
    (by rw [Fat.hint_next]; exact hne) (h.size == 0)
  rw [Fat.hint_next] at hfollow
  refine Returns.bind hfollow.returns fun r => ?_
  rintro c ⟨rfl, -⟩
  dsimp only
  rw [if_neg hne0]
  have hhead := fatWriteLoopSeen_head (b := b) (P := fun _ => True) hi fuel
    (fatFirstSectorOfCluster (fat.hint l) (fat.next D h.curCluster)) 0 (fat.hint l)
    { h with position := p, curCluster := fat.next D h.curCluster }
  refine Returns.bind hhead (fun r => .pure fun _ hr => ?_) c trivial
  exact List.mem_cons_of_mem _ hr

theorem fatWriteLoopSeen_astray {h : Handle} {l : ℕ} (hf : fat.WellFormed)
    (hdata : fat.IsData h.curCluster) (hroot : h.rootFlag = false)
    (hk : k < fat.sectorsPerCluster) (ho : h.position % maxSectorSize = o)
    (hwrong : k < fat.span → fat.next D h.curCluster ≠ fatEoc fat ∧ fat.next D h.curCluster ≠ 0)
    (hcross : fat.sectorsPerCluster * maxSectorSize < k * maxSectorSize + o + (n - i))
    (hfuel : n - i ≤ fuel) :
    Returns (Apart fat.table D)
    (fatWriteLoopSeen b n fuel i (fatFirstSectorOfCluster fat h.curCluster + k) o (fat.hint l) h)
      fun r _ => fat.wrongTurn D h.curCluster k ∈ r.1 := by
  have hroom (k : ℕ) (hk : k < fat.sectorsPerCluster) :
      (k + 1) * maxSectorSize ≤ fat.sectorsPerCluster * maxSectorSize :=
    Nat.mul_le_mul_right _ hk
  induction fuel generalizing k o i h D with
  | zero =>
    have := hroom k hk
    have := Nat.mod_lt h.position (show 0 < maxSectorSize by decide)
    rw [Nat.succ_mul] at *
    omega
  | succ fuel ih =>
    have hle := hroom k hk
    have hoff : o < maxSectorSize := ho ▸ Nat.mod_lt _ (by decide)
    rw [Nat.succ_mul] at hle
    obtain ⟨-, hlast⟩ := hf.firstSector hdata
    have hfirst := (hf.firstSector hdata).1
    have hb : (fat.hint l).bytesPerSector = maxSectorSize := hf.sector
    have hout : ¬ fat.IsFat (fatFirstSectorOfCluster fat h.curCluster + k) :=
      hf.not_isFat hdata ⟨Nat.le_add_right _ _, Nat.add_lt_add_left hk _⟩
    unfold fatWriteLoopSeen
    rw [if_neg (by omega), hb, show min (maxSectorSize - o) (n - i) = maxSectorSize - o by omega]
    refine Returns.bind (fatWriteChunk_gives hb hout (by omega) _).returns fun r => ?_
    refine Returns.pre (P :=
      On (D.write (fatFirstSectorOfCluster fat h.curCluster + k) o (maxSectorSize - o) fun j =>
      b (i + j))) ?_ fun _ hc => hc.2
    have hpos : u32 (h.position + (maxSectorSize - o)) % maxSectorSize = 0 := by
      rw [← ho]
      unfold u32 maxSectorSize
      omega
    have hsame :
        fat.next (D.write (fatFirstSectorOfCluster fat h.curCluster + k) o (maxSectorSize - o)
        fun j => b (i + j)) h.curCluster =
        fat.next D h.curCluster := hf.next_congr hdata fun s hs =>
          Disk.write_of_ne _ (fun heq => hout (by rwa [heq] at hs)) _ _ _
    generalize D.write (fatFirstSectorOfCluster fat h.curCluster + k) o (maxSectorSize - o)
      (fun j => b (i + j)) = D' at *
    obtain ⟨fuel, rfl⟩ := Nat.exists_eq_succ_of_ne_zero (show fuel ≠ 0 by omega)
    dsimp only
    rw [if_neg (not_not.mpr hpos), u32_of_lt (by omega)]
    by_cases hend : k + 1 = fat.span
    · obtain ⟨hne, hne0⟩ := hwrong (by omega)
      rw [if_pos ⟨by rw [hroot]; rfl, (hf.boundary_iff hdata hk).mpr hend⟩, Fat.wrongTurn,
        if_pos (by omega)]
      rw [← hsame] at hne hne0 ⊢
      exact fatWriteLoopSeen_follows hf.sector hne hne0 (by omega) _ _
    · rw [if_neg fun h => hend ((hf.boundary_iff hdata hk).mp h.2)]
      refine Returns.bind (Q := fun r _ => fat.wrongTurn D h.curCluster k ∈ r.1) ?_ fun r =>
        .pure fun _ hr => List.mem_cons_of_mem _ hr
      by_cases hlast : k + 1 = fat.sectorsPerCluster
      · -- the sector after the cluster
        have hhead :=
            fatWriteLoopSeen_head (b := b) (P :=
            On D') (show i + (maxSectorSize - o) < n by omega) fuel
          (fatFirstSectorOfCluster fat h.curCluster + k + 1) 0 (fat.hint l)
            { h with position := u32 (h.position + (maxSectorSize - o)) }
        rw [Fat.wrongTurn, if_neg (by have := hf.span_le.1; omega), ← hlast]
        exact hhead
      · have hcross' : fat.sectorsPerCluster * maxSectorSize < (k + 1) * maxSectorSize + 0 +
            (n - (i + (maxSectorSize - o))) := by
          rw [Nat.succ_mul, Nat.add_zero, Nat.add_assoc,
            round_rest (by omega) hoff, ← Nat.add_assoc]
          exact hcross
        have hstep := ih (D := D') (k := k + 1) (o := 0) (i := i + (maxSectorSize - o)) (h :=
            { h with position := u32 (h.position + (maxSectorSize - o)) })
          hdata hroot (by omega) hpos (fun hlt => by rw [hsame]; exact hwrong (by omega)) hcross'
            (by omega)
        have hturn : fat.wrongTurn D' h.curCluster (k + 1) = fat.wrongTurn D h.curCluster k := by
          unfold Fat.wrongTurn
          rw [hsame]
          exact if_congr (by omega) rfl rfl
        rw [hturn] at hstep
        exact hstep.pre fun _ hc => hc.apart _

-- ---------------------------------------------------------------------------
-- fat_write
-- ---------------------------------------------------------------------------

def Handle.within (h : Handle) (fat : Fat) : ℕ :=
  h.position / maxSectorSize % fat.sectorsPerCluster * maxSectorSize + h.position % maxSectorSize

/-- The handle is inside the last cluster of a chain. -/
structure Handle.InLast (h : Handle) (fat : Fat) (D : Disk) : Prop where
  root : h.rootFlag = false
  position : h.position < 2 ^ 32
  data : fat.IsData h.curCluster
  marker : fat.IsMarker (fat.next D h.curCluster)
  placed : h.Placed fat

/-- What a write of `n` bytes past the end of cluster `c₀` should do, where `i` bytes are written
and `seen` are the sectors of the file that are, each with the cluster that the handle is in. -/
structure Appends (fat : Fat) (D D' : Disk) (c₀ n i : ℕ) (seen : List (ℕ × ℕ)) : Prop where
  own : ∀ x ∈ seen, (x.1 = c₀ ∨ fat.IsData x.1 ∧ fat.next D x.1 = 0) ∧ fat.InCluster x.1 x.2
  links : (∃ c, fat.IsData c ∧ fat.next D c = 0 ∧ fat.next D' c₀ = c) ∨ i < n
  short : i < n → ∀ c, fat.IsData c → fat.next D' c ≠ 0

/-- The chain ends with the marker that is looked for, the handle is before the place where the loop
leaves the cluster, and what is not stored could not be in the last two clusters either. -/
def Appendable (fat : Fat) (D : Disk) (h : Handle) (n : ℕ) : Prop :=
  fat.next D h.curCluster = fatEoc fat ∧ h.position / maxSectorSize % fat.sectorsPerCluster <
      fat.span ∧
    (n ≤ (h.spot fat D []).total fat ∨ ∀ c, fat.IsData c → fat.clusterCount ≤ c → fat.next D c ≠ 0)

section
variable {h : Handle} {n : ℕ} {c : Cached Sector}

theorem Handle.Placed.recorded_next (hp : h.Placed fat) (hf : fat.WellFormed) (hd : fat.IsData d) :
    fat.next (h.recorded D) d = fat.next D d := by
  refine hf.next_congr hd fun s hs => ?_
  unfold Handle.recorded
  split
  · rename_i hg
    have hne : s ≠ h.direntSector := fun heq => (hp hg.1.1).1 (heq ▸ hs)
    rw [Handle.grown, if_pos hg.1]
    exact Function.update_of_ne hne _ _
  · rfl

theorem Handle.InLast.ready (hh : h.InLast fat D) (hf : fat.WellFormed)
    (heoc : fat.next D h.curCluster = fatEoc fat)
    (hk : h.position / maxSectorSize % fat.sectorsPerCluster < fat.span) :
    (h.spot fat D []).Ready fat (fatEoc fat) :=
  ⟨⟨rfl, hh.data, heoc⟩, hf.not_data ⟨le_rfl, Nat.lt_add_of_pos_right (by decide)⟩, hk,
    Nat.mod_lt _ (by decide)⟩

theorem fatWriteSeen_astray (hf : fat.WellFormed) (hh : h.InLast fat D)
    (hcross : fat.sectorsPerCluster * maxSectorSize < h.within fat + n)
    (hwrong : h.position / maxSectorSize % fat.sectorsPerCluster < fat.span →
      fat.next D h.curCluster ≠ fatEoc fat) :
    Returns (Apart fat.table D) (fatWriteSeen fat h b n)
      fun r _ => fat.wrongTurn D h.curCluster (h.position / maxSectorSize % fat.sectorsPerCluster) ∈
        r.1 := by
  have hpos := hh.marker.1
  have heoc := fat.fatEoc_pos
  rw [fatWriteSeen_eq hf hh.data hh.root]
  refine Returns.bind (fatWriteLoopSeen_astray (l := fat.lastClusterAlloc) hf hh.data hh.root
      (Nat.mod_lt _ hf.cluster) rfl
    (fun hk => ⟨hwrong hk, by omega⟩) hcross (Nat.sub_le n _)) fun r => ?_
  exact Returns.bind (P := fun _ => _ ∈ r.1) (Q := fun _ _ => _ ∈ r.1) (fun _ hc _ _ _ => hc)
    fun _ => .pure fun _ hc => hc

theorem Fat.WellFormed.wrongTurn_out (hf : fat.WellFormed) (hh : h.InLast fat D) (k : ℕ) :
    ¬ (((fat.wrongTurn D h.curCluster k).1 = h.curCluster ∨
      fat.IsData (fat.wrongTurn D h.curCluster k).1 ∧
      fat.next D (fat.wrongTurn D h.curCluster k).1 = 0) ∧
        fat.InCluster (fat.wrongTurn D h.curCluster k).1 (fat.wrongTurn D h.curCluster k).2) := by
  have hout := hf.not_data hh.marker
  unfold Fat.wrongTurn
  split
  · rintro ⟨heq | hd, -⟩
    · exact hout (by rw [show fat.next D h.curCluster = h.curCluster from heq]; exact hh.data)
    · exact hout hd.1
  · rintro ⟨-, -, hlt⟩
    exact absurd hlt (lt_irrefl _)

/-- The write is what it should be just if it stops where nothing is free. -/
theorem Stored.Extends.appends_iff (ht : t.Extends (h.spot fat D []) fat n) (hf : fat.WellFormed)
    (hh : h.InLast fat D)
    (heoc : fat.next D h.curCluster = fatEoc fat)
    (hk : h.position / maxSectorSize % fat.sectorsPerCluster < fat.span)
    (hcross : fat.sectorsPerCluster * maxSectorSize < h.within fat + n) (hnext : ∀ d, fat.IsData d →
      fat.next D' d = fat.next t.disk d) :
    Appends fat D D' h.curCluster n t.done t.seen ↔
      (n ≤ (h.spot fat D []).total fat ∨ ∀ c, fat.IsData c → fat.clusterCount ≤ c →
        fat.next D c ≠ 0) := by
  have hpos := fat.fatEoc_pos
  have hnews (c : ℕ) (hc : c ∈ t.news) : fat.IsData c ∧ fat.next D c = 0 :=
    ⟨Fat.spare_data (ht.news c hc), (Fat.mem_spare.mp (ht.news c hc)).2⟩
  have hlast (c : ℕ) (hc : fat.IsData c) (hge : fat.clusterCount ≤ c) (hne : c ≠ h.curCluster) :
      fat.next D' c = fat.next D c :=
    (hnext c hc).trans (ht.frame c hc hne (.inr hge))
  constructor
  · intro ha
    refine or_iff_not_imp_left.mpr fun hn c hc hge => ?_
    have hshort : t.done < n := ht.short (by rw [show (h.spot fat D []).done = 0 from rfl]; omega)
    by_cases hne : c = h.curCluster
    · rw [hne, heoc]
      omega
    · rw [← hlast c hc hge hne]
      exact ha.short hshort c hc
  · intro hroom
    refine ⟨fun x hx => ?_, ?_, fun hshort c hc => ?_⟩
    · obtain ⟨hin, hsec⟩ := ht.seen x hx
      exact ⟨hin.imp id (hnews x.1), hsec⟩
    · cases hn : t.news with
      | nil =>
        -- the loop has stayed in the cluster
        right
        have hstay := ht.stay hn
        have hle := Nat.mul_le_mul_right maxSectorSize hf.span_le.1
        have hlt := Nat.mul_le_mul_right maxSectorSize hk
        have hoff := Nat.mod_lt h.position (show 0 < maxSectorSize by decide)
        rw [Nat.succ_mul] at hlt
        unfold Spot.room Handle.spot at hstay
        unfold Handle.within at hcross
        dsimp only at hstay
        omega
      | cons c cs =>
        left
        have hlink := ht.link
        rw [hn] at hlink
        have hmem := hnews c (by rw [hn]; exact List.mem_cons_self)
        exact ⟨c, hmem.1, hmem.2, (hnext _ hh.data).trans hlink⟩
    · by_cases hlt : c < fat.clusterCount
      · intro h0
        have hmem : c ∈ fat.spare t.disk :=
          Fat.mem_spare.mpr ⟨⟨hc.1, hlt⟩, (hnext c hc).symm.trans h0⟩
        rw [ht.full hshort] at hmem
        exact absurd hmem (Finset.notMem_empty _)
      · by_cases hne : c = h.curCluster
        · -- there is an entry behind it, or the marker
          rw [hne, hnext _ hh.data, show h.curCluster = (h.spot fat D []).cluster from rfl, ht.link]
          cases hn : t.news with
          | nil => exact hpos.ne'
          | cons d ds =>
            have := (hnews d (by rw [hn]; exact List.mem_cons_self)).1.1
            exact (show d ≠ 0 by omega)
        · rw [hlast c hc (not_lt.mp hlt) hne]
          refine hroom.resolve_left (fun hn => ?_) c hc (not_lt.mp hlt)
          have := ht.enough (by rw [show (h.spot fat D []).done = 0 from rfl]; omega)
          omega

/-- A write that goes past the end of the last cluster. -/
theorem append_iff (hf : fat.WellFormed) (hl : fat.Hinted) (hh : h.InLast fat D)
    (hcross : fat.sectorsPerCluster * maxSectorSize < h.within fat + n) (hc : Apart fat.table D c)
    (b : ℕ → UInt8) :
    (∃ r c', (fatWriteSeen fat h b n).cached c = .ok (r, c') ∧
      (fatWrite fat h b n).cached c = .ok (r.2, c') ∧
      Appends fat D c'.disk h.curCluster n r.2.1 r.1) ↔ Appendable fat D h n := by
  have hstores (heoc : fat.next D h.curCluster = fatEoc fat)
      (hk : h.position / maxSectorSize % fat.sectorsPerCluster < fat.span) :
      ∃ r c', (fatWriteSeen fat h b n).cached c = .ok (r, c') ∧
          (Appends fat D c'.disk h.curCluster n r.2.1 r.1 ↔
        (n ≤ (h.spot fat D []).total fat ∨ ∀ c, fat.IsData c → fat.clusterCount ≤ c →
            fat.next D c ≠ 0)) := by
    obtain ⟨-, r, c', hrun, t, l', ht, rfl, -, hc'⟩ :=
      fatWriteSeen_stores (b := b) (n := n) hf hl (hh.ready hf heoc hk) (.inl rfl) hh.root
        hh.position hh.placed c hc
    have hp : (h.stored (h.spot fat D []) t).Placed fat := hh.placed
    refine ⟨_, c', hrun, (ht.extends hf (hh.ready hf heoc hk) rfl).appends_iff hf hh heoc hk hcross
      fun d hd => ?_⟩
    rw [hc'.disk]
    exact hp.recorded_next hf hd
  constructor
  · rintro ⟨r, c', hrun, -, ha⟩
    have hright : ¬ (h.position / maxSectorSize % fat.sectorsPerCluster < fat.span →
        fat.next D h.curCluster ≠ fatEoc fat) := fun hwrong =>
      hf.wrongTurn_out hh _ (ha.own _ (fatWriteSeen_astray hf hh hcross hwrong c hc r c' hrun))
    push Not at hright
    obtain ⟨hk, heoc⟩ := hright
    obtain ⟨r', c'', hrun', hiff⟩ := hstores heoc hk
    cases hrun.symm.trans hrun'
    exact ⟨heoc, hk, hiff.mp ha⟩
  · rintro ⟨heoc, hk, hroom⟩
    obtain ⟨r, c', hrun, hiff⟩ := hstores heoc hk
    exact ⟨r, c', hrun, (fatWriteSeen_erases fat h b n).run hrun, hiff.mpr hroom⟩

end

end

/-- Cluster 2 of four has `m` for its entry, and the others are free. -/
def markedDisk (m s : ℕ) : Sector :=
  .ofMem (if s = 1 then writeLE (fun _ => 0) 3 2 m else fun _ => 0)

def fullFile : Handle := ⟨500, 2, 500, 2, false, 0, 2, 0⟩

theorem fullFile_inLast (hm : m = 0xFF8 ∨ m = 0xFFF) :
    fullFile.InLast fourClusters (markedDisk m) where
  root := rfl
  position := by decide
  data := by decide
  marker := by rcases hm with rfl | rfl <;> decide +kernel
  placed := fun _ => by decide

theorem append_boundary :
    (∃ r c', (fatWriteSeen fourClusters fullFile (fun _ => 0x61) (100 : ℕ)).cached
      (coldCache (markedDisk 0xFF8)) =
      .ok (r, c') ∧
      (fatWrite fourClusters fullFile (fun _ => 0x61) (100 : ℕ)).cached
      (coldCache (markedDisk 0xFF8)) = .ok (r.2, c') ∧
      Appends fourClusters (markedDisk 0xFF8) c'.disk 2 100 r.2.1 r.1) ↔
        Appendable fourClusters (markedDisk 0xFF8) fullFile 100 :=
  append_iff fourClusters_wellFormed ⟨by decide, by decide⟩ (fullFile_inLast (.inl rfl)) (by decide)
    ((coldCache_on _).apart _) _

/-- `0xFFF` is taken for a cluster. -/
theorem append_other_marker : fullFile.InLast fourClusters (markedDisk 0xFFF) ∧
    ¬ (∃ r c', (fatWriteSeen fourClusters fullFile (fun _ => 0x61) (100 : ℕ)).cached
      (coldCache (markedDisk 0xFFF)) = .ok (r, c') ∧
      (fatWrite fourClusters fullFile (fun _ => 0x61) (100 : ℕ)).cached
      (coldCache (markedDisk 0xFFF)) = .ok (r.2, c') ∧
      Appends fourClusters (markedDisk 0xFFF) c'.disk 2 100 r.2.1 r.1) := by
  have hlast := fullFile_inLast (.inr rfl)
  refine ⟨hlast, fun ⟨r, c', hrun, _, ha⟩ => ?_⟩
  have hwrong : fourClusters.next (markedDisk 0xFFF) 2 ≠ fatEoc fourClusters := by decide +kernel
  have hturn := fatWriteSeen_astray (b := fun _ => 0x61) (n := 100) fourClusters_wellFormed hlast
      (by decide) (fun _ => hwrong) _
    ((coldCache_on _).apart _) r c' hrun
  exact fourClusters_wellFormed.wrongTurn_out hlast _ (ha.own _ hturn)

end SkyOS
