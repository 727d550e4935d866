import SkyOS.Fs.Found
import SkyOS.Fs.Layout
import SkyOS.Lib.Chains

/-!
# Unlinking

`fat_chain_unlink` follows the chain of a file and stops at one of the eight numbers that
can end it. At another one it takes the entry of that number for one of the file.
-/

namespace SkyOS

open ByteMem WriteBack Chains

def Fat.freed (h : Fat) (D : Disk) (cs : List ℕ) : Disk := cs.foldl (fun D c => h.set c 0 D) D

/-- One of the bits that the entries of `cs` have in the copies of the FAT. -/
def Fat.InEntries (h : Fat) (cs : List ℕ) (x : ℕ × ℕ) : Prop := ∃ c ∈ cs, ∃ i < h.numFats, ∃ j <
    h.width, h.slot i c j = x

section
variable {h : Fat} {D : Disk}

theorem Fat.inEntries_cons : h.InEntries (c :: cs) x ↔ h.InEntries [c] x ∨ h.InEntries cs x := by
  simp only [Fat.InEntries, List.mem_cons, List.not_mem_nil, or_false, exists_eq_left,
    exists_eq_or_imp]

theorem Fat.InEntries.lt (hx : h.InEntries cs x) : x.2 < 4096 := by
  obtain ⟨c, -, i, -, j, -, rfl⟩ := hx
  exact h.slot_lt i c j

theorem Fat.set_in (hb : h.bytesPerSector = maxSectorSize) (hc : c < 2 ^ h.width)
    (hx : h.InEntries [c] x) :
    (h.set c 0 D).bit x = false := by
  obtain ⟨d, hd, i, hi, j, hj, rfl⟩ := hx
  obtain rfl := List.mem_singleton.mp hd
  exact Fat.setCopies_zero_slot hb hc _ 0 (Nat.zero_le _) (by omega) hj

theorem Fat.set_out (hb : h.bytesPerSector = maxSectorSize) (hc : c < 2 ^ h.width) (hx : x.2 < 4096)
    (hout : ¬ h.InEntries [c] x)
    (v : ℕ) : (h.set c v D).bit x = D.bit x := by
  refine Fat.set_others hb hx fun i hi j hj heq => hout ?_
  rw [h.setCluster_eq hc] at heq
  exact ⟨c, List.mem_singleton_self c, i, hi, j, hj, heq⟩

theorem Fat.freed_out (hb : h.bytesPerSector = maxSectorSize) (hcs : ∀ c ∈ cs, c < 2 ^ h.width)
    (hx : x.2 < 4096)
    (hout : ¬ h.InEntries cs x) : (h.freed D cs).bit x = D.bit x := by
  induction cs generalizing D with
  | nil => rfl
  | cons c cs ih =>
    obtain ⟨hc, hcs⟩ := List.forall_mem_cons.mp hcs
    rw [Fat.inEntries_cons, not_or] at hout
    exact (ih hcs hout.2).trans (Fat.set_out hb hc hx hout.1 0)

theorem Fat.freed_in (hb : h.bytesPerSector = maxSectorSize) (hcs : ∀ c ∈ cs, c < 2 ^ h.width)
    (hx : h.InEntries cs x) :
    (h.freed D cs).bit x = false := by
  induction cs generalizing D with
  | nil => obtain ⟨c, hc, -⟩ := hx; cases hc
  | cons c cs ih =>
    obtain ⟨hc, hcs⟩ := List.forall_mem_cons.mp hcs
    by_cases hrest : h.InEntries cs x
    · exact ih hcs hrest
    · exact (Fat.freed_out hb hcs hx.lt hrest).trans
        (Fat.set_in hb hc ((Fat.inEntries_cons.mp hx).resolve_right hrest))

-- ---------------------------------------------------------------------------
-- The chain
-- ---------------------------------------------------------------------------

theorem fatChainUnlink_chain (hf : h.WellFormed) (hchain : Chain (h.next D) h.IsData first cs m)
    (hcs : cs.Nodup)
    (hrest : Gives .univ (On (h.freed D cs)) (fatChainUnlink h fuel m) () (On D')) :
    Gives .univ (On D) (fatChainUnlink h (cs.length + fuel) first) () (On D') := by
  induction cs generalizing first D with
  | nil =>
    obtain rfl : first = m := hchain
    rwa [List.length_nil, Nat.zero_add]
  | cons c cs ih =>
    obtain ⟨rfl, hdata, hchain⟩ := hchain
    obtain ⟨hnot, hcs⟩ := List.nodup_cons.mp hcs
    have hstop : ¬ (first = 0 ∨ first = fatEoc h) := by
      have := hdata.1
      have := hdata.2
      have := hf.count
      omega
    have hchain : Chain (h.next (h.set first 0 D)) h.IsData (h.next D first) cs m :=
      hchain.frame fun d hd => hf.table.next_set_of_ne hdata.2 (hchain.mem hd).2 (fun heq =>
        hnot (heq ▸ hd)) 0
    rw [List.length_cons, Nat.add_right_comm]
    exact fatChainUnlink_step hf.sector (ih hchain hcs hrest) hstop

def Fat.Harmless (h : Fat) (D : Disk) (cs : List ℕ) (m : ℕ) : Prop := ∀ x, h.InEntries [m] x →
    ¬ h.InEntries cs x → D.bit x = false

theorem fatChainUnlink_marker (hb : h.bytesPerSector = maxSectorSize) (hn : 0 < h.numFats)
    (hm : m < 2 ^ h.width)
    (hstop : ¬ (m = 0 ∨ m = fatEoc h)) : ∃ D' : Disk, D'.Below (h.set m 0 D) ∧
      ((∀ x, h.InEntries [m] x → D.bit x = false) → ∀ x, x.2 < 4096 → D'.bit x = D.bit x) ∧
      ∀ fuel ≥ 2 ^ h.width + 3, Gives .univ (On D) (fatChainUnlink h fuel m) () (On D') := by
  by_cases hfree : h.next D m = 0
  · refine ⟨h.set m 0 D, .refl _, fun hz x hx => ?_, fun fuel hfuel => ?_⟩
    · by_cases hin : h.InEntries [m] x
      · rw [Fat.set_in hb hm hin, hz x hin]
      · exact Fat.set_out hb hm hx hin 0
    · obtain ⟨fuel, rfl⟩ := Nat.exists_eq_succ_of_ne_zero (show fuel ≠ 0 by omega)
      exact fatChainUnlink_step hb (fatChainUnlink_stop (.inl hfree) (by omega)) hstop
  · obtain ⟨D', hD', hrest⟩ := fatChainUnlink_gives (D := h.set m 0 D) hb hn (h.next_lt hb D m)
    refine ⟨D', hD', fun hz => absurd ?_ hfree, fun fuel hfuel => ?_⟩
    · refine (Fat.next_eq_iff hb (Nat.two_pow_pos _)).mpr fun j hj => ?_
      rw [Nat.zero_testBit]
      exact hz _ ⟨m, List.mem_singleton_self m, 0, hn, j, hj, rfl⟩
    · have hle := h.used_le (h.set m 0 D) (2 ^ h.width)
      obtain ⟨fuel, rfl⟩ := Nat.exists_eq_succ_of_ne_zero (show fuel ≠ 0 by omega)
      exact fatChainUnlink_step hb (hrest fuel (by omega)) hstop

theorem Fat.WellFormed.length_le (hf : h.WellFormed) (hchain : Chain (h.next D) h.IsData first cs m)
    (hcs : cs.Nodup) :
    cs.length + 2 < 2 ^ h.width := by
  have := h.length_le_count hchain hcs
  have := hf.count
  have := h.fatEoc_lt
  omega

def Fat.IsEnd (h : Fat) (m : ℕ) : Prop := m = 0 ∨ h.IsMarker m

def Fat.EndsWell (h : Fat) (D : Disk) (cs : List ℕ) (m : ℕ) : Prop := m = 0 ∨ m = fatEoc h ∨
    h.Harmless D cs m

theorem fatChainUnlink_file (hf : h.WellFormed) (hchain : Chain (h.next D) h.IsData first cs m)
    (hend : h.IsEnd m) :
    ∃ D' : Disk, D'.Below (h.freed D cs) ∧
    (h.EndsWell D cs m → ∀ x, x.2 < 4096 → D'.bit x = (h.freed D cs).bit x) ∧
      (m ≠ 0 → m ≠ fatEoc h → D'.Below (h.set m 0 (h.freed D cs))) ∧
      Gives .univ (On D) (fatChainUnlink h unlinkRounds first) () (On D') := by
  have hout : ¬ h.IsData m := by
    rcases hend with rfl | hm
    · exact fun hd => absurd hd.1 (by decide)
    · exact hf.not_data hm
  have hnodup := hchain.nodup hout
  have hlen := hf.length_le hchain hnodup
  have hle : 2 ^ h.width ≤ 2 ^ 28 := Nat.pow_le_pow_right (by decide) h.width_le
  obtain ⟨fuel, hfuel, hrounds⟩ : ∃ fuel ≥ 2 ^ h.width + 3, unlinkRounds = cs.length + fuel :=
    ⟨2 ^ 33 - cs.length, by omega, by unfold unlinkRounds; omega⟩
  rw [hrounds]
  by_cases hstop : m = 0 ∨ m = fatEoc h
  · exact ⟨h.freed D cs, .refl _, fun _ _ _ => rfl, fun h0 he => absurd hstop (not_or.mpr ⟨h0, he⟩),
      fatChainUnlink_chain hf hchain hnodup (fatChainUnlink_stop hstop (by omega))⟩
  · have hm : m < 2 ^ h.width := (hend.resolve_left fun h0 => hstop (.inl h0)).lt
    have hcs (c : ℕ) (hc : c ∈ cs) : c < 2 ^ h.width := hf.data_lt (hchain.mem hc)
    obtain ⟨D', hbelow, hharmless, hrest⟩ :=
      fatChainUnlink_marker (D := h.freed D cs) hf.sector hf.copies hm hstop
    refine ⟨D', hbelow.trans (Fat.setCopies_below hf.sector _ _ _),
        fun hwell => hharmless fun x hx => ?_, fun _ _ => hbelow,
      fatChainUnlink_chain hf hchain hnodup (hrest fuel hfuel)⟩
    by_cases hin : h.InEntries cs x
    · exact Fat.freed_in hf.sector hcs hin
    · rw [Fat.freed_out hf.sector hcs hx.lt hin]
      exact ((hwell.resolve_left fun h0 => hstop (.inl h0)).resolve_left fun h0 => hstop (.inr h0))
        x hx hin

-- ---------------------------------------------------------------------------
-- fat_unlink
-- ---------------------------------------------------------------------------

/-- What `fat_unlink` should do to a file with the clusters `cs`. -/
structure Unlinked (h : Fat) (D D' : Disk) (f : Handle) (cs : List ℕ) : Prop where
  freed : ∀ x, h.InEntries cs x → D'.bit x = false
  deleted : (D' f.direntSector).mem f.direntOffset = 0xE5
  others : ∀ x : ℕ × ℕ, x.2 < 4096 → ¬ h.InEntries cs x →
    ¬ (x.1 = f.direntSector ∧ x.2 / 8 = f.direntOffset) → D'.bit x = D.bit x

/-- An entry that ends a chain and is not `fat_eoc` does not begin where a record does. -/
theorem Fat.IsMarker.slot_ne (hm : h.IsMarker m) (hne : m ≠ fatEoc h) (ho : o % direntSize = 0)
    (ho' : o < maxSectorSize)
    (hj : j < h.width) (i : ℕ) : (h.slot i m j).2 / 8 ≠ o := by
  have hlt := hm.lt
  obtain ⟨hge, hle⟩ := hm
  have hbit : (h.slot i m j).2 = (h.entryBit m + j) % 4096 := rfl
  rw [hbit, Fat.entryBit_stride hlt]
  unfold direntSize maxSectorSize Fat.stride Fat.width fatEoc at *
  cases ht : h.type with
  | fat12 =>
    simp only [ht] at *
    have : (12 * m + j) / 4096 = 11 := by omega
    omega
  | fat16 =>
    simp only [ht] at *
    omega
  | fat32 =>
    simp only [ht] at *
    omega

def Disk.poke (D : Disk) (s o b : ℕ) : Disk := D.edit s fun t => t.put o 1 b

theorem Disk.bit_poke (D : Disk) (s o b : ℕ) {x : ℕ × ℕ} (hx : x.2 < 4096)
    (hne : ¬ (x.1 = s ∧ x.2 / 8 = o)) :
    (D.poke s o b).bit x = D.bit x := by
  rw [Disk.poke, Disk.bit_edit]
  split
  · rename_i hs
    rw [Sector.bit_put _ _ _ _ hx, if_neg (by omega), Disk.bit, hs]
  · rfl

theorem Disk.mem_poke (D : Disk) (s : ℕ) (b : ℕ) (ho : o < maxSectorSize) :
    (D.poke s o b s).mem o = UInt8.ofNat b := by
  have hmem : (D.poke s o b s).mem o = writeLE (D s).mem o 1 b o := by
    rw [Disk.poke, Disk.edit, Function.update_self]
    exact dif_pos ho
  rw [hmem, writeLE, if_pos (by omega), Nat.sub_self, Nat.pow_zero, Nat.div_one]

theorem fatUnlink_gives {D' : Disk} {vol vol' : Vol} {c c₁ : Cached Sector}
    (hopen : (fatOpen vol name 0).cached c = .ok ((r, some f, vol'), c₁))
    (hreg : f.direntSector ≠ 0) (ho : f.direntOffset < maxSectorSize) (hc₁ : On D c₁)
    (hchain : Gives .univ (On D) (fatChainUnlink vol'.fat unlinkRounds f.firstCluster) () (On D')) :
    ∃ c', (fatUnlink vol name).cached c = .ok ((0, vol'), c') ∧
      On (D'.poke f.direntSector f.direntOffset 0xE5) c' := by
  have hmark : Gives .univ (On D) (do
      fatChainUnlink vol'.fat unlinkRounds f.firstCluster
      getSector f.direntSector
      putLe f.direntOffset 1 0xE5
      putSector f.direntSector
      return ((0 : ℤ), vol')) (0, vol') (On (D'.poke f.direntSector f.direntOffset 0xE5)) :=
    hchain.bind <| (gives_get (Set.mem_univ _)).bind <|
      ((gives_putLe (by omega) 0xE5).pre fun _ h => h.editing).bind <| (gives_put _).bind <|
        Gives.pure _ fun _ => id
  obtain ⟨-, c', hrun, hc'⟩ := hmark.run hc₁
  refine ⟨c', ?_, hc'⟩
  rw [fatUnlink, Prog.cached_bind, hopen]
  change Prog.cached (if f.direntSector = 0 then _ else _) c₁ = _
  rw [if_neg hreg]
  exact hrun

/-- A file is unlinked as it should be just if `fat_chain_unlink` stops where its chain
ends, or finds nothing to clear there. -/
theorem unlink_frees_iff {vol vol' : Vol} (hf : vol.fat.WellFormed)
    (hdir : vol.cwd.direntSector = 0)
    (hsize : vol.cwd.size % direntSize = 0) {c c₁ : Cached Sector} (hc : On D c)
    (hopen : (fatOpen vol name 0).cached c = .ok ((0, some f, vol'), c₁))
    (hreg : f.direntSector ≠ 0)
    (hout : ¬ vol.fat.IsFat f.direntSector)
    (hchain : Chain (vol.fat.next D) vol.fat.IsData f.firstCluster cs m)
    (hend : vol.fat.IsEnd m) : ∃ c' D', (fatUnlink vol name).cached c = .ok ((0, vol'), c') ∧
      On D' c' ∧ Found D f ∧
      (Unlinked vol.fat D D' f cs ↔ vol.fat.EndsWell D cs m) := by
  obtain ⟨hc₁, hfat, hfound⟩ :=
    fatOpen_found hf.sector hf.cluster.ne' hdir hsize name 0 c hc _ _ hopen
  have hfound := hfound f rfl hreg
  dsimp only at hfat
  obtain ⟨D', hbelow, hwell, hstep, hrun⟩ := fatChainUnlink_file hf hchain hend
  rw [← hfat] at hrun
  obtain ⟨c', hunlink, hc'⟩ := fatUnlink_gives hopen hreg hfound.inside hc₁ hrun
  have hcs (c : ℕ) (hc : c ∈ cs) : c < 2 ^ vol.fat.width := hf.data_lt (hchain.mem hc)
  refine ⟨c', _, hunlink, hc', hfound, fun hun => ?_,
    fun hgood => ⟨fun x hx => ?_, ?_, fun x hx hin hne => ?_⟩⟩
  · -- the loop has gone on at the marker, and cleared what is set there
    by_contra hbad
    obtain ⟨h0, hbad⟩ := not_or.mp hbad
    obtain ⟨heoc, hharm⟩ := not_or.mp hbad
    have hm := hend.resolve_left h0
    unfold Fat.Harmless at hharm
    push Not at hharm
    obtain ⟨x, hx, hin, hset⟩ := hharm
    have hset : D.bit x = true := by simpa using hset
    have hne : ¬ (x.1 = f.direntSector ∧ x.2 / 8 = f.direntOffset) := by
      obtain ⟨d, hd, i, -, j, hj, rfl⟩ := hx
      obtain rfl := List.mem_singleton.mp hd
      exact fun h => hm.slot_ne heoc hfound.aligned hfound.inside hj i h.2
    have hsame := hun.others x hx.lt hin hne
    rw [Disk.bit_poke _ _ _ _ hx.lt hne, hset] at hsame
    have hclear := hstep h0 heoc x hx.lt hsame
    rw [Fat.set_in hf.sector hm.lt hx] at hclear
    cases hclear
  · have hne : ¬ (x.1 = f.direntSector ∧ x.2 / 8 = f.direntOffset) := by
      obtain ⟨d, hd, i, hi, j, hj, rfl⟩ := hx
      exact fun h => hout (h.1 ▸ hf.table.slot_isFat (hchain.mem hd).2 hi hj)
    rw [Disk.bit_poke _ _ _ _ hx.lt hne, hwell hgood x hx.lt]
    exact Fat.freed_in hf.sector hcs hx
  · exact Disk.mem_poke _ _ _ hfound.inside
  · rw [Disk.bit_poke _ _ _ _ hx hne, hwell hgood x hx]
    exact Fat.freed_out hf.sector hcs hx hin

end

instance (h : Fat) (cs : List ℕ) (x : ℕ × ℕ) : Decidable (h.InEntries cs x) :=
  inferInstanceAs (Decidable (∃ c ∈ cs, ∃ i < h.numFats, ∃ j < h.width, h.slot i c j = x))

/-- FAT12 with the clusters 2 to 21, and a directory in the first of them. -/
def twentyClusters : Vol := ⟨⟨.fat12, 512, 1, 1, 1, 3, 20, 1, 0, 2⟩, aDirectory⟩

/-- With the file A in cluster 3, whose entry is `m`, and a file in cluster 11. -/
def chainDisk (m n : ℕ) : Sector := .ofMem <|
  match n with
  | 1 => writeLE (writeLE (fun _ => 0) 0 4 0xF8FFFFF8) 4 2 (m <<< 4 ||| 0xF)
  | 3 => writeLE (writeLE (fun i => if i = 0 then 0x41 else if i ≤ 11 then 0x20 else 0) 26 2
      3) 28 4 5
  | 12 => fun i => if i = 511 then 0xAB else 0
  | _ => fun _ => 0

def nameA : CStr := .ofList [0x61]

def fileA : Handle := ⟨5, 3, 0, 3, false, 0, 3, 0⟩

theorem twentyClusters_wellFormed : twentyClusters.fat.WellFormed :=
  { sector := rfl, cluster := by decide, last := by decide, copies := by decide, room := by decide,
    apart := by decide, count := by decide }

/-- With the file A of 600 bytes, in the clusters 3 and 4. -/
def longDisk (n : ℕ) : Sector :=
  match n with
  | 1 => .ofMem (writeLE (chainDisk 4 1).mem 6 2 0xFF8)
  | 3 => .ofMem (writeLE (chainDisk 4 3).mem 28 4 600)
  | n => chainDisk 4 n

def longFileA : Handle := { fileA with size := 600 }

theorem longDisk_open : ∃ vol' c₁,
    (fatOpen twentyClusters nameA 0).cached (coldCache longDisk) =
      .ok ((0, some longFileA, vol'), c₁) := by
  have hrun : (match (fatOpen twentyClusters nameA 0).cached (coldCache longDisk) with
      | .ok ((r, f, _), _) => decide (r = 0 ∧ f = some longFileA)
      | .error _ => false) = true := by decide +kernel
  split at hrun
  · rename_i r f vol' c₁ hopen
    obtain ⟨rfl, rfl⟩ := of_decide_eq_true hrun
    exact ⟨vol', c₁, hopen⟩
  · cases hrun

theorem longDisk_chain : Chain (twentyClusters.fat.next longDisk) twentyClusters.fat.IsData 3 [3, 4]
    0xFF8 := by
  have h3 : twentyClusters.fat.next longDisk 3 = 4 := by decide +kernel
  have h4 : twentyClusters.fat.next longDisk 4 = 0xFF8 := by decide +kernel
  exact ⟨rfl, by decide, h3.symm, by decide, h4⟩

theorem unlink_frees_fileA :
    ∃ vol' c' D', (fatUnlink twentyClusters nameA).cached (coldCache longDisk) =
      .ok ((0, vol'), c') ∧
    On D' c' ∧ Found longDisk longFileA ∧
      Unlinked twentyClusters.fat longDisk D' longFileA [3, 4] := by
  obtain ⟨vol', c₁, hopen⟩ := longDisk_open
  obtain ⟨c', D', hrun, hc', hfound, hiff⟩ := unlink_frees_iff twentyClusters_wellFormed rfl rfl
    (coldCache_on _) hopen (by decide) (by decide) longDisk_chain (.inr (by decide))
  exact ⟨vol', c', D', hrun, hc', hfound, hiff.mpr (.inr (.inl rfl))⟩

/-- The file's chain ends in 0xFFF. The entry of that number would be in the data of cluster 11. -/
theorem unlink_clears_data : twentyClusters.fat.IsMarker 0xFFF ∧ ∃ vol' c',
    (fatUnlink twentyClusters nameA).cached (coldCache (chainDisk 0xFFF)) = .ok ((0, vol'), c') ∧
      ¬ Unlinked twentyClusters.fat (chainDisk 0xFFF) c'.disk fileA [3] := by
  have hrun : (match (fatUnlink twentyClusters nameA).cached (coldCache (chainDisk 0xFFF)) with
      | .ok ((r, _), c') => decide (r = 0 ∧ Disk.bit c'.disk (12, 4095) = false)
      | .error _ => false) = true := by decide +kernel
  refine ⟨by decide, ?_⟩
  split at hrun
  · rename_i r vol' c' hunlink
    obtain ⟨rfl, hclear⟩ := of_decide_eq_true hrun
    refine ⟨vol', c', hunlink, fun hun => ?_⟩
    have hsame := hun.others (12, 4095) (by decide) (by decide +kernel) (by decide)
    rw [hclear] at hsame
    exact absurd hsame (by decide +kernel)
  · cases hrun

end SkyOS
