import SkyOS.Fs.Layout

/-!
# The copies of the FAT

What `fat_set_next_cluster` does to each copy, said with bits: those of the entry are set,
and no others. The bits that an entry of FAT32 does not use are among the others.
-/

namespace SkyOS

open ByteMem WriteBack

namespace Fat

def Reads (h : Fat) (D : Disk) (c v : ℕ) : Prop :=
  ∀ s, On D s → ∃ s', (fatGetNextCluster h c).cached s = .ok (v, s') ∧ On D s'

/-- The entry of `c` is `v` in every copy, and that is all there is to it. -/
structure Updated (h : Fat) (D D' : Disk) (c v : ℕ) : Prop where
  self : h.Reads D' c v
  others : ∀ c' < h.clusterCount + 2, c' ≠ c → ∃ w, h.Reads D c' w ∧ h.Reads D' c' w
  bits : ∀ i < h.numFats, ∀ b < 4096 * h.fatSize, D'.bit (h.copyBit i b) =
    if h.stride * c ≤ b ∧ b < h.stride * c + h.width then v.testBit (b - h.stride * c) else
      D.bit (h.copyBit i b)
  mirrored :
      ∀ i < h.numFats, ∀ j <
      h.numFats, (∀ b < 4096 * h.fatSize, D.bit (h.copyBit i b) = D.bit (h.copyBit j b)) →
    ∀ b < 4096 * h.fatSize, D'.bit (h.copyBit i b) = D'.bit (h.copyBit j b)
  reserved : h.type = .fat32 → ∀ i < h.numFats, ∀ e < h.clusterCount + 2, ∀ j, 28 ≤ j → j < 32 →
    D'.bit (h.copyBit i (32 * e + j)) = D.bit (h.copyBit i (32 * e + j))
  outside : ∀ s, ¬ h.IsFat s → D' s = D s

end Fat

section
variable {h : Fat} {D : Disk}

theorem fatGetNextCluster_reads (hb : h.bytesPerSector = maxSectorSize) (D : Disk) (c : ℕ) :
    h.Reads D c (h.next D c) := fun _ hs =>
  ((fatGetNextCluster_gives hb (Set.subset_univ _)).run hs).2

theorem Fat.Tabled.set_bit (ht : h.Tabled) (hc : c < h.clusterCount + 2) (hi : i < h.numFats)
    (hb : b < 4096 * h.fatSize) (v : ℕ) :
    (h.set c v D).bit (h.copyBit i b) =
      if h.stride * c ≤ b ∧ b < h.stride * c + h.width then v.testBit (b - h.stride * c) else
        D.bit (h.copyBit i b) := by
  split
  · rename_i hin
    have hj : b - h.stride * c < h.width := by omega
    have hset := ht.set_slot (D := D) hc hi hj v
    rwa [ht.slot hc hi hj, show h.stride * c + (b - h.stride * c) = b by omega] at hset
  · rename_i hout
    refine ht.set_others hc (Nat.mod_lt _ (by decide)) (fun i' hi' j hj heq => ?_) v
    rw [ht.slot hc hi' hj] at heq
    have := (h.copyBit_inj (ht.slot_room hc hj) (by omega) heq).2
    omega

theorem Fat.Tabled.set_reserved (ht : h.Tabled) (hc : c < h.clusterCount + 2)
    (h32 : h.type = .fat32) (i : ℕ)
    (he : e < h.clusterCount + 2) (hj : 28 ≤ j) (hj' : j < 32) (v : ℕ) :
    (h.set c v D).bit (h.copyBit i (32 * e + j)) = D.bit (h.copyBit i (32 * e + j)) := by
  have hw : h.width = 28 := by rw [Fat.width, h32]
  have hstride : h.stride = 32 := by rw [Fat.stride, h32]
  refine ht.set_others hc (Nat.mod_lt _ (by decide)) (fun i' hi' j' hlt heq => ?_) v
  have hroom := ht.slot_room he (show 27 < h.width by omega)
  have hroom' := ht.slot_room hc hlt
  rw [hstride] at hroom hroom'
  rw [ht.slot hc hi' hlt, hstride] at heq
  have := (h.copyBit_inj hroom' (by omega) heq).2
  omega

theorem Fat.Tabled.updated (ht : h.Tabled) (hc : c < h.clusterCount + 2) (hv : v < 2 ^ h.width) :
    h.Updated D (h.set c v D) c v where
  self := by
    have := fatGetNextCluster_reads ht.sector (h.set c v D) c
    rwa [ht.next_set_self hc hv] at this
  others c' hc' hne := by
    have := fatGetNextCluster_reads ht.sector (h.set c v D) c'
    rw [ht.next_set_of_ne hc hc' hne.symm] at this
    exact ⟨_, fatGetNextCluster_reads ht.sector D c', this⟩
  bits i hi b hb := ht.set_bit hc hi hb v
  mirrored i hi j hj hsame b hb := by rw [ht.set_bit hc hi hb, ht.set_bit hc hj hb, hsame b hb]
  reserved h32 i _ e he j hj hj' := ht.set_reserved hc h32 i he hj hj' v
  outside s hs := ht.set_outside hc hs v

/-- `fat_set_next_cluster` sets the entry in all copies. -/
theorem fat_entry_exact (ht : h.Tabled) (hc : c < h.clusterCount + 2) (hv : v < 2 ^ h.width)
    {s : Cached Sector} (hs : On D s) :
    ∃ s' D', (fatSetNextCluster h c v).cached s = .ok ((), s') ∧ On D' s' ∧ h.Updated D D' c v := by
  obtain ⟨-, s', hrun, hs'⟩ := (fatSetNextCluster_gives ht.sector c v).run hs
  exact ⟨s', _, hrun, hs', ht.updated hc hv⟩

end

/-- FAT12 with two copies of two sectors: the entry of cluster 341 is in both of them. -/
def twoCopies : Fat := ⟨.fat12, 512, 1, 1, 2, 6, 400, 2, 0, 2⟩

theorem fat_entry_straddling :
    ∃ s' D', (fatSetNextCluster twoCopies 341 0xABC).cached (coldCache fun _ => fun _ => 0x55) =
      .ok ((), s') ∧
    On D' s' ∧ twoCopies.Updated (fun _ => fun _ => 0x55) D' 341 0xABC :=
  fat_entry_exact ⟨rfl, by decide, by decide, by decide, by decide⟩ (by decide) (by decide)
    (coldCache_on _)

end SkyOS
