import SkyOS.Mm.Pmm
import SkyOS.Lib.ByteMem

/-!
# The RAM disk

`drivers/ramdisk.c`. The image sits `mem_size / 2` behind `kernel_start`, and
that is inside the heap: a block that `kalloc` returns is clear of it when the
free block it is cut from is.
-/

namespace SkyOS

open ByteMem CircList

abbrev sectorSize : ℕ := 512

def ramdiskBase : ℕ := kernelStart + memSize / 2

def ramdiskWrite (src sector count : ℕ) (m : Mem) : ℕ × Mem :=
  (count, copy m (ramdiskBase + u32 (sector * sectorSize)) src (u32 (count * sectorSize)))

abbrev ramdiskSectors : ℕ := 2048

def diskBytes : Set ℕ := Set.Ico ramdiskBase (ramdiskBase + ramdiskSectors * sectorSize)

def diskPage (L : Layout) : ℕ := (ramdiskBase - L.pmmStart) / pgSize

abbrev diskPages : ℕ := ramdiskSectors * sectorSize / pgSize

/-- The free block that serves the request, the first one of the lowest list
that has any, does not hold a page of the image in the part that is used. -/
def ServedClear (L : Layout) (s : Buddy) (size : ℕ) : Prop :=
  ∀ m p, kallocOrder size ≤ m → m < buddyMaxOrder → s.nr m ≠ 0 →
    (∀ j, kallocOrder size ≤ j → j < m → s.nr j = 0) → s.links.next (.list m) = .page p →
    p + 2 ^ kallocOrder size ≤ diskPage L ∨ diskPage L + diskPages ≤ p

-- ---------------------------------------------------------------------------
-- Where the image is
-- ---------------------------------------------------------------------------

theorem ramdiskBase_eq (L : Layout) : ramdiskBase = pgAddr L (diskPage L) := by
  obtain ⟨k, hk⟩ := L.aligned
  have h1 := L.small
  have h2 : ramdiskBase = pgSize * 0x82200 := by decide
  rw [pgAddr, diskPage, Layout.pmmStart, h2, hk, ← Nat.mul_sub,
    Nat.mul_div_cancel_left _ (by decide)]
  rw [hk] at h1
  have : k ≤ 0x82200 := by
    simp only [kernelStart, pgSize] at h1
    omega
  rw [Nat.mul_comm (0x82200 - k), ← Nat.mul_add]
  congr 1
  omega

theorem blockBytes_disjoint (L : Layout) (p size : ℕ) :
    Disjoint (blockBytes (pgAddr L p) size) diskBytes ↔
      p + 2 ^ kallocOrder size ≤ diskPage L ∨ diskPage L + diskPages ≤ p := by
  have hpos := Nat.two_pow_pos (kallocOrder size)
  have hlen : ramdiskSectors * sectorSize = diskPages * pgSize := by decide
  have hdp : diskPages = 256 := by decide
  rw [blockBytes, diskBytes, ramdiskBase_eq L, hlen, hdp, kallocLen, pgAddr, pgAddr,
    Set.disjoint_left]
  simp only [Set.mem_Ico, pgSize]
  generalize 2 ^ kallocOrder size = n at *
  generalize diskPage L = d
  constructor
  · intro h
    have h1 := @h (L.pmmStart + p * 2 ^ 12)
    have h2 := @h (L.pmmStart + d * 2 ^ 12)
    omega
  · omega

/-- What the file system writes does not reach a block clear of the image. -/
theorem ramdiskWrite_frame (m : Mem) (src : ℕ) (hd : Disjoint (blockBytes a size) diskBytes)
    (hs : sector + count ≤ ramdiskSectors) (hx : x ∈ blockBytes a size) :
    (ramdiskWrite src sector count m).2 x = m x := by
  have hx' : ¬ (ramdiskBase ≤ x ∧ x < ramdiskBase + 2048 * 512) := Set.disjoint_left.mp hd hx
  have hs' : sector + count ≤ 2048 := hs
  have h1 : u32 (sector * sectorSize) = sector * 512 :=
    u32_of_lt (show sector * 512 < 2 ^ 32 by omega)
  have h2 : u32 (count * sectorSize) = count * 512 :=
    u32_of_lt (show count * 512 < 2 ^ 32 by omega)
  simp only [ramdiskWrite, h1, h2]
  exact copy_outside (by omega)

theorem disk_store_frame (m : Mem) (v : UInt8) (hd : Disjoint (blockBytes a size) diskBytes)
    (hx : x ∈ blockBytes a size) (hy : y ∈ diskBytes) : Function.update m x v y = m y := by
  refine Function.update_of_ne ?_ v m
  rintro rfl
  exact Set.disjoint_left.mp hd hx hy

-- ---------------------------------------------------------------------------
-- Blocks and the image
-- ---------------------------------------------------------------------------

/-- In every state that calls of `kalloc` reach, the block returned is clear of
the image exactly when the free block that serves the request is. -/
theorem kalloc_disjoint_iff (hr : KallocReach L b s) (ha : kalloc L size s = .ok (a, s')) :
    Disjoint (blockBytes a size) diskBytes ↔ ServedClear L s size := by
  obtain ⟨l, ls, B, h⟩ := kallocReach_heap hr
  obtain ⟨p, hp, rfl⟩ := kalloc_ok.mp ha
  obtain ⟨m, l, hm, hle, hl, he, -⟩ := buddyAllocate_inv h.rep hp
  have hrep : Rep s ls B := h.rep
  have hne : s.nr m ≠ 0 := by simp [hrep.nr m hm, hl]
  have hfirst := hrep.ringed.first hm hl
  rw [blockBytes_disjoint]
  constructor
  · intro hd m' p' h1 h2 h3 h4 h5
    have : m' = m := by
      rcases Nat.lt_trichotomy m' m with hlt | heq | hgt
      · simp [hrep.nr m' h2, he m' h1 hlt] at h3
      · exact heq
      · exact absurd (h4 m hle hgt) hne
    subst this
    rw [hfirst, ListPtr.page.injEq] at h5
    exact h5 ▸ hd
  · intro hc
    exact hc m p hle hm hne (fun j h1 h2 => by simp [hrep.nr j (by omega), he j h1 h2]) hfirst

/-- In every state that calls of `kalloc` reach, the block returned is clear of
the image exactly when the free block that serves the request is. Then neither
writes to the disk nor stores to the block reach the other. -/
theorem heap_clear_of_disk (hr : KallocReach L b s) (ha : kalloc L size s = .ok (a, s')) :
    (Disjoint (blockBytes a size) diskBytes ↔ ServedClear L s size) ∧
      (ServedClear L s size → ∀ m : Mem, ∀ x ∈ blockBytes a size,
        (∀ src sector count, sector + count ≤ ramdiskSectors →
          (ramdiskWrite src sector count m).2 x = m x) ∧
        ∀ v, ∀ y ∈ diskBytes, Function.update m x v y = m y) := by
  refine ⟨kalloc_disjoint_iff hr ha, fun hc m x hx => ?_⟩
  have hd := (kalloc_disjoint_iff hr ha).mpr hc
  exact ⟨fun src sector count hs => ramdiskWrite_frame m src hd hs hx,
    fun v y hy => disk_store_frame m v hd hx hy⟩

theorem heap_clear_of_disk_first_page :
    ∃ s, kalloc sampleLayout pgSize (buddyInit zeroed) = .ok (0x80300000, s) ∧
      (Disjoint (blockBytes 0x80300000 pgSize) diskBytes ↔
        ServedClear sampleLayout (buddyInit zeroed) pgSize) := by
  obtain ⟨s, h⟩ := init_kalloc sampleLayout zeroed pgSize (by decide)
  exact ⟨s, h, (heap_clear_of_disk .init h).1⟩

/-- The first request for half the heap gets the half that holds the image. -/
theorem half_heap_holds_disk :
    ∃ s, KallocReach sampleLayout zeroed (buddyInit zeroed) ∧
      kalloc sampleLayout (2 ^ 25) (buddyInit zeroed) = .ok (0x80300000, s) ∧
      ¬ Disjoint (blockBytes 0x80300000 (2 ^ 25)) diskBytes := by
  obtain ⟨s, h⟩ := init_kalloc sampleLayout zeroed (2 ^ 25) (by decide)
  refine ⟨s, .init, h, fun hd => ?_⟩
  have hlen : kallocLen (2 ^ 25) = 2 ^ 25 := by decide
  have hb : ramdiskBase ∈ blockBytes 0x80300000 (2 ^ 25) := by
    rw [blockBytes, hlen]
    decide
  exact Set.disjoint_left.mp hd hb ⟨le_rfl, by decide⟩

end SkyOS
