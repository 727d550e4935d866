import SkyOS.Fs.Reading
import SkyOS.Fs.Transparency

/-!
# Seeking

`fat_lseek` comes to the cluster that reading comes to, so that what is read next
is the same.
-/

namespace SkyOS

open ByteMem WriteBack

def Handle.target (h : Handle) (offset : ℕ) (whence : Whence) : Option ℕ :=
  (match whence with
    | .set => some offset
    | .cur => some (u32 (offset + h.position))
    | .fromEnd => some (u32 (offset + h.size))
    | .other => none).map fun o => if h.size ≠ 0 ∧ o > h.size then h.size else o

def Handle.fresh (h : Handle) : Handle := { h with position := 0, curCluster := h.firstCluster }

section
variable {fat : Fat} {D : Disk} {h : Handle}

theorem fatLseek_gives (hf : fat.Sized) (ht : h.target offset whence = some p) :
    Gives .univ (On D) (fatLseek fat h offset whence) (p, h.moved fat D p) (On D) := by
  have hcs : fat.sectorsPerCluster * fat.bytesPerSector ≠ 0 := by
    rw [hf.sector]
    exact (Nat.mul_pos hf.cluster (by decide)).ne'
  unfold fatLseek
  dsimp only
  split
  · rename_i heq
    have hnone : h.target offset whence = Option.map _ none := congrArg (Option.map _) heq
    rw [ht] at hnone
    cases hnone
  · rename_i q heq
    have hsome : h.target offset whence = Option.map _ (some q) := congrArg (Option.map _) heq
    rw [ht, Option.map_some, Option.some.injEq] at hsome
    rw [← hsome]
    by_cases hroot : h.rootFlag = true
    · rw [if_pos hroot]
      simp only [Handle.moved, hroot, if_true]
      exact Gives.pure _ fun _ => id
    · rw [if_neg hroot, if_neg hcs]
      refine (followChain_gives hf.sector _ _).bind ?_
      rw [Handle.moved, if_neg hroot, Nat.div_div_eq_div_mul, Nat.mul_comm fat.bytesPerSector]
      exact Gives.pure _ fun _ => id

theorem Handle.moved_fresh (h : Handle) (fat : Fat) (D : Disk) (p : ℕ) :
    h.fresh.moved fat D p = h.moved fat D p := rfl

theorem fatReads_sum (hf : fat.Sized) (hs : h.size < 2 ^ 32) (hr : h.Readable fat D N)
    (hN : N < 2 ^ 32)
    (hn : ∀ n ∈ ns, 0 ≤ n) (hq : q + (ns.map Int.toNat).sum ≤ N) (hle : N ≤ h.size) :
    ∃ ls, Gives .univ (On D) (fatReads fat ns (h.moved fat D q)) (ls,
      h.moved fat D (q + (ns.map Int.toNat).sum)) (On D) := by
  induction ns generalizing q with
  | nil => exact ⟨[], Gives.pure _ fun _ => id⟩
  | cons n ns ih =>
    obtain ⟨hn0, hns⟩ := List.forall_mem_cons.mp hn
    rw [List.map_cons, List.sum_cons] at hq ⊢
    obtain ⟨ls, hrest⟩ := ih hns (q := q + n.toNat) (by omega)
    rw [← Nat.add_assoc]
    refine ⟨_,
        (fatRead_gives hf hr hN (Set.subset_univ _) (Handle.request_le hn0 (by omega) hs)
        (by omega)).bind <|
      hrest.bind <| Gives.pure _ fun _ => id⟩

-- ---------------------------------------------------------------------------
-- What is read next
-- ---------------------------------------------------------------------------

theorem nonzero_blind (n : ℕ) : Blind (nonzero n) := by
  unfold nonzero
  split
  · exact .fail _
  · exact .pure _

theorem fatRead_blind (fat : Fat) (h : Handle) (n : ℤ) : Blind (fatRead fat h n) := by
  refine .bind (.bind (nonzero_blind _) fun _ => ?_) fun _ => ?_
  · split
    · exact .pure _
    · exact .bind (nonzero_blind _) fun _ => .pure _
  · dsimp only
    generalize Int.toNat _ = n
    cases n with
    | zero => exact .pure _
    | succ n =>
      unfold fatReadLoop
      rw [if_neg (Nat.succ_ne_zero n)]
      exact .get _ _

theorem fatReadLoop_calm (fat : Fat) (fuel n s o : ℕ) (h : Handle) :
    (fatReadLoop fat fuel n s o h).calm := by
  induction fuel generalizing n s o h with
  | zero => exact trivial
  | succ fuel ih =>
    unfold fatReadLoop
    split
    · exact trivial
    · refine Prog.calm_bind (getSector_calm _) fun _ =>
          Prog.calm_bind (readBuf_onBuf _ _).calm fun l => ?_
      dsimp only
      split
      · exact trivial
      · split
        · refine Prog.calm_bind (fatGetNextCluster_calm _ _) fun c => ?_
          split
          · exact trivial
          · exact Prog.calm_bind (ih _ _ _ _) fun _ => trivial
        · exact Prog.calm_bind (ih _ _ _ _) fun _ => trivial

theorem fatRead_calm (fat : Fat) (h : Handle) (n : ℤ) : (fatRead fat h n).calm := by
  refine Prog.calm_bind (Prog.calm_bind (nonzero_calm _) fun _ => ?_) fun _ =>
    fatReadLoop_calm _ _ _ _ _ _
  split
  · exact trivial
  · exact Prog.calm_bind (nonzero_calm _) fun _ => trivial

/-- Seeking comes to where reading from the start comes to, in whatever pieces. -/
theorem seek_agrees (hf : fat.Sized) (hs : h.size < 2 ^ 32) (ht : h.target offset whence = some p)
    (hp : p ≤ h.size)
    (hh : if h.rootFlag then h.firstCluster < 2 ^ 16 else fat.Covers D h.firstCluster p)
    (hn : ∀ n ∈ ns, 0 ≤ n ∧ n < 2 ^ 31)
    (hsum : (ns.map Int.toNat).sum = p) {c c₀ : Cached Sector} (hc : On D c) (hc₀ : On D c₀) :
    ∃ h' ls c₁ c₂,
      (fatLseek fat h offset whence).cached c = .ok ((p, h'), c₁) ∧ On D c₁ ∧
      (fatReads fat ns h.fresh).cached c₀ = .ok ((ls, h'), c₂) ∧ On D c₂ ∧ h'.position = p ∧
      ∀ n, ((fatRead fat h' n).cached c₁).map Prod.fst =
      ((fatRead fat h' n).cached c₂).map Prod.fst := by
  have hr : h.Readable fat D p := by
    unfold Handle.Readable
    split
    · rename_i hroot
      rw [if_pos hroot] at hh
      rw [hf.sector]
      unfold maxSectorSize
      omega
    · rename_i hroot
      rwa [if_neg hroot] at hh
  obtain ⟨-, c₁, hseek, hc₁⟩ := (fatLseek_gives hf ht).run hc
  obtain ⟨ls, hreads⟩ := fatReads_sum hf hs hr (by omega) (fun n hm => (hn n hm).1) (q :=
    0) (by omega) hp
  rw [hsum, Nat.zero_add, ← Handle.moved_fresh h fat D 0, Handle.moved_zero fat D rfl rfl] at hreads
  obtain ⟨-, c₂, hreads, hc₂⟩ := hreads.run hc₀
  exact ⟨_, ls, c₁, c₂, hseek, hc₁, hreads, hc₂, rfl, fun n =>
    (fatRead_blind fat _ n).same (fatRead_transparent fat _ n) (fatRead_calm fat _ n) hc₁ hc₂⟩

end

/-- Back to the start of the second cluster. -/
theorem seek_agrees_back : ∃ h' ls c₁ c₂,
    (fatLseek fourClusters { twoClusterFile with position := 600 } (2 ^ 32 - 88) .cur).cached
    (coldCache twoClusterDisk) =
      .ok ((512, h'), c₁) ∧ On twoClusterDisk c₁ ∧
    (fatReads fourClusters [100, 412] twoClusterFile).cached (coldCache twoClusterDisk) =
      .ok ((ls, h'), c₂) ∧
    On twoClusterDisk c₂ ∧ h'.position = 512 ∧
    ∀ n, ((fatRead fourClusters h' n).cached c₁).map Prod.fst =
        ((fatRead fourClusters h' n).cached c₂).map Prod.fst :=
  seek_agrees (h := { twoClusterFile with position := 600 }) fourClusters_sized (by decide)
      (by decide) (by decide)
    (fun i hi => twoClusterFile_sound i (lt_trans hi (by decide))) (by decide) (by decide)
      (coldCache_on _) (coldCache_on _)

end SkyOS
