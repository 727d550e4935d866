import SkyOS.Fs.Records

/-!
# Rounds of `fat_readdir`

What one round of the loop does with the record that it reads.
-/

namespace SkyOS

open ByteMem WriteBack

section
variable {fat : Fat} {D : Disk} {h : Handle} {S : Set ℕ}
    {Q : Option Dirent × Dirent × Handle → Cached Sector → Prop} {l : List UInt8} {h' : Handle}

theorem fatReaddirLoop_end (hread : Gives S (On D) (fatRead fat h direntSize) (l, h') (On D))
    (hend : l.length ≠ direntSize ∨ entryMem l 0 = 0) (fuel csum : ℕ) (ent : Dirent) :
    Gives S (On D) (fatReaddirLoop fat (fuel + 1) csum ent h) (none, ent, h') (On D) := by
  refine hread.bind ?_
  dsimp only
  by_cases hlen : l.length ≠ direntSize
  · rw [if_pos hlen]
    exact Gives.pure _ fun _ => id
  · rw [if_neg hlen, if_pos (hend.resolve_left hlen)]
    exact Gives.pure _ fun _ => id

theorem fatReaddirLoop_skip (hread : Gives S (On D) (fatRead fat h direntSize) (l, h') (On D))
    (hlen : l.length = direntSize)
    (h0 : entryMem l 0 ≠ 0) (hskip : entryMem l 0 = 0xe5 ∨ entryAttr (entryMem l) = fatAttrVolumeId)
    (hrest : Does S (On D) (fatReaddirLoop fat fuel csum ent h') Q) :
    Does S (On D) (fatReaddirLoop fat (fuel + 1) csum ent h) Q := by
  refine hread.bind ?_
  dsimp only
  rw [if_neg (not_not.mpr hlen), if_neg h0, if_pos hskip]
  exact hrest

theorem fatReaddirLoop_long (hread : Gives S (On D) (fatRead fat h direntSize) (l, h') (On D))
    (hlong : IsLong l)
    (hname : readLongName (entryMem l) csum ent.dName = pure (csum', name'))
    (hrest : Does S (On D) (fatReaddirLoop fat fuel csum' { ent with dName := name' } h') Q) :
    Does S (On D) (fatReaddirLoop fat (fuel + 1) csum ent h) Q := by
  obtain ⟨hlen, h0, hdel, hattr⟩ := hlong
  have hvol : ¬ (entryMem l 0 = 0xe5 ∨ entryAttr (entryMem l) = fatAttrVolumeId) := by
    rintro (h | h)
    · exact hdel h
    · exact absurd (hattr.symm.trans h) (by decide)
  refine hread.bind ?_
  dsimp only
  rw [if_neg (not_not.mpr hlen), if_neg h0, if_neg hvol, if_pos hattr, hname]
  exact hrest

def IsEntry (l : List UInt8) : Prop := l.length = direntSize ∧ entryMem l 0 ≠ 0 ∧
    entryMem l 0 ≠ 0xe5 ∧
  entryAttr (entryMem l) ≠ fatAttrVolumeId ∧ entryAttr (entryMem l) ≠ fatAttrLongName

instance (l : List UInt8) : Decidable (IsEntry l) := inferInstanceAs (Decidable (_ ∧ _ ∧ _ ∧ _ ∧ _))

/-- What it returns: the long name is used if it belongs to the record. -/
def toDirent (csum : ℕ) (ent : Dirent) (l : List UInt8) : Dirent :=
  let name := if csum ≠ (fatDirentChksum (entryMem l)).toNat then Function.update ent.dName 0 0 else
    ent.dName
  ⟨if name 0 = 0 then readShortName (entryMem l) name else name, entryAttr (entryMem l), l.take 11⟩

theorem fatReaddirLoop_entry (hread : Gives S (On D) (fatRead fat h direntSize) (l, h') (On D))
    (he : IsEntry l) (fuel csum : ℕ)
    (ent : Dirent) :
    Gives S (On D) (fatReaddirLoop fat (fuel + 1) csum ent h) (some (toDirent csum ent l),
      toDirent csum ent l, h')
      (On D) := by
  obtain ⟨hlen, h0, hdel, hvol, hlong⟩ := he
  refine hread.bind ?_
  dsimp only
  rw [if_neg (not_not.mpr hlen), if_neg h0, if_neg (not_or.mpr ⟨hdel, hvol⟩), if_neg hlong]
  exact Gives.pure _ fun _ => id

end

end SkyOS
