import SkyOS.Fs.Write

/-!
# Short names

`strrchr` of the kernel returns where the last occurrence ends and not where it begins.
`build_short_name` counts from there: it takes the extension from its second character on,
and it finds every name too long.
-/

namespace SkyOS

-- ---------------------------------------------------------------------------
-- common/strings.c
-- ---------------------------------------------------------------------------

/-- `while (*s) if (*s++ == c) occ = s;` with `n` characters to go. -/
def strrchrLoop (name : CStr) (c : UInt8) : ℕ → ℕ → Option ℕ → Option ℕ
  | 0, _, occ => occ
  | n + 1, s, occ => strrchrLoop name c n (s + 1) (if name.byte s = c then some (s + 1) else occ)

def strrchr (name : CStr) (c : UInt8) : Option ℕ := strrchrLoop name c name.length 0 none

structure LastDot (name : CStr) (d : ℕ) : Prop where
  inside : d < name.length
  dot : name.byte d = 0x2e
  last : ∀ p, d < p → p < name.length → name.byte p ≠ 0x2e

section
variable {name : CStr}

theorem strrchrLoop_some (h : ∀ p, d < p → p < s + n → name.byte p ≠ c) (hd : d < s) :
    strrchrLoop name c n s (some (d + 1)) = some (d + 1) := by
  induction n generalizing s with
  | zero => rfl
  | succ n ih =>
    rw [strrchrLoop, if_neg (h s hd (by omega))]
    exact ih (fun p hp hlt => h p hp (by omega)) (by omega)

theorem strrchrLoop_find (h : ∀ p, d < p → p < s + n → name.byte p ≠ c) (hd : name.byte d = c)
    (hs : s ≤ d) (hn : d < s + n)
    (occ : Option ℕ) : strrchrLoop name c n s occ = some (d + 1) := by
  induction n generalizing s occ with
  | zero => omega
  | succ n ih =>
    rw [strrchrLoop]
    rcases hs.eq_or_lt with rfl | hlt
    · rw [if_pos hd]
      exact strrchrLoop_some (fun p hp hlt => h p hp (by omega)) (Nat.lt_succ_self _)
    · exact ih (fun p hp hlt => h p hp (by omega)) (by omega) (by omega) _

theorem LastDot.strrchr (h : LastDot name d) : strrchr name 0x2e = some (d + 1) :=
  strrchrLoop_find (fun p hp hlt => h.last p hp (by omega)) h.dot (Nat.zero_le _)
    (by have := h.inside; omega) none

theorem strrchrLoop_none (h : ∀ p, s ≤ p → p < s + n → name.byte p ≠ c) (occ : Option ℕ) :
    strrchrLoop name c n s occ = occ := by
  induction n generalizing s with
  | zero => rfl
  | succ n ih =>
    rw [strrchrLoop, if_neg (h s le_rfl (by omega))]
    exact ih fun p hp hlt => h p (by omega) (by omega)

theorem find_reverse_range (P : ℕ → Bool) (n : ℕ) :
    (∃ d, (List.range n).reverse.find? P = some d ∧ d < n ∧ P d = true ∧ ∀ p, d < p → p < n →
      P p = false) ∨
      ((List.range n).reverse.find? P = none ∧ ∀ p < n, P p = false) := by
  induction n with
  | zero => exact .inr ⟨rfl, fun p hp => absurd hp (Nat.not_lt_zero p)⟩
  | succ n ih =>
    rw [List.range_succ, List.reverse_append, List.reverse_singleton, List.singleton_append,
      List.find?_cons]
    cases hn : P n with
    | true => exact .inl ⟨n, rfl, Nat.lt_succ_self n, hn, fun p hp hlt => by omega⟩
    | false =>
      have hlast (p : ℕ) (hp : p < n + 1) (h : p < n → P p = false) : P p = false := by
        rcases Nat.lt_succ_iff_lt_or_eq.mp hp with hlt | rfl
        · exact h hlt
        · exact hn
      rcases ih with ⟨d, hfind, hd, hdot, hrest⟩ | ⟨hfind, hrest⟩
      · exact .inl ⟨d, hfind, by omega, hdot, fun p hp hlt => hlast p hlt (hrest p hp)⟩
      · exact .inr ⟨hfind, fun p hp => hlast p hp (hrest p)⟩

theorem strrchrDot_eq (name : CStr) : strrchrDot name = strrchr name 0x2e := by
  unfold strrchrDot
  rcases find_reverse_range (fun i => name.byte i == 0x2e) name.length with
    ⟨d, hfind, hd, hdot, hrest⟩ | ⟨hfind, hrest⟩
  · have hlast : LastDot name d :=
        ⟨hd, by simpa using hdot, fun p hp hlt => by simpa using hrest p hp hlt⟩
    rw [hfind, hlast.strrchr]
    rfl
  · rw [hfind, strrchr, strrchrLoop_none fun p _ hp => by simpa using hrest p (by omega)]
    rfl

end

-- ---------------------------------------------------------------------------
-- build_short_name
-- ---------------------------------------------------------------------------

/-- The characters that the loop over the suffix looks at, from the second one on. -/
def suffixReads (name : CStr) (suffix : ℕ) : List ℕ :=
  ((List.range 3).take ((suffixChars name suffix).length + 1)).map fun j => suffix + j + 1

def buildShortNameReads (name : CStr) : List ℕ :=
  List.range (min (stemLength name + 1) 8) ++ List.range (name.length + 1) ++
      ((strrchr name 0x2e).map (suffixReads name)).getD [] ++
    if stemLength name = 8 then [8] else []

theorem stemLength_le (name : CStr) : stemLength name ≤ 8 := by
  unfold stemLength
  exact (List.takeWhile_sublist _).length_le.trans (by simp)

section
variable {a b : CStr}

theorem takeWhile_range_congr {f g : ℕ → Bool} {n : ℕ}
    (h : ∀ j < n, j ≤ ((List.range n).takeWhile f).length → f j = g j) :
    (List.range n).takeWhile f = (List.range n).takeWhile g := by
  obtain ⟨k, hk, hf, hall, hstop⟩ := takeWhile_range f n
  obtain ⟨k', hk', hg, hall', hstop'⟩ := takeWhile_range g n
  rw [hf, List.length_range] at h
  rw [hf, hg]
  rcases Nat.lt_trichotomy k k' with hlt | rfl | hlt
  · have hsame := h k (by omega) le_rfl
    rw [hstop (by omega), hall' k hlt] at hsame
    cases hsame
  · rfl
  · have hsame := h k' (by omega) hlt.le
    rw [hall k' hlt, hstop' (by omega)] at hsame
    cases hsame

theorem stemLength_congr (h : ∀ p < min (stemLength a + 1) 8, a.byte p = b.byte p) :
    stemLength a = stemLength b := by
  refine congrArg List.length (takeWhile_range_congr fun j hj hle => ?_)
  rw [h j (lt_min (Nat.lt_succ_of_le hle) hj)]

theorem CStr.length_congr (h : ∀ p < a.length + 1, a.byte p = b.byte p) : a.length = b.length := by
  rcases Nat.lt_trichotomy a.length b.length with hlt | heq | hlt
  · exact absurd ((h _ (Nat.lt_succ_self _)).symm.trans a.nul) (b.chars _ hlt)
  · exact heq
  · exact absurd ((h _ (by omega)).trans b.nul) (a.chars _ hlt)

theorem strrchrLoop_congr {s n : ℕ} (h : ∀ p < s + n, a.byte p = b.byte p) (c : UInt8)
    (occ : Option ℕ) : strrchrLoop a c n s occ = strrchrLoop b c n s occ := by
  induction n generalizing s occ with
  | zero => rfl
  | succ n ih =>
    rw [strrchrLoop, strrchrLoop, h s (by omega)]
    exact ih (fun p hp => h p (by omega)) _

theorem suffixChars_eq (name : CStr) (p : ℕ) : suffixChars name p =
    ((List.range 3).takeWhile fun j => name.byte (p + j + 1) != 0).map
      fun j => name.byte (p + j + 1) := by
  rw [suffixChars, List.takeWhile_map]
  rfl

theorem suffixChars_congr {d : ℕ} (h : ∀ p ∈ suffixReads a d, a.byte p = b.byte p) :
    suffixChars a d = suffixChars b d := by
  have hread (j : ℕ) (hj : j < 3) (hle : j ≤ (suffixChars a d).length) :
      a.byte (d + j + 1) = b.byte (d + j + 1) := by
    refine h _ (List.mem_map.mpr ⟨j, ?_, rfl⟩)
    rw [List.take_range]
    exact List.mem_range.mpr (by omega)
  rw [suffixChars_eq, List.length_map] at hread
  obtain ⟨k, hk, hrange, -⟩ := takeWhile_range (fun j => a.byte (d + j + 1) != 0) 3
  have hsame : (List.range 3).takeWhile (fun j => a.byte (d + j + 1) != 0) =
      (List.range 3).takeWhile fun j => b.byte (d + j + 1) != 0 :=
    takeWhile_range_congr fun j hj hle => by rw [hread j hj hle]
  rw [suffixChars_eq, suffixChars_eq, ← hsame, hrange]
  rw [hrange, List.length_range] at hread
  refine List.map_congr_left fun j hj => ?_
  have hlt := List.mem_range.mp hj
  exact hread j (by omega) hlt.le

/-- What `build_short_name` makes of a name depends on no character but those it reads. -/
theorem buildShortName_congr (h : ∀ p ∈ buildShortNameReads a, a.byte p = b.byte p) (n : ℕ) :
    buildShortName a n = buildShortName b n := by
  simp only [buildShortNameReads, List.mem_append, or_imp, forall_and, List.mem_range] at h
  obtain ⟨⟨⟨hstem, hall⟩, hsuffix⟩, hlast⟩ := h
  have hdot : strrchrDot a = strrchrDot b := by
    rw [strrchrDot_eq, strrchrDot_eq, strrchr, strrchr, ← CStr.length_congr hall]
    exact strrchrLoop_congr (fun p hp => hall p (by omega)) _ _
  have hchars (d : ℕ) (hd : strrchrDot a = some d) : suffixChars a d = suffixChars b d := by
    refine suffixChars_congr fun p hp => hsuffix p ?_
    rw [← strrchrDot_eq, hd]
    exact hp
  have hmore : (stemLength a = 8 ∧ a.byte (stemLength a) ≠ 0x2e) ↔
      stemLength a = 8 ∧ b.byte (stemLength a) ≠ 0x2e := by
    refine and_congr_right fun h8 => ?_
    rw [h8, hlast 8 (by simp [h8])]
  have hbase (j : ℕ) : (if j < stemLength a then toupper (a.byte j) else 0x20) =
      if j < stemLength a then toupper (b.byte j) else 0x20 := by
    have := stemLength_le a
    split
    · rw [hstem j (by omega)]
    · rfl
  unfold buildShortName
  dsimp only
  rw [← stemLength_congr hstem, ← hdot, if_congr (or_congr_left hmore) rfl rfl]
  cases hd : strrchrDot a with
  | none => simp only [hbase]
  | some d => simp only [hbase, hchars d hd]

end

/-- Character `j` of what comes after the dot at `d`, padded with spaces. -/
def extChar (name : CStr) (d j : ℕ) : UInt8 :=
  if d + 1 + j < name.length then toupper (name.byte (d + 1 + j)) else 0x20

/-- One to eight characters, the only dot, and one to three characters. -/
structure EightThree (name : CStr) (d : ℕ) : Prop where
  base : 1 ≤ d ∧ d ≤ 8
  ext : d + 2 ≤ name.length ∧ name.length ≤ d + 4
  only : ∀ p < d, name.byte p ≠ 0x2e

structure KeptShort (name : CStr) (n d : ℕ) : Prop where
  base : ∀ j < 8, buildShortName name n j = if j < d then toupper (name.byte j) else 0x20
  ext : ∀ j < 3, buildShortName name n (8 + j) = extChar name d j
  plain : ∀ j < 11, buildShortName name n j ≠ 0x7e

/-- The extension is what comes after the dot, and nothing is read past the name. -/
structure ExtensionRight (name : CStr) (n d : ℕ) : Prop where
  ext : ∀ j < 3, buildShortName name n (8 + j) = extChar name d j
  reads : ∀ p ∈ buildShortNameReads name, p ≤ name.length

section
variable {name : CStr}

theorem stemLength_spec (name : CStr) :
    (∀ j < stemLength name, name.byte j ≠ 0 ∧ name.byte j ≠ 0x2e) ∧
    (stemLength name < 8 → name.byte (stemLength name) = 0 ∨
      name.byte (stemLength name) = 0x2e) := by
  obtain ⟨k, -, hrange, hall, hstop⟩ :=
    takeWhile_range (fun i => name.byte i != 0 && name.byte i != 0x2e) 8
  have hk : stemLength name = k := by rw [stemLength, hrange, List.length_range]
  rw [hk]
  refine ⟨fun j hj => by simpa using hall j hj, fun hlt => ?_⟩
  have h := hstop hlt
  rw [Bool.and_eq_false_iff] at h
  simpa using h

theorem LastDot.stemLength_le (h : LastDot name d) : stemLength name ≤ d := by
  by_contra hlt
  exact ((stemLength_spec name).1 d (by omega)).2 h.dot

/-- Every name with a dot gets a tilde: `suffix - name` is one more than where the dot is. -/
theorem LastDot.buildShortName (h : LastDot name d) (n j : ℕ) : buildShortName name n j =
    if j = min (stemLength name) 6 + 1 then UInt8.ofNat (0x30 + n % 10)
    else if j = min (stemLength name) 6 then 0x7e
    else if 8 ≤ j ∧ j < 8 + (suffixChars name (d + 1)).length then
      toupper ((suffixChars name (d + 1)).getD (j - 8) 0)
    else if j < stemLength name then toupper (name.byte j) else 0x20 := by
  have hle := h.stemLength_le
  have hlong : stemLength name = 8 ∧ name.byte (stemLength name) ≠ 0x2e ∨
      strrchrDot name ≠ some (stemLength name) := by
    right
    rw [strrchrDot_eq, h.strrchr, Ne, Option.some.injEq]
    omega
  unfold SkyOS.buildShortName
  dsimp only
  rw [strrchrDot_eq, h.strrchr]
  rw [if_pos (by rw [strrchrDot_eq, h.strrchr] at hlong; exact hlong)]
  simp only [Function.update_apply]

theorem suffixChars_spec (name : CStr) (p : ℕ) : ∃ k ≤ 3, (suffixChars name p).length = k ∧
    (∀ j < k, (suffixChars name p).getD j 0 = name.byte (p + j + 1) ∧ name.byte (p + j + 1) ≠ 0) ∧
    (k < 3 → name.byte (p + k + 1) = 0) := by
  obtain ⟨k, hk, hrange, hall, hstop⟩ := takeWhile_range (fun j => name.byte (p + j + 1) != 0) 3
  have hchars : suffixChars name p = (List.range k).map fun j => name.byte (p + j + 1) := by
    rw [suffixChars_eq, hrange]
  refine ⟨k, hk, by rw [hchars, List.length_map, List.length_range],
    fun j hj => ⟨?_, by simpa using hall j hj⟩, fun hlt => by simpa using hstop hlt⟩
  rw [hchars, List.getD_eq_getElem _ _ (by simpa using hj), List.getElem_map, List.getElem_range]

/-- The loop over the suffix ends at the NUL, unless it begins behind it. -/
theorem suffixChars_inside (hp : p < name.length) :
    (suffixChars name p).length ≤ name.length - (p + 1) := by
  obtain ⟨k, -, hlen, hchars, -⟩ := suffixChars_spec name p
  rw [hlen]
  by_contra hlt
  refine (hchars (name.length - (p + 1)) (by omega)).2 ?_
  rw [show p + (name.length - (p + 1)) + 1 = name.length by omega]
  exact name.nul

theorem LastDot.ext_eq (h : LastDot name d) (n : ℕ) (hj : j < 3) :
    SkyOS.buildShortName name n (8 + j) =
    if j < (suffixChars name (d + 1)).length then toupper ((suffixChars name (d + 1)).getD j 0) else
      0x20 := by
  have hstem := SkyOS.stemLength_le name
  rw [h.buildShortName, if_neg (by omega), if_neg (by omega), show 8 + j - 8 = j by omega]
  split
  · rename_i hin
    rw [if_pos (by omega)]
  · rename_i hin
    rw [if_neg (by omega), if_neg (by omega)]

theorem LastDot.ext_shift (h : LastDot name d) (hin : d + 1 < name.length) (n : ℕ) (hj : j < 3) :
    SkyOS.buildShortName name n (8 + j) = extChar name d (j + 1) := by
  obtain ⟨k, -, hlen, hchars, hstop⟩ := suffixChars_spec name (d + 1)
  have hk := suffixChars_inside hin
  rw [hlen] at hk
  rw [h.ext_eq n hj, hlen, extChar]
  by_cases hjk : j < k
  · rw [if_pos hjk, if_pos (by omega), (hchars j hjk).1]
    congr 2
  · rw [if_neg hjk, if_neg]
    intro hlt
    exact name.chars (d + 1 + k + 1) (by omega) (hstop (by omega))

theorem LastDot.reads_iff (h : LastDot name d) :
    (∀ p ∈ buildShortNameReads name, p ≤ name.length) ↔ d + 1 < name.length := by
  have hd := h.inside
  have hle := h.stemLength_le
  unfold buildShortNameReads suffixReads
  rw [h.strrchr]
  constructor
  · intro hall
    have hfirst := hall (d + 1 + 0 + 1) (by simp [List.mem_map])
    omega
  · intro hin p hp
    have hk := suffixChars_inside hin
    simp only [Option.map_some, Option.getD_some, List.mem_append, List.mem_range,
      List.mem_map] at hp
    rcases hp with ((hp | hp) | ⟨j, hj, rfl⟩) | hp
    · omega
    · omega
    · obtain ⟨i, hi, rfl⟩ := List.mem_take_iff_getElem.mp hj
      rw [List.getElem_range]
      omega
    · split at hp
      · rw [List.mem_singleton] at hp
        omega
      · cases hp

/-- No 8.3 name is kept. The extension is right just if the characters after the dot cannot
tell where it begins. -/
theorem short_name_iff (h : LastDot name d) (n : ℕ) : (EightThree name d → ¬ KeptShort name n d) ∧
    (ExtensionRight name n d ↔ d + 1 < name.length ∧
      ∀ j < 3, extChar name d j = extChar name d (j + 1)) := by
  refine ⟨fun _ hkept => ?_, fun hr => ?_, fun ⟨hin, hsame⟩ =>
    ⟨fun j hj => ?_, h.reads_iff.mpr hin⟩⟩
  · refine hkept.plain (min (stemLength name) 6) (by omega) ?_
    rw [h.buildShortName, if_neg (by omega), if_pos rfl]
  · have hin := h.reads_iff.mp hr.reads
    exact ⟨hin, fun j hj => (hr.ext j hj).symm.trans (h.ext_shift hin n hj)⟩
  · rw [h.ext_shift hin n hj, hsame j hj]

end

def nameATxt : CStr := .ofList [0x61, 0x2e, 0x74, 0x78, 0x74]

theorem nameATxt_dot : LastDot nameATxt 1 :=
  ⟨by decide, by decide, fun p hp hlt => by
    have hlt : p < 5 := hlt
    interval_cases p <;> decide⟩

theorem short_name_txt : (EightThree nameATxt 1 → ¬ KeptShort nameATxt 1 1) ∧
    (ExtensionRight nameATxt 1 1 ↔ 1 + 1 < nameATxt.length ∧
      ∀ j < 3, extChar nameATxt 1 j = extChar nameATxt 1 (j + 1)) :=
  short_name_iff nameATxt_dot 1

/-- It becomes `A~1     XT `. -/
theorem short_name_txt_wrong : EightThree nameATxt 1 ∧ ¬ KeptShort nameATxt 1 1 ∧
    (List.range 11).map (buildShortName nameATxt 1) = [0x41, 0x7e, 0x31, 0x20, 0x20, 0x20, 0x20,
      0x20, 0x58, 0x54, 0x20] := by
  refine ⟨⟨by decide, by decide, fun p hp => ?_⟩, fun h => h.plain 1 (by decide) (by decide),
    by decide⟩
  obtain rfl : p = 0 := by omega
  decide

end SkyOS
