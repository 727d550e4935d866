import SkyOS.Proc.Progress
import SkyOS.Lib.Lockstep

/-!
# Tables and the old contents of their pages

`k_pgtable_init` and `map` take pages for tables and do not clear them. `Tree`
is a page table as it is meant: which tables there are, and the entry of each
page number. Its calls read no memory. Over pages that hold no entry in use
memory follows the tree, whatever else the pages held.
-/

namespace SkyOS

open ByteMem Lockstep

-- ---------------------------------------------------------------------------
-- Calls
-- ---------------------------------------------------------------------------

structure MapCall where
  va : ℕ
  pa : ℕ
  size : ℕ
  perm : ℕ

/-- The arguments are of the types of the parameters, and the permissions are
those the kernel passes. -/
structure MapCall.Proper (c : MapCall) : Prop where
  perm : KernelPerm c.perm
  va : c.va < 2 ^ 64
  pa : c.pa < 2 ^ 64

def kernelCall (L : Layout) : MapCall := ⟨kernelStart, kernelStart, kernelRange L, 0⟩

def MapCall.exec (L : Layout) (pg : ℕ) (c : MapCall) (s : Phys Buddy) : Run (Phys Buddy) :=
  map (kalloc L) pg c.va c.pa c.size c.perm s

def tableRun (L : Layout) (calls : List MapCall) (s : Phys Buddy) : Run (ℕ × Phys Buddy) := do
  let (pg, s) ← kPgtableInit (kalloc L) L s
  let s ← calls.foldlM (fun s c => c.exec L pg s) s
  return (pg, s)

def Covered (L : Layout) (calls : List MapCall) (x : ℕ) : Prop :=
  ∃ c ∈ kernelCall L :: calls, ∃ y, c.va ≤ y ∧ y < c.va + c.size ∧ vpn x = vpn y

/-- Both runs stop with the same error, or both leave a table with the same
translations, and none but of addresses that were mapped. -/
inductive SameTables (L : Layout) (calls : List MapCall) : Run (ℕ × Phys Buddy) →
    Run (ℕ × Phys Buddy) → Prop
  | stop (e : Stop) : SameTables L calls (.error e) (.error e)
  | done : (∀ x, walk s.mem pg x = walk s'.mem pg' x) →
      (∀ x r, walk s.mem pg x = .ok r → Covered L calls x) →
      SameTables L calls (.ok (pg, s)) (.ok (pg', s'))

theorem SameTables.covered (h : SameTables L calls c c') (hc : c = .ok (pg, s)) :
    ∀ x r, walk s.mem pg x = .ok r → Covered L calls x := by
  cases h with
  | stop e => cases hc
  | done _ hcov =>
    cases hc
    exact hcov

-- ---------------------------------------------------------------------------
-- The tree
-- ---------------------------------------------------------------------------

/-- The tables there are, the entry of each page number with its address, and
the pages taken so far. -/
structure Tree where
  shape : Shape
  leaf : ℕ → Option (ℕ × ℕ)
  frames : List ℕ
  heap : Buddy

def Tree.pages (t : Tree) : Set ℕ := {a | a ∈ t.frames}

abbrev TreeM := EStateM Stop Tree

def newRoot (L : Layout) : TreeM ℕ := fun t =>
  match kalloc L pgSize t.heap with
  | .ok (a, heap) => .ok a ⟨rootOnly a, fun _ => none, a :: t.frames, heap⟩
  | .error e => .error e t

def table (L : Layout) (n : Node) : TreeM ℕ := fun t =>
  match t.shape n with
  | some a => .ok a t
  | none =>
    match kalloc L pgSize t.heap with
    | .ok (a, heap) => .ok a ⟨Function.update t.shape n (some a), t.leaf, a :: t.frames, heap⟩
    | .error e => .error e t

def enter (c b e : ℕ) : TreeM PUnit := fun t =>
  if t.leaf c =
    none then .ok ⟨⟩ { t with leaf := Function.update t.leaf c (some (b + 8 * ix0 c, e)) }
  else .error (.panic "double map") t

def lowPage (L : Layout) (perm va0 pa0 : ℕ) : TreeM PUnit := do
  let b ← table L (.low (ix2 (vpn va0)) (ix1 (vpn va0)))
  enter (vpn va0) b (leafPte pa0 perm)

def treePage (L : Layout) (perm va0 pa0 : ℕ) : TreeM PUnit := do
  let _ ← table L (.mid (ix2 (vpn va0)))
  lowPage L perm va0 pa0

def treeLoop (L : Layout) (last perm : ℕ) : ℕ → ℕ → ℕ → TreeM PUnit
  | 0, _, _ => throw .hang
  | fuel + 1, va0, pa0 =>
    if va0 < last then do
      treePage L perm va0 pa0
      treeLoop L last perm fuel (u64 (va0 + pgSize)) (u64 (pa0 + pgSize))
    else return ⟨⟩

def treeCall (L : Layout) (c : MapCall) : TreeM PUnit :=
  treeLoop L (u64 (c.va + c.size)) c.perm (2 ^ 52 + 1) c.va c.pa

def treeCalls (L : Layout) : List MapCall → TreeM PUnit
  | [] => return ⟨⟩
  | c :: calls => do
    treeCall L c
    treeCalls L calls

def treeCallsOf (L : Layout) (calls : List MapCall) : TreeM ℕ := do
  let pg ← newRoot L
  treeCalls L calls
  return pg

def treeRun (L : Layout) (calls : List MapCall) : TreeM ℕ := treeCallsOf L (kernelCall L :: calls)

def emptyTree (b : Buddy) : Tree := ⟨fun _ => none, fun _ => none, [], b⟩

/-- The pages that `kalloc` returns in the course of the run, the last first. -/
def framesTaken (L : Layout) (calls : List MapCall) (b : Buddy) : List ℕ :=
  (final (treeRun L calls (emptyTree b))).frames

-- ---------------------------------------------------------------------------
-- Pages taken
-- ---------------------------------------------------------------------------

section
variable {L : Layout}

theorem table_grows (L : Layout) (n : Node) : Grows Tree.pages (table L n) := by
  intro t
  unfold table
  split
  · exact subset_rfl
  · split
    · exact fun a ha => List.mem_cons_of_mem _ ha
    · exact subset_rfl

theorem enter_grows (c b e : ℕ) : Grows Tree.pages (enter c b e) := by
  intro t
  unfold enter
  split <;> exact subset_rfl

theorem lowPage_grows (L : Layout) (perm va0 pa0 : ℕ) : Grows Tree.pages (lowPage L perm va0 pa0) :=
  (table_grows L _).bind fun _ => enter_grows _ _ _

theorem treePage_grows (L : Layout) (perm va0 pa0 : ℕ) :
    Grows Tree.pages (treePage L perm va0 pa0) :=
  (table_grows L _).bind fun _ => lowPage_grows L _ _ _

theorem treeLoop_grows (L : Layout) (last perm fuel va0 pa0 : ℕ) :
    Grows Tree.pages (treeLoop L last perm fuel va0 pa0) := by
  induction fuel generalizing va0 pa0 with
  | zero => exact .throw _
  | succ fuel ih =>
    rw [treeLoop]
    split
    · exact (treePage_grows L _ _ _).bind fun _ => ih _ _
    · exact .pure _

theorem treeCalls_grows (L : Layout) (calls : List MapCall) :
    Grows Tree.pages (treeCalls L calls) := by
  induction calls with
  | nil => exact .pure _
  | cons c calls ih => exact (treeLoop_grows L _ _ _ _ _).bind fun _ => ih

-- ---------------------------------------------------------------------------
-- Memory follows the tree
-- ---------------------------------------------------------------------------

/-- The memory holds the tree. Outside the pages taken it is as at first. -/
structure Holds (L : Layout) (P : Set ℕ) (s₀ : Phys Buddy) (pg : ℕ) (t : Tree) (s : Phys Buddy) :
    Prop where
  heap : s.heap = t.heap
  tables : Tables s.mem pg t.shape
  leaf : ∀ c, leafAt s.mem t.shape c = t.leaf c
  owned : Owned L t.heap (P ∪ pageBytes t.frames)
  frames : ∀ n a, t.shape n = some a → a ∈ t.frames
  kept : ∀ x ∉ pageBytes t.frames, s.mem x = s₀.mem x
  drawn : Draws (kalloc L pgSize) s₀.heap t.frames.reverse t.heap

def blanks (m : Mem) : Set ℕ := {a | Blank m a}

theorem pageBytes_cons (P : Set ℕ) (a : ℕ) (l : List ℕ) :
    P ∪ pageBytes l ∪ {x | InPage a x} = P ∪ pageBytes (a :: l) := by
  ext x
  simp only [pageBytes, Set.mem_union, Set.mem_ofPred_eq, List.mem_cons, exists_eq_or_imp]
  constructor
  · rintro ((h | h) | h)
    exacts [.inl h, .inr (.inr h), .inr (.inl h)]
  · rintro (h | h | h)
    exacts [.inl (.inl h), .inr h, .inl (.inr h)]

theorem Owned.grant_page {s s' : Buddy} (h : Owned L s (P ∪ pageBytes l))
    (ha : kalloc L pgSize s = .ok (a, s')) :
    Owned L s' (P ∪ pageBytes (a :: l)) ∧ pgSize ∣ a ∧ a < 2 ^ 52 ∧ ∀ x, InPage a x →
      x ∉ pageBytes l := by
  have hg := h.grant ha
  have hown := hg.owned
  rw [blockBytes_page, pageBytes_cons] at hown
  have hlt := L.pmmEnd_lt
  have hstop := hg.stop
  exact ⟨hown, hg.page, by omega, fun x hx hl => hg.new x hx (.inr hl)⟩

section
variable {P : Set ℕ} {pg : ℕ} {t : Tree} {s₀ s : Phys Buddy} {va0 pa0 perm : ℕ}

theorem Holds.newTable {heap : Buddy} (h : Holds L P s₀ pg t s)
    (hk : kalloc L pgSize t.heap = .ok (a, heap)) (hb : Blank s₀.mem a) :
    NewTable s.mem t.shape a := by
  obtain ⟨-, hpage, hlt, hnew⟩ := h.owned.grant_page hk
  refine ⟨hpage, hlt, fun k hk => ?_, fun n hn => ?_⟩
  · rw [entry_congr (fun x hx => h.kept x (hnew x hx)) hk]
    exact hb k hk
  · exact hnew a (.self a) ⟨a, h.frames n a hn, .self a⟩

theorem Holds.grow {m' : Mem} {heap : Buddy} {n : Node} (h : Holds L P s₀ pg t s)
    (hk : kalloc L pgSize t.heap = .ok (b, heap))
    (hT : Tables m' pg (Function.update t.shape n (some b)))
    (hl : ∀ d, leafAt m' (Function.update t.shape n (some b)) d = leafAt s.mem t.shape d)
    (ha : a ∈ t.frames)
    (hm : ∀ x, ¬ InPage a x → m' x = s.mem x) :
    Holds L P s₀ pg ⟨Function.update t.shape n (some b), t.leaf, b :: t.frames, heap⟩ ⟨m',
      heap⟩ := by
  obtain ⟨hown, -⟩ := h.owned.grant_page hk
  refine ⟨rfl, hT, fun c => (hl c).trans (h.leaf c), hown, fun n' c hn => ?_, fun x hx => ?_, ?_⟩
  · rcases update_eq_some hn with ⟨-, rfl⟩ | ⟨-, hn⟩
    · exact List.mem_cons_self
    · exact List.mem_cons_of_mem _ (h.frames _ _ hn)
  · show m' x = s₀.mem x
    rw [hm x fun hin => hx ⟨a, List.mem_cons_of_mem _ ha, hin⟩]
    exact h.kept x fun ⟨c, hc, hin⟩ => hx ⟨c, List.mem_cons_of_mem _ hc, hin⟩
  · rw [List.reverse_cons]
    exact h.drawn.append (.cons hk .nil)

/-- One round of the walk of `map` above the last level, at entry `k` of the
table `a`. -/
def nextTable (L : Layout) (perm k a : ℕ) (s : Phys Buddy) : Run (ℕ × Phys Buddy) :=
  let p := a + 8 * k
  if valid (readPte s.mem p) then .ok (pte2ppn (readPte s.mem p) <<< 12, s)
  else do
    let (b, heap) ← kalloc L pgSize s.heap
    return (b, ⟨writePte s.mem p (tablePte b perm), heap⟩)

theorem mapLevel_succ (L : Layout) (va0 pa0 perm level a : ℕ) (s : Phys Buddy) :
    mapLevel (kalloc L) va0 pa0 perm (level + 1) a s =
    (nextTable L perm (px (level + 1) va0) a s >>= fun r =>
      mapLevel (kalloc L) va0 pa0 perm level r.1 r.2) := by
  rw [mapLevel, nextTable]
  dsimp only
  split
  · rfl
  · cases kalloc L pgSize s.heap <;> rfl

theorem nextTable_some (h : PointsTo (entry s.mem a k) b) :
    nextTable L perm k a s = .ok (b, s) := by
  obtain ⟨hv, -, hp⟩ := h
  rw [entry] at hv hp
  simp [nextTable, hv, hp]

theorem nextTable_none (h : valid (entry s.mem a k) = false) : nextTable L perm k a s =
    (kalloc L pgSize s.heap >>= fun r =>
      .ok (r.1, ⟨writePte s.mem (a + 8 * k) (tablePte r.1 perm), r.2⟩)) := by
  rw [entry] at h
  simp [nextTable, h, pure, Except.pure]

def At (L : Layout) (P : Set ℕ) (s₀ : Phys Buddy) (pg : ℕ) (n : Node) (a : ℕ) (t : Tree)
    (r : ℕ × Phys Buddy) : Prop :=
  r.1 = a ∧ t.shape n = some a ∧ Holds L P s₀ pg t r.2

theorem follows_table (h : Holds L P s₀ pg t s) (ha : a ∈ t.frames) (hk : k < 512)
    (hslot : Slot s.mem a k (t.shape n))
    (hgrow : ∀ b, t.shape n = none → NewTable s.mem t.shape b →
      Tables (writePte s.mem (a + 8 * k) (tablePte b perm)) pg
      (Function.update t.shape n (some b)) ∧
      ∀ d, leafAt (writePte s.mem (a + 8 * k) (tablePte b perm))
      (Function.update t.shape n (some b)) d =
        leafAt s.mem t.shape d) :
    Follows Tree.pages (blanks s₀.mem) (At L P s₀ pg n) (table L n t) (nextTable L perm k a s) := by
  unfold table
  cases hn : t.shape n with
  | some b =>
    rw [hn] at hslot
    rw [nextTable_some hslot]
    exact .pure ⟨rfl, hn, h⟩
  | none =>
    rw [hn] at hslot
    rw [nextTable_none hslot, h.heap]
    cases hd : kalloc L pgSize t.heap with
    | error e => exact .throw e
    | ok r =>
      obtain ⟨b, heap⟩ := r
      intro hgood
      obtain ⟨hT, hl⟩ := hgrow b hn (h.newTable hd (hgood List.mem_cons_self))
      exact ⟨rfl, by simp, h.grow hd hT hl ha fun x hx => writePte_outside s.mem _ hk hx⟩

theorem follows_mid (h : Holds L P s₀ pg t s) (hperm : KernelPerm perm) :
    Follows Tree.pages (blanks s₀.mem) (At L P s₀ pg (.mid (ix2 (vpn va0))))
    (table L (.mid (ix2 (vpn va0))) t)
      (nextTable L perm (px 2 va0) pg s) := by
  have hc := vpn_lt va0
  rw [px_two]
  exact follows_table h (h.frames _ _ h.tables.root) (ix2_lt hc) (h.tables.mid _ (ix2_lt hc))
      fun b hno hb =>
    ⟨h.tables.growMid (ix2_lt hc) hno hb hperm, leafAt_growMid h.tables hc⟩

theorem follows_low (h : Holds L P s₀ pg t s) (hperm : KernelPerm perm)
    (ha : t.shape (.mid (ix2 (vpn va0))) = some a) :
    Follows Tree.pages (blanks s₀.mem) (At L P s₀ pg (.low (ix2 (vpn va0)) (ix1 (vpn va0))))
      (table L (.low (ix2 (vpn va0)) (ix1 (vpn va0))) t) (nextTable L perm (px 1 va0) a s) := by
  have hc := ix2_lt (vpn_lt va0)
  rw [px_one]
  exact follows_table h (h.frames _ _ ha) (ix1_lt _) (h.tables.low _ hc a ha _ (ix1_lt _))
      fun b hno hb =>
    ⟨h.tables.growLow hc (ix1_lt _) ha hno hb hperm, leafAt_growLow h.tables ha hno hb⟩

theorem follows_enter (h : Holds L P s₀ pg t s) (hperm : KernelPerm perm) (hpa : pa0 < 2 ^ 64)
    (hb : t.shape (.low (ix2 (vpn va0)) (ix1 (vpn va0))) = some b) :
    Follows Tree.pages (blanks s₀.mem) (fun _ => Holds L P s₀ pg)
    (enter (vpn va0) b (leafPte pa0 perm) t)
      (mapLevel (kalloc L) va0 pa0 perm 0 b s) := by
  have hlt := leafPte_lt hperm hpa
  have hv : valid (leafPte pa0 perm) = true := leafPte_valid hperm
  rw [mapLevel_zero hb, h.leaf, enter]
  split
  · refine .pure ⟨h.heap, ?_, fun c => ?_, h.owned, h.frames, fun x hx => ?_, h.drawn⟩
    · exact h.tables.setLeaf hb (ix0_lt _) hlt fun _ => leafPte_readable hperm
    · show leafAt (writePte s.mem (b + 8 * ix0 (vpn va0)) (leafPte pa0 perm)) t.shape c =
        Function.update t.leaf (vpn va0) (some (b + 8 * ix0 (vpn va0), leafPte pa0 perm)) c
      by_cases hc : c = vpn va0
      · subst hc
        rw [leafAt_setLeaf_self hb hlt hv, Function.update_self]
      · rw [leafAt_setLeaf_ne h.tables hb hc, Function.update_of_ne hc, h.leaf]
    · show writePte s.mem (b + 8 * ix0 (vpn va0)) (leafPte pa0 perm) x = s₀.mem x
      rw [writePte_outside s.mem _ (ix0_lt _) fun hin => hx ⟨b, h.frames _ _ hb, hin⟩]
      exact h.kept x hx
  · exact .throw _

theorem follows_page (h : Holds L P s₀ pg t s) (hperm : KernelPerm perm) (hpa : pa0 < 2 ^ 64) :
    Follows Tree.pages (blanks s₀.mem) (fun _ => Holds L P s₀ pg) (treePage L perm va0 pa0 t)
      (mapPage (kalloc L) pg perm va0 pa0 s) := by
  rw [mapPage, mapLevel_succ]
  refine (follows_mid h hperm).bind (fun _ => lowPage_grows L _ _ _) ?_
  rintro _ t₁ ⟨a, s₁⟩ ⟨rfl, ha, h₁⟩
  rw [mapLevel_succ]
  refine (follows_low h₁ hperm ha).bind (fun _ => enter_grows _ _ _) ?_
  rintro _ t₂ ⟨b, s₂⟩ ⟨rfl, hb, h₂⟩
  exact follows_enter h₂ hperm hpa hb

theorem follows_loop (h : Holds L P s₀ pg t s) (hperm : KernelPerm perm) (hpa : pa0 < 2 ^ 64)
    (last fuel : ℕ) :
    Follows Tree.pages (blanks s₀.mem) (fun _ => Holds L P s₀ pg)
    (treeLoop L last perm fuel va0 pa0 t)
      (mapLoop (kalloc L) pg last perm fuel va0 pa0 s) := by
  induction fuel generalizing va0 pa0 t s with
  | zero => exact .throw _
  | succ fuel ih =>
    rw [treeLoop, mapLoop]
    split
    · exact (follows_page h hperm hpa).bind (fun _ => treeLoop_grows L _ _ _ _ _) fun _ t₁ s₁ h₁ =>
        ih h₁ (u64_lt _)
    · exact .pure h

theorem follows_calls (h : Holds L P s₀ pg t s) (calls : List MapCall)
    (hcalls : ∀ c ∈ calls, c.Proper) :
    Follows Tree.pages (blanks s₀.mem) (fun _ => Holds L P s₀ pg) (treeCalls L calls t)
      (calls.foldlM (fun s c => c.exec L pg s) s) := by
  induction calls generalizing t s with
  | nil => exact .pure h
  | cons c calls ih =>
    have hc := hcalls c List.mem_cons_self
    rw [List.foldlM_cons]
    exact (follows_loop h hc.perm hc.pa _ _).bind (fun _ => treeCalls_grows L calls)
        fun _ t₁ s₁ h₁ =>
      ih h₁ fun d hd => hcalls d (List.mem_cons_of_mem c hd)

def takeRoot (L : Layout) (s : Phys Buddy) : Run (ℕ × Phys Buddy) := do
  let (a, heap) ← kalloc L pgSize s.heap
  return (a, ⟨s.mem, heap⟩)

theorem kPgtableInit_eq (h : Owned L s.heap P) : kPgtableInit (kalloc L) L s =
    (takeRoot L s >>= fun r =>
    (kernelCall L).exec L r.1 r.2 >>= fun s' => pure (r.1, s')) := by
  unfold kPgtableInit kmap takeRoot MapCall.exec kernelCall kernelRange
  generalize map (kalloc L) = f
  cases ha : kalloc L pgSize s.heap with
  | error e => simp only [error_bind]
  | ok r =>
    obtain ⟨a, heap⟩ := r
    have hal : align a = true := align_of_dvd (h.grant ha).page
    simp only [ok_bind, hal, Bool.not_true, Bool.false_eq_true, if_false, pure_bind]

theorem tableRun_eq (h : Owned L s.heap P) (calls : List MapCall) :
    tableRun L calls s = (takeRoot L s >>= fun r =>
    (kernelCall L :: calls).foldlM (fun s c => c.exec L r.1 s) r.2 >>= fun s' =>
      pure (r.1, s')) := by
  rw [tableRun, kPgtableInit_eq h]
  simp only [bind_assoc, List.foldlM_cons, pure_bind]

theorem follows_root (h : Owned L s.heap P) : Follows Tree.pages (blanks s.mem)
    (fun a t r => r.1 = a ∧ Holds L P s a t r.2) (newRoot L (emptyTree s.heap)) (takeRoot L s) := by
  unfold newRoot takeRoot emptyTree
  dsimp only
  cases ha : kalloc L pgSize s.heap with
  | error e => exact .throw e
  | ok r =>
    obtain ⟨a, heap⟩ := r
    have hown : Owned L s.heap (P ∪ pageBytes []) := by simpa [pageBytes] using h
    obtain ⟨hown, hpage, -⟩ := hown.grant_page ha
    intro hgood
    refine ⟨rfl, rfl, tables_blank hpage (hgood List.mem_cons_self), leafAt_rootOnly s.mem a, hown,
        fun n c hn => ?_,
      fun _ _ => rfl, .cons ha .nil⟩
    simp [(rootOnly_some.mp hn).2]

theorem follows_rootCalls (h : Owned L s.heap P) (all : List MapCall) (hall : ∀ c ∈ all, c.Proper) :
    Follows Tree.pages (blanks s.mem) (fun a t r => r.1 = a ∧
      Holds L P s a t r.2) (treeCallsOf L all (emptyTree s.heap))
      (takeRoot L s >>= fun r => all.foldlM (fun s c => c.exec L r.1 s) r.2 >>= fun s' =>
        pure (r.1, s')) := by
  refine (follows_root h).bind (fun _ => (treeCalls_grows L _).bind fun _ => .pure _) ?_
  rintro _ t₁ ⟨a, s₁⟩ ⟨rfl, h₁⟩
  exact (follows_calls h₁ all hall).bind (fun _ => .pure _) fun _ t₂ s₂ h₂ => .pure ⟨rfl, h₂⟩

theorem kernelCall_proper (L : Layout) : (kernelCall L).Proper :=
  ⟨.inl rfl, (by decide : kernelStart < 2 ^ 64), (by decide : kernelStart < 2 ^ 64)⟩

theorem Proper.all (hcalls : ∀ c ∈ calls, MapCall.Proper c) :
    ∀ c ∈ kernelCall L :: calls, c.Proper :=
  List.forall_mem_cons.mpr ⟨kernelCall_proper L, hcalls⟩

theorem follows_run (h : Owned L s.heap P) (hcalls : ∀ c ∈ calls, c.Proper) :
    Follows Tree.pages (blanks s.mem)
    (fun a t r => r.1 = a ∧ Holds L P s a t r.2) (treeRun L calls (emptyTree s.heap))
    (tableRun L calls s) := by
  rw [tableRun_eq h]
  exact follows_rootCalls h _ (Proper.all hcalls)

theorem framesTaken_drawn (h : Owned L s.heap P) (hcalls : ∀ c ∈ calls, c.Proper)
    (hb : ∀ a ∈ framesTaken L calls s.heap, Blank s.mem a)
    (hr : tableRun L calls s = .ok (pg, s')) :
    Draws (kalloc L pgSize) s.heap (framesTaken L calls s.heap).reverse s'.heap := by
  have hf := follows_run h hcalls hb
  rw [hr] at hf
  unfold framesTaken
  cases ht : treeRun L calls (emptyTree s.heap) with
  | error e t =>
    rw [ht] at hf
    exact hf.elim
  | ok a t =>
    rw [ht] at hf
    obtain ⟨-, hh⟩ := hf
    rw [hh.heap]
    exact hh.drawn

end

-- ---------------------------------------------------------------------------
-- Entries of the tree
-- ---------------------------------------------------------------------------

section
variable {t t' : Tree} {perm va0 pa0 last fuel : ℕ}

theorem table_leaf (h : table L n t = .ok a t') : t'.leaf = t.leaf := by
  unfold table at h
  split at h
  · cases h
    rfl
  · split at h <;> cases h
    rfl

theorem bind_ok_run {x : TreeM α} {f : α → TreeM β} : (x >>= f) t = .ok b t' ↔
    ∃ a t₁, x t = .ok a t₁ ∧ f a t₁ = .ok b t' := by
  rw [bind_run]
  cases x t <;> simp

theorem treePage_leaf (h : treePage L perm va0 pa0 t = .ok u t') (hc : c ≠ vpn va0) :
    t'.leaf c = t.leaf c := by
  simp only [treePage, lowPage, bind_ok_run] at h
  obtain ⟨a, t₁, h1, b, t₂, h2, h3⟩ := h
  rw [← table_leaf h1, ← table_leaf h2]
  unfold enter at h3
  split at h3 <;> cases h3
  exact Function.update_of_ne hc _ _

theorem treeLoop_leaf (hv : va0 < 2 ^ 64) (h : treeLoop L last perm fuel va0 pa0 t = .ok u t') :
    va0 + rounds va0 last * pgSize < 2 ^ 64 ∧
      ∀ c, t'.leaf c ≠ none → t.leaf c ≠ none ∨ ∃ y, va0 ≤ y ∧ y < last ∧ c = vpn y := by
  induction fuel generalizing va0 pa0 t with
  | zero => cases h
  | succ fuel ih =>
    rw [treeLoop] at h
    split at h
    · rename_i hlt
      rw [bind_ok_run] at h
      obtain ⟨_, t₁, h1, h2⟩ := h
      obtain ⟨h3, h4⟩ := ih (u64_lt _) h2
      have hnext : va0 + pgSize < 2 ^ 64 := by
        by_contra hcon
        simp only [rounds, u64, pgSize] at h3 hcon
        omega
      rw [u64_of_lt hnext] at h3 h4
      refine ⟨?_, fun c hc => ?_⟩
      · rw [rounds_pos hlt]
        rwa [Nat.add_mul, Nat.one_mul, Nat.add_comm _ pgSize, ← Nat.add_assoc]
      · by_cases hcv : c = vpn va0
        · exact .inr ⟨va0, le_rfl, hlt, hcv⟩
        · rcases h4 c hc with h5 | ⟨y, h5, h6, h7⟩
          · exact .inl (treePage_leaf h1 hcv ▸ h5)
          · exact .inr ⟨y, (Nat.le_add_right _ _).trans h5, h6, h7⟩
    · rename_i hlt
      cases h
      rw [rounds_zero hlt]
      exact ⟨by omega, fun c hc => .inl hc⟩

theorem treeCalls_leaf (hcalls : ∀ c ∈ calls, c.Proper) (h : treeCalls L calls t = .ok u t')
    (hn : t'.leaf n ≠ none) :
    t.leaf n ≠ none ∨ ∃ c ∈ calls, ∃ y, c.va ≤ y ∧ y < c.va + c.size ∧ n = vpn y := by
  induction calls generalizing t with
  | nil =>
    cases h
    exact .inl hn
  | cons c calls ih =>
    rw [treeCalls, bind_ok_run] at h
    obtain ⟨_, t₁, h1, h2⟩ := h
    rcases ih (fun d hd => hcalls d (List.mem_cons_of_mem c hd)) h2 with h3 | ⟨d, hd, h3⟩
    · rcases (treeLoop_leaf (hcalls c List.mem_cons_self).va h1).2 n h3 with h4 | ⟨y, h4, h5, h6⟩
      · exact .inl h4
      · exact .inr ⟨c, List.mem_cons_self, y, h4, h5.trans_le (Nat.mod_le _ _), h6⟩
    · exact .inr ⟨d, List.mem_cons_of_mem c hd, h3⟩

theorem newRoot_leaf (h : newRoot L t = .ok a t') : t'.leaf n = none := by
  unfold newRoot at h
  split at h <;> cases h
  rfl

theorem treeCallsOf_leaf (hcalls : ∀ c ∈ calls, MapCall.Proper c)
    (h : treeCallsOf L calls t = .ok a t')
    (hn : t'.leaf n ≠ none) : ∃ c ∈ calls, ∃ y, c.va ≤ y ∧ y < c.va + c.size ∧ n = vpn y := by
  simp only [treeCallsOf, bind_ok_run] at h
  obtain ⟨a, t₁, h1, _, t₂, h2, h3⟩ := h
  cases h3
  rcases treeCalls_leaf hcalls h2 hn with h4 | h4
  · exact absurd (newRoot_leaf h1) h4
  · exact h4

end

-- ---------------------------------------------------------------------------
-- Two runs
-- ---------------------------------------------------------------------------

/-- Over pages that hold no entry in use the tables come out the same, whatever
memory held before. -/
theorem stale_pages_unseen (h : Owned L b P) (hcalls : ∀ c ∈ calls, c.Proper)
    (h₁ : ∀ a ∈ framesTaken L calls b, Blank m₁ a) (h₂ : ∀ a ∈ framesTaken L calls b, Blank m₂ a) :
    SameTables L calls (tableRun L calls ⟨m₁, b⟩) (tableRun L calls ⟨m₂, b⟩) := by
  have hf₁ := follows_run (s := ⟨m₁, b⟩) h hcalls h₁
  have hf₂ := follows_run (s := ⟨m₂, b⟩) h hcalls h₂
  rcases Ends.agree hf₁ hf₂ with ⟨e, he₁, he₂⟩ | ⟨_, t, ⟨a, s₁⟩, ⟨_, s₂⟩, he₁, he₂, ht, ⟨rfl, hh₁⟩,
    rfl, hh₂⟩
  · rw [he₁, he₂]
    exact .stop e
  · rw [he₁, he₂]
    refine .done (fun x => ?_) fun x r hr => ?_
    · rw [hh₁.tables.walk_eq, hh₂.tables.walk_eq, hh₁.leaf, hh₂.leaf]
    · rw [hh₁.tables.walk_ok_iff, hh₁.leaf] at hr
      exact treeCallsOf_leaf (Proper.all hcalls) ht (by rw [hr]; exact Option.some_ne_none r)

end

theorem blank_even (a : ℕ) : Blank (fun _ => 2) a := by
  intro k _
  simp only [entry, readPte, readLE]
  decide

/-- Pages full of even bytes. -/
theorem stale_pages_unseen_even : ∃ b, Owned sampleLayout b ∅ ∧
    SameTables sampleLayout [] (tableRun sampleLayout [] ⟨fun _ => 0, b⟩)
    (tableRun sampleLayout [] ⟨fun _ => 2, b⟩) :=
  ⟨_, owned_init sampleLayout zeroed, stale_pages_unseen (owned_init sampleLayout zeroed) (by simp)
    (fun _ _ => blank_zero fun _ _ => rfl) fun a _ => blank_even a⟩

-- ---------------------------------------------------------------------------
-- An old entry
-- ---------------------------------------------------------------------------

abbrev oldMid : ℕ := 0x87000000
abbrev oldLow : ℕ := 0x87001000

abbrev firstPage : ℕ := 0x80300000

/-- Memory is empty but for a table in the first page of the heap, with an
entry for page 0. -/
structure OldTable (m : Mem) (T : Shape) : Prop where
  tables : Tables m firstPage T
  here : ∃ r, leafAt m T (vpn 0) = some r
  other : ∀ c ≠ vpn 0, leafAt m T c = none
  nodes : ∀ n a, T n = some a → a ∈ [firstPage, oldMid, oldLow]
  zero : ∀ x, (∀ a ∈ [firstPage, oldMid, oldLow], ¬ InPage a x) → m x = 0

theorem old_table : ∃ m T, OldTable m T := by
  let next : ℕ → List ℕ → Run (ℕ × List ℕ) := fun _ l =>
    match l with
    | [] => .error .wild
    | a :: l => .ok (a, l)
  have hT :=
    tables_blank (m := fun _ => 0) (show pgSize ∣ firstPage by decide) (blank_zero fun _ _ => rfl)
  have hd : Draws (next pgSize) [oldMid, oldLow] [oldMid, oldLow] [] := .cons rfl (.cons rfl .nil)
  have hpage : ∀ b ∈ [oldMid, oldLow], pgSize ∣ b ∧ b < 2 ^ 52 ∧ b ≠ firstPage := by decide
  have hnew : NewTables (fun _ => 0) (rootOnly firstPage) [oldMid, oldLow] :=
    ⟨by decide, fun b hb => ⟨(hpage b hb).1, (hpage b hb).2.1, blank_zero fun _ _ => rfl,
      fun n hn => (hpage b hb).2.2 (rootOnly_some.mp hn).2⟩⟩
  obtain ⟨m, T, -, hp⟩ :=
      mapPage_ok (s := ⟨fun _ => 0, [oldMid, oldLow]⟩) hT (.inl rfl : KernelPerm 0)
    (show 0x5000 < 2 ^ 64 by decide) (leafAt_rootOnly _ _ (vpn 0)) hd
      (by simp [missing_single, rootOnly]) hnew
  have hnodes : ∀ n a, T n = some a → a ∈ [firstPage, oldMid, oldLow] := fun n a hn => by
    rcases hp.ext.new n a hn with hn | ⟨-, hm⟩
    · exact List.mem_cons.mpr (.inl (rootOnly_some.mp hn).2)
    · exact List.mem_cons_of_mem _ hm
  obtain ⟨p, hhere⟩ := hp.here
  exact ⟨m, T, hp.ext.tables, ⟨_, hhere⟩,
      fun c hc => (hp.other c hc).trans (leafAt_rootOnly _ _ _), hnodes,
    fun x hx => hp.ext.frame x fun n _ a hn => hx a (hnodes n a hn)⟩

theorem kernelRange_page (L : Layout) (hx : kernelStart ≤ x)
    (hlt : x < kernelStart + kernelRange L) :
    vpn x ≠ vpn 0 := by
  have h := kernelRange_lt L
  simp only [vpn, kernelStart, pgSize] at *
  omega

theorem old_table_kept (h : OldTable m T) : ∃ b s, b = buddyInit zeroed ∧
    tableRun sampleLayout [] ⟨m, b⟩ = .ok (firstPage, s) ∧ ∃ r, walk s.mem firstPage 0 = .ok r := by
  obtain ⟨l, heap, hd, hl⟩ := draws_init sampleLayout zeroed (le_refl npage)
  obtain ⟨heap₀, -, -, ha, -, -⟩ := init_pages sampleLayout zeroed
  have hfirst : pgAddr sampleLayout 0 = firstPage := by decide
  rw [hfirst] at ha
  cases hd with
  | nil => rw [npage_eq] at hl; simp at hl
  | @cons _ a heap₁ l _ ha' hd =>
    rw [ha, Except.ok.injEq, Prod.mk.injEq] at ha'
    obtain ⟨rfl, rfl⟩ := ha'
    have hle : missing T (vpns (pagesOf kernelStart kernelStart (kernelRange sampleLayout))) ≤
        513 := by
      refine missing_le_slot _ (i := kernelSlot) fun c hc => ?_
      obtain ⟨v, hv, rfl⟩ := List.mem_map.mp hc
      exact kernelRange_slot sampleLayout hv
    have hsup : Supply sampleLayout heap₀ (npage - 1) := ⟨l, heap, hd, by rw [← hl]; simp⟩
    obtain ⟨l', heap', hd', hl', -⟩ := hsup.take (hle.trans (show 513 ≤ npage - 1 by decide))
    have hg := (owned_init sampleLayout zeroed).grant ha
    obtain ⟨-, hnd, hpage, hstart, hstop, hnew⟩ := hg.owned.draws hd'
    -- the pages that follow are none of the old table's
    have hapart : ∀ b ∈ l', b ∉ [firstPage, oldMid, oldLow] := fun b hb hm => by
      have hend : b + pgSize ≤ 0x84300000 := hstop b hb
      simp only [List.mem_cons, List.not_mem_nil, or_false] at hm
      rcases hm with rfl | rfl | rfl
      · refine hnew _ hb firstPage (.self _) (.inr ?_)
        rw [blockBytes_page]
        exact .self _
      all_goals simp only [oldMid, oldLow, pgSize] at hend; omega
    have hfresh : NewTables m T l' := by
      refine ⟨hnd, fun b hb => ⟨hpage b hb, ?_, blank_zero fun x hx => h.zero x fun a ha hin => ?_,
        fun n hn => ?_⟩⟩
      · have hend : b + pgSize ≤ 0x84300000 := hstop b hb
        omega
      · have hda : pgSize ∣ a := by
          have : ∀ a ∈ [firstPage, oldMid, oldLow], pgSize ∣ a := by decide
          exact this a ha
        refine page_apart (hpage b hb) hda ?_ hx hin
        rintro rfl
        exact hapart _ hb ha
      · exact hapart b hb (h.nodes n b hn)
    have hend := (kernelRange_lt sampleLayout).le
    obtain ⟨m', T', hm, hr⟩ := map_ok (s := ⟨m, heap₀⟩) h.tables (.inl rfl : KernelPerm 0)
      (show pgSize ∣ kernelStart by decide)
      (by decide) (hend.trans (by decide)) (hend.trans (by decide))
      (fun x h1 h2 => h.other _ (kernelRange_page sampleLayout h1 h2)) hd' hl' hfresh
    refine ⟨_, ⟨m', heap'⟩, rfl, ?_, ?_⟩
    · have hk : kPgtableInit (kalloc sampleLayout) sampleLayout ⟨m, buddyInit zeroed⟩ =
          .ok (firstPage, ⟨m', heap'⟩) :=
        kPgtableInit_ok.mpr ⟨show align firstPage = true by decide, heap₀, ha, hm⟩
      rw [tableRun, hk, ok_bind]
      dsimp only
      rw [List.foldlM_nil, pure_bind]
      rfl
    · obtain ⟨r, hr0⟩ := h.here
      refine ⟨r, hr.ext.tables.walk_ok_iff.mpr ((hr.other _ fun hmem => ?_).trans hr0)⟩
      obtain ⟨v, hv, he⟩ := List.mem_map.mp hmem
      obtain ⟨i, hi, rfl⟩ := (mem_kernelRange sampleLayout).mp hv
      exact kernelRange_page sampleLayout (Nat.le_add_right _ _) hi he

/-- Two memories that differ only in the first page that `kalloc` returns. -/
structure SeesOldPage (m₁ m₂ : Mem) (b s : Buddy) : Prop where
  owned : Owned sampleLayout b ∅
  taken : kalloc sampleLayout pgSize b = .ok (firstPage, s)
  same : ∀ x, ¬ InPage firstPage x → m₁ x = m₂ x
  zero : ∀ x, InPage firstPage x → m₂ x = 0
  differ : ¬ SameTables sampleLayout [] (tableRun sampleLayout [] ⟨m₁, b⟩)
    (tableRun sampleLayout [] ⟨m₂, b⟩)

/-- An entry that was left in the page of the kernel's table makes page 0
translate, which no call mapped. -/
theorem old_page_seen : ∃ m₁ m₂ b s, SeesOldPage m₁ m₂ b s := by
  obtain ⟨m, T, h⟩ := old_table
  obtain ⟨s₀, -, -, ha, -, -⟩ := init_pages sampleLayout zeroed
  obtain ⟨b, s, rfl, hs, r, hr⟩ := old_table_kept h
  refine ⟨m, fun x => if firstPage ≤ x ∧ x < firstPage + pgSize then 0 else m x, _, s₀,
      owned_init _ _, ha,
    fun x hx => (if_neg hx).symm, fun x hx => if_pos hx, fun hsame => ?_⟩
  obtain ⟨c, hc, y, h1, h2, h3⟩ := hsame.covered hs 0 r hr
  obtain rfl : c = kernelCall sampleLayout := by simpa using hc
  exact kernelRange_page sampleLayout h1 h2 h3.symm

end SkyOS
