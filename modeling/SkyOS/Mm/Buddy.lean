import SkyOS.Base
import SkyOS.Lib.CircList

/-!
# The buddy allocator

`mm/buddy.c` over `include/list.h`. The state is the array `pages` with the
intrusive links kept apart from the other fields: a link is addressed by the
`list_head` that holds it. `pages` is a total function. Entries from `npage` on
are the memory behind the array, which `get_buddy_page` can reach.
-/

namespace SkyOS

open CircList

-- ---------------------------------------------------------------------------
-- include/list.h
-- ---------------------------------------------------------------------------

section
variable {ν : Type} [DecidableEq ν]

def initListHead (L : Links ν) (list : ν) : Links ν := (L.setNext list list).setPrev list list

def listAdd (L : Links ν) (new head : ν) : Links ν :=
  let L := L.setNext new (L.next head)
  let L := L.setPrev new head
  let L := L.setPrev (L.next head) new
  L.setNext head new

def listAppend (L : Links ν) (new head : ν) : Links ν :=
  let tail := L.prev head
  listAdd L new tail

def listDel (L : Links ν) (node : ν) : Links ν :=
  let L := L.setNext (L.prev node) (L.next node)
  L.setPrev (L.next node) (L.prev node)

theorem initListHead_eq (L : Links ν) (list : ν) : initListHead L list = L.reset list := rfl
theorem listAppend_eq (L : Links ν) (new head : ν) :
    listAppend L new head = L.insertBefore new head := rfl
theorem listDel_eq (L : Links ν) (node : ν) : listDel L node = L.remove node := rfl

end

-- ---------------------------------------------------------------------------
-- State
-- ---------------------------------------------------------------------------

abbrev pgSize : ℕ := 2 ^ 12
abbrev memSize : ℕ := 2 ^ 26
abbrev npage : ℕ := memSize / pgSize

abbrev buddyMaxOrder : ℕ := 14
abbrev buddyMaxOrderNrPages : ℕ := 2 ^ (buddyMaxOrder - 1)
abbrev buddyPageSize : ℕ := 0x1000

abbrev pgHead : ℕ := 1
abbrev pgTail : ℕ := 2

/-- `sizeof(struct Page)`: three `uint`, padding and two pointers. -/
abbrev sizeofPage : ℕ := 32

/-- The address of a `list_head`: that of `pages[i]`, the one heading
`buddy_lists[k]`, or `NULL`. -/
inductive ListPtr
  | null
  | page (i : ℕ)
  | list (k : ℕ)
  deriving DecidableEq

/-- `struct Page` without its `list_link`. -/
@[ext] structure Page where
  order : ℕ
  free : ℕ
  flag : ℕ
  deriving DecidableEq

/-- `pages`, the links of all `list_head`s and `buddy_lists[k].nr`. -/
structure Buddy where
  pages : ℕ → Page
  links : Links ListPtr
  nr : ℕ → ℕ

namespace Buddy

def setPage (s : Buddy) (i : ℕ) (p : Page) : Buddy :=
  { s with pages := Function.update s.pages i p }

def setNr (s : Buddy) (k n : ℕ) : Buddy := { s with nr := Function.update s.nr k n }

def append (s : Buddy) (i k : ℕ) : Buddy :=
  { s with links := listAppend s.links (.page i) (.list k) }

def del (s : Buddy) (l : ListPtr) : Buddy := { s with links := listDel s.links l }

end Buddy

def le2page : ListPtr → Run ℕ
  | .page i => .ok i
  | _ => .error .wild

-- ---------------------------------------------------------------------------
-- Initialisation
-- ---------------------------------------------------------------------------

def clearPages (s : Buddy) : Buddy where
  pages i := if (i + 1) * sizeofPage ≤ npage then ⟨0, 0, 0⟩ else s.pages i
  links :=
    let clear (f : ListPtr → ListPtr) : ListPtr → ListPtr
      | .page i => if (i + 1) * sizeofPage ≤ npage then .null else f (.page i)
      | l => f l
    ⟨clear s.links.prev, clear s.links.next⟩
  nr := s.nr

def initChunk (i : ℕ) (s : Buddy) : Buddy :=
  let s := s.setPage i ⟨buddyMaxOrder - 1, 1, pgHead⟩
  let s := s.append i (buddyMaxOrder - 1)
  s.setNr (buddyMaxOrder - 1) (u64 (s.nr (buddyMaxOrder - 1) + 1))

def buddyPagesInit (s : Buddy) : Buddy :=
  (List.range (npage / buddyMaxOrderNrPages)).foldl
    (fun s j => initChunk (j * buddyMaxOrderNrPages) s) (clearPages s)

def buddyListsInit (s : Buddy) : Buddy :=
  (List.range buddyMaxOrder).foldl
    (fun s i => { s with links := initListHead s.links (.list i) }.setNr i 0) s

def buddyInit (s : Buddy) : Buddy := buddyPagesInit (buddyListsInit s)

-- ---------------------------------------------------------------------------
-- Allocation
-- ---------------------------------------------------------------------------

/-- `while (tmp > 1) { tmp >>= 1; order += 1; }` from `order = 0`. A `uint` is
down to one after 32 rounds. -/
def size2orderLoop : ℕ → ℕ → ℕ
  | 0, _ => 0
  | fuel + 1, tmp => if tmp > 1 then size2orderLoop fuel (tmp >>> 1) + 1 else 0

def size2order (size : ℕ) : ℕ :=
  let nrPage := u32 (size / buddyPageSize)
  let order := size2orderLoop 32 nrPage
  let res := u64OfInt ((1 <<< order) * buddyPageSize)
  if size > res then order + 1 else order

def getBuddyPage (s : Buddy) (p : ℕ) : ℕ := p + (1 <<< (s.pages p).order)

/-- One round of the loop in `buddy_split`, on the list of order `tmp`. -/
def splitChunk (tmp : ℕ) (s : Buddy) : Run (ℕ × Buddy) := do
  let lh := s.links.next (.list tmp)
  let s := s.del lh
  let s := s.setNr tmp (u64Dec (s.nr tmp))
  let p ← le2page lh
  let s := s.setPage p { s.pages p with order := u32Dec (s.pages p).order }
  let buddyP := getBuddyPage s p
  let s := s.append p (tmp - 1)
  let s := s.append buddyP (tmp - 1)
  let s := s.setNr (tmp - 1) (u64 (s.nr (tmp - 1) + 2))
  let s := s.setPage p { s.pages p with flag := pgHead }
  let s := s.setPage buddyP { s.pages buddyP with flag := pgHead }
  let s := s.setPage buddyP { s.pages buddyP with order := (s.pages p).order }
  let s := s.setPage p { s.pages p with free := 1 }
  let s := s.setPage buddyP { s.pages buddyP with free := 1 }
  return (p, s)

def splitLoop (orderSmall : ℕ) : ℕ → Buddy → Run (ℕ × Buddy)
  | 0, _ => .error .wild
  | tmp + 1, s => do
    let (p, s) ← splitChunk (tmp + 1) s
    if tmp > orderSmall then splitLoop orderSmall tmp s else return (p, s)

def buddySplit (orderLarge orderSmall : ℕ) (s : Buddy) : Run (ℕ × Buddy) := do
  if s.nr orderLarge = 0 then
    throw (.panic "[buddy]: split. # of order_large should not be 0.\n")
  if orderLarge = 0 then
    throw (.panic "[buddy]: split. order_large should larger than 0.\n")
  let (p, s) ← splitLoop orderSmall orderLarge s
  if (s.pages p).order ≠ orderSmall then
    throw (.panic "[buddy] unexpected order\n")
  let s := s.setPage p { s.pages p with free := 0 }
  let s := s.del (.page p)
  let s := s.setNr orderSmall (u64Dec (s.nr orderSmall))
  return (p, s)

def allocFail : Stop := .panic "[buddy]: allocate size too large.\n"

/-- The search for a free list that has chunks. The loop tests the bound after
it has read `buddy_lists[order]`, so it can read `buddy_lists[14]`, which is
not there. -/
def findOrder (s : Buddy) : ℕ → ℕ → Run ℕ
  | 0, _ => .error allocFail
  | fuel + 1, order =>
    if order ≥ buddyMaxOrder then .error .wild
    else if s.nr order = 0 then
      if order + 1 > buddyMaxOrder then .error allocFail else findOrder s fuel (order + 1)
    else .ok order

def buddyAllocate (size : ℕ) (s : Buddy) : Run (ℕ × Buddy) := do
  let order := size2order size
  if order ≥ buddyMaxOrder then throw allocFail
  if s.nr order > 0 then
    let lh := s.links.next (.list order)
    let s := s.del lh
    let s := s.setNr order (u64Dec (s.nr order))
    let p ← le2page lh
    let s := s.setPage p { s.pages p with free := 0 }
    return (p, s)
  else
    let large ← findOrder s buddyMaxOrder (order + 1)
    buddySplit large order s

-- ---------------------------------------------------------------------------
-- Release
-- ---------------------------------------------------------------------------

/-- The test of the merge loop on the page that follows a block of `order`. -/
def mergeable (s : Buddy) (order buddyP : ℕ) : Bool :=
  (s.pages buddyP).free == 1 && (s.pages buddyP).flag == pgHead &&
    (s.pages buddyP).order == order

def mergeBuddy (p buddyP : ℕ) (s : Buddy) : Buddy :=
  let s := s.setPage buddyP { s.pages buddyP with flag := pgTail }
  let s := s.del (.page buddyP)
  let s := s.setNr (s.pages buddyP).order (u64Dec (s.nr (s.pages buddyP).order))
  let s := s.del (.page p)
  let s := s.setNr (s.pages p).order (u64Dec (s.nr (s.pages p).order))
  let s := s.setPage p { s.pages p with order := u32 ((s.pages p).order + 1) }
  let s := s.append p (s.pages p).order
  s.setNr (s.pages p).order (u64 (s.nr (s.pages p).order + 1))

/-- `while (p->order < BUDDY_MAX_ORDER - 1)`: every round raises `p->order`, so
there are at most `BUDDY_MAX_ORDER` of them. -/
def mergeLoop (p : ℕ) : ℕ → Buddy → Buddy
  | 0, s => s
  | fuel + 1, s =>
    if (s.pages p).order < buddyMaxOrder - 1 then
      let buddyP := getBuddyPage s p
      if mergeable s (s.pages p).order buddyP then mergeLoop p fuel (mergeBuddy p buddyP s) else s
    else s

def buddyFreePage (p : ℕ) (s : Buddy) : Run Buddy := do
  if (s.pages p).flag = pgTail then
    throw (.panic "[buddy]: free a tail page, this is not allowed.\n")
  if (s.pages p).free = 1 then
    throw (.panic "[buddy]: free a free page.\n")
  let s := s.setPage p { s.pages p with free := 1 }
  let s := s.append p (s.pages p).order
  let s := s.setNr (s.pages p).order (u64 (s.nr (s.pages p).order + 1))
  return mergeLoop p buddyMaxOrder s

end SkyOS
