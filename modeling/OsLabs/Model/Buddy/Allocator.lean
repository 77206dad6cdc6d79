import Mathlib.Data.Nat.Log
import OsLabs.ToMathlib.CStrings
import OsLabs.ToMathlib.LinkedRing

/-! # The buddy allocator

`buddy.c` keeps one circular list of free blocks for each order in `free_area` and one record for
each page in `g_pages`; the records of pages that no longer head a block are stale. A pointer into
`g_memory` is its offset from `g_memory`, a page pointer is its index in `g_pages`, and a NULL
result is `none`. The outer `Option` of an operation is undefined behaviour or a loop without end.

`g_pages` is total: entry 256 is the memory right past the array, which freeing the whole-memory
block reads. `lookups` records every index computed through `ADDR_TO_PAGE(BUDDY_ADDR(..))`; the code
never reads it.
-/

namespace OsLabs.Buddy

open LinkedRing

def minOrder : ℕ := 12

def maxOrder : ℕ := 20

def pageSize : ℕ := 1 <<< minOrder

/-- The number of entries of `g_pages`. -/
def nPages : ℕ := (1 <<< maxOrder) / pageSize

def pageToAddr (pageIdx : ℕ) : ℕ := pageIdx * pageSize

def addrToPage (addr : ℕ) : ℕ := addr / pageSize

def buddyAddr (addr o : ℕ) : ℕ := addr ^^^ (1 <<< o)

/-- The `list_head` structures: the heads in `free_area` and the `list` fields of the pages. -/
inductive Node where
  | freeArea (order : ℕ)
  | page (index : ℕ)
  | poison
deriving DecidableEq, Repr

/-- `page_t` without its `list` field. -/
structure PageT where
  index : ℕ
  isFree : Bool
  blockSize : ℕ
deriving DecidableEq, Repr

/-- The globals of `buddy.c`. -/
structure Memory where
  links : Links Node
  gPages : ℕ → PageT
  lookups : List ℕ

/-! ## `list.h` -/

def initListHead (l : Links Node) (ptr : Node) : Links Node := (l.setNext ptr ptr).setPrev ptr ptr

def listAdd (l : Links Node) (new head : Node) : Links Node := l.insertBetween new head (l.next head)

def listAddTail (l : Links Node) (new head : Node) : Links Node :=
  l.insertBetween new (l.prev head) head

def listDel (l : Links Node) (entry : Node) : Links Node :=
  ((l.bridge (l.prev entry) (l.next entry)).setNext entry .poison).setPrev entry .poison

def listEmpty (l : Links Node) (head : Node) : Bool := l.next head = head

/-- The page a `list` field belongs to; a list head or the poison belongs to none. -/
def listEntry : Node → Option ℕ
  | .page index => some index
  | _ => none

/-! ## Writes to the globals -/

namespace Memory

def setLinks (s : Memory) (links : Links Node) : Memory := { s with links }

def setPage (s : Memory) (i : ℕ) (page : PageT) : Memory :=
  { s with gPages := Function.update s.gPages i page }

def setIsFree (s : Memory) (i : ℕ) (isFree : Bool) : Memory :=
  s.setPage i { s.gPages i with isFree }

def setBlockSize (s : Memory) (i blockSize : ℕ) : Memory :=
  s.setPage i { s.gPages i with blockSize }

/-- Note an index computed through `ADDR_TO_PAGE(BUDDY_ADDR(..))`. -/
def lookup (s : Memory) (i : ℕ) : Memory := { s with lookups := i :: s.lookups }

/-- The page indices on one free list, from its head. -/
def freeList (s : Memory) (order : ℕ) : List ℕ :=
  (s.links.walk (.freeArea order) nPages (s.links.next (.freeArea order))).filterMap listEntry

end Memory

/-! ## `buddy.c` -/

/-- `buddy_split`: the first free block of an order becomes two free blocks of one less order. -/
def buddySplit (s : Memory) (order : ℕ) : Option Memory :=
  (listEntry (s.links.next (.freeArea order))).map fun freePage =>
    let s := s.setLinks (listDel s.links (s.links.next (.freeArea order)))
    let buddyPage := addrToPage (buddyAddr (pageToAddr (s.gPages freePage).index) (order - 1))
    let s := s.lookup buddyPage
    let s := s.setBlockSize freePage (order - 1)
    let s := s.setBlockSize buddyPage (order - 1)
    let s := s.setLinks (listAdd s.links (.page buddyPage) (.freeArea (order - 1)))
    s.setLinks (listAdd s.links (.page freePage) (.freeArea (order - 1)))

/-- `buddy_combine`; the first argument bounds the depth of the recursion. -/
def buddyCombine : ℕ → Memory → ℕ → ℕ → Option (Memory × ℕ)
  | 0, _, _, _ => none
  | depth + 1, s, thePage, buddyPage =>
    if !(s.gPages buddyPage).isFree then some (s, thePage)
    else if (s.gPages buddyPage).blockSize ≠ (s.gPages thePage).blockSize then some (s, thePage)
    else
      let s := s.setLinks (listDel s.links (.page buddyPage))
      let thePage := if (s.gPages buddyPage).index < (s.gPages thePage).index then buddyPage else thePage
      let s := s.setBlockSize thePage ((s.gPages thePage).blockSize + 1)
      if (s.gPages thePage).blockSize = maxOrder then some (s, thePage)
      else
        let buddyPage := addrToPage
          (buddyAddr (pageToAddr (s.gPages thePage).index) (s.gPages thePage).blockSize)
        buddyCombine depth (s.lookup buddyPage) thePage buddyPage

/-- `buddy_init`, started on whatever the globals and the memory behind `g_pages` held before. -/
def buddyInit (before : Memory) : Memory :=
  let s := { before with
    gPages := fun i => if i < nPages then ⟨i, true, 0⟩ else before.gPages i
    lookups := [] }
  let s := s.setLinks ((List.range' minOrder (maxOrder + 1 - minOrder)).foldl
    (fun links i => initListHead links (.freeArea i)) s.links)
  let s := s.setBlockSize 0 maxOrder
  s.setLinks (listAdd s.links (.page 0) (.freeArea maxOrder))

/-- `while((1 << needed_block) < size) needed_block++`; the first argument is the number of
shifts an `int` still allows. -/
def orderSearch (size : ℤ) : ℕ → ℕ → Option ℕ
  | 0, _ => none
  | shifts + 1, neededBlock =>
    if ((1 <<< neededBlock : ℕ) : ℤ) < size then orderSearch size shifts (neededBlock + 1)
    else some neededBlock

/-- The search for the smallest non-empty list; the first argument is `MAX_ORDER - o`. -/
def openSearch (s : Memory) : ℕ → ℕ → Option ℕ
  | 0, o => if listEmpty s.links (.freeArea o) then none else some o
  | above + 1, o => if listEmpty s.links (.freeArea o) then openSearch s above (o + 1) else some o

/-- `while(o > needed_block)`; the first argument is `o - needed_block`. -/
def splitDown : ℕ → Memory → ℕ → Option (Memory × ℕ)
  | 0, s, o => some (s, o)
  | excess + 1, s, o => (buddySplit s o).bind fun s => splitDown excess s (o - 1)

/-- `buddy_alloc`. -/
def buddyAlloc (s : Memory) (size : ℤ) : Option (Memory × Option ℕ) := do
  let neededBlock ← orderSearch size (31 - minOrder) minOrder
  if neededBlock > maxOrder then return (s, none)
  match openSearch s (maxOrder - neededBlock) neededBlock with
  | none => return (s, none)
  | some o =>
    let (s, o) ← splitDown (o - neededBlock) s o
    let freePage ← listEntry (s.links.next (.freeArea o))
    let s := s.setLinks (listDel s.links (s.links.next (.freeArea o)))
    let s := s.setIsFree freePage false
    return (s, some (pageToAddr (s.gPages freePage).index))

/-- The loop of `buddy_free` over the free list: the first entry with a greater index, or the
list head; the first argument bounds the iterations. -/
def insertLoc (s : Memory) (resIndex : ℕ) (freeHead : Node) : ℕ → Node → Option Node
  | 0, _ => none
  | fuel + 1, pos =>
    if pos = freeHead then some freeHead
    else (listEntry pos).bind fun testPage =>
      if resIndex < (s.gPages testPage).index then some pos
      else insertLoc s resIndex freeHead fuel (s.links.next pos)

/-- `buddy_free`. -/
def buddyFree (s : Memory) (addr : ℕ) : Option Memory := do
  let pageToFree := addrToPage addr
  let s := s.setIsFree pageToFree true
  let buddyPage := addrToPage (buddyAddr addr (s.gPages pageToFree).blockSize)
  let s := s.lookup buddyPage
  let (s, resPage) ← buddyCombine (maxOrder + 1) s pageToFree buddyPage
  let freeHead := Node.freeArea (s.gPages resPage).blockSize
  let loc ← insertLoc s (s.gPages resPage).index freeHead (nPages + 1) (s.links.next freeHead)
  return s.setLinks (listAddTail s.links (.page resPage) loc)

/-! ## Runs -/

/-- A block that `buddy_alloc` returned for a request of `size` bytes. -/
structure Live where
  addr : ℕ
  size : ℤ
deriving DecidableEq, Repr

/-- The order of the block that serves a request: the least `k ≥ 12` with `2 ^ k ≥ size`. -/
def orderFor (size : ℤ) : ℕ := max minOrder (Nat.clog 2 size.toNat)

/-- Runs of `buddy_init`, `buddy_alloc` and `buddy_free` of live blocks, with the live blocks. Only
blocks that satisfy `freeable` are freed. -/
inductive Run (before : Memory) (freeable : Live → Prop) : Memory → List Live → Prop
  | init : Run before freeable (buddyInit before) []
  | alloc {s s' : Memory} {live : List Live} {size : ℤ} {addr : ℕ} (run : Run before freeable s live)
      (success : buddyAlloc s size = some (s', some addr)) :
      Run before freeable s' (⟨addr, size⟩ :: live)
  | outOfMemory {s s' : Memory} {live : List Live} {size : ℤ} (run : Run before freeable s live)
      (failure : buddyAlloc s size = some (s', none)) : Run before freeable s' live
  | free {s s' : Memory} {live : List Live} {block : Live} (run : Run before freeable s live)
      (member : block ∈ live) (allowed : freeable block)
      (success : buddyFree s block.addr = some s') : Run before freeable s' (live.erase block)

/-- Every sequence of calls that frees live blocks only. -/
abbrev AnyRun (before : Memory) : Memory → List Live → Prop := Run before fun _ => True

/-- The same where the read behind `g_pages` finds no free page: freeing the whole memory needs that. -/
abbrev DefinedRun (before : Memory) : Memory → List Live → Prop :=
  Run before fun l => orderFor l.size = maxOrder → (before.gPages nPages).isFree = false

/-! ## `buddy_dump`

It counts the entries of every free list. The simulator prints its line after every command that succeeds.
-/

section

open CStrings

/-- The counts of the orders, with the size of their blocks in KiB. -/
def dumpCounts (s : Memory) : List (ℕ × ℕ) :=
  (List.range' minOrder (maxOrder + 1 - minOrder)).map fun o => ((s.freeList o).length, 2 ^ o / 1024)

/-- `%d:%dK `. -/
def dumpEntry (entry : ℕ × ℕ) : List Char := decimal entry.1 ++ ':' :: (decimal entry.2 ++ ['K', ' '])

/-- The line that `buddy_dump` prints. -/
def buddyDump (s : Memory) : List Char := (dumpCounts s).flatMap dumpEntry ++ ['\n']

end

end OsLabs.Buddy
