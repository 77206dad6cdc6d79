import OsLabs.Model.Buddy.Allocator
import OsLabs.ToMathlib.DeterministicRun

/-! # The searches of `buddy_alloc`

The two loops in front of the splits, one evaluation of a loop condition at a time and with nothing
known about their bounds. A search fails when it shifts the 1 out of an `int` or reads a list that
`buddy_init` has not set up.
-/

namespace OsLabs.Buddy

inductive SearchFault where
  | shift (neededBlock : ℕ)
  | freeArea (o : ℕ)
deriving DecidableEq, Repr

/-- Where `buddy_alloc` is: in front of the condition of one of the loops, or behind both. -/
inductive Search where
  | order (neededBlock : ℕ)
  | list (neededBlock o : ℕ)
  | found (neededBlock o : ℕ)
  | null
deriving DecidableEq, Repr

namespace Search

/-- The searches are over. -/
def Final : Search → Prop
  | .found _ _ | .null => True
  | _ => False

/-- Behind the loop for the order. -/
def checked (neededBlock : ℕ) : Search :=
  if neededBlock > maxOrder then .null else .list neededBlock neededBlock

def step (s : Memory) (size : ℤ) : Search → Except SearchFault Search
  | .order neededBlock =>
    if neededBlock ≥ 31 then .error (.shift neededBlock)
    else if ((1 <<< neededBlock : ℕ) : ℤ) < size then .ok (.order (neededBlock + 1))
    else .ok (checked neededBlock)
  | .list neededBlock o =>
    if o < minOrder ∨ maxOrder < o then .error (.freeArea o)
    else if listEmpty s.links (.freeArea o) then
      if o ≥ maxOrder then .ok .null else .ok (.list neededBlock (o + 1))
    else .ok (.found neededBlock o)
  | final => .ok final

end Search

/-- The rest of `buddy_alloc`. -/
def splitAndTake (s : Memory) : Search → Option (Memory × Option ℕ)
  | .found neededBlock o => do
    let (s, o) ← splitDown (o - neededBlock) s o
    let freePage ← listEntry (s.links.next (.freeArea o))
    let s := s.setLinks (listDel s.links (s.links.next (.freeArea o)))
    let s := s.setIsFree freePage false
    return (s, some (pageToAddr (s.gPages freePage).index))
  | .null => some (s, none)
  | _ => none

end OsLabs.Buddy
