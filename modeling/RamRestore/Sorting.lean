/-! # Sorting that is not stable

Long lists are sorted by partitioning them around pivots, and the pieces by networks of comparators.
Entries with one key may change places then. Which ones do is decided by the exchanges below; what
remains to be done after them is done by a sort that is stable.
-/

namespace RamRestore.Sorting

variable {α : Type} (less : α → α → Bool)

def lessAt (a : Array α) (i j : Nat) : Bool :=
  match a[i]?, a[j]? with
  | some x, some y => less x y
  | _, _ => false

def compareExchange (a : Array α) (i j : Nat) : Array α :=
  if lessAt less a j i then a.swapIfInBounds i j else a

/-! ### Short pieces -/

def network9 : List (Nat × Nat) :=
  [(0, 3), (1, 7), (2, 5), (4, 8), (0, 7), (2, 4), (3, 8), (5, 6), (0, 2), (1, 3), (4, 5), (7, 8),
    (1, 4), (3, 6), (5, 7), (0, 1), (2, 4), (3, 5), (6, 8), (2, 3), (4, 5), (6, 7), (1, 2), (3, 4),
    (5, 6)]

def network13 : List (Nat × Nat) :=
  [(0, 12), (1, 10), (2, 9), (3, 7), (5, 11), (6, 8), (1, 6), (2, 3), (4, 11), (7, 9), (8, 10),
    (0, 4), (1, 2), (3, 6), (7, 8), (9, 10), (11, 12), (4, 6), (5, 9), (8, 11), (10, 12), (0, 5),
    (3, 8), (4, 7), (6, 11), (9, 10), (0, 1), (2, 5), (6, 9), (7, 8), (10, 11), (1, 3), (2, 4),
    (5, 6), (9, 10), (1, 2), (3, 4), (5, 7), (6, 8), (2, 3), (4, 5), (6, 7), (8, 9), (3, 4), (5, 6)]

/-- Sends the first entries of a region through the greatest network that they fill. -/
def networks (a : Array α) (start length : Nat) : Array α :=
  let network := if 13 ≤ length then network13 else if 9 ≤ length then network9 else []
  network.foldl (fun a (i, j) => compareExchange less a (start + i) (start + j)) a

/-- The longest piece that is not partitioned. -/
def shortPiece : Nat := 32

def arrangeShort (a : Array α) (start length : Nat) : Array α :=
  if length < 18 then networks less a start length
  else
    let half := length / 2
    networks less (networks less a start half) (start + half) (length - half)

/-! ### Pivots -/

def medianOfThree (a : Array α) (i j k : Nat) : Nat :=
  let x := lessAt less a i j
  if x = lessAt less a i k then (if lessAt less a j k = x then j else k) else i

/-- The median of medians of three, taken of stretches that begin at `i`, `j` and `k`. -/
def medianOfStretches (a : Array α) (i j k n : Nat) : Nat :=
  if 64 ≤ n * 8 then
    let m := n / 8
    medianOfThree less a (medianOfStretches a i (i + m * 4) (i + m * 7) m)
      (medianOfStretches a j (j + m * 4) (j + m * 7) m)
      (medianOfStretches a k (k + m * 4) (k + m * 7) m)
  else medianOfThree less a i j k
termination_by n
decreasing_by all_goals omega

def choosePivot (a : Array α) (start length : Nat) : Nat :=
  let n := length / 8
  if length < 64 then medianOfThree less a start (start + n * 4) (start + n * 7)
  else medianOfStretches less a start (start + n * 4) (start + n * 7) n

/-! ### Partitions -/

/-- A partition on its way: what is below `split` is less than the pivot, and the entry at `gap`
is looked at in the end. -/
structure Parting (α : Type) where
  entries : Array α
  gap : Nat
  split : Nat

/-- Moves the entry at `i` to the split, and the one there into the gap. -/
def Parting.step (low : α → Bool) (s : Parting α) (i : Nat) : Parting α where
  entries := (s.entries.swapIfInBounds s.gap s.split).swapIfInBounds s.split i
  gap := i
  split := if s.entries[i]?.any low then s.split + 1 else s.split

def Parting.close (low : α → Bool) (s : Parting α) : Parting α where
  entries := s.entries.swapIfInBounds s.gap s.split
  gap := s.split
  split := if s.entries[s.gap]?.any low then s.split + 1 else s.split

/-- Parts a piece around its pivot, and returns where the pivot comes to stand. -/
def partition (low : α → α → Bool) (a : Array α) (start length pivot : Nat) : Array α × Nat :=
  let a := a.swapIfInBounds start pivot
  match a[start]? with
  | none => (a, start)
  | some p =>
    let begun : Parting α := ⟨a, start + 1, start + 1⟩
    let others := List.range' (start + 2) (length - 2)
    let parted := (others.foldl (Parting.step (low · p)) begun).close (low · p)
    (parted.entries.swapIfInBounds start (parted.split - 1), parted.split - 1)

/-! ### Heaps -/

/-- Lets an entry sink in a heap of the given length. -/
def siftDown (a : Array α) (start length node : Nat) : Array α :=
  let child := 2 * node + 1
  if child < length then
    let child := if child + 1 < length && lessAt less a (start + child) (start + child + 1)
      then child + 1 else child
    if lessAt less a (start + node) (start + child) then
      siftDown (a.swapIfInBounds (start + node) (start + child)) start length child
    else a
  else a
termination_by length - node
decreasing_by split <;> omega

def heapStep (start length : Nat) (a : Array α) (i : Nat) : Array α :=
  if length ≤ i then siftDown less a start length (i - length)
  else siftDown less (a.swapIfInBounds start (start + i)) start i 0

def heapSort (a : Array α) (start length : Nat) : Array α :=
  (List.range (length + length / 2)).reverse.foldl (heapStep less start length) a

/-! ### Long pieces -/

/-- The pivot is no greater than the ancestor, so that no entry of the piece is less. -/
def isLeast (a : Array α) (pivot : Nat) (ancestor : Option α) : Bool :=
  match ancestor, a[pivot]? with
  | some x, some y => !less x y
  | _, _ => false

/-- Partitions a piece until all pieces are short, or sorts it as a heap where the pivots are bad.
All entries of the piece are at least its ancestor, which was the pivot before it. -/
def arrange : (limit : Nat) → Array α → (start length : Nat) → (ancestor : Option α) → Array α
  | 0, a, start, length, _ =>
    if length ≤ shortPiece then arrangeShort less a start length else heapSort less a start length
  | limit + 1, a, start, length, ancestor =>
    if length ≤ shortPiece then arrangeShort less a start length
    else
      let pivot := choosePivot less a start length
      if isLeast less a pivot ancestor then
        let (a, middle) := partition (fun x y => !less y x) a start length pivot
        arrange limit a (middle + 1) (start + length - (middle + 1)) none
      else
        let (a, middle) := partition less a start length pivot
        let a := arrange limit a start (middle - start) ancestor
        arrange limit a (middle + 1) (start + length - (middle + 1)) a[middle]?

/-- The entries as they stand before what is left to be done is done by a stable sort. -/
def rearrange (as : List α) : List α :=
  if as.length ≤ 20 || (as.zip as.tail).all (fun (x, y) => !less y x) then as
  else (arrange less (2 * Nat.log2 as.length) as.toArray 0 as.length none).toList

def byKey (key : α → Nat) (as : List α) : List α :=
  (rearrange (fun x y => key x < key y) as).mergeSort (key · ≤ key ·)

end RamRestore.Sorting
