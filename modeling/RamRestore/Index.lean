import RamRestore.Memory
import RamRestore.RamBlock
import RamRestore.Sorting

/-! # Snapshot indexes

An index lists the pages of all blocks in one sequence, in file order, and gives each
block its run of that sequence. It turns page numbers into addresses and back.
-/

namespace RamRestore

structure Flags where
  bits : Nat
  deriving DecidableEq, Repr

namespace Flags

/-- The flag of snapshots whose pages are LZ4 blocks. -/
def compressedPages : Flags := ⟨1⟩

def contains (f g : Flags) : Bool := f.bits &&& g.bits = g.bits

end Flags

/-- A page as the index lists it; one that takes no room on disk is all zero. -/
structure Page where
  /-- The place of its block in the order of registration. -/
  block : Nat
  size : Nat
  position : Nat
  deriving DecidableEq, Repr, Inhabited

namespace Page

def zero (block : Nat) : Page := ⟨block, 0, 0⟩

def isZero (p : Page) : Bool := p.size = 0

end Page

/-- A block and its run of the page sequence. -/
structure PlacedBlock where
  ram : RamBlock
  first : Nat
  count : Nat
  deriving DecidableEq, Repr

structure Index where
  blocks : List PlacedBlock
  pages : Array Page
  flags : Flags

namespace Index

def compressed (x : Index) : Bool := x.flags.contains .compressedPages

def page (x : Index) (i : Nat) : Page := x.pages.getD i default

def block? (x : Index) (i : Nat) : Option PlacedBlock := x.blocks[(x.page i).block]?

def pageSize (x : Index) (i : Nat) : Nat :=
  match x.block? i with
  | some b => b.ram.pageSize
  | none => 0

def address (x : Index) (i : Nat) : Nat :=
  match x.block? i with
  | some b => b.ram.pageAddress (i - b.first)
  | none => 0

def locate (x : Index) (a : Nat) : Option Nat :=
  match x.blocks.find? (·.ram.contains a) with
  | none => none
  | some b =>
    let k := b.ram.pageStart (a - b.ram.start) / b.ram.pageSize
    if k < b.count then some (b.first + k) else none

/-- The pages that have to be read, in index order. -/
def stored (x : Index) : List Nat :=
  (List.range x.pages.size).filter fun i => !(x.page i).isZero

/-- The pages that have to be read, by their positions in the file. -/
def readOrder (x : Index) : List Nat := Sorting.byKey (fun i => (x.page i).position) x.stored

/-- The memory of the listed pages, joined where a page starts at the end of the one before. -/
def joinRanges (x : Index) : (range : Option (Nat × Nat)) → List Nat → List (Nat × Nat)
  | none, [] => []
  | some range, [] => [range]
  | none, i :: is => x.joinRanges (some (x.address i, x.pageSize i)) is
  | some (start, len), i :: is =>
    if start + len = x.address i then x.joinRanges (some (start, len + x.pageSize i)) is
    else (start, len) :: x.joinRanges (some (x.address i, x.pageSize i)) is

def ranges (x : Index) : List (Nat × Nat) := x.joinRanges none x.stored

end Index
end RamRestore
