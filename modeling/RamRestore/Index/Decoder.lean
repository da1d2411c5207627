import RamRestore.Delta
import RamRestore.Index
import RamRestore.LoadError
import RamRestore.Source
import RamRestore.Word

/-! # Reading an index

An index is a header and one record for each block, in any order. A page record gives a
size, and for a page that is not all zero the way from the page before it to its position.
Positions are signed words of 64 bits; a sum or product beyond them is an error.
-/

namespace RamRestore.Index

def version : Nat := 1

/-- Where page data starts, behind the position of the index. -/
def firstPosition : Int := 8

/-- The number that bytes write, highest byte first. -/
def bigEndian (bytes : List UInt8) : Nat :=
  bytes.foldl (fun n b => 256 * n + b.toNat) 0

def word? (x : Int) : Option Int :=
  if -0x8000000000000000 ≤ x ∧ x < 0x8000000000000000 then some x else none

/-- The way through an index: what is left of it, and the zero pages met so far. -/
structure Scan where
  rest : List UInt8
  /-- The error of asking for more than is left. -/
  ending : IoError
  /-- More was asked for than was left. -/
  exhausted : Bool := false
  /-- Address and length of each page that is all zero, last one first. -/
  cleared : List (Nat × Nat) := []

abbrev Decoder := EStateM LoadError Scan

namespace Decoder

def ended {α : Type} : Decoder α := fun s =>
  .error (.io s.ending) { s with rest := [], exhausted := true }

def corrupt {α : Type} (cause : Corruption) : Decoder α := throw (.invalidIndex cause)

def take (n : Nat) : Decoder (List UInt8) := fun s =>
  let bytes := s.rest.take n
  if bytes.length = n then .ok bytes { s with rest := s.rest.drop n } else ended s

def word32 : Decoder Nat := return bigEndian (← take 4)

def packed : Decoder Nat := fun s =>
  match Packed.read s.rest with
  | (.ok n, rest) => .ok n { s with rest }
  | (.error .ended, _) => ended s
  | (.error .tooLong, rest) => .error (.io .numberTooLong) { s with rest }

def delta : Decoder Int := return Delta.decode (← packed)

/-- Notes the memory of a page that is all zero. -/
def clear (address length : Nat) : Decoder Unit := fun s =>
  .ok () { s with cleared := (address, length) :: s.cleared }

end Decoder

open Decoder

/-- The position and the size on disk of the last page that is not all zero. -/
structure Track where
  position : Int
  previous : Nat

/-- The size on disk that a record gives, and the distance to the page before it. -/
def distance (compressed : Bool) (ram : RamBlock) (track : Track) (size : Nat) (delta : Int) :
    Except Corruption (Nat × Int) :=
  if compressed then
    if Lz4.maxBlockLength ram.pageSize < size then .error (.blockTooLong size ram.pageSize)
    else match word? (delta + track.previous) with
      | none => .error .positionOverflow
      | some delta => .ok (size, delta)
  else if size ≠ 1 then .error (.pagesOnDisk size)
  else match word? (delta * ram.pageSize) with
    | none => .error .positionOverflow
    | some delta => .ok (ram.pageSize, delta)

/-- The page that a record of the given size and delta describes. -/
def place (compressed : Bool) (block : Nat) (ram : RamBlock) (track : Track) (size : Nat)
    (delta : Int) : Except Corruption Page := do
  let (size, delta) ← distance compressed ram track size delta
  if word32Count ≤ size then throw (.sizeTooLarge size)
  match word? (track.position + delta) with
  | none => throw .positionOutOfRange
  | some position =>
    if position < firstPosition then throw .positionOutOfRange
    pure ⟨block, size, position.toNat⟩

/-- Reads the record of page `k` of a block. -/
def pageRecord (compressed : Bool) (block : Nat) (ram : RamBlock) (k : Nat) (track : Track) :
    Decoder (Page × Track) := do
  let size ← packed
  if size = 0 then
    clear (ram.pageAddress k) ram.pageSize
    return (.zero block, track)
  let delta ← delta
  match place compressed block ram track size delta with
  | .error cause => corrupt cause
  | .ok page => return (page, ⟨page.position, page.size⟩)

def pageRecords (compressed : Bool) (block : Nat) (ram : RamBlock) :
    (n k : Nat) → Track → Array Page → Decoder (Array Page × Track)
  | 0, _, track, pages => return (pages, track)
  | n + 1, k, track, pages => do
    let (page, track) ← pageRecord compressed block ram k track
    pageRecords compressed block ram n (k + 1) track (pages.push page)

structure Progress where
  blocks : List (RamBlock × Option (Nat × Nat))
  pages : Array Page
  track : Track

def blockRecord (compressed : Bool) (p : Progress) : Decoder Progress := do
  let length ← take 1
  let name ← take (bigEndian length)
  match p.blocks.findIdx? (·.1.name == name) with
  | none => throw (.unknownBlock (Text.decodeLossy name))
  | some block =>
    match p.blocks[block]? with
    | none => throw (.unknownBlock (Text.decodeLossy name))
    | some (ram, run) =>
      if run.isSome then corrupt (.repeatedBlock ram.id)
      let count ← word32
      if ram.size < count * ram.pageSize then corrupt (.tooManyPages ram.id count ram.size)
      let (pages, track) ← pageRecords compressed block ram count 0 p.track p.pages
      return { blocks := p.blocks.set block (ram, some (p.pages.size, count)), pages, track }

def blockRecords (compressed : Bool) : (n : Nat) → Progress → Decoder Progress
  | 0, p => return p
  | n + 1, p => do blockRecords compressed n (← blockRecord compressed p)

/-- Reads an index of the given blocks. -/
def index (blocks : List RamBlock) : Decoder Index := do
  let found ← word32
  if found ≠ version then throw (.formatVersion found)
  let flags : Flags := ⟨← word32⟩
  let _pageCountHint ← word32
  let start : Progress := ⟨blocks.map (·, none), #[], ⟨firstPosition, 0⟩⟩
  let p ← blockRecords (flags.contains .compressedPages) blocks.length start
  let placed := p.blocks.map fun (ram, run) =>
    let (first, count) := run.getD (0, 0)
    ({ ram, first, count } : PlacedBlock)
  return { blocks := placed, pages := p.pages, flags }

/-- What reading an index gives, also when it fails. -/
structure Reading where
  outcome : Except LoadError Index
  /-- Address and length of each page that was listed as all zero, in order. -/
  cleared : List (Nat × Nat)
  source : Source

def parse (blocks : List RamBlock) (bytes : List UInt8) (ending : IoError) :
    Except LoadError Index × Scan :=
  match index blocks { rest := bytes, ending } with
  | .ok x s => (.ok x, s)
  | .error e s => (.error e, s)

/-- Reads the index of a snapshot: the first eight bytes say where it is. -/
def read (blocks : List RamBlock) (source : Source) : Reading :=
  let (head, ending) := source.stream 0
  let source := source.afterStream 0 8
  if (head.take 8).length < 8 then ⟨.error (.io ending), [], source⟩
  else
    let position := bigEndian (head.take 8)
    let (bytes, ending) := source.stream position
    let (outcome, scan) := parse blocks bytes ending
    let asked := bytes.length - scan.rest.length + if scan.exhausted then 1 else 0
    ⟨outcome, scan.cleared.reverse, source.afterStream position asked⟩

end RamRestore.Index
