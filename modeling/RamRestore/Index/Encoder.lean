import RamRestore.Index.Decoder

/-! # Writing an index

What an index says, apart from how it says it: of each block its pages in order, and of each
page either that it is all zero or how many bytes of it are stored and where. Where a page is,
is written as the way from the page before it that is stored.
-/

namespace RamRestore.Index

/-- The lowest `n` bytes of a number, highest byte first. -/
def bytesOf : (n value : Nat) → List UInt8
  | 0, _ => []
  | n + 1, value => bytesOf n (value / 256) ++ [UInt8.ofNat value]

def Track.start : Track := ⟨firstPosition, 0⟩

inductive Entry where
  /-- The page is all zero. -/
  | zero
  | stored (size position : Nat)
  deriving DecidableEq, Repr

namespace Entry

def page (block : Nat) : Entry → Page
  | .zero => .zero block
  | .stored size position => ⟨block, size, position⟩

/-- Where the page behind an entry is written from. -/
def track (t : Track) : Entry → Track
  | .zero => t
  | .stored size position => ⟨position, size⟩

end Entry

/--
The way to a position: in compressed snapshots from the end of the page before it, in others
from the beginning of that page, in pages of the block.
-/
def way (compressed : Bool) (ram : RamBlock) (t : Track) (position : Nat) : Int :=
  if compressed then position - t.position - t.previous
  else (position - t.position) / ram.pageSize

/-- The bytes of an entry. The size of a page that is not compressed is given in pages. -/
def Entry.encode (compressed : Bool) (ram : RamBlock) (t : Track) : Entry → List UInt8
  | .zero => Packed.write 0
  | .stored size position =>
    Packed.write (if compressed then size else 1) ++ Delta.write (way compressed ram t position)

def encodeEntries (compressed : Bool) (ram : RamBlock) : Track → List Entry → List UInt8
  | _, [] => []
  | t, e :: es => e.encode compressed ram t ++ encodeEntries compressed ram (e.track t) es

/-- What an index says of a block. The number of its pages is a word of 32 bits. -/
structure Record where
  ram : RamBlock
  entries : List Entry
  length_lt : entries.length < word32Count

namespace Record

def track (t : Track) (r : Record) : Track := r.entries.foldl Entry.track t

def encode (compressed : Bool) (t : Track) (r : Record) : List UInt8 :=
  bytesOf 1 r.ram.name.length ++ r.ram.name ++ bytesOf 4 r.entries.length ++
    encodeEntries compressed r.ram t r.entries

def pages (blocks : List RamBlock) (r : Record) : List Page :=
  r.entries.map (Entry.page (blocks.idxOf r.ram))

end Record

/-- What records say of pages, in order, each entry with its block. -/
def listing (records : List Record) : List (RamBlock × Entry) :=
  records.flatMap fun r => r.entries.map (r.ram, ·)

/-- The run of a block among the pages of all records, from page `first` on. -/
def runOf (b : RamBlock) : (first : Nat) → List Record → Option (Nat × Nat)
  | _, [] => none
  | first, r :: rs =>
    if r.ram = b then some (first, r.entries.length) else runOf b (first + r.entries.length) rs

def placed (records : List Record) (ram : RamBlock) : PlacedBlock :=
  let (first, count) := (runOf ram 0 records).getD (0, 0)
  { ram, first, count }

/-- The index that records stand for. -/
def ofRecords (blocks : List RamBlock) (flags : Flags) (records : List Record) : Index where
  blocks := blocks.map (placed records)
  pages := (records.flatMap (Record.pages blocks)).toArray
  flags := flags

def encodeRecords (compressed : Bool) : Track → List Record → List UInt8
  | _, [] => []
  | t, r :: rs => r.encode compressed t ++ encodeRecords compressed (r.track t) rs

def encode (flags : Flags) (hint : Nat) (records : List Record) : List UInt8 :=
  bytesOf 4 version ++ bytesOf 4 flags.bits ++ bytesOf 4 hint ++
    encodeRecords (flags.contains .compressedPages) .start records

/-- An entry that can be written: its size is one that the page may have, its position is a
signed word behind the place of the index position, and so is the way to it. -/
def Entry.Writable (compressed : Bool) (ram : RamBlock) (t : Track) : Entry → Prop
  | .zero => True
  | .stored size position =>
    (if compressed then 0 < size ∧ size ≤ Lz4.maxBlockLength ram.pageSize
      else size = ram.pageSize ∧ (ram.pageSize : Int) ∣ position - t.position) ∧
    firstPosition ≤ position ∧ position < 0x8000000000000000 ∧
    (way compressed ram t position).natAbs < 0x8000000000000000

instance (compressed : Bool) (ram : RamBlock) (t : Track) (e : Entry) :
    Decidable (e.Writable compressed ram t) :=
  match e with
  | .zero => isTrue trivial
  | .stored _ _ => inferInstanceAs (Decidable (_ ∧ _))

def WritableEntries (compressed : Bool) (ram : RamBlock) : Track → List Entry → Prop
  | _, [] => True
  | t, e :: es => e.Writable compressed ram t ∧ WritableEntries compressed ram (e.track t) es

instance decidableWritableEntries (compressed : Bool) (ram : RamBlock) :
    (t : Track) → (es : List Entry) → Decidable (WritableEntries compressed ram t es)
  | _, [] => isTrue trivial
  | t, e :: es =>
    have := decidableWritableEntries compressed ram (e.track t) es
    inferInstanceAs (Decidable (_ ∧ _))

def WritableRecords (compressed : Bool) : Track → List Record → Prop
  | _, [] => True
  | t, r :: rs =>
    WritableEntries compressed r.ram t r.entries ∧ WritableRecords compressed (r.track t) rs

instance decidableWritableRecords (compressed : Bool) :
    (t : Track) → (rs : List Record) → Decidable (WritableRecords compressed t rs)
  | _, [] => isTrue trivial
  | t, r :: rs =>
    have := decidableWritableRecords compressed (r.track t) rs
    inferInstanceAs (Decidable (_ ∧ _))

end RamRestore.Index
