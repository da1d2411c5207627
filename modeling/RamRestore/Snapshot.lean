import RamRestore.Index.Encoder
import RamRestore.Unpack

/-! # Writing a snapshot

What is saved of memory, and the file that keeps it. The file begins with the position of the
index; the index and the bytes of the pages stand wherever there is room for them.
-/

namespace RamRestore

inductive SavedPage where
  /-- The page is all zero. -/
  | zero
  /-- What the page holds, and the bytes that the file has for it at a position. -/
  | stored (contents : Bytes) (payload : List UInt8) (position : Nat)

namespace SavedPage

def entry : SavedPage → Index.Entry
  | .zero => .zero
  | .stored _ payload position => .stored payload.length position

def byte : SavedPage → Nat → UInt8
  | .zero, _ => 0
  | .stored contents _ _, k => contents.getD k 0

/-- What the file has for a page, and where. -/
def chunk? : SavedPage → Option (Nat × List UInt8)
  | .zero => none
  | .stored _ payload position => some (position, payload)

/-- The bytes that the file has for a page of a block stand for what the page holds. -/
def Sound (compressed : Bool) (ram : RamBlock) : SavedPage → Prop
  | .zero => True
  | .stored contents payload _ =>
    if compressed then (unpack ram.pageSize payload).toOption = some contents
    else contents = payload.toArray

instance (compressed : Bool) (ram : RamBlock) (p : SavedPage) :
    Decidable (p.Sound compressed ram) :=
  match p with
  | .zero => isTrue trivial
  | .stored contents payload _ =>
    inferInstanceAs (Decidable (if compressed then
      (unpack ram.pageSize payload).toOption = some contents else contents = payload.toArray))

end SavedPage

/-- The pages of a block as they are saved. -/
structure SavedBlock where
  ram : RamBlock
  pages : List SavedPage
  length_lt : pages.length < word32Count

def SavedBlock.record (b : SavedBlock) : Index.Record where
  ram := b.ram
  entries := b.pages.map SavedPage.entry
  length_lt := by
    rw [List.length_map]
    exact b.length_lt

structure Snapshot where
  flags : Flags
  /-- The number of pages that the index announces. -/
  hint : Nat
  /-- Where the index stands. -/
  position : Nat
  blocks : List SavedBlock

/-- The file with bytes written to a position; it keeps its length. -/
def overlay (file : Bytes) (position : Nat) (bytes : List UInt8) : Bytes :=
  Array.ofFn fun i : Fin file.size => (bytes[i.val - position]?).elim file[i]
    fun b => if position ≤ i then b else file[i]

def overlayAll (file : Bytes) (chunks : List (Nat × List UInt8)) : Bytes :=
  chunks.foldl (fun file c => overlay file c.1 c.2) file

namespace Snapshot

def compressed (s : Snapshot) : Bool := s.flags.contains .compressedPages

def records (s : Snapshot) : List Index.Record := s.blocks.map SavedBlock.record

def index (s : Snapshot) : List UInt8 := Index.encode s.flags s.hint s.records

/-- All that is written to the file: the position of the index, the index and the pages. -/
def chunks (s : Snapshot) : List (Nat × List UInt8) :=
  (0, Index.bytesOf 8 s.position) :: (s.position, s.index) ::
    s.blocks.flatMap fun b => b.pages.filterMap SavedPage.chunk?

/-- The file that keeps a snapshot, written over what was there before. -/
def file (s : Snapshot) (before : Bytes) : Bytes := overlayAll before s.chunks

/-- A snapshot that a file of the given length can keep: its numbers fit, its pages fit into their
blocks, the bytes of a page stand for what it holds, and nothing meets anything else. -/
structure Valid (s : Snapshot) (length : Nat) : Prop where
  flags_lt : s.flags.bits < word32Count
  hint_lt : s.hint < word32Count
  position_lt : s.position < word64Count
  fits : ∀ b ∈ s.blocks, b.pages.length * b.ram.pageSize ≤ b.ram.size
  writable : Index.WritableRecords s.compressed .start s.records
  sound : ∀ b ∈ s.blocks, ∀ p ∈ b.pages, p.Sound s.compressed b.ram
  apart : s.chunks.Pairwise fun c d => c.1 + c.2.length ≤ d.1 ∨ d.1 + d.2.length ≤ c.1
  within : ∀ c ∈ s.chunks, c.1 + c.2.length ≤ length

end Snapshot
end RamRestore
