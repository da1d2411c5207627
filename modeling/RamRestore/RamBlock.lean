import RamRestore.Text.Utf8
import RamRestore.Word

/-! # RAM blocks

A RAM block is a region of guest memory with a name, cut into pages of one size. Some
descriptions of a block make no sense and are refused before anything is loaded.
-/

namespace RamRestore

structure RamBlock where
  id : String
  /-- The host address of the first byte; zero is no address. -/
  start : Nat
  size : Nat
  pageSize : Nat
  deriving DecidableEq, Repr

inductive BlockFault where
  | longId
  | pageSize
  | nullStart
  | tooMany
  | repeatedId
  deriving DecidableEq, Repr

def BlockFault.message : BlockFault → String
  | .longId => "id is longer than 255 bytes"
  | .pageSize => "page size is not a power of two"
  | .nullStart => "host pointer is null"
  | .tooMany => "too many RAM blocks"
  | .repeatedId => "id is already registered"

/-- A power of two that is a word of 32 bits. -/
def isPageSize (n : Nat) : Bool := (List.range 32).any (Nat.pow 2 · == n)

namespace RamBlock

/-- The name as it is written in a snapshot. -/
def name (b : RamBlock) : List UInt8 := Text.encode b.id

/-- The first thing wrong with the description of a block. -/
def fault? (b : RamBlock) : Option BlockFault :=
  if 255 < b.name.length then some .longId
  else if !isPageSize b.pageSize then some .pageSize
  else if b.start = 0 then some .nullStart
  else none

def contains (b : RamBlock) (a : Nat) : Bool := b.start ≤ a && a - b.start < b.size

/-- The address of page `k`; addresses are words of 64 bits. -/
def pageAddress (b : RamBlock) (k : Nat) : Nat := (b.start + k * b.pageSize) % word64Count

/-- Where the page starts that an offset lies in: the bits below the page size are cleared. -/
def pageStart (b : RamBlock) (offset : Nat) : Nat := offset &&& (word64Count - b.pageSize)

def wholePages (b : RamBlock) : Nat := b.size / b.pageSize

end RamBlock

def RamBlock.refusal? (registered : List RamBlock) (b : RamBlock) : Option BlockFault :=
  match b.fault? with
  | some fault => some fault
  | none =>
    if 65535 < registered.length then some .tooMany
    else if registered.any (·.id == b.id) then some .repeatedId
    else none

end RamRestore
