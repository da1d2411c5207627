import RamRestore.Config
import RamRestore.Guest
import RamRestore.Index
import RamRestore.LoadError
import RamRestore.PageState
import RamRestore.Source.Transfer

/-! # The state of a load

Once the index is read, a load consists of the state of every page, the contents that were
read but not yet placed, two bounded queues between the idle callback and the background
reader, and two latches: the first failure and completion.
-/

namespace RamRestore

/-- A page for the background reader, or the word that there are no more. -/
inductive Request where
  | page (i : Nat)
  | finish
  deriving DecidableEq, Repr

inductive Result where
  | loaded (i : Nat)
  | failed (cause : LoadError)
  | allLoaded
  deriving DecidableEq, Repr

inductive Reader where
  | waiting
  | reading (i : Nat) (t : Transfer)
  | offering (r : Result)
  | ended

/-- The idle callback's way through the pages. -/
structure Cursor where
  /-- The first page that was not yet looked at. -/
  next : Nat := 0
  /-- The reader was told that there are no more pages. -/
  finished : Bool := false
  deriving DecidableEq, Repr

/-- The state of a page, and its contents while they wait to be placed. -/
structure Slot where
  state : PageState := .empty
  parked : Option Bytes := none

/-- A page that was handed to the guest: where it was to go, and whether it was accepted. -/
structure Placement where
  page : Nat
  address : Nat
  accepted : Bool
  deriving DecidableEq, Repr

structure Load (W : Type) where
  index : Index
  source : Source
  guest : W
  /-- The most entries that a queue holds. -/
  capacity : Nat
  slots : Table Slot
  /-- Every read so far, in order. -/
  calls : Array ReadCall := #[]
  /-- Every change of the state of a page so far, in order. -/
  moves : Array (Nat × PageState) := #[]
  /-- The page of every transfer so far, in the order in which they began. -/
  begun : Array Nat := #[]
  /-- Every page handed to the guest so far, in order. -/
  placed : Array Placement := #[]
  failure : Option LoadError := none
  complete : Bool := false
  /-- The idle callback's end of the queues; there is none before and after background work. -/
  cursor : Option Cursor := none
  requests : List Request := []
  results : List Result := []
  reader : Reader := .ended

namespace Load

variable {W : Type}

def ofIndex (index : Index) (source : Source) (guest : W) (capacity : Nat) : Load W :=
  let zeroes := (List.range index.pages.size).filter fun i => (index.page i).isZero
  { index, source, guest, capacity, slots := (Table.const {}).setAll zeroes { state := .filled } }

def state (l : Load W) (i : Nat) : PageState := (l.slots.get i).state

def parked (l : Load W) (i : Nat) : Option Bytes := (l.slots.get i).parked

/-- Puts page `i` into a state in which no contents are parked. -/
def setState (l : Load W) (i : Nat) (s : PageState) : Load W :=
  { l with slots := l.slots.set i { state := s }, moves := l.moves.push (i, s) }

/-- Parks the contents of page `i`, which has been read. -/
def park (l : Load W) (i : Nat) (contents : Bytes) : Load W :=
  { l with
    slots := l.slots.set i { state := .read, parked := some contents }
    moves := l.moves.push (i, .read) }

/-- Records a failure, unless there is an earlier one. -/
def record (l : Load W) (cause : LoadError) : Load W :=
  { l with failure := some (l.failure.getD cause) }

def recordAny (l : Load W) : Option LoadError → Load W
  | none => l
  | some cause => l.record cause

/-- Drops the idle callback's end of the queues, and the results in it. -/
def closeQueues (l : Load W) : Load W := { l with cursor := none, results := [] }

def markComplete (l : Load W) : Load W := { l with complete := true }

def interrupt (l : Load W) : Load W := l.closeQueues.markComplete

def transfer (l : Load W) (i : Nat) : Transfer :=
  { position := (l.index.page i).position, size := (l.index.page i).size }

/-- What it means for page `i` that its transfer stopped with these bytes. -/
def readFailure? (l : Load W) (i : Nat) (got : Bytes) : Transfer.Stop → Option LoadError
  | .full => none
  | .short =>
    some (.shortRead (l.index.address i) (l.index.page i).position got.size (l.index.page i).size)
  | .failed cause => some (.io cause)

/-- The contents of page `i`, given all of its bytes on disk. -/
def decode (l : Load W) (i : Nat) (stored : Bytes) : Except LoadError Bytes :=
  if l.index.compressed then
    match unpack (l.index.pageSize i) stored.toList with
    | .ok page => .ok page
    | .error cause => .error (.unpack (l.index.address i) cause)
  else .ok stored

def contents (l : Load W) (i : Nat) (got : Bytes) (stop : Transfer.Stop) :
    Except LoadError Bytes :=
  match l.readFailure? i got stop with
  | some cause => .error cause
  | none => l.decode i got

def note (l : Load W) (calls : List ReadCall) (source : Source) : Load W :=
  { l with calls := l.calls ++ calls, source }

theorem note_nil (l : Load W) : l.note [] l.source = l := by
  simp [note]

theorem note_note (l : Load W) (cs ds : List ReadCall) (s s' : Source) :
    (l.note cs s).note ds s' = l.note (cs ++ ds) s' := by
  have h : (l.calls ++ cs) ++ ds = l.calls ++ (cs ++ ds) := by
    apply Array.toList_inj.1
    simp
  simp only [note, h]

def beginTransfer (l : Load W) (i : Nat) : Transfer × Load W :=
  (l.transfer i, { l with begun := l.begun.push i })

def fetch (l : Load W) (i : Nat) : Bytes × Transfer.Stop × Load W :=
  let (t, l) := l.beginTransfer i
  let o := t.run l.source
  (o.got, o.stop, l.note o.calls o.source)

/-- Notes that page `i` was handed to the guest, and what became of the guest. -/
def handOver (l : Load W) (i : Nat) (accepted : Bool) (guest : W) : Load W :=
  { l with guest, placed := l.placed.push ⟨i, l.index.address i, accepted⟩ }

theorem state_ofIndex (index : Index) (source : Source) (guest : W) (capacity i : Nat) :
    (ofIndex index source guest capacity).state i =
      if i < index.pages.size ∧ (index.page i).isZero then .filled else .empty := by
  simp only [ofIndex, state, Table.get_setAll, List.mem_filter, List.mem_range]
  split <;> simp

theorem parked_ofIndex (index : Index) (source : Source) (guest : W) (capacity i : Nat) :
    (ofIndex index source guest capacity).parked i = none := by
  simp only [ofIndex, parked, Table.get_setAll]
  split <;> simp

theorem state_setState (l : Load W) (i j : Nat) (s : PageState) :
    (l.setState i s).state j = if i = j then s else l.state j := by
  simp only [setState, state, Table.get_set]
  split <;> rfl

theorem parked_setState (l : Load W) (i j : Nat) (s : PageState) :
    (l.setState i s).parked j = if i = j then none else l.parked j := by
  simp only [setState, parked, Table.get_set]
  split <;> rfl

theorem state_park (l : Load W) (i j : Nat) (contents : Bytes) :
    (l.park i contents).state j = if i = j then .read else l.state j := by
  simp only [park, state, Table.get_set]
  split <;> rfl

theorem parked_park (l : Load W) (i j : Nat) (contents : Bytes) :
    (l.park i contents).parked j = if i = j then some contents else l.parked j := by
  simp only [park, parked, Table.get_set]
  split <;> rfl

theorem contents_congr {V : Type} {l : Load W} {m : Load V} (h : m.index = l.index) :
    m.contents = l.contents := by
  funext i got stop
  cases stop <;> simp only [contents, readFailure?, decode, h]

theorem transfer_congr {V : Type} {l : Load W} {m : Load V} (h : m.index = l.index) :
    m.transfer = l.transfer := by
  simp only [funext_iff, transfer, h, implies_true]

variable [Guest W]

/-- Places the contents of page `i`. The caller has put it into `filling`. -/
def place (l : Load W) (i : Nat) (contents : Bytes) : Option LoadError × Load W :=
  match Guest.place l.guest (l.index.address i) contents with
  | (none, guest) => (none, (l.handOver i true guest).setState i .filled)
  | (some cause, guest) =>
    (some (.fill (l.index.address i) cause), (l.handOver i false guest).setState i .error)

def fill (l : Load W) (i : Nat) (contents : Bytes) : Option LoadError × Load W :=
  (l.setState i .filling).place i contents

/--
Places a page that somebody else read. A page that is settled already is left alone, and
is a failure of this call as well if it failed before.
-/
def placeParked (l : Load W) (i : Nat) : Option LoadError × Load W :=
  match l.state i with
  | .read =>
    match l.parked i with
    | some contents => l.fill i contents
    | none => (some (.pageFailed (l.index.address i)), l.setState i .error)
  | .filled => (none, l)
  | _ => (some (.pageFailed (l.index.address i)), l)

end Load
end RamRestore
