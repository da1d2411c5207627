import RamRestore.Load
import RamRestore.Pool

/-! # Eager loads

Every page is read before the start returns, by ascending position in the file. Pages of
an uncompressed snapshot are read straight into memory; compressed ones are unpacked there,
by the reading thread or by the workers of a pool. Reading stops at the first failure.
-/

namespace RamRestore.Load

variable {W : Type} [Guest W]

inductive InPlace where
  | settled
  | packed (data : Bytes)
  | failed (cause : LoadError)

/-- Writes bytes at the start of page `i`, which nobody watches. -/
def write (l : Load W) (i : Nat) (data : Bytes) : Load W :=
  { l with guest := Guest.write l.guest (l.index.address i) data }

/-- Reads a page in place. Contents that are compressed are left to be unpacked. -/
def readInPlace (l : Load W) (i : Nat) : InPlace × Load W :=
  if l.state i ≠ .empty then (.settled, l)
  else
    let (got, stop, l) := (l.setState i .reading).fetch i
    let l := if l.index.compressed then l else l.write i got
    match l.readFailure? i got stop with
    | some cause => (.failed cause, l.setState i .error)
    | none =>
      if l.index.compressed then (.packed got, l.setState i .read)
      else (.settled, l.setState i .filled)

/-- Leaves page `i` with what was written before it turned out that it cannot be unpacked. -/
def spoil (l : Load W) (i : Nat) (data : Bytes) : Load W :=
  { l with guest := Guest.spoil l.guest (l.index.address i) (l.index.pageSize i) data }

/-- Unpacks a page in place. -/
def unpackInPlace (l : Load W) (i : Nat) (data : Bytes) : Option LoadError × Load W :=
  let l := l.setState i .filling
  match unpack (l.index.pageSize i) data.toList with
  | .ok page => (none, (l.write i page).setState i .filled)
  | .error cause =>
    (some (.unpack (l.index.address i) cause), (l.spoil i data).setState i .error)

/-- Records why page `i` failed. The error to return only names the page. -/
def failPage (l : Load W) (i : Nat) (cause : LoadError) : Option LoadError × Load W :=
  (some (.pageFailed (l.index.address i)), l.record cause)

def loadInline (l : Load W) : List Nat → Option LoadError × Load W
  | [] => (none, l)
  | i :: is =>
    if l.failure.isSome then (none, l)
    else match l.readInPlace i with
      | (.settled, l) => l.loadInline is
      | (.failed cause, l) => l.failPage i cause
      | (.packed data, l) =>
        match l.unpackInPlace i data with
        | (none, l) => l.loadInline is
        | (some cause, l) => l.failPage i cause

/-- Where the thread is that reads pages for the workers of a pool. -/
inductive Feeding where
  /-- About to look whether the load has failed, with these pages ahead. -/
  | looking (ahead : List Nat)
  /-- About to read page `i`. -/
  | reading (i : Nat) (ahead : List Nat)
  /-- Could not read page `i`, and is about to record why. -/
  | failing (i : Nat) (cause : LoadError)

def Feeding.rank : Feeding → Nat
  | .looking ahead => 2 * ahead.length + 1
  | .reading _ ahead => 2 * ahead.length + 2
  | .failing _ _ => 0

/-- One step of the reading thread. The workers can act between any two of them. -/
def feedUnpacking : Feeding → Load W → Feed Feeding (Nat × Bytes) (Load W) (Option LoadError)
  | .looking [], l => .stop none l
  | .looking (i :: is), l => if l.failure.isSome then .stop none l else .next (.reading i is) l
  | .reading i is, l =>
    match l.readInPlace i with
    | (.settled, l) => .next (.looking is) l
    | (.packed data, l) => .job (i, data) (.looking is) l
    | (.failed cause, l) => .next (.failing i cause) l
  | .failing i cause, l => .stop (some (.pageFailed (l.index.address i))) (l.record cause)

def unpacking : PoolProgram Feeding (Nat × Bytes) (Load W) (Option LoadError) where
  feed := feedUnpacking
  work := fun (i, data) l =>
    let (failure, l) := l.unpackInPlace i data
    l.recordAny failure
  rank := Feeding.rank
  rank_next {f f' s s'} h := by
    unfold feedUnpacking at h
    split at h
    · cases h
    · split at h
      · cases h
      · cases h
        simp only [Feeding.rank, List.length_cons]
        omega
    · split at h <;> cases h <;> simp only [Feeding.rank] <;> omega
    · cases h
  rank_job {f f' j s s'} h := by
    unfold feedUnpacking at h
    split at h
    · cases h
    · split at h <;> cases h
    · split at h <;> cases h
      simp only [Feeding.rank]
      omega
    · cases h

/-- An eager load whose pages are unpacked by the workers of a pool. -/
abbrev UnpackPool (W : Type) : Type := Pool Feeding (Nat × Bytes) (Load W) (Option LoadError)

def pool (l : Load W) (order : List Nat) (workers : Nat) : UnpackPool W :=
  .ofProgram workers l.capacity (.looking order) l

def loadPooled (l : Load W) (order : List Nat) (workers : Nat) : Option LoadError × Load W :=
  let x := (l.pool order workers).run unpacking
  match x.phase with
  | .stopped returned => (returned, x.shared)
  | _ => (none, x.shared)

def workers? (l : Load W) (config : Config) (threads : Threads) : Option Nat :=
  if l.index.compressed then config.workers? threads else none

def firstFailed? (l : Load W) : Option Nat :=
  (List.range l.index.pages.size).find? fun i => l.state i = .error

/-- Ends an eager load. Unless there is an error already, it names a page that failed. -/
def conclude (l : Load W) (returned : Option LoadError) : Option LoadError × Load W :=
  (returned.or (l.firstFailed?.map fun i => .pageFailed (l.index.address i)), l.markComplete)

/--
Reads every page; the error to return names a page that failed. Without the workers that it
asks for, a load does not begin.
-/
def loadEagerly (l : Load W) (config : Config) (threads : Threads) : Option LoadError × Load W :=
  match l.workers? config threads with
  | none =>
    let (returned, l) := l.loadInline l.index.readOrder
    l.conclude returned
  | some workers =>
    match threads.refusesPool workers with
    | some cause => (some (.io cause), l)
    | none =>
      let (returned, l) := l.loadPooled l.index.readOrder workers
      l.conclude returned

end RamRestore.Load
