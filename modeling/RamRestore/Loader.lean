import RamRestore.Index.Decoder
import RamRestore.Load.Background
import RamRestore.Load.Eager
import RamRestore.Load.Fault
import RamRestore.Load.Idle

/-! # Loaders

A loader restores guest memory from one snapshot. Blocks are registered first; then the
load starts, once. It is lazy where that is asked for and the host has a usable watch, and
otherwise every page is read before the start returns.
-/

namespace RamRestore

/-- A call of the zero checker: address, length and verdict. -/
structure ZeroCheck where
  address : Nat
  length : Nat
  zero : Bool
  deriving DecidableEq, Repr

inductive Phase (W : Type) where
  | registering (source : Source) (guest : W)
  /-- The index could not be read. -/
  | rejected (source : Source) (guest : W)
  | loading (load : Load W)

structure Loader (W : Type) where
  config : Config
  /-- Whether memory that should be all zero may be left as it is. -/
  zeroChecker : Bytes → Bool
  /-- Whether the loader may use a watch. -/
  offersWatch : Bool
  threads : Threads := {}
  blocks : List RamBlock := []
  phase : Phase W
  /-- A watch was created. -/
  watched : Bool := false
  zeroChecks : List ZeroCheck := []

namespace Loader

variable {W : Type}

def ofSource (config : Config) (zeroChecker : Bytes → Bool) (offersWatch : Bool)
    (source : Source) (guest : W) (threads : Threads := {}) : Loader W :=
  { config, zeroChecker, offersWatch, threads, phase := .registering source guest }

def load? (l : Loader W) : Option (Load W) :=
  match l.phase with
  | .loading load => some load
  | _ => none

def guest (l : Loader W) : W :=
  match l.phase with
  | .registering _ guest | .rejected _ guest => guest
  | .loading load => load.guest

def source (l : Loader W) : Source :=
  match l.phase with
  | .registering source _ | .rejected source _ => source
  | .loading load => load.source

def withGuest (l : Loader W) (guest : W) : Loader W :=
  { l with phase := match l.phase with
    | .registering source _ => .registering source guest
    | .rejected source _ => .rejected source guest
    | .loading load => .loading { load with guest } }

def withSource (l : Loader W) (source : Source) : Loader W :=
  { l with phase := match l.phase with
    | .registering _ guest => .registering source guest
    | .rejected _ guest => .rejected source guest
    | .loading load => .loading { load with source } }

def onLoad (l : Loader W) (f : Load W → Load W) : Loader W :=
  match l.phase with
  | .loading load => { l with phase := .loading (f load) }
  | _ => l

def started (l : Loader W) : Bool :=
  match l.phase with
  | .registering _ _ => false
  | _ => true

def error? (l : Loader W) : Option LoadError := l.load?.bind (·.failure)

def hasError (l : Loader W) : Bool := l.error?.isSome

def isComplete (l : Loader W) : Bool := l.load?.any (·.complete)

def pageState? (l : Loader W) (a : Nat) : Option PageState := do
  let load ← l.load?
  let i ← load.index.locate a
  pure (load.state i)

/-- Adds a block to those that are restored. -/
def register (l : Loader W) (b : RamBlock) : Except LoadError (Loader W) :=
  if l.started then .error .alreadyStarted
  else match b.refusal? l.blocks with
    | some fault => .error (.invalidBlock b.id fault)
    | none => .ok { l with blocks := l.blocks ++ [b] }

def interrupt (l : Loader W) : Loader W := l.onLoad Load.interrupt

variable [Guest W]

/-- Zeroes the listed ranges, apart from those that the checker vouches for. -/
def clear (zeroChecker : Bytes → Bool) (guest : W) : List (Nat × Nat) → List ZeroCheck × W
  | [] => ([], guest)
  | (address, length) :: ranges =>
    let (bytes, guest) := Guest.read guest address length
    let zero := zeroChecker bytes
    let guest := if zero then guest else Guest.write guest address (Array.replicate length 0)
    let (checks, guest) := clear zeroChecker guest ranges
    (⟨address, length, zero⟩ :: checks, guest)

/-- Whether a load may be lazy: what is asked for, and what the host has. -/
def wantsWatch (l : Loader W) (guest : W) : Bool :=
  l.config.loadType == .lazy && l.offersWatch && Guest.supported guest

/-- Whether a load is lazy: it may be, and the watch that was created for it can be used. -/
def isLazy (l : Loader W) (guest : W) : Bool := l.wantsWatch guest && Guest.valid guest

def begin (l : Loader W) (load : Load W) : Option LoadError × Loader W :=
  let (failure, load') :=
    if l.isLazy load.guest then load.startBackground l.threads
    else load.loadEagerly l.config l.threads
  (failure, { l with phase := .loading load', watched := l.wantsWatch load.guest })

/-- Starts the load. The second result is the loader also where the start fails. -/
def start (l : Loader W) : Option LoadError × Loader W :=
  match l.phase with
  | .registering source guest =>
    let reading := Index.read l.blocks source
    let (checks, guest) := clear l.zeroChecker guest reading.cleared
    let l := { l with zeroChecks := checks }
    match reading.outcome with
    | .error cause => (some cause, { l with phase := .rejected reading.source guest })
    | .ok index => l.begin (.ofIndex index reading.source guest l.config.capacity)
  | _ => (some .alreadyStarted, l)

end Loader
end RamRestore
