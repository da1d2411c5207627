import RamRestore.Command.Arguments
import RamRestore.Command.Layout
import RamRestore.Paging

/-! # Restoring from the command line

The restore command gives every block of a layout fresh memory, loads a snapshot into it
and, if asked to, writes all of it to a file. The first thing that goes wrong ends it.
-/

namespace RamRestore.Command

inductive Failure where
  /-- A JSON file cannot be opened. -/
  | opening (path : String) (cause : IoError)
  /-- A JSON file does not hold what it should. -/
  | malformed
  | host (cause : IoError)
  /-- The load cannot be started. -/
  | start (cause : LoadError)
  /-- The load was started and failed. -/
  | load (cause : LoadError)
  deriving DecidableEq, Repr

def Failure.message : Failure → String
  | .opening path cause => "opening " ++ path ++ ": " ++ cause.message
  | .malformed => "invalid json"
  | .host cause => cause.message
  | .start cause => cause.message
  | .load cause => "restore failed: " ++ cause.message

/-- The length of a mapping of so many bytes. -/
def mappedLength (size : Nat) : Nat :=
  (size + (Memory.frameSize - 1)) / Memory.frameSize * Memory.frameSize

/-- How a host places a mapping of the given length beside those that are there, which are given
by their starts and lengths. -/
abbrev Mapper : Type := (mapped : List (Nat × Nat)) → (length : Nat) → Except IoError Nat

def mapBlocks (map : Mapper) (mapped : List (Nat × Nat)) :
    List BlockLayout → Except IoError (List RamBlock)
  | [] => .ok []
  | b :: bs =>
    if b.size = 0 then .error .badArgument
    else do
      let start ← map mapped (mappedLength b.size)
      let rest ← mapBlocks map ((start, mappedLength b.size) :: mapped) bs
      pure (⟨b.id, start, b.size, b.pageSize⟩ :: rest)

def mappings (blocks : List RamBlock) : List (Nat × Nat) :=
  blocks.map fun b => (b.start, mappedLength b.size)

/-- A loader with the blocks registered, in order. -/
def registerBlocks (l : Loader Trap) (blocks : List RamBlock) : Except LoadError (Loader Trap) :=
  blocks.foldlM Loader.register l

/-- The memory of the blocks after a load, or why that failed. -/
def restoreBlocks (config : Config) (threads : Threads) (trapAvailable : Bool) (snapshot : Source)
    (blocks : List RamBlock) : Except Failure Memory :=
  let trap : Trap := { mapped := mappings blocks, available := trapAvailable }
  match registerBlocks (.ofSource config isZero true snapshot trap threads) blocks with
  | .error cause => .error (.start cause)
  | .ok loader =>
    match PagedLoader.start (.ofLoader loader) with
    | (some cause, _) => .error (.start cause)
    | (none, paged) =>
      let loaded := paged.settle
      match loaded.pager.error? with
      | some cause => .error (.load cause)
      | none => .ok loaded.trap.memory

def dump (memory : Memory) (blocks : List RamBlock) : Bytes :=
  blocks.foldl (fun bytes b => bytes ++ memory.read b.start b.size) #[]

/-- Where the first block is mapped. -/
def firstAddress : Nat := 0x10000

/-- Addresses from here on cannot be mapped. -/
def addressLimit : Nat := 0x800000000000

/-- Maps every block behind those that are there. -/
def mapBehind : Mapper := fun mapped length =>
  let start := mapped.foldr (fun (start, length) limit => max (start + length) limit) firstAddress
  if addressLimit ≤ start + length then .error .noMemory else .ok start

/-- The room that a thread takes for its stack. -/
def stackLength : Nat := 0x201000

/-- The threads for which mappings leave room. -/
def threadsBeside (mapped : List (Nat × Nat)) : Threads where
  refusesPool workers :=
    let taken := mapped.foldl (fun taken (_, length) => taken + length) (workers * stackLength)
    if addressLimit < taken then some .noThreads else none

/-- What a restore needs of the system that it runs on. -/
structure Host (m : Type → Type) where
  /-- Opens a file; what can be opened need not be readable. -/
  openFile : String → m (Except IoError (Except IoError Bytes))
  /-- Makes a file of the given bytes. -/
  writeFile : String → Bytes → m (Except IoError Unit)
  /-- The system lets programs trap memory. -/
  trapAvailable : Bool
  map : Mapper := mapBehind
  /-- The threads to be had beside what is mapped. -/
  threads : (mapped : List (Nat × Nat)) → Threads := threadsBeside

section Host

variable {m : Type → Type} [Monad m]

def readJson {α : Type} (host : Host m) (parse? : List UInt8 → Option α) (path : String) :
    ExceptT Failure m α := do
  match ← host.openFile path with
  | .error cause => throw (.opening path cause)
  | .ok (.error cause) => throw (.host cause)
  | .ok (.ok bytes) =>
    match parse? bytes.toList with
    | some value => pure value
    | none => throw .malformed

/-- A file that was opened, as a source. -/
def sourceOfFile : Except IoError Bytes → Source
  | .ok data => .ofFile data
  | .error cause => { Source.ofBytes #[] with failure := fun _ _ => some cause }

def orFail {α : Type} (r : Except IoError α) : ExceptT Failure m α :=
  match r with
  | .ok value => pure value
  | .error cause => throw (.host cause)

def readConfig (host : Host m) (args : RestoreArguments) : ExceptT Failure m Config := do
  let config ← match args.config with
    | some path => readJson host Config.parse? path
    | none => pure {}
  pure { config with loadType := args.mode.getD config.loadType }

def restore (host : Host m) (args : RestoreArguments) : ExceptT Failure m Unit := do
  let layout ← readJson host parseLayout? args.layout
  let config ← readConfig host args
  let blocks ← orFail (mapBlocks host.map [] layout)
  let snapshot ← orFail (← host.openFile args.snapshot)
  let memory ← (restoreBlocks config (host.threads (mappings blocks)) host.trapAvailable
    (sourceOfFile snapshot) blocks : Except _ _)
  match args.output with
  | none => pure ()
  | some path => orFail (← host.writeFile path (dump memory blocks))

end Host

inductive Outcome where
  | done
  | help
  | misuse
  | failed (cause : Failure)
  deriving DecidableEq, Repr

def Outcome.exitCode : Outcome → Nat
  | .done | .help => 0
  | .failed _ => 1
  | .misuse => 2

def run {m : Type → Type} [Monad m] (host : Host m) (args : List String) : m Outcome := do
  match Invocation.ofArguments args with
  | .help => pure .help
  | .misuse => pure .misuse
  | .restore args =>
    match ← (restore host args).run with
    | .ok () => pure .done
    | .error cause => pure (.failed cause)

end RamRestore.Command
