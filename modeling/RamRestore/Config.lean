import RamRestore.Json.Value
import RamRestore.Threads
import RamRestore.Word

/-! # Loader configuration

How to load, and how far background work may run ahead. A configuration is written as a
JSON object whose members may be missing, or as an array of its values in order.
-/

namespace RamRestore

inductive LoadType where
  /-- Every page is read before the start returns. -/
  | eager
  /-- Pages load on first access and in the background, where the host allows it. -/
  | lazy
  deriving DecidableEq, Repr

structure Config where
  loadType : LoadType := .lazy
  queueCapacity : Nat := 32
  /-- Workers that unpack pages of an eager load: none for 0, one per core by default. -/
  decompressThreads : Option Nat := none
  deriving DecidableEq, Repr

namespace Config

/-- The entries that each queue to and from the background reader holds. -/
def capacity (c : Config) : Nat := max 1 c.queueCapacity

/-- The workers to which eager loads hand compressed pages. -/
def workers? (c : Config) (threads : Threads) : Option Nat :=
  (c.decompressThreads.or threads.cores).filter (0 < ·)

end Config

open Json (Value)

/-- A load type is named, or is the key of an object with the value null. -/
def LoadType.ofValue? : Value → Option LoadType
  | .string (some "eager") => some .eager
  | .string (some "lazy") => some .lazy
  | .object [(some "eager", .null)] => some .eager
  | .object [(some "lazy", .null)] => some .lazy
  | _ => none

namespace Config

/-- The members a configuration may have, in the order of its array form. -/
def keys : List String := ["load_type", "queue_capacity", "decompress_threads"]

def threads? : Value → Option (Option Nat)
  | .null => some none
  | v => (v.below? word64Count).map some

/-- The configuration with the given values, each at its default where it is missing. -/
def ofParts? (loadType queueCapacity decompressThreads : Option Value) : Option Config := do
  let start : Config := {}
  let loadType ← (loadType.map LoadType.ofValue?).getD (some start.loadType)
  let queueCapacity ← (queueCapacity.map (Value.below? word64Count)).getD (some start.queueCapacity)
  let decompressThreads ← (decompressThreads.map threads?).getD (some start.decompressThreads)
  pure ⟨loadType, queueCapacity, decompressThreads⟩

def ofValue? : Value → Option Config
  | .object members =>
    if Json.keysAdmissible keys members then
      ofParts? (Json.member? "load_type" members) (Json.member? "queue_capacity" members)
        (Json.member? "decompress_threads" members)
    else none
  | .array items =>
    if items.length ≤ 3 then ofParts? items[0]? items[1]? items[2]? else none
  | _ => none

def parse? (text : List UInt8) : Option Config :=
  (Value.parse? text).bind ofValue?

end Config
end RamRestore
