import RamRestore.Json.Value
import RamRestore.Memory
import RamRestore.Word

/-! # Memory layouts

A layout lists the blocks of a guest. It is a JSON array; each block is an object, or an
array of its values in order.
-/

namespace RamRestore.Command

open Json (Value)

/-- A block of guest memory that has no address yet. -/
structure BlockLayout where
  id : String
  size : Nat
  pageSize : Nat := Memory.frameSize
  deriving DecidableEq, Repr

namespace BlockLayout

def keys : List String := ["id", "size", "page_size"]

def text? : Value → Option String
  | .string text => text
  | _ => none

/-- The block with the given values, of which only the page size may be missing. -/
def ofParts? (id size pageSize : Option Value) : Option BlockLayout := do
  let id ← id.bind text?
  let size ← size.bind (Value.below? word64Count)
  let pageSize ← (pageSize.map (Value.below? word32Count)).getD (some Memory.frameSize)
  pure ⟨id, size, pageSize⟩

def ofValue? : Value → Option BlockLayout
  | .object members =>
    if Json.keysAdmissible keys members then
      ofParts? (Json.member? "id" members) (Json.member? "size" members)
        (Json.member? "page_size" members)
    else none
  | .array items =>
    if items.length ≤ 3 then ofParts? items[0]? items[1]? items[2]? else none
  | _ => none

end BlockLayout

def parseLayout? (text : List UInt8) : Option (List BlockLayout) :=
  match Value.parse? text with
  | some (.array items) => items.mapM BlockLayout.ofValue?
  | _ => none

end RamRestore.Command
