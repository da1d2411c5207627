import RamRestore.Lz4.Block

/-! # Unpacking a page

A compressed page is one LZ4 block that expands to exactly the page.
-/

namespace RamRestore

inductive UnpackError where
  | block (cause : Lz4.Error)
  | sizeMismatch (got expected : Nat)
  deriving DecidableEq, Repr

def UnpackError.message : UnpackError → String
  | .block cause => cause.message
  | .sizeMismatch got expected =>
    "page decompressed to " ++ toString got ++ " bytes, expected " ++ toString expected

/-- The page of `size` bytes that a block holds. -/
def unpack (size : Nat) (block : List UInt8) : Except UnpackError Bytes :=
  match Lz4.decode size block with
  | .error cause => .error (.block cause)
  | .ok page => if page.size = size then .ok page else .error (.sizeMismatch page.size size)

theorem unpack_eq_ok_iff {size : Nat} {bytes : List UInt8} {page : Bytes} :
    unpack size bytes = .ok page ↔ Lz4.decode size bytes = .ok page ∧ page.size = size := by
  unfold unpack
  constructor
  · intro h
    split at h
    · cases h
    · rename_i hd
      split at h
      · rename_i hs
        cases h
        exact ⟨hd, hs⟩
      · cases h
  · rintro ⟨hd, hs⟩
    rw [hd]
    exact if_pos hs

end RamRestore
