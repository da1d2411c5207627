import RamRestore.Memory

/-! # LZ4 blocks

A block is a list of sequences. Each appends literal bytes and then repeats a stretch
of what was produced before; the last one has literals only. `decode` expands a block
into at most `room` bytes.
-/

namespace RamRestore.Lz4

inductive Error where
  /-- More than `actual` bytes would come out: at least `expected`. -/
  | outputTooSmall (expected actual : Nat)
  | literalOutOfBounds
  | expectedAnotherByte
  | offsetZero
  | offsetOutOfBounds
  deriving DecidableEq, Repr

def Error.message : Error → String
  | .outputTooSmall expected actual =>
    "provided output is too small for the decompressed data, actual " ++ toString actual ++
      ", expected " ++ toString expected
  | .literalOutOfBounds => "literal is out of bounds of the input"
  | .expectedAnotherByte => "expected another byte, found none"
  | .offsetZero => "0 is not a valid match offset"
  | .offsetOutOfBounds => "the offset to copy is not contained in the decompressed buffer"

/-- The length of a block that cannot be beaten by any compressor of `n` bytes. -/
def maxBlockLength (n : Nat) : Nat := 20 + n * 110 / 100

def extend (n : Nat) : List UInt8 → Option (Nat × List UInt8)
  | [] => none
  | b :: rest => if b = 255 then extend (n + 255) rest else some (n + b.toNat, rest)

/-- A length whose four bits are in the token; 15 says that length bytes follow. -/
def length (nibble : Nat) (rest : List UInt8) : Option (Nat × List UInt8) :=
  if nibble = 15 then extend 15 rest else some (nibble, rest)

/-- Appends `n` bytes, each one the byte `offset` places before the end. -/
def repeatFrom (out : Bytes) (offset : Nat) : (n : Nat) → Bytes
  | 0 => out
  | n + 1 => repeatFrom (out.push (out.getD (out.size - offset) 0)) offset n

theorem length_extend_lt {n m : Nat} {bytes rest : List UInt8}
    (h : extend n bytes = some (m, rest)) : rest.length < bytes.length := by
  induction bytes generalizing n with
  | nil => simp [extend] at h
  | cons b bytes ih =>
    rw [extend] at h
    split at h
    · have := ih h
      simp only [List.length_cons]
      omega
    · simp only [Option.some.injEq, Prod.mk.injEq] at h
      simp [h.2]

theorem length_length_le {nibble m : Nat} {bytes rest : List UInt8}
    (h : length nibble bytes = some (m, rest)) : rest.length ≤ bytes.length := by
  rw [length] at h
  split at h
  · exact Nat.le_of_lt (length_extend_lt h)
  · simp only [Option.some.injEq, Prod.mk.injEq] at h
    simp [h.2]

/-- What stands behind the literals of a sequence: a match, or the end of the block. -/
inductive Tail where
  | done
  | copied (out : Bytes) (rest : List UInt8)

/-- Reads offset and length of a match and appends the stretch it names. -/
def copyMatch (room nibble : Nat) (out : Bytes) : List UInt8 → Except Error Tail
  | [] => .ok .done
  | [_] => .error .expectedAnotherByte
  | lo :: hi :: rest =>
    let offset := lo.toNat + 256 * hi.toNat
    if offset = 0 then .error .offsetZero
    else match length nibble rest with
      | none => .error .expectedAnotherByte
      | some (n, rest) =>
        let n := n + 4
        if room < out.size + n then .error (.outputTooSmall (out.size + n) room)
        else if out.size < offset then .error .offsetOutOfBounds
        else .ok (.copied (repeatFrom out offset n) rest)

def copyLiterals (room nibble : Nat) (out : Bytes) (bytes : List UInt8) :
    Except Error (Bytes × List UInt8) :=
  match length nibble bytes with
  | none => .error .expectedAnotherByte
  | some (n, rest) =>
    if rest.length < n then .error .literalOutOfBounds
    else if room < out.size + n then .error (.outputTooSmall (out.size + n) room)
    else .ok (out ++ (rest.take n).toArray, rest.drop n)

theorem length_copyLiterals_le {room nibble : Nat} {out out' : Bytes} {bytes rest : List UInt8}
    (h : copyLiterals room nibble out bytes = .ok (out', rest)) : rest.length ≤ bytes.length := by
  unfold copyLiterals at h
  split at h
  · simp at h
  · rename_i n r hl
    have := length_length_le hl
    split at h
    · simp at h
    · split at h
      · simp at h
      · simp only [Except.ok.injEq, Prod.mk.injEq] at h
        rw [← h.2, List.length_drop]
        omega

theorem length_copyMatch_lt {room nibble : Nat} {out out' : Bytes} {bytes rest : List UInt8}
    (h : copyMatch room nibble out bytes = .ok (.copied out' rest)) :
    rest.length < bytes.length := by
  unfold copyMatch at h
  split at h
  · simp at h
  · simp at h
  · rename_i lo hi r
    simp only at h
    split at h
    · simp at h
    · split at h
      · simp at h
      · rename_i n r' hl
        have := length_length_le hl
        split at h
        · simp at h
        · split at h
          · simp at h
          · simp only [Except.ok.injEq, Tail.copied.injEq] at h
            rw [← h.2]
            simp only [List.length_cons]
            omega

/-- Expands the sequences of `bytes` behind `out`, which may grow to `room` bytes. -/
def decodeFrom (room : Nat) (out : Bytes) : List UInt8 → Except Error Bytes
  | [] => .error .expectedAnotherByte
  | token :: bytes =>
    match _hl : copyLiterals room (token.toNat / 16) out bytes with
    | .error e => .error e
    | .ok (out, rest) =>
      match _hm : copyMatch room (token.toNat % 16) out rest with
      | .error e => .error e
      | .ok .done => .ok out
      | .ok (.copied out rest) => decodeFrom room out rest
termination_by bytes => bytes.length
decreasing_by
  have h₁ := length_copyLiterals_le _hl
  have h₂ := length_copyMatch_lt _hm
  simp only [List.length_cons]
  omega

def decode (room : Nat) (block : List UInt8) : Except Error Bytes :=
  decodeFrom room #[] block

end RamRestore.Lz4
