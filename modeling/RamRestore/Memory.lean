import RamRestore.Table

/-! # Guest memory

Memory gives every address a byte. It is kept in frames of 4096 addresses, each a
function of the place inside the frame, so that a write costs only the frames it
touches. `get_write` is the whole meaning of a write.
-/

namespace RamRestore

abbrev Bytes := Array UInt8

/-- The bytes of memory, by frame and by place inside the frame. -/
structure Memory where
  frames : Table (Nat → UInt8)

namespace Memory

/-- The number of addresses in a frame, which is also the page size of the host. -/
def frameSize : Nat := 4096

def filled (b : UInt8) : Memory := ⟨.const fun _ => b⟩

def get (m : Memory) (a : Nat) : UInt8 := m.frames.get (a / frameSize) (a % frameSize)

def read (m : Memory) (start len : Nat) : Bytes :=
  Array.ofFn fun i : Fin len => m.get (start + i)

def framesOf (start len : Nat) : List Nat :=
  if len = 0 then []
  else List.range' (start / frameSize) ((start + len - 1) / frameSize + 1 - start / frameSize)

def patch (start : Nat) (data : Bytes) (k : Nat) (frame : Nat → UInt8) (o : Nat) : UInt8 :=
  let a := k * frameSize + o
  if start ≤ a ∧ a - start < data.size then data.getD (a - start) 0 else frame o

def write (m : Memory) (start : Nat) (data : Bytes) : Memory :=
  ⟨(framesOf start data.size).foldl (fun fs k => fs.set k (patch start data k (fs.get k))) m.frames⟩

def fill (m : Memory) (start len : Nat) (b : UInt8) : Memory :=
  m.write start (Array.replicate len b)

theorem mem_framesOf {start len k : Nat} (h : 0 < len) :
    k ∈ framesOf start len ↔ start / frameSize ≤ k ∧ k ≤ (start + len - 1) / frameSize := by
  have hle : start / frameSize ≤ (start + len - 1) / frameSize :=
    Nat.div_le_div_right (by omega)
  simp only [framesOf, Nat.ne_of_gt h, ↓reduceIte, List.mem_range'_1]
  omega

theorem nodup_framesOf (start len : Nat) : (framesOf start len).Nodup := by
  unfold framesOf
  split
  · exact List.nodup_nil
  · exact List.nodup_range'

private theorem get_foldl_patch (start : Nat) (data : Bytes) (ks : List Nat) (hks : ks.Nodup)
    (fs : Table (Nat → UInt8)) (k : Nat) :
    (ks.foldl (fun fs k => fs.set k (patch start data k (fs.get k))) fs).get k =
      if k ∈ ks then patch start data k (fs.get k) else fs.get k := by
  induction ks generalizing fs with
  | nil => simp
  | cons i ks ih =>
    rw [List.nodup_cons] at hks
    rw [List.foldl_cons, ih hks.2, Table.get_set]
    by_cases hi : i = k
    · subst hi; simp [hks.1]
    · simp [hi, Ne.symm hi]

theorem get_write (m : Memory) (start : Nat) (data : Bytes) (a : Nat) :
    (m.write start data).get a =
      if start ≤ a ∧ a - start < data.size then data.getD (a - start) 0 else m.get a := by
  have split : a / frameSize * frameSize + a % frameSize = a := by
    rw [Nat.mul_comm]; exact Nat.div_add_mod a frameSize
  simp only [get, write]
  rw [get_foldl_patch _ _ _ (nodup_framesOf _ _)]
  by_cases hin : start ≤ a ∧ a - start < data.size
  · have hk : a / frameSize ∈ framesOf start data.size := by
      rw [mem_framesOf (by omega)]
      exact ⟨Nat.div_le_div_right hin.1, Nat.div_le_div_right (by omega)⟩
    simp only [hk, ↓reduceIte, patch, split]
  · rw [if_neg hin]
    split
    · simp only [patch, split, if_neg hin]
    · rfl

@[simp] theorem get_filled (b : UInt8) (a : Nat) : (filled b).get a = b := by
  simp [filled, get]

end Memory
end RamRestore
