import RamRestore.PlainWatch

/-! # Lawful guests

A lawful guest copies a page as a whole when it accepts it, writes nothing when it refuses
one, and leaves its memory alone when it is registered, armed or read. What is left of a page
that cannot be unpacked stays within the page.
-/

namespace RamRestore

/-- Memory `now` is memory `before` with `data` copied to `start`. -/
def Copied (start : Nat) (data : Bytes) (before now : Nat → UInt8) : Prop :=
  ∀ a, now a = if start ≤ a ∧ a - start < data.size then data.getD (a - start) 0 else before a

class LawfulGuest (W : Type) [Guest W] where
  /-- The byte that memory holds at an address. -/
  byte : W → Nat → UInt8
  byte_register {w w' : W} {start length : Nat} (h : Guest.register w start length = .ok w') :
    byte w' = byte w
  byte_arm {w w' : W} (h : Guest.arm w = .ok w') : byte w' = byte w
  byte_accept {w w' : W} {a : Nat} {data : Bytes} (h : Guest.place w a data = (none, w')) :
    Copied a data (byte w) (byte w')
  byte_refuse {w w' : W} {a : Nat} {data : Bytes} {cause : IoError}
    (h : Guest.place w a data = (some cause, w')) : byte w' = byte w
  read_eq (w : W) (start length : Nat) :
    (Guest.read w start length).1 = Array.ofFn fun k : Fin length => byte w (start + k)
  byte_read (w : W) (start length : Nat) : byte (Guest.read w start length).2 = byte w
  byte_write (w : W) (start : Nat) (data : Bytes) :
    Copied start data (byte w) (byte (Guest.write w start data))
  byte_spoil (w : W) {start length : Nat} (data : Bytes) {a : Nat}
    (h : ¬ (start ≤ a ∧ a < start + length)) : byte (Guest.spoil w start length data) a = byte w a

theorem Copied.outside {start length : Nat} {data : Bytes} {before now : Nat → UInt8}
    (h : Copied start data before now) (hd : data.size ≤ length) {a : Nat}
    (ha : ¬ (start ≤ a ∧ a < start + length)) : now a = before a := by
  rw [h a, if_neg]
  rintro ⟨hle, hlt⟩
  exact ha ⟨hle, by omega⟩

instance : LawfulGuest PlainWatch where
  byte w := w.memory.get
  byte_register {w w' start length} h := by
    change w.register start length = .ok w' at h
    unfold PlainWatch.register at h
    split at h <;> cases h
    rfl
  byte_arm {w w'} h := by
    change w.arm = .ok w' at h
    unfold PlainWatch.arm at h
    split at h <;> cases h
    rfl
  byte_accept {w w' a data} h := by
    change w.place a data = (none, w') at h
    unfold PlainWatch.place at h
    split at h <;> cases h
    exact w.memory.get_write a data
  byte_refuse {w w' a data cause} h := by
    change w.place a data = (some cause, w') at h
    unfold PlainWatch.place at h
    split at h <;> cases h
    rfl
  read_eq _ _ _ := rfl
  byte_read _ _ _ := rfl
  byte_write w start data := w.memory.get_write start data
  byte_spoil w start length data a h := by
    have hd : ((w.leftover data).extract 0 length).size ≤ length := by
      rw [Array.size_extract]
      omega
    exact Copied.outside (w.memory.get_write start _) hd h

end RamRestore
