import RamRestore.Load

/-! # Faults

The first access to a page is served at once: the page is read and placed, or taken over
from the background reader if that has read it already. A page that is being read makes
the fault wait.
-/

namespace RamRestore.Load

variable {W : Type} [Guest W]

/-- Ends a fault's own read of page `i`, which it had claimed. -/
def land (l : Load W) (i : Nat) (got : Bytes) (stop : Transfer.Stop) : Load W :=
  match l.contents i got stop with
  | .error cause => (l.setState i .error).record cause
  | .ok contents =>
    let (failure, l) := l.fill i contents
    l.recordAny failure

/-- Takes over a page that was read, or finds it settled. -/
def takeOver (l : Load W) (i : Nat) : Load W :=
  let (failure, l) := l.placeParked i
  l.recordAny failure

inductive Encounter (W : Type) where
  /-- There is nothing more to do. -/
  | settled (l : Load W)
  /-- The reader is still at the page. -/
  | busy
  /-- The fault has claimed the page and reads it itself. -/
  | claimed (i : Nat) (l : Load W)

def encounter (l : Load W) (a : Nat) : Encounter W :=
  match l.index.locate a with
  | none => .settled (l.record (.unmapped a))
  | some i =>
    match l.state i with
    | .empty => .claimed i (l.setState i .reading)
    | .reading | .filling => .busy
    | _ => .settled (l.takeOver i)

/-- A fault at an address; `none` while the reader is still at its page. -/
def fault? (l : Load W) (a : Nat) : Option (Load W) :=
  match l.encounter a with
  | .settled l => some l
  | .busy => none
  | .claimed i l =>
    let (got, stop, l) := l.fetch i
    some (l.land i got stop)

/-- How far the service of a fault has come when a read may take its time. -/
inductive Service where
  | at (a : Nat)
  | reading (i : Nat) (t : Transfer)

/-- One read of a fault for page `i`, and the transfer it goes on with unless it is over. -/
def readOnce (l : Load W) (i : Nat) (t : Transfer) : Option Transfer × Load W :=
  if t.size ≤ t.got.size then (none, l.land i t.got .full)
  else match t.call l.source with
    | (c, .stopped got stop) => (none, (l.note [c] (l.source.after t.offset)).land i got stop)
    | (c, .going t') => (some t', l.note [c] (l.source.after t.offset))

theorem readOnce_going {l l' : Load W} {i : Nat} {t t' : Transfer}
    (h : l.readOnce i t = (some t', l')) :
    ∃ c, t.call l.source = (c, .going t') ∧ l' = l.note [c] (l.source.after t.offset) := by
  unfold readOnce at h
  split at h
  · simp at h
  · split at h
    · simp at h
    · rename_i c t'' hc
      simp only [Prod.mk.injEq, Option.some.injEq] at h
      obtain ⟨rfl, rfl⟩ := h
      exact ⟨c, hc, rfl⟩

/-- Goes on with a fault's own read until it stops, or until a read does not return. -/
def readFault (l : Load W) (i : Nat) (t : Transfer) : Option Service × Load W :=
  if t.got.size < t.size ∧ l.source.heldFaults.contains t.offset then (some (.reading i t), l)
  else match _h : l.readOnce i t with
    | (none, l') => (none, l')
    | (some t', l') => l'.readFault i t'
termination_by (t.size - t.got.size, l.source.interruptions.get t.offset)
decreasing_by
  obtain ⟨c, hc, rfl⟩ := readOnce_going _h
  obtain ⟨hs, ⟨h₁, h₂⟩ | ⟨rfl, h₂⟩⟩ := Transfer.call_going hc
  · apply Prod.Lex.left
    omega
  · apply Prod.Lex.right
    simp only [note, Source.after, Table.get_set_self]
    omega

/-- Goes on with a fault. What is left of it waits for the reader or for its own read. -/
def serve (l : Load W) : Service → Option Service × Load W
  | .at a =>
    match l.encounter a with
    | .settled l => (none, l)
    | .busy => (some (.at a), l)
    | .claimed i l =>
      let (t, l) := l.beginTransfer i
      l.readFault i t
  | .reading i t => l.readFault i t

end RamRestore.Load
