import Mathlib.Data.List.Basic
import RamRestore.Proofs.Index.RoundTrip
import RamRestore.Snapshot

/-! # The file of a snapshot

What is written to a file is found in it, as long as nothing meets anything else, and so is the
index that the snapshot stands for.
-/

namespace RamRestore

def HasAt (file : Bytes) (position : Nat) (bytes : List UInt8) : Prop :=
  ∀ k b, bytes[k]? = some b → file[position + k]? = some b

section

variable {file : Bytes} {position : Nat} {bytes : List UInt8}

theorem size_overlay (file : Bytes) (position : Nat) (bytes : List UInt8) :
    (overlay file position bytes).size = file.size := by
  simp [overlay]

theorem hasAt_overlay (h : position + bytes.length ≤ file.size) :
    HasAt (overlay file position bytes) position bytes := by
  intro k b hk
  have hlt : position + k < file.size := by
    have := (List.getElem?_eq_some_iff.1 hk).1
    omega
  simp [overlay, hlt, hk]

theorem HasAt.overlay {q : Nat} {other : List UInt8} (h : HasAt file position bytes)
    (ha : position + bytes.length ≤ q ∨ q + other.length ≤ position) :
    HasAt (overlay file q other) position bytes := by
  intro k b hk
  have hfile := h k b hk
  have hlt := (List.getElem?_eq_some_iff.1 hk).1
  obtain ⟨hi, rfl⟩ := Array.getElem?_eq_some_iff.1 hfile
  have hsize : position + k < (RamRestore.overlay file q other).size := by rwa [size_overlay]
  rw [Array.getElem?_eq_getElem hsize]
  simp only [RamRestore.overlay, Array.getElem_ofFn, Option.some.injEq]
  rcases ha with ha | ha
  · cases other[position + k - q]? with
    | none => rfl
    | some c => simp [show ¬ q ≤ position + k by omega]
  · rw [List.getElem?_eq_none (by omega)]
    rfl

theorem HasAt.isPrefix (h : HasAt file position bytes) : bytes <+: file.toList.drop position := by
  rw [List.prefix_iff_getElem?]
  intro k hk
  rw [List.getElem?_drop, Array.getElem?_toList]
  exact h k _ (List.getElem?_eq_getElem hk)

theorem HasAt.extract (h : HasAt file position bytes) :
    file.extract position (position + bytes.length) = bytes.toArray := by
  obtain ⟨rest, hrest⟩ := h.isPrefix
  rw [← Array.toList_inj, Array.toList_extract, List.extract_eq_take_drop, Nat.add_sub_cancel_left,
    ← hrest, List.take_left']
  rfl

variable {chunks : List (Nat × List UInt8)}

theorem size_overlayAll (file : Bytes) (chunks : List (Nat × List UInt8)) :
    (overlayAll file chunks).size = file.size := by
  unfold overlayAll
  induction chunks generalizing file with
  | nil => rfl
  | cons c chunks ih => rw [List.foldl_cons, ih, size_overlay]

theorem HasAt.overlayAll (h : HasAt file position bytes)
    (ha : ∀ c ∈ chunks, position + bytes.length ≤ c.1 ∨ c.1 + c.2.length ≤ position) :
    HasAt (overlayAll file chunks) position bytes := by
  unfold RamRestore.overlayAll
  induction chunks generalizing file with
  | nil => exact h
  | cons c chunks ih => exact ih (h.overlay (ha c (by simp))) fun d hd => ha d (by simp [hd])

/-- Of chunks that do not meet, each is found where it was written. -/
theorem hasAt_overlayAll
    (ha : chunks.Pairwise fun c d => c.1 + c.2.length ≤ d.1 ∨ d.1 + d.2.length ≤ c.1)
    (hw : ∀ c ∈ chunks, c.1 + c.2.length ≤ file.size) {c : Nat × List UInt8} (hc : c ∈ chunks) :
    HasAt (overlayAll file chunks) c.1 c.2 := by
  induction chunks generalizing file with
  | nil => cases hc
  | cons d chunks ih =>
    obtain ⟨hd, ha⟩ := List.pairwise_cons.1 ha
    rcases List.mem_cons.1 hc with rfl | hc
    · exact (hasAt_overlay (hw c (by simp))).overlayAll hd
    · have hw' : ∀ e ∈ chunks, e.1 + e.2.length ≤ (overlay file d.1 d.2).size := by
        intro e he
        rw [size_overlay]
        exact hw e (by simp [he])
      exact ih ha hw' hc

end

namespace Snapshot

variable {s : Snapshot} {before : Bytes}

theorem size_file (s : Snapshot) (before : Bytes) : (s.file before).size = before.size :=
  size_overlayAll before s.chunks

theorem Valid.hasAt (h : s.Valid before.size) {c : Nat × List UInt8} (hc : c ∈ s.chunks) :
    HasAt (s.file before) c.1 c.2 :=
  hasAt_overlayAll h.apart h.within hc

end Snapshot
end RamRestore
