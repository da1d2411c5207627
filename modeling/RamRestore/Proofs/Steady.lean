import RamRestore.Proofs.Index.Parsed
import RamRestore.Proofs.Transfer

/-! # Steady sources

A source may give its bytes in pieces of any size, and interrupt its reader. As long as all that it
refuses are reads far behind its data, what comes of a whole transfer and of an index hangs on the
bytes alone.
-/

namespace RamRestore

/-- Bytes to read, and the error of every read that ends at a place. Reads are only refused behind
the data. -/
structure Medium where
  data : Bytes
  refusal : Nat → Option IoError
  within : ∀ n ≤ data.size + Source.window, refusal n = none

namespace Medium

def ofBytes (data : Bytes) : Medium := ⟨data, fun _ => none, fun _ _ => rfl⟩

def ofFile (data : Bytes) (h : data.size + Source.window < 0x8000000000000000) : Medium where
  data
  refusal := Source.fileFailure 0
  within n hn := if_neg (by omega)

def stream (m : Medium) (offset : Nat) : List UInt8 × IoError :=
  match m.refusal (offset + Source.window) with
  | some cause => ([], cause)
  | none => (m.data.toList.drop offset, .endOfData)

end Medium

namespace Source

/-- A source of these bytes that never fails where they are, and never keeps anybody waiting. A read
brings some bytes as long as there are any, and may be interrupted before it does. -/
structure Steady (s : Source) (m : Medium) : Prop where
  data : s.data = m.data
  most : ∀ offset < m.data.size, 0 < s.most offset
  failure : ∀ offset wanted, s.failure offset wanted = m.refusal (offset + wanted)
  lethal : s.lethal = []
  held : s.held = []
  heldFaults : s.heldFaults = []

theorem steady_ofBytes (data : Bytes) : (ofBytes data).Steady (.ofBytes data) where
  data := rfl
  most _ h := Nat.zero_lt_of_lt h
  failure _ _ := rfl
  lethal := rfl
  held := rfl
  heldFaults := rfl

/-- A source that returns `n` bytes at most, and interrupts reads first where it is told to. -/
def inPieces (data : Bytes) (n : Nat) (interruptions : Table Nat) : Source :=
  { data, most := fun _ => n, interruptions }

theorem steady_inPieces (data : Bytes) {n : Nat} (hn : 0 < n) (interruptions : Table Nat) :
    (inPieces data n interruptions).Steady (.ofBytes data) where
  data := rfl
  most _ _ := hn
  failure _ _ := rfl
  lethal := rfl
  held := rfl
  heldFaults := rfl

theorem steady_ofFile {data : Bytes} (h : data.size + window < 0x8000000000000000) :
    (ofFile data).Steady (.ofFile data h) where
  data := rfl
  most _ h := Nat.zero_lt_of_lt h
  failure offset wanted := by simp only [ofFile, Medium.ofFile, fileFailure, Nat.zero_add]
  lethal := rfl
  held := rfl
  heldFaults := rfl

namespace Steady

variable {s s' : Source} {m : Medium}

theorem serves (h : s.Steady m) : s.Serves m.data where
  data := h.data
  most := h.most
  failure _ _ hle := (h.failure _ _).trans (m.within _ hle)

theorem congr (h : s.Steady m) (i : Table Nat) : { s with interruptions := i }.Steady m :=
  ⟨h.data, h.most, h.failure, h.lethal, h.held, h.heldFaults⟩

theorem after (h : s.Steady m) (offset : Nat) : (s.after offset).Steady m := h.congr _

theorem afterStream (h : s.Steady m) (offset count : Nat) :
    (s.afterStream offset count).Steady m := by
  fun_induction Source.afterStream s offset count with
  | case1 => exact h
  | case2 => exact h.congr _
  | case3 s offset count hc s' hs ih => exact ih (h.congr _)

theorem run (h : s.Steady m) (t : Transfer) : (t.run s).source.Steady m := by
  fun_induction Transfer.run t s with
  | case1 => exact h
  | case2 t s _ c got stop hc => exact h.after t.offset
  | case3 t s _ c t' hc o ih => exact ih (h.after t.offset)

theorem stream (h : s.Steady m) (offset : Nat) : s.stream offset = m.stream offset := by
  by_cases hle : offset ≤ m.data.size
  · rw [Medium.stream, m.within _ (by omega)]
    exact h.serves.stream hle
  · have hw : s.windowSize offset = 0 := by
      rw [windowSize, h.data]
      omega
    have hnil : m.data.toList.drop offset = [] :=
      List.drop_eq_nil_of_le (by simpa using Nat.le_of_not_le hle)
    rw [Source.stream, h.failure, if_pos hw]
    cases hr : m.refusal (offset + window) <;> simp only [Medium.stream, hnil, hr]

theorem reply (h : s.Steady m) (offset wanted : Nat) :
    s.reply offset wanted = match m.refusal (offset + wanted) with
      | some cause => .error cause
      | none => .ok (m.data.extract offset (offset + min wanted (s.most offset))) := by
  cases hr : m.refusal (offset + wanted) <;> simp only [Source.reply, h.failure, h.data, hr]

end Steady
end Source

namespace Transfer

variable {t : Transfer} {s : Source} {m : Medium}

/-- How a transfer ends: it gets all it is after, as far as there is data. -/
def ending (t : Transfer) (m : Medium) : Bytes × Stop :=
  if t.size ≤ t.got.size then (t.got, .full)
  else match m.refusal (t.position + t.size) with
    | some cause => (t.got, .failed cause)
    | none =>
      (t.got ++ m.data.extract t.offset (t.position + t.size),
        if t.position + t.size ≤ m.data.size then .full else .short)

theorem offset_add_wanted (hn : ¬ t.size ≤ t.got.size) :
    t.offset + t.wanted = t.position + t.size := by
  unfold offset wanted
  omega

theorem ending_behind (hn : ¬ t.size ≤ t.got.size) (hle : m.data.size ≤ t.offset)
    (hr : m.refusal (t.position + t.size) = none) : t.ending m = (t.got, .short) := by
  have hend := offset_add_wanted hn
  have hempty : m.data.extract t.offset (t.position + t.size) = #[] := by
    apply Array.eq_empty_of_size_eq_zero
    rw [Array.size_extract]
    omega
  have hshort : ¬ t.position + t.size ≤ m.data.size := by
    unfold wanted at hend
    omega
  rw [ending, if_neg hn, hr]
  dsimp only
  rw [if_neg hshort, hempty, Array.append_empty]

/-- A piece of the data does not change how a transfer ends. -/
theorem ending_append {b : Bytes} (hn : ¬ t.size ≤ t.got.size) (hle : b.size ≤ t.wanted)
    (hb : b = m.data.extract t.offset (t.offset + b.size))
    (hr : m.refusal (t.position + t.size) = none) :
    ending { t with got := t.got ++ b } m = t.ending m := by
  have hend := offset_add_wanted hn
  have hin : t.offset + b.size ≤ m.data.size ∨ b.size = 0 := by
    have := congrArg Array.size hb
    rw [Array.size_extract] at this
    omega
  have hsize : (t.got ++ b).size = t.got.size + b.size := Array.size_append
  rw [ending, ending, if_neg hn]
  simp only [hr]
  by_cases hfull : t.size ≤ (t.got ++ b).size
  · have hlast : t.offset + b.size = t.position + t.size := by
      unfold wanted at *
      omega
    have hall : t.position + t.size ≤ m.data.size := by
      unfold wanted at *
      omega
    rw [if_pos hfull, if_pos hall, ← hlast, ← hb]
  · have hnext : offset { t with got := t.got ++ b } = t.offset + b.size := by
      simp only [offset, hsize]
      omega
    have hjoin : m.data.extract t.offset (t.offset + b.size) ++
        m.data.extract (t.offset + b.size) (t.position + t.size) =
        m.data.extract t.offset (t.position + t.size) := by
      rw [Array.extract_append_extract, Nat.min_eq_left (Nat.le_add_right ..),
        Nat.max_eq_right (hend ▸ Nat.add_le_add_left hle _)]
    rw [← hb] at hjoin
    rw [if_neg hfull, hnext, ← hjoin, Array.append_assoc]

/-- The pieces that a transfer gets make up its ending, whatever their sizes. -/
theorem result_of_steady (h : s.Steady m) (t : Transfer) : t.result s = t.ending m := by
  -- every read ends where the transfer does, so all of them are refused, or none is
  have hreply : ∀ {t : Transfer}, ¬ t.size ≤ t.got.size → s.reply t.offset t.wanted =
      match m.refusal (t.position + t.size) with
      | some cause => .error cause
      | none => .ok (m.data.extract t.offset (t.offset + min t.wanted (s.most t.offset))) :=
    fun hn => offset_add_wanted hn ▸ h.reply _ _
  fun_induction result t s with
  | case1 t hfull => rw [ending, if_pos hfull]
  | case2 t hn cause hc =>
    rw [hreply hn] at hc
    rw [ending, if_neg hn]
    split at hc
    · cases hc
      rfl
    · cases hc
  | case3 t hn b hb hz =>
    rw [hreply hn] at hb
    split at hb
    · cases hb
    · rename_i hr
      cases hb
      -- a read that brings nothing is one behind the data
      have hle : m.data.size ≤ t.offset := by
        apply Nat.le_of_not_lt
        intro hlt
        have := h.most _ hlt
        simp only [Array.size_extract, wanted] at hz
        omega
      exact (ending_behind hn hle hr).symm
  | case4 t hn b hb hz ih =>
    obtain ⟨hle, hdata⟩ := Source.reply_ok hb
    rw [h.data] at hdata
    rw [hreply hn] at hb
    split at hb
    · cases hb
    · rename_i hr
      exact ih.trans (ending_append hn hle hdata hr)

/-- How a transfer ends for whoever reads before looking whether anything is missing. -/
def closing (t : Transfer) (m : Medium) : Bytes × Stop :=
  if t.size ≤ t.got.size then
    (t.got, match m.refusal (t.offset + t.wanted) with
      | some cause => .failed cause
      | none => .short)
  else t.ending m

variable {t' : Transfer} {c : ReadCall} {got : Bytes} {stop : Stop}

theorem closing_going (hs : s.Steady m) (h : t.call s = (c, .going t')) :
    t'.closing m = t.closing m := by
  have hr := result_going h
  rw [result_of_steady hs, result_of_steady hs] at hr
  rcases call_going_cases h with rfl | ⟨b, -, -, hlt, rfl⟩
  · rfl
  · have hn : ¬ t.size ≤ t.got.size := by
      rw [Array.size_append] at hlt
      omega
    rw [closing, if_neg (Nat.not_le_of_lt hlt), closing, if_neg hn]
    exact hr

theorem closing_stopped (hs : s.Steady m) (h : t.call s = (c, .stopped got stop)) :
    t.closing m = (got, stop) := by
  by_cases hle : t.size ≤ t.got.size
  · rw [closing, if_pos hle]
    rcases call_stopped_cases h with ⟨cause, hc, rfl, rfl⟩ | ⟨b, hb, hends⟩
    · rw [hs.reply] at hc
      split at hc
      · cases hc
        rfl
      · cases hc
    · -- nothing is missing, so nothing is brought
      have hz : b.size = 0 := by
        have := (Source.reply_ok hb).1
        unfold wanted at this
        omega
      obtain ⟨-, rfl, rfl⟩ | ⟨hn, -⟩ := hends
      · rw [hs.reply] at hb
        split at hb
        · cases hb
        · rfl
      · exact absurd hz hn
  · rw [closing, if_neg hle, ← result_of_steady hs, result_stopped (Nat.lt_of_not_le hle) h]

end Transfer

namespace Index

variable {s s' : Source} {m : Medium}

/-- What an index says hangs on the bytes of a steady source alone. -/
theorem read_steady (h : s.Steady m) (h' : s'.Steady m) (rams : List RamBlock) :
    (read rams s').outcome = (read rams s).outcome ∧
      (read rams s').cleared = (read rams s).cleared ∧ (read rams s).source.Steady m := by
  have ha := h.afterStream 0 8
  have ha' := h'.afterStream 0 8
  unfold read
  simp only [h.stream, h'.stream, ha.stream, ha'.stream]
  split
  · exact ⟨rfl, rfl, ha⟩
  · exact ⟨rfl, rfl, ha.afterStream ..⟩

end Index
end RamRestore
