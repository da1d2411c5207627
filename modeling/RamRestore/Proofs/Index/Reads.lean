import RamRestore.Index.Encoder
import RamRestore.Proofs.Index.Parsed
import RamRestore.Proofs.Packed
import RamRestore.Proofs.Registration

/-! # Readers

What a reader makes of the bytes that were written for it. Each takes exactly these bytes and
leaves alone what stands behind them.
-/

namespace RamRestore.Index

section

variable {α β : Type}

theorem length_bytesOf (n value : Nat) : (bytesOf n value).length = n := by
  induction n generalizing value with
  | zero => rfl
  | succ n ih => simp [bytesOf, ih]

theorem bigEndian_append (bs : List UInt8) (b : UInt8) :
    bigEndian (bs ++ [b]) = 256 * bigEndian bs + b.toNat := by
  simp [bigEndian]

theorem bigEndian_bytesOf (n : Nat) {value : Nat} (h : value < 256 ^ n) :
    bigEndian (bytesOf n value) = value := by
  induction n generalizing value with
  | zero =>
    have hv : value = 0 := by simpa using h
    rw [hv]
    rfl
  | succ n ih =>
    have hq : value / 256 < 256 ^ n := by
      rw [Nat.div_lt_iff_lt_mul (by decide), ← Nat.pow_succ]
      exact h
    rw [bytesOf, bigEndian_append, ih hq, UInt8.toNat_ofNat']
    exact Nat.div_add_mod value 256

/-- From these bytes, and no others, a reader gets this value and notes these zero pages. -/
def Reads (x : Decoder α) (bytes : List UInt8) (zeroes : List (Nat × Nat)) (a : α) : Prop :=
  ∀ (s : Scan) (rest : List UInt8), s.rest = bytes ++ rest →
    x s = .ok a { s with rest, cleared := zeroes.reverse ++ s.cleared }

namespace Reads

variable {x : Decoder α} {f : α → Decoder β} {bytes bytes' : List UInt8}
  {zeroes zeroes' : List (Nat × Nat)} {a : α} {b : β}

theorem pure (a : α) : Reads (Pure.pure a) [] [] a := by
  rintro s rest hs
  rw [List.nil_append] at hs
  subst hs
  rfl

theorem bind (hx : Reads x bytes zeroes a) (hf : Reads (f a) bytes' zeroes' b) :
    Reads (x >>= f) (bytes ++ bytes') (zeroes ++ zeroes') b := by
  intro s rest hs
  rw [List.append_assoc] at hs
  change EStateM.bind x f s = _
  rw [EStateM.bind, hx s _ hs]
  dsimp only
  rw [hf _ rest rfl]
  simp

theorem andThen {all : List UInt8} {allZeroes : List (Nat × Nat)} (hx : Reads x bytes zeroes a)
    (hf : Reads (f a) bytes' zeroes' b) (hb : all = bytes ++ bytes')
    (hz : allZeroes = zeroes ++ zeroes') : Reads (x >>= f) all allZeroes b :=
  hb ▸ hz ▸ hx.bind hf

theorem take (bytes : List UInt8) : Reads (Decoder.take bytes.length) bytes [] bytes := by
  intro s rest hs
  simp [Decoder.take, hs]

theorem word32 {n : Nat} (h : n < word32Count) : Reads Decoder.word32 (bytesOf 4 n) [] n := by
  have ht := Reads.take (bytesOf 4 n)
  rw [length_bytesOf] at ht
  have hb := ht.bind (f := fun bs => Pure.pure (bigEndian bs)) (.pure _)
  rwa [bigEndian_bytesOf 4 h, List.append_nil] at hb

theorem packed {n : Nat} (h : n < word64Count) : Reads Decoder.packed (Packed.write n) [] n := by
  intro s rest hs
  rw [Decoder.packed, hs, Packed.read_write h]
  rfl

theorem delta {d : Int} (h : d.natAbs < 0x8000000000000000) :
    Reads Decoder.delta (Delta.write d) [] d := by
  have hb := (Reads.packed (Delta.encode_lt h)).bind
    (f := fun n => Pure.pure (Delta.decode n)) (.pure _)
  rwa [Delta.decode_encode, List.append_nil] at hb

theorem clear (address length : Nat) :
    Reads (Decoder.clear address length) [] [(address, length)] () := by
  rintro s rest hs
  rw [List.nil_append] at hs
  subst hs
  rfl

end Reads

end

def Entry.zeroes (ram : RamBlock) (k : Nat) : Entry → List (Nat × Nat)
  | .zero => [(ram.pageAddress k, ram.pageSize)]
  | .stored _ _ => []

def zeroEntries (ram : RamBlock) : Nat → List Entry → List (Nat × Nat)
  | _, [] => []
  | k, e :: es => e.zeroes ram k ++ zeroEntries ram (k + 1) es

def Track.Valid (t : Track) : Prop := firstPosition ≤ t.position ∧ t.position < 0x8000000000000000

section

variable {compressed : Bool} {block : Nat} {ram : RamBlock} {t : Track} {e : Entry}
  {size position : Nat}

theorem Track.valid_start : Track.start.Valid := ⟨Int.le_refl _, by decide⟩

theorem Entry.Writable.track_valid (h : e.Writable compressed ram t) (ht : t.Valid) :
    (e.track t).Valid := by
  cases e with
  | zero => exact ht
  | stored size position =>
    obtain ⟨-, hle, hlt, -⟩ := h
    exact ⟨hle, by simp only [Entry.track]; omega⟩

theorem Entry.Writable.size_pos (hr : isPageSize ram.pageSize = true)
    (h : (Entry.stored size position).Writable compressed ram t) : 0 < size := by
  obtain ⟨hs, -⟩ := h
  split at hs
  · exact hs.1
  · rw [hs.1]
    exact (isPageSize_bounds hr).1

theorem Entry.Writable.size_lt (hr : isPageSize ram.pageSize = true)
    (h : (Entry.stored size position).Writable compressed ram t) : size < word32Count := by
  have hp := (isPageSize_bounds hr).2
  obtain ⟨hs, -⟩ := h
  unfold word32Count
  split at hs
  · have := hs.2
    unfold Lz4.maxBlockLength at this
    omega
  · omega

theorem word?_eq {x : Int} (hl : -0x8000000000000000 ≤ x) (hu : x < 0x8000000000000000) :
    word? x = some x := by
  rw [word?, if_pos ⟨hl, hu⟩]

/-- From the way to a page the reader gets its size and how far it is from the page before. -/
theorem distance_way (ht : t.Valid)
    (h : (Entry.stored size position).Writable compressed ram t) :
    distance compressed ram t (if compressed then size else 1) (way compressed ram t position) =
      .ok (size, position - t.position) := by
  obtain ⟨hs, hle, hlt, -⟩ := h
  obtain ⟨htl, htu⟩ := ht
  unfold firstPosition at hle htl
  have hw : word? (position - t.position) = some (position - t.position) :=
    word?_eq (by omega) (by omega)
  cases compressed with
  | true =>
    simp only [↓reduceIte] at hs
    have hway : way true ram t position + t.previous = position - t.position := by
      simp only [way, ↓reduceIte]
      omega
    simp only [distance, ↓reduceIte, if_neg (Nat.not_lt_of_le hs.2), hway, hw]
  | false =>
    simp only [Bool.false_eq_true, ↓reduceIte] at hs
    obtain ⟨rfl, hd⟩ := hs
    have hway : way false ram t position * ram.pageSize = position - t.position := by
      simp only [way, Bool.false_eq_true, ↓reduceIte]
      exact Int.ediv_mul_cancel hd
    simp only [distance, Bool.false_eq_true, ↓reduceIte, ne_eq, not_true_eq_false, hway, hw]

theorem place_way (hr : isPageSize ram.pageSize = true) (ht : t.Valid)
    (h : (Entry.stored size position).Writable compressed ram t) :
    place compressed block ram t (if compressed then size else 1) (way compressed ram t position) =
      .ok ⟨block, size, position⟩ := by
  have hsize := h.size_lt hr
  have hd := distance_way ht h
  obtain ⟨-, hle, hlt, -⟩ := h
  have hp : word? (t.position + (position - t.position)) = some (position : Int) := by
    rw [show t.position + (position - t.position) = (position : Int) by omega]
    unfold firstPosition at hle
    exact word?_eq (by omega) (by omega)
  simp only [place, hd, bind, Except.bind, if_neg (Nat.not_le_of_lt hsize), hp,
    if_neg (Int.not_lt.2 hle)]
  rfl

theorem Reads.pageRecord (hr : isPageSize ram.pageSize = true) (ht : t.Valid)
    (h : e.Writable compressed ram t) (k : Nat) :
    Reads (pageRecord compressed block ram k t) (e.encode compressed ram t) (e.zeroes ram k)
      (e.page block, e.track t) := by
  unfold Index.pageRecord
  cases e with
  | zero =>
    refine (Reads.packed (n := 0) (by decide)).andThen ?_ (List.append_nil _).symm rfl
    rw [if_pos rfl]
    exact (Reads.clear _ _).andThen (.pure _) rfl rfl
  | stored size position =>
    have hw : (if compressed then size else 1) < word64Count := by
      have := h.size_lt hr
      unfold word32Count at this
      unfold word64Count
      split <;> omega
    have hne : (if compressed then size else 1) ≠ 0 := by
      have := h.size_pos hr
      split <;> omega
    refine (Reads.packed hw).andThen ?_ rfl rfl
    rw [if_neg hne]
    refine (Reads.delta h.2.2.2).andThen ?_ (List.append_nil _).symm rfl
    rw [place_way hr ht h]
    exact .pure _

theorem Reads.pageRecords {es : List Entry} (hr : isPageSize ram.pageSize = true) (ht : t.Valid)
    (h : WritableEntries compressed ram t es) (k : Nat) (pages : Array Page) :
    Reads (pageRecords compressed block ram es.length k t pages) (encodeEntries compressed ram t es)
      (zeroEntries ram k es)
      (pages ++ (es.map (Entry.page block)).toArray, es.foldl Entry.track t) := by
  induction es generalizing k t pages with
  | nil => simpa [Index.pageRecords, encodeEntries, zeroEntries] using Reads.pure (pages, t)
  | cons e es ih =>
    obtain ⟨he, hes⟩ := h
    have hrest := ih (he.track_valid ht) hes (k + 1) (pages.push (e.page block))
    rw [show pages.push (e.page block) ++ (es.map (Entry.page block)).toArray =
      pages ++ ((e :: es).map (Entry.page block)).toArray by simp] at hrest
    exact (Reads.pageRecord hr ht he k).andThen hrest rfl rfl

theorem WritableEntries.track_valid {es : List Entry} (ht : t.Valid)
    (h : WritableEntries compressed ram t es) : (es.foldl Entry.track t).Valid := by
  induction es generalizing t with
  | nil => exact ht
  | cons e es ih => exact ih (h.1.track_valid ht) h.2

end

end RamRestore.Index
