import Mathlib.Data.List.Basic
import RamRestore.Lz4.Sequence
import RamRestore.Unpack

/-! # Unpacking and sequences

A page unpacks if and only if its block is a way to write sequences that come to exactly as many
bytes as the page has.
-/

namespace RamRestore.Lz4

section

variable {n m k nib : Nat} {bytes rest : List UInt8}

theorem nibble_lt (n : Nat) : nibble n < 16 := by
  unfold nibble
  omega

theorem high_lt (b : UInt8) : b.toNat / 16 < 16 := by
  have := b.toNat_lt
  omega

theorem low_lt (b : UInt8) : b.toNat % 16 < 16 := Nat.mod_lt _ (by decide)

theorem toNat_token (literals : Nat) {low : Nat} (h : low < 16) :
    (token literals low).toNat / 16 = nibble literals ∧ (token literals low).toNat % 16 = low := by
  have hb : (token literals low).toNat = 16 * nibble literals + low := by
    unfold token nibble
    rw [UInt8.toNat_ofNat']
    omega
  rw [hb]
  omega

theorem eq_token {b : UInt8} {literals low : Nat} (hh : b.toNat / 16 = nibble literals)
    (hl : b.toNat % 16 = low) : b = token literals low := by
  apply UInt8.toNat_inj.1
  have hlow : low < 16 := by omega
  have ht := toNat_token literals hlow
  omega

theorem extend_replicate (n q : Nat) {b : UInt8} (hb : b ≠ 255) (rest : List UInt8) :
    extend n (List.replicate q 255 ++ b :: rest) = some (n + 255 * q + b.toNat, rest) := by
  induction q generalizing n with
  | zero => simp [extend, hb]
  | succ q ih =>
    rw [List.replicate_succ, List.cons_append, extend, if_pos rfl, ih]
    congr 2
    omega

/-- The bytes that add to a length are as many of 255 as there are, and one that is less. -/
theorem extend_eq_some (h : extend n bytes = some (m, rest)) :
    ∃ q b, b ≠ 255 ∧ m = n + 255 * q + b.toNat ∧ bytes = List.replicate q 255 ++ b :: rest := by
  induction bytes generalizing n with
  | nil => simp [extend] at h
  | cons b bytes ih =>
    rw [extend] at h
    split at h
    · rename_i hb
      obtain ⟨q, b', hb', hm, rfl⟩ := ih h
      refine ⟨q + 1, b', hb', by omega, ?_⟩
      rw [hb, List.replicate_succ, List.cons_append]
    · rename_i hb
      obtain ⟨rfl, rfl⟩ := Prod.mk.inj (Option.some.inj h)
      exact ⟨0, b, hb, by omega, rfl⟩

theorem extend_eq_some_iff :
    extend 15 bytes = some (m, rest) ↔ 15 ≤ m ∧ bytes = lengthBytes m ++ rest := by
  constructor
  · intro h
    obtain ⟨q, b, hb, rfl, rfl⟩ := extend_eq_some h
    have hlt : b.toNat < 255 := by
      have := b.toNat_lt
      have : b.toNat ≠ 255 := fun he => hb (UInt8.toNat_inj.1 he)
      omega
    have hq : (15 + 255 * q + b.toNat - 15) / 255 = q := by omega
    have hr : (15 + 255 * q + b.toNat - 15) % 255 = b.toNat := by omega
    refine ⟨by omega, ?_⟩
    rw [lengthBytes, if_neg (by omega), hq, hr, UInt8.ofNat_toNat]
    simp
  · rintro ⟨hm, rfl⟩
    have hb : (UInt8.ofNat ((m - 15) % 255)).toNat = (m - 15) % 255 := by
      rw [UInt8.toNat_ofNat']
      omega
    have hne : UInt8.ofNat ((m - 15) % 255) ≠ 255 := by
      intro he
      have h255 : (255 : UInt8).toNat = 255 := rfl
      rw [he, h255] at hb
      omega
    rw [lengthBytes, if_neg (by omega), List.append_assoc, List.singleton_append,
      extend_replicate 15 _ hne, hb]
    congr 2
    omega

/-- A length is read from its token and the bytes behind it as it is written there. -/
theorem length_eq_some_iff (hn : nib < 16) :
    length nib bytes = some (m, rest) ↔ nib = nibble m ∧ bytes = lengthBytes m ++ rest := by
  unfold length
  by_cases hlong : nib = 15
  · have hm : 15 ≤ m ↔ nib = nibble m := by
      unfold nibble
      omega
    rw [if_pos hlong, extend_eq_some_iff, hm]
  · rw [if_neg hlong]
    constructor
    · intro h
      obtain ⟨rfl, rfl⟩ := Prod.mk.inj (Option.some.inj h)
      refine ⟨(Nat.min_eq_left (by omega)).symm, ?_⟩
      rw [lengthBytes, if_pos (by omega), List.nil_append]
    · rintro ⟨rfl, rfl⟩
      have hm : m < 15 := by
        unfold nibble at hlong
        omega
      rw [lengthBytes, if_pos hm, List.nil_append, nibble, Nat.min_eq_left (Nat.le_of_lt hm)]

@[simp] theorem length_stretch (out : List UInt8) (offset n : Nat) :
    (stretch out offset n).length = n := by
  simp [stretch]

theorem stretch_succ {out : List UInt8} {offset : Nat} (hpos : 0 < offset)
    (hle : offset ≤ out.length) (n : Nat) :
    stretch out offset (n + 1) =
      out.getD (out.length - offset) 0 ::
        stretch (out ++ [out.getD (out.length - offset) 0]) offset n := by
  unfold stretch
  rw [List.range_succ_eq_map, List.map_cons, Nat.zero_mod, Nat.add_zero, List.map_map]
  congr 1
  apply List.map_congr_left
  intro k _
  simp only [Function.comp_apply, List.length_append, List.length_singleton]
  have hk : k % offset < offset := Nat.mod_lt k hpos
  by_cases hlast : k % offset = offset - 1
  · have hsucc : (k + 1) % offset = 0 := by
      rw [Nat.add_mod, hlast]
      by_cases hone : offset = 1
      · simp [hone]
      · rw [Nat.mod_eq_of_lt (a := 1) (by omega), Nat.sub_add_cancel hpos, Nat.mod_self]
    have hend : out.length + 1 - offset + k % offset = out.length := by omega
    rw [hend, hsucc, Nat.add_zero]
    simp
  · have hsucc : (k + 1) % offset = k % offset + 1 := by
      have hone : 1 % offset = 1 := Nat.mod_eq_of_lt (by omega)
      rw [Nat.add_mod, hone, Nat.mod_eq_of_lt (by omega)]
    have hidx : out.length + 1 - offset + k % offset = out.length - offset + (k % offset + 1) := by
      omega
    rw [hidx, hsucc]
    have hlt : out.length - offset + (k % offset + 1) < out.length := by omega
    simp [List.getD_eq_getElem?_getD, List.getElem?_append_left hlt]

/-- Copying byte by byte repeats the last bytes, also where it reads what it has just written. -/
theorem toList_repeatFrom {out : Bytes} {offset : Nat} (hpos : 0 < offset)
    (hle : offset ≤ out.size) (n : Nat) :
    (repeatFrom out offset n).toList = out.toList ++ stretch out.toList offset n := by
  induction n generalizing out with
  | zero => simp [repeatFrom, stretch]
  | succ n ih =>
    have hget : out.getD (out.size - offset) 0 =
        out.toList.getD (out.toList.length - offset) 0 := by
      simp [Array.getD_eq_getD_getElem?, List.getD_eq_getElem?_getD]
    rw [repeatFrom, ih (by rw [Array.size_push]; omega), Array.toList_push, hget,
      stretch_succ hpos hle, List.append_assoc, List.singleton_append]

@[simp] theorem size_repeatFrom (out : Bytes) (offset n : Nat) :
    (repeatFrom out offset n).size = out.size + n := by
  induction n generalizing out with
  | zero => rfl
  | succ n ih =>
    rw [repeatFrom, ih, Array.size_push]
    omega

end

section

variable {room nib : Nat} {out out' : Bytes} {bytes rest : List UInt8}

theorem copyLiterals_eq_ok_iff (hn : nib < 16) :
    copyLiterals room nib out bytes = .ok (out', rest) ↔
      ∃ literals, nib = nibble literals.length ∧
        bytes = lengthBytes literals.length ++ literals ++ rest ∧
        out'.toList = out.toList ++ literals ∧ out'.size ≤ room := by
  unfold copyLiterals
  constructor
  · intro h
    split at h
    · cases h
    · rename_i n r hl
      obtain ⟨hnib, rfl⟩ := (length_eq_some_iff hn).1 hl
      split at h
      · cases h
      · split at h
        · cases h
        · obtain ⟨rfl, rfl⟩ := Prod.mk.inj (Except.ok.inj h)
          have htake : (r.take n).length = n := by
            rw [List.length_take]
            omega
          refine ⟨r.take n, by rw [htake, hnib], ?_, by simp, ?_⟩
          · rw [htake, List.append_assoc, List.take_append_drop]
          · simp only [Array.size_append, List.size_toArray, htake]
            omega
  · rintro ⟨literals, hnib, rfl, ho, hroom⟩
    have hl : length nib (lengthBytes literals.length ++ literals ++ rest) =
        some (literals.length, literals ++ rest) :=
      (length_eq_some_iff hn).2 ⟨hnib, List.append_assoc ..⟩
    have hsize : out'.size = out.size + literals.length := by
      have := congrArg List.length ho
      simpa using this
    have hout : out' = out ++ literals.toArray := by
      apply Array.toList_inj.1
      rw [ho]
      simp
    rw [hl]
    dsimp only
    rw [if_neg (by rw [List.length_append]; omega), if_neg (by omega), List.take_left' rfl,
      List.drop_left' rfl, hout]

theorem copyMatch_eq_done_iff : copyMatch room nib out bytes = .ok .done ↔ bytes = [] := by
  constructor
  · intro h
    unfold copyMatch at h
    split at h
    · rfl
    · cases h
    · dsimp only at h
      split at h
      · cases h
      · split at h
        · cases h
        · split at h
          · cases h
          · split at h <;> cases h
  · rintro rfl
    rfl

theorem offset_bytes {offset : Nat} (h : offset < 65536) :
    (UInt8.ofNat offset).toNat + 256 * (UInt8.ofNat (offset / 256)).toNat = offset := by
  rw [UInt8.toNat_ofNat', UInt8.toNat_ofNat']
  omega

theorem ofNat_offset (lo hi : UInt8) :
    UInt8.ofNat (lo.toNat + 256 * hi.toNat) = lo ∧
      UInt8.ofNat ((lo.toNat + 256 * hi.toNat) / 256) = hi := by
  have hlo := lo.toNat_lt
  have hhi := hi.toNat_lt
  constructor <;> (apply UInt8.toNat_inj.1; rw [UInt8.toNat_ofNat']; omega)

/-- The checks of a match: its offset, the length behind it, the room, and where it begins. -/
theorem copyMatch_cons_eq_copied_iff {lo hi : UInt8} :
    copyMatch room nib out (lo :: hi :: bytes) = .ok (.copied out' rest) ↔
      ∃ n, length nib bytes = some (n, rest) ∧ 0 < lo.toNat + 256 * hi.toNat ∧
        lo.toNat + 256 * hi.toNat ≤ out.size ∧ out.size + (n + 4) ≤ room ∧
        out' = repeatFrom out (lo.toNat + 256 * hi.toNat) (n + 4) := by
  unfold copyMatch
  dsimp only
  constructor
  · intro h
    split at h
    · cases h
    · rename_i hpos
      split at h
      · cases h
      · rename_i n _ hl
        split at h
        · cases h
        · split at h
          · cases h
          · rename_i hroom hreach
            cases h
            exact ⟨n, hl, Nat.pos_of_ne_zero hpos, Nat.le_of_not_lt hreach,
              Nat.le_of_not_lt hroom, rfl⟩
  · rintro ⟨n, hl, hpos, hreach, hroom, rfl⟩
    rw [hl, if_neg (Nat.ne_of_gt hpos)]
    dsimp only
    rw [if_neg (Nat.not_lt_of_le hroom), if_neg (Nat.not_lt_of_le hreach)]

theorem copyMatch_eq_copied_iff (hn : nib < 16) :
    copyMatch room nib out bytes = .ok (.copied out' rest) ↔
      ∃ offset n, 0 < offset ∧ offset < 65536 ∧ 4 ≤ n ∧ nib = nibble (n - 4) ∧
        bytes = UInt8.ofNat offset :: UInt8.ofNat (offset / 256) :: (lengthBytes (n - 4) ++ rest) ∧
        offset ≤ out.size ∧ out'.toList = out.toList ++ stretch out.toList offset n ∧
        out'.size ≤ room := by
  constructor
  · intro h
    match bytes with
    | [] | [_] => cases h
    | lo :: hi :: r =>
      obtain ⟨n, hl, hpos, hreach, hroom, rfl⟩ := copyMatch_cons_eq_copied_iff.1 h
      obtain ⟨hnib, rfl⟩ := (length_eq_some_iff hn).1 hl
      have hlt := lo.toNat_lt
      have hlt' := hi.toNat_lt
      obtain ⟨hlo, hhi⟩ := ofNat_offset lo hi
      refine ⟨_, n + 4, hpos, by omega, by omega, hnib, ?_, hreach,
        toList_repeatFrom hpos hreach _, by simpa using hroom⟩
      rw [hlo, hhi, Nat.add_sub_cancel]
  · rintro ⟨offset, n, hpos, hlt, hfour, hnib, rfl, hreach, ho, hroom⟩
    have hout : out' = repeatFrom out offset n := by
      apply Array.toList_inj.1
      rw [ho, toList_repeatFrom hpos hreach]
    subst hout
    rw [size_repeatFrom] at hroom
    refine copyMatch_cons_eq_copied_iff.2 ⟨n - 4, (length_eq_some_iff hn).2 ⟨hnib, rfl⟩, ?_⟩
    rw [offset_bytes hlt, Nat.sub_add_cancel hfour]
    exact ⟨hpos, hreach, hroom, rfl⟩

/-- From `out` on, these bytes are a way to write a block, and the block comes to this. -/
structure Writes (out bytes : List UInt8) (b : Block) (page : List UInt8) : Prop where
  reach : Sequence.AllReach out b.sequences
  encode : bytes = b.encode
  page : page = b.sequences.foldl Sequence.produce out ++ b.literals

def Block.cons (s : Sequence) (b : Block) : Block := { b with sequences := s :: b.sequences }

theorem Writes.cons {s : Sequence} {b : Block} {out bytes page : List UInt8}
    (hs : Sequence.Reaches out s) (h : Writes (Sequence.produce out s) bytes b page) :
    Writes out (s.encode ++ bytes) (b.cons s) page where
  reach := ⟨hs, h.reach⟩
  encode := by simp [h.encode, Block.encode, Block.cons]
  page := h.page

theorem length_le_foldl_produce (out : List UInt8) (ss : List Sequence) :
    out.length ≤ (ss.foldl Sequence.produce out).length := by
  induction ss generalizing out with
  | nil => exact Nat.le_refl _
  | cons s ss ih =>
    refine Nat.le_trans ?_ (ih (Sequence.produce out s))
    simp only [Sequence.produce, List.length_append]
    omega

/-- What decodes is a way to write some block. -/
theorem exists_writes_of_decodeFrom {page : Bytes} (h : decodeFrom room out bytes = .ok page) :
    (∃ b, Writes out.toList bytes b page.toList) ∧ page.size ≤ room := by
  fun_induction decodeFrom room out bytes with
  | case1 => cases h
  | case2 => cases h
  | case3 => cases h
  | case4 out token bytes out₁ rest hl hm =>
    cases h
    obtain ⟨literals, hh, rfl, ho, hroom⟩ :=
      (copyLiterals_eq_ok_iff (high_lt token)).1 hl
    obtain rfl := copyMatch_eq_done_iff.1 hm
    refine ⟨⟨⟨[], literals, ⟨token.toNat % 16, low_lt token⟩⟩, trivial, ?_, ho⟩, hroom⟩
    have ht : token = Lz4.token literals.length (token.toNat % 16) := eq_token hh rfl
    simp [Block.encode, ← ht]
  | case5 out token bytes out₁ rest hl out₂ rest' hm ih =>
    obtain ⟨⟨b, hb⟩, hroom⟩ := ih h
    refine ⟨?_, hroom⟩
    obtain ⟨literals, hh, rfl, ho, -⟩ :=
      (copyLiterals_eq_ok_iff (high_lt token)).1 hl
    obtain ⟨offset, n, hpos, hlt, hfour, hlow, rfl, hreach, ho', -⟩ :=
      (copyMatch_eq_copied_iff (low_lt token)).1 hm
    let s : Sequence := ⟨literals, offset, n, hpos, hlt, hfour⟩
    have hproduce : out₂.toList = Sequence.produce out.toList s := by
      rw [ho', ho]
      rfl
    have hs : Sequence.Reaches out.toList s := by
      unfold Sequence.Reaches
      rw [← ho]
      exact hreach
    refine ⟨b.cons s, ?_⟩
    have hw := Writes.cons hs (hproduce ▸ hb)
    have he : s.encode ++ rest' = token :: (lengthBytes literals.length ++ literals ++
        (UInt8.ofNat offset :: UInt8.ofNat (offset / 256) :: (lengthBytes (n - 4) ++ rest'))) := by
      rw [eq_token hh hlow]
      simp [Sequence.encode, s]
    rwa [he] at hw

section

variable {token : UInt8} {out₁ out₂ : Bytes} {rest' : List UInt8}

theorem decodeFrom_done
    (hl : copyLiterals room (token.toNat / 16) out bytes = .ok (out₁, [])) :
    decodeFrom room out (token :: bytes) = .ok out₁ := by
  rw [decodeFrom]
  split
  · simp [hl] at *
  · rename_i h
    rw [hl] at h
    cases h
    rfl

theorem decodeFrom_copied
    (hl : copyLiterals room (token.toNat / 16) out bytes = .ok (out₁, rest))
    (hm : copyMatch room (token.toNat % 16) out₁ rest = .ok (.copied out₂ rest')) :
    decodeFrom room out (token :: bytes) = decodeFrom room out₂ rest' := by
  rw [decodeFrom]
  split
  · simp [hl] at *
  · rename_i h
    rw [hl] at h
    cases h
    split
    · simp [hm] at *
    · simp [hm] at *
    · rename_i h'
      rw [hm] at h'
      cases h'
      rfl

end

theorem decodeFrom_encode {s : Sequence} {out' : Bytes} (hs : Sequence.Reaches out.toList s)
    (ho : out'.toList = Sequence.produce out.toList s) (hroom : out'.size ≤ room) :
    decodeFrom room out (s.encode ++ rest) = decodeFrom room out' rest := by
  obtain ⟨hhigh, hlow⟩ := toNat_token s.literals.length (nibble_lt (s.length - 4))
  let out₁ : Bytes := out ++ s.literals.toArray
  have ho₁ : out₁.toList = out.toList ++ s.literals := by simp [out₁]
  have ho' : out'.toList = out₁.toList ++ stretch out₁.toList s.offset s.length := by
    rw [ho, ho₁]
    rfl
  have hle : out₁.size ≤ out'.size := by
    have hsize := congrArg List.length ho'
    simp only [List.length_append, Array.length_toList] at hsize
    omega
  have hreach : s.offset ≤ out₁.size := by
    unfold Sequence.Reaches at hs
    rwa [← ho₁] at hs
  have he : s.encode ++ rest = token s.literals.length (nibble (s.length - 4)) ::
      (lengthBytes s.literals.length ++ s.literals ++ (UInt8.ofNat s.offset ::
        UInt8.ofNat (s.offset / 256) :: (lengthBytes (s.length - 4) ++ rest))) := by
    simp [Sequence.encode]
  have hliterals : ∀ tail, copyLiterals room
      ((token s.literals.length (nibble (s.length - 4))).toNat / 16) out
      (lengthBytes s.literals.length ++ s.literals ++ tail) = .ok (out₁, tail) := fun tail =>
    (copyLiterals_eq_ok_iff (high_lt _)).2
      ⟨s.literals, hhigh, rfl, ho₁, Nat.le_trans hle hroom⟩
  rw [he]
  refine decodeFrom_copied (hliterals _) ((copyMatch_eq_copied_iff (low_lt _)).2 ?_)
  exact ⟨s.offset, s.length, s.offset_pos, s.offset_lt, s.four_le_length, hlow, rfl, hreach, ho',
    hroom⟩

/-- A way to write a block decodes, if what the block comes to fits into the room. -/
theorem decodeFrom_of_writes {b : Block} {page : Bytes}
    (h : Writes out.toList bytes b page.toList) (hroom : page.size ≤ room) :
    decodeFrom room out bytes = .ok page := by
  obtain ⟨ss, literals, unused⟩ := b
  obtain ⟨hr, rfl, hp⟩ := h
  dsimp only at hr hp
  induction ss generalizing out with
  | nil =>
    have hhigh := (toNat_token literals.length unused.isLt).1
    exact decodeFrom_done ((copyLiterals_eq_ok_iff (high_lt _)).2
      ⟨literals, hhigh, (List.append_nil _).symm, hp, hroom⟩)
  | cons s ss ih =>
    obtain ⟨hs, hr⟩ := hr
    have hle : (Sequence.produce out.toList s).length ≤ room := by
      have hle := length_le_foldl_produce (Sequence.produce out.toList s) ss
      have hsize := congrArg List.length hp
      simp only [List.foldl_cons, List.length_append, Array.length_toList] at hsize
      omega
    have he : Block.encode ⟨s :: ss, literals, unused⟩ =
        s.encode ++ Block.encode ⟨ss, literals, unused⟩ := by simp [Block.encode]
    have hstep : decodeFrom room out (s.encode ++ Block.encode ⟨ss, literals, unused⟩) =
        decodeFrom room (Sequence.produce out.toList s).toArray _ := decodeFrom_encode hs rfl hle
    rw [he, hstep]
    exact ih hr hp

/-- Decoding accepts exactly the ways to write blocks for which there is room. -/
theorem decode_eq_ok_iff {page : Bytes} :
    decode room bytes = .ok page ↔
      (∃ b : Block, b.WellFormed ∧ bytes = b.encode ∧ page.toList = b.contents) ∧
        page.size ≤ room := by
  constructor
  · intro h
    obtain ⟨⟨b, hr, he, hp⟩, hroom⟩ := exists_writes_of_decodeFrom h
    exact ⟨⟨b, hr, he, hp⟩, hroom⟩
  · rintro ⟨⟨b, hr, he, hp⟩, hroom⟩
    exact decodeFrom_of_writes ⟨hr, he, hp⟩ hroom

end

end RamRestore.Lz4

namespace RamRestore

/--
Unpacking accepts exactly the LZ4 blocks of the page's size: a page comes out if and only if the
bytes are a way to write sequences and last literals, no match begins before the first byte, and
the page is what they stand for and has the given size. Otherwise there is an error.
-/
theorem unpack_accepts (size : Nat) (bytes : List UInt8) :
    (∀ page, unpack size bytes = .ok page ↔
      ∃ b : Lz4.Block, b.WellFormed ∧ bytes = b.encode ∧ page.toList = b.contents ∧
        page.size = size) ∧
      ((∃ cause, unpack size bytes = .error cause) ↔
        ¬ ∃ b : Lz4.Block, b.WellFormed ∧ bytes = b.encode ∧ b.contents.length = size) := by
  have hiff : ∀ page, unpack size bytes = .ok page ↔
      ∃ b : Lz4.Block, b.WellFormed ∧ bytes = b.encode ∧ page.toList = b.contents ∧
        page.size = size := by
    intro page
    rw [unpack_eq_ok_iff, Lz4.decode_eq_ok_iff]
    constructor
    · rintro ⟨⟨⟨b, hw, he, hp⟩, -⟩, hs⟩
      exact ⟨b, hw, he, hp, hs⟩
    · rintro ⟨b, hw, he, hp, hs⟩
      exact ⟨⟨⟨b, hw, he, hp⟩, Nat.le_of_eq hs⟩, hs⟩
  refine ⟨hiff, ?_⟩
  constructor
  · rintro ⟨cause, hcause⟩ ⟨b, hw, he, hs⟩
    have hok := (hiff b.contents.toArray).2 ⟨b, hw, he, rfl, hs⟩
    rw [hcause] at hok
    cases hok
  · intro hn
    cases hu : unpack size bytes with
    | error cause => exact ⟨cause, rfl⟩
    | ok page =>
      obtain ⟨b, hw, he, hp, hs⟩ := (hiff page).1 hu
      refine absurd ⟨b, hw, he, ?_⟩ hn
      rw [← hp]
      exact hs

/-- A match that reads what it writes: seven literals and then their last two, three times over. -/
example : unpack 13 [0x72, 1, 2, 3, 4, 5, 6, 7, 2, 0, 0x00] =
    .ok #[1, 2, 3, 4, 5, 6, 7, 6, 7, 6, 7, 6, 7] := by
  decide +kernel

end RamRestore
