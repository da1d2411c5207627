import RamRestore.Json.Text
import RamRestore.Proofs.Text

/-! # Strings are read back

A string stands for the characters of its pieces. Reading it adds piece after piece to what it
holds so far, and a half of a pair that is left alone spoils it for good.
-/

namespace RamRestore.Json

open Token (Content lexString)

theorem hexDigit?_byte (d : HexDigit) : Token.hexDigit? d.byte = some d.value.val := by
  obtain ⟨v, u⟩ := d
  revert v u
  decide

theorem CodeUnit.unit?_bytes (u : CodeUnit) :
    Token.unit? u.first.byte u.second.byte u.third.byte u.fourth.byte = some u.value := by
  simp only [Token.unit?, hexDigit?_byte, Option.bind_eq_bind, Option.bind_some, Option.pure_def,
    Option.some.injEq, CodeUnit.value]
  omega

theorem plain_bytes {c : Char} (h : 0x20 ≤ c.toNat ∧ c.toNat ≠ 0x22 ∧ c.toNat ≠ 0x5C) :
    ∀ b ∈ String.utf8EncodeChar c, b ≠ 0x22 ∧ ¬b < 0x20 ∧ b ≠ 0x5C := by
  have hlt : c.toNat < 0x110000 := by
    rcases c.valid with h | h <;> simp only [Char.toNat] <;> omega
  have hbyte : ∀ n, n < 256 → 0x20 ≤ n → n ≠ 0x22 → n ≠ 0x5C →
      UInt8.ofNat n ≠ 0x22 ∧ ¬UInt8.ofNat n < 0x20 ∧ UInt8.ofNat n ≠ 0x5C := by
    intro n hn hcontrol hquote hbackslash
    rw [Ne, Ne, ← UInt8.toNat_inj, ← UInt8.toNat_inj, UInt8.lt_iff_toNat_lt, Text.toNat_ofNat hn]
    exact ⟨hquote, Nat.not_lt.2 hcontrol, hbackslash⟩
  unfold String.utf8EncodeChar
  change 0x20 ≤ c.val.toNat ∧ c.val.toNat ≠ 0x22 ∧ c.val.toNat ≠ 0x5C at h
  generalize c.val.toNat = n at h
  dsimp only
  intro b hb
  split at hb
  · rw [List.mem_singleton.1 hb]
    exact hbyte n (by omega) h.1 h.2.1 h.2.2
  · -- every byte of a longer character is 0x80 or more
    obtain ⟨k, hk, hk', rfl⟩ : ∃ k, 0x80 ≤ k ∧ k < 256 ∧ b = UInt8.ofNat k := by
      split at hb
      · simp only [List.mem_cons, List.not_mem_nil, or_false] at hb
        rcases hb with rfl | rfl <;> exact ⟨_, by omega, by omega, rfl⟩
      · split at hb
        · simp only [List.mem_cons, List.not_mem_nil, or_false] at hb
          rcases hb with rfl | rfl | rfl <;> exact ⟨_, by omega, by omega, rfl⟩
        · simp only [List.mem_cons, List.not_mem_nil, or_false] at hb
          rcases hb with rfl | rfl | rfl | rfl <;> exact ⟨_, by omega, by omega, rfl⟩
    exact hbyte k hk' (by omega) (by omega) (by omega)

namespace Content

def pushChar (c : Content) (char : Char) : Content :=
  (String.utf8EncodeChar char).foldl Content.push c

def add (c : Content) : Piece → Content
  | .plain char _ => pushChar c char
  | .escape e => pushChar c e.char
  | .unit u => c.pushUnit u.value

end Content

/-! ## A string is scanned piece by piece -/

theorem lexString_bytes (c : Content) {bs : List UInt8}
    (h : ∀ b ∈ bs, b ≠ 0x22 ∧ ¬b < 0x20 ∧ b ≠ 0x5C) (rest : List UInt8) :
    lexString c (bs ++ rest) = lexString (bs.foldl Content.push c) rest := by
  induction bs generalizing c with
  | nil => rfl
  | cons b bs ih =>
    obtain ⟨hquote, hcontrol, hbackslash⟩ := h b List.mem_cons_self
    rw [List.cons_append, Token.lexString.eq_def]
    dsimp only
    rw [if_neg hquote, if_neg hcontrol, if_neg hbackslash,
      ih _ fun b hb => h b (List.mem_cons_of_mem _ hb), List.foldl_cons]

theorem lexString_escape (c : Content) (e : Escape) (rest : List UInt8) :
    lexString c (0x5C :: e.letter :: rest) = lexString (Content.pushChar c e.char) rest := by
  cases e <;> rw [Token.lexString.eq_def] <;> rfl

theorem lexString_unit (c : Content) (u : CodeUnit) (rest : List UInt8) :
    lexString c (0x5C :: 0x75 :: (u.digits ++ rest)) = lexString (c.pushUnit u.value) rest := by
  rw [CodeUnit.digits, Token.lexString.eq_def]
  simp only [List.cons_append, List.nil_append, u.unit?_bytes]
  rfl

theorem lexString_piece (c : Content) (p : Piece) (rest : List UInt8) :
    lexString c (p.bytes ++ rest) = lexString (Content.add c p) rest := by
  cases p with
  | plain char h => exact lexString_bytes c (plain_bytes h) rest
  | escape e => exact lexString_escape c e rest
  | unit u => exact lexString_unit c u rest

theorem lexString_pieces (c : Content) (ps : List Piece) (rest : List UInt8) :
    lexString c (ps.flatMap Piece.bytes ++ 0x22 :: rest) =
      some ((ps.foldl Content.add c).text?, rest) := by
  induction ps generalizing c with
  | nil =>
    rw [List.flatMap_nil, List.nil_append, Token.lexString.eq_def]
    rfl
  | cons p ps ih => rw [List.flatMap_cons, List.append_assoc, lexString_piece, ih, List.foldl_cons]

/-! ## The pieces stand for their characters -/

namespace Content

/-- What a string holds behind these characters. -/
def ofChars (cs : List Char) : Content := { bytes := (cs.flatMap String.utf8EncodeChar).reverse }

theorem text?_ofChars (cs : List Char) : (ofChars cs).text? = some (String.ofList cs) := by
  simp only [ofChars, Content.text?, Option.isNone_none, Bool.and_self, if_true,
    List.reverse_reverse, Text.decode?_encodeChars]

theorem foldl_push (c : Content) (hc : c.leading = none) (bs : List UInt8) :
    bs.foldl Content.push c = { c with bytes := bs.reverse ++ c.bytes } := by
  induction bs generalizing c with
  | nil => rfl
  | cons b bs ih =>
    rw [List.foldl_cons, ih _ rfl]
    simp [Content.push, hc]

theorem bytes_ofChars_append (cs : List Char) (char : Char) :
    (String.utf8EncodeChar char).reverse ++ (ofChars cs).bytes =
      (ofChars (cs ++ [char])).bytes := by
  simp [ofChars]

theorem pushChar_ofChars (cs : List Char) (char : Char) :
    pushChar (ofChars cs) char = ofChars (cs ++ [char]) := by
  rw [pushChar, foldl_push _ rfl, bytes_ofChars_append]
  rfl

def Spoilt (c : Content) : Prop := c.wellFormed = false

theorem Spoilt.text? {c : Content} (h : Spoilt c) : c.text? = none := by
  rw [Content.text?, show c.wellFormed = false from h]
  rfl

theorem Spoilt.push {c : Content} (h : Spoilt c) (b : UInt8) : Spoilt (c.push b) := by
  simp only [Spoilt, Content.push, show c.wellFormed = false from h, Bool.false_and]

theorem Spoilt.pushAll {c : Content} (h : Spoilt c) (bs : List UInt8) :
    Spoilt (bs.foldl Content.push c) := by
  induction bs generalizing c with
  | nil => exact h
  | cons b bs ih => exact ih (h.push b)

theorem Spoilt.pushUnit {c : Content} (h : Spoilt c) (u : Nat) : Spoilt (c.pushUnit u) := by
  unfold Content.pushUnit
  split
  · split
    · exact h
    · split
      · rfl
      · exact show c.wellFormed = false from h
  · split
    · exact show c.wellFormed = false from h
    · rfl

theorem Spoilt.add {c : Content} (h : Spoilt c) (p : Piece) : Spoilt (add c p) := by
  cases p with
  | plain char => exact h.pushAll _
  | escape e => exact h.pushAll _
  | unit u => exact h.pushUnit _

theorem Spoilt.addAll {c : Content} (h : Spoilt c) (ps : List Piece) :
    Spoilt (ps.foldl Content.add c) := by
  induction ps generalizing c with
  | nil => exact h
  | cons p ps ih => exact ih (h.add p)

theorem pushUnit_leading (cs : List Char) {u : CodeUnit} (h : u.IsLeading) :
    (ofChars cs).pushUnit u.value = { ofChars cs with leading := some u.value } := if_pos h

theorem pushUnit_alone (cs : List Char) {u : CodeUnit} (h : ¬u.IsLeading) (ht : ¬u.IsTrailing) :
    (ofChars cs).pushUnit u.value = ofChars (cs ++ [u.char]) := by
  rw [Content.pushUnit, show (ofChars cs).leading = none from rfl]
  dsimp only
  rw [if_neg (show ¬(0xD800 ≤ u.value ∧ u.value ≤ 0xDBFF) from h),
    if_neg (show ¬(0xDC00 ≤ u.value ∧ u.value ≤ 0xDFFF) from ht), ← CodeUnit.char,
    bytes_ofChars_append]
  rfl

theorem pushUnit_trailing (cs : List Char) {u : CodeUnit} (h : ¬u.IsLeading) (ht : u.IsTrailing) :
    Spoilt ((ofChars cs).pushUnit u.value) := by
  rw [Content.pushUnit, show (ofChars cs).leading = none from rfl]
  dsimp only
  rw [if_neg (show ¬(0xD800 ≤ u.value ∧ u.value ≤ 0xDBFF) from h),
    if_pos (show 0xDC00 ≤ u.value ∧ u.value ≤ 0xDFFF from ht)]
  rfl

theorem pushUnit_pair (cs : List Char) (u : CodeUnit) {v : CodeUnit} (h : v.IsTrailing) :
    ({ ofChars cs with leading := some u.value } : Content).pushUnit v.value =
      ofChars (cs ++ [u.pairChar v]) := by
  rw [Content.pushUnit]
  dsimp only
  rw [if_pos (show 0xDC00 ≤ v.value ∧ v.value ≤ 0xDFFF from h), ← CodeUnit.pairChar,
    bytes_ofChars_append]
  rfl

/-- The second half of a pair does not come. -/
theorem text?_half (cs : List Char) (n : Nat) {ps : List Piece}
    (h : ∀ v qs, ps = .unit v :: qs → ¬v.IsTrailing) :
    (ps.foldl Content.add { ofChars cs with leading := some n }).text? = none := by
  have hchar : ∀ char, Spoilt (pushChar { ofChars cs with leading := some n } char) := by
    intro char
    obtain ⟨b, bs, hbs, -⟩ := Text.charFrom_encodeChar char []
    rw [pushChar, hbs, List.foldl_cons]
    refine Spoilt.pushAll ?_ bs
    rfl
  cases ps with
  | nil => rfl
  | cons p ps =>
    rw [List.foldl_cons]
    refine (Spoilt.addAll ?_ ps).text?
    cases p with
    | plain char => exact hchar char
    | escape e => exact hchar e.char
    | unit v =>
      rw [add, Content.pushUnit]
      dsimp only
      rw [if_neg (show ¬(0xDC00 ≤ v.value ∧ v.value ≤ 0xDFFF) from h v ps rfl)]
      rfl

theorem text?_pieces (cs : List Char) (ps : List Piece) :
    (ps.foldl Content.add (ofChars cs)).text? =
      (Piece.chars? ps).map fun ds => String.ofList (cs ++ ds) := by
  have hone : ∀ (cs : List Char) (c : Char) (ds : Option (List Char)),
      (ds.map fun ds => String.ofList (cs ++ [c] ++ ds)) =
        (ds.map (c :: ·)).map fun ds => String.ofList (cs ++ ds) := by
    intro cs c ds
    cases ds <;> simp
  fun_induction Piece.chars? ps generalizing cs with
  | case1 => simpa using text?_ofChars cs
  | case2 c h ps ih => rw [List.foldl_cons, add, pushChar_ofChars, ih, hone]
  | case3 e ps ih => rw [List.foldl_cons, add, pushChar_ofChars, ih, hone]
  | case4 u hu v ps hv ih =>
    rw [List.foldl_cons, List.foldl_cons, add, add, pushUnit_leading cs hu, pushUnit_pair cs u hv,
      ih, hone]
  | case5 u hu v ps hv =>
    rw [List.foldl_cons, add, pushUnit_leading cs hu, text?_half cs _ (by grind)]
    rfl
  | case6 u ps hu hps =>
    rw [List.foldl_cons, add, pushUnit_leading cs hu, text?_half cs _ (by grind)]
    rfl
  | case7 u ps hu ht =>
    rw [List.foldl_cons, add, ((pushUnit_trailing cs hu ht).addAll ps).text?]
    rfl
  | case8 u ps hu ht ih => rw [List.foldl_cons, add, pushUnit_alone cs hu ht, ih, hone]

end Content

theorem lexString_back (ps : List Piece) (rest : List UInt8) :
    lexString {} (ps.flatMap Piece.bytes ++ 0x22 :: rest) =
      some ((Piece.chars? ps).map String.ofList, rest) := by
  rw [lexString_pieces, show ({} : Content) = Content.ofChars [] from rfl, Content.text?_pieces]
  rfl

end RamRestore.Json
