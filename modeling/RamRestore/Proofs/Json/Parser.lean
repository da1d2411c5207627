import RamRestore.Proofs.Json.Lexer

/-! # Values are read back from their texts

The machine that reads a value off its tokens hands it to the innermost open frame, as deep as the
frames may lie. So each text of a value is parsed to that value, and nothing may follow it.
-/

namespace RamRestore.Json.Value

/-! ## The machine reads the tokens of a value -/

theorem tokens_head (v : Value) : ∃ t ts, v.tokens = t :: ts ∧ t ≠ .closeBracket := by
  cases v with
  | array items => cases items <;> exact ⟨.openBracket, _, rfl, by decide⟩
  | object members =>
    rcases members with - | ⟨⟨key, v⟩, ms⟩ <;> exact ⟨.openBrace, _, rfl, by decide⟩
  | _ => exact ⟨_, _, rfl, Token.noConfusion⟩

theorem step_itemOrEnd (stack : List Frame) {t : Token} (h : t ≠ .closeBracket) :
    step (.itemOrEnd stack) t = step (.value (.items [] :: stack)) t := by
  cases t <;> first | rfl | exact absurd rfl h

theorem foldlM_itemOrEnd (stack : List Frame) (v : Value) (rest : List Token) :
    (v.tokens ++ rest).foldlM step (.itemOrEnd stack) =
      (v.tokens ++ rest).foldlM step (.value (.items [] :: stack)) := by
  obtain ⟨t, ts, hts, ht⟩ := v.tokens_head
  rw [hts, List.cons_append, List.foldlM_cons, List.foldlM_cons, step_itemOrEnd stack ht]

mutual

/-- The tokens of a value hand it to the innermost open frame. -/
theorem foldlM_tokens (v : Value) (stack : List Frame) (rest : List Token) :
    (v.tokens ++ rest).foldlM step (.value stack) = rest.foldlM step (deliver v stack) := by
  match v with
  | null => rfl
  | bool b => rfl
  | number n => rfl
  | string text => rfl
  | array [] => rfl
  | object [] => rfl
  | array (v :: vs) =>
    change (v.tokens ++ moreItems vs ++ rest).foldlM step (.itemOrEnd stack) = _
    rw [List.append_assoc, foldlM_itemOrEnd, foldlM_tokens v]
    exact foldlM_moreItems vs [v] stack rest
  | object ((key, v) :: ms) =>
    change (v.tokens ++ moreMembers ms ++ rest).foldlM step (.value (.members [] key :: stack)) = _
    rw [List.append_assoc, foldlM_tokens v]
    exact foldlM_moreMembers ms [(key, v)] stack rest

theorem foldlM_moreItems (vs before : List Value) (stack : List Frame) (rest : List Token) :
    (moreItems vs ++ rest).foldlM step (.commaInArray before stack) =
      rest.foldlM step (deliver (.array (before.reverse ++ vs)) stack) := by
  match vs with
  | [] =>
    rw [List.append_nil]
    rfl
  | v :: vs =>
    change (v.tokens ++ moreItems vs ++ rest).foldlM step (.value (.items before :: stack)) = _
    rw [List.append_assoc, foldlM_tokens v]
    change (moreItems vs ++ rest).foldlM step (.commaInArray (v :: before) stack) = _
    rw [foldlM_moreItems vs, List.reverse_cons, List.append_assoc, List.singleton_append]

theorem foldlM_moreMembers (ms before : List (Option String × Value)) (stack : List Frame)
    (rest : List Token) :
    (moreMembers ms ++ rest).foldlM step (.commaInObject before stack) =
      rest.foldlM step (deliver (.object (before.reverse ++ ms)) stack) := by
  match ms with
  | [] =>
    rw [List.append_nil]
    rfl
  | (key, v) :: ms =>
    change (v.tokens ++ moreMembers ms ++ rest).foldlM step
      (.value (.members before key :: stack)) = _
    rw [List.append_assoc, foldlM_tokens v]
    change (moreMembers ms ++ rest).foldlM step (.commaInObject ((key, v) :: before) stack) = _
    rw [foldlM_moreMembers ms, List.reverse_cons, List.append_assoc, List.singleton_append]

end

theorem ofTokens?_tokens (v : Value) : ofTokens? v.tokens = some v := by
  have h := foldlM_tokens v [] []
  rw [List.append_nil] at h
  rw [ofTokens?, h]
  rfl

theorem ofTokens?_more (v : Value) (t : Token) (ts : List Token) :
    ofTokens? (v.tokens ++ t :: ts) = none := by
  rw [ofTokens?, foldlM_tokens]
  rfl

/-! ## No numbers stand side by side -/

theorem moreItems_head (vs : List Value) : ∀ t ∈ (moreItems vs).head?, ¬t.IsNumber := by
  cases vs <;> exact fun t ht => Option.some.inj ht ▸ id

theorem moreMembers_head (ms : List (Option String × Value)) :
    ∀ t ∈ (moreMembers ms).head?, ¬t.IsNumber := by
  rcases ms with - | ⟨⟨key, v⟩, ms⟩ <;> exact fun t ht => Option.some.inj ht ▸ id

theorem apart_cons {t : Token} {ts : List Token} (ht : ¬t.IsNumber) (hts : Apart ts) :
    Apart (t :: ts) :=
  List.isChain_cons.2 ⟨fun _ _ h => ht h.1, hts⟩

theorem apart_append {ts ts' : List Token} (h : Apart ts) (h' : Apart ts')
    (hhead : ∀ t ∈ ts'.head?, ¬t.IsNumber) : Apart (ts ++ ts') :=
  List.isChain_append.2 ⟨h, h', fun _ _ t ht hboth => hhead t ht hboth.2⟩

mutual

theorem apart_tokens (v : Value) : Apart v.tokens := by
  match v with
  | null => exact List.isChain_singleton _
  | bool b => exact List.isChain_singleton _
  | number n => exact List.isChain_singleton _
  | string text => exact List.isChain_singleton _
  | array [] => exact apart_cons id (List.isChain_singleton _)
  | object [] => exact apart_cons id (List.isChain_singleton _)
  | array (v :: vs) =>
    exact apart_cons id (apart_append (apart_tokens v) (apart_moreItems vs) (moreItems_head vs))
  | object ((key, v) :: ms) =>
    exact apart_cons id (apart_cons id (apart_cons id
      (apart_append (apart_tokens v) (apart_moreMembers ms) (moreMembers_head ms))))

theorem apart_moreItems (vs : List Value) : Apart (moreItems vs) := by
  match vs with
  | [] => exact List.isChain_singleton _
  | v :: vs =>
    exact apart_cons id (apart_append (apart_tokens v) (apart_moreItems vs) (moreItems_head vs))

theorem apart_moreMembers (ms : List (Option String × Value)) : Apart (moreMembers ms) := by
  match ms with
  | [] => exact List.isChain_singleton _
  | (key, v) :: ms =>
    exact apart_cons id (apart_cons id (apart_cons id
      (apart_append (apart_tokens v) (apart_moreMembers ms) (moreMembers_head ms))))

end

/-! ## Texts of a value -/

/-- An object ends with its brace, not with a number. -/
theorem moreMembers_ends (ms : List (Option String × Value)) :
    ∃ ts, moreMembers ms = ts ++ [.closeBrace] := by
  induction ms with
  | nil => exact ⟨[], rfl⟩
  | cons m ms ih =>
    obtain ⟨ts, hts⟩ := ih
    refine ⟨.comma :: .string m.1 :: .colon :: (m.2.tokens ++ ts), ?_⟩
    rw [moreMembers, hts]
    simp only [List.cons_append, List.append_assoc]

theorem object_getLast? (members : List (Option String × Value)) :
    (object members).tokens.getLast? = some .closeBrace := by
  cases members with
  | nil => rfl
  | cons m ms =>
    obtain ⟨ts, hts⟩ := moreMembers_ends ms
    rw [tokens, hts, ← List.append_assoc, ← List.cons_append, ← List.cons_append,
      ← List.cons_append, List.getLast?_append, List.getLast?_singleton, Option.some_or]

variable {v : Value} {text tail : List UInt8}

theorem Writes.lex (h : v.Writes text) (htail : ∀ t ∈ v.tokens.getLast?, t.IsNumber → Closed tail) :
    Token.lex (text ++ tail) = (Token.lex tail).map (v.tokens ++ ·) :=
  lex_layout h v.apart_tokens htail

theorem Writes.parse? (h : v.Writes text) : Value.parse? text = some v := by
  have hlex : Token.lex (text ++ []) = _ := h.lex fun _ _ _ _ hb => by cases hb
  rw [List.append_nil, Token.lex, Option.map_some, List.append_nil] at hlex
  rw [Value.parse?, hlex, Option.bind_some, ofTokens?_tokens]

theorem Writes.parse?_append {members : List (Option String × Value)}
    (h : (object members).Writes text) (hblank : ¬tail ⊆ blanks) :
    Value.parse? (text ++ tail) = none := by
  have hlex : Token.lex (text ++ tail) = _ := h.lex fun t ht hnumber => by
    rw [object_getLast?] at ht
    cases ht
    cases hnumber
  rw [Value.parse?, hlex]
  cases hrest : Token.lex tail with
  | none => rfl
  | some ts =>
    cases ts with
    | nil => exact absurd (blank_of_lex_nil hrest) hblank
    | cons t ts =>
      rw [Option.map_some, Option.bind_some]
      exact ofTokens?_more _ t ts

end RamRestore.Json.Value
