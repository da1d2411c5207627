import RamRestore.Proofs.Json.Strings
import RamRestore.Proofs.Json.Numbers
import Mathlib.Data.List.Chain

/-! # Texts are split into their tokens

All tokens but numbers show where they end. Numbers need something else behind them, so a text is
split into the tokens that it was written from where no two of them are numbers side by side.
-/

namespace RamRestore.Json

open Token

def Token.IsNumber : Token → Prop
  | .number _ => True
  | _ => False

def Apart (ts : List Token) : Prop := ts.IsChain fun t t' => ¬(t.IsNumber ∧ t'.IsNumber)

namespace Spells

variable {t : Token} {bytes : List UInt8}

/-- A token shows itself with its first byte, and only a number goes on with a number. -/
theorem head (h : Spells t bytes) :
    ∃ b bs, bytes = b :: bs ∧ isBlank b = false ∧ (¬t.IsNumber → Stops b) := by
  cases h with
  | number n =>
    obtain ⟨b, bs, hbytes, hb⟩ := n.head
    exact ⟨b, bs, hbytes, hb, fun h => absurd trivial h⟩
  | string ps => exact ⟨_, _, rfl, by decide, fun _ => by decide⟩
  | _ => exact ⟨_, _, rfl, by decide, fun _ => by decide⟩

theorem next (h : Spells t bytes) {rest : List UInt8} (hrest : t.IsNumber → Closed rest) :
    Token.next (bytes ++ rest) = some (t, rest) := by
  cases h with
  | number n => exact n.next_back (hrest trivial)
  | string ps =>
    rw [List.cons_append, List.cons_append, List.append_assoc, List.singleton_append, Token.next,
      lexString_back]
    rfl
  | _ => rfl

theorem closed (h : Spells t bytes) (ht : ¬t.IsNumber) (rest : List UInt8) :
    Closed (bytes ++ rest) := by
  obtain ⟨b, bs, rfl, -, hb⟩ := h.head
  exact Closed.cons (hb ht) _

end Spells

theorem isBlank_iff {b : UInt8} : isBlank b = true ↔ b ∈ blanks := by
  simp [isBlank, blanks, or_assoc]

theorem lex_blanks {bs : List UInt8} (h : bs ⊆ blanks) (rest : List UInt8) :
    lex (bs ++ rest) = lex rest := by
  induction bs with
  | nil => rfl
  | cons b bs ih =>
    obtain ⟨hb, hbs⟩ := List.cons_subset.1 h
    rw [List.cons_append, lex, if_pos (isBlank_iff.2 hb), ih hbs]

theorem lex_token {t : Token} {bytes : List UInt8} (h : Spells t bytes) {rest : List UInt8}
    (hrest : t.IsNumber → Closed rest) : lex (bytes ++ rest) = (lex rest).map (t :: ·) := by
  have hnext := h.next hrest
  obtain ⟨b, bs, rfl, hb, -⟩ := h.head
  rw [List.cons_append] at hnext ⊢
  rw [lex, if_neg (ne_true_of_eq_false hb)]
  split
  · rw [hnext] at *
    contradiction
  · rename_i h'
    rw [hnext] at h'
    cases h'
    rfl

theorem blank_of_lex_nil {text : List UInt8} (h : lex text = some []) : text ⊆ blanks := by
  induction text with
  | nil => exact List.nil_subset _
  | cons b bytes ih =>
    rw [lex] at h
    split at h
    · rename_i hb
      exact List.cons_subset.2 ⟨isBlank_iff.1 hb, ih h⟩
    · split at h
      · contradiction
      · rename_i hlex
        rw [Option.map_eq_some_iff] at h
        obtain ⟨_, -, h⟩ := h
        contradiction

theorem Layout.closed {ts : List Token} {text : List UInt8} (h : Layout ts text)
    (hts : ∀ t ∈ ts.head?, ¬t.IsNumber) {tail : List UInt8} (htail : ts = [] → Closed tail) :
    Closed (text ++ tail) := by
  have hblank : ∀ b ∈ blanks, Stops b := by
    intro b hb
    simp only [blanks, List.mem_cons, List.not_mem_nil, or_false] at hb
    rcases hb with rfl | rfl | rfl | rfl <;> decide
  cases h with
  | nil hbs =>
    cases text with
    | nil => exact htail rfl
    | cons b bs => exact Closed.cons (hblank b (hbs List.mem_cons_self)) _
  | @cons bs bytes text t ts hbs ht hrest =>
    cases bs with
    | nil =>
      rw [List.nil_append, List.append_assoc]
      exact ht.closed (hts t rfl) _
    | cons b bs => exact Closed.cons (hblank b (hbs List.mem_cons_self)) _

/-- A text is split into its tokens, and those of what is written behind it. -/
theorem lex_layout {ts : List Token} {text : List UInt8} (h : Layout ts text) (hts : Apart ts)
    {tail : List UInt8} (htail : ∀ t ∈ ts.getLast?, t.IsNumber → Closed tail) :
    lex (text ++ tail) = (lex tail).map (ts ++ ·) := by
  induction h with
  | nil hbs =>
    rw [lex_blanks hbs]
    simp
  | @cons bs bytes text t ts hbs ht hrest ih =>
    have hclosed : t.IsNumber → Closed (text ++ tail) := by
      intro hnumber
      cases ts with
      | nil => exact hrest.closed (fun _ h => by cases h) fun _ => htail t rfl hnumber
      | cons t' ts =>
        refine hrest.closed ?_ fun h => by cases h
        intro u hu hnumber'
        cases hu
        exact (List.isChain_cons_cons.1 hts).1 ⟨hnumber, hnumber'⟩
    have htail' : ∀ u ∈ ts.getLast?, u.IsNumber → Closed tail := by
      cases ts with
      | nil => exact fun _ h => by cases h
      | cons t' ts => rwa [List.getLast?_cons_cons] at htail
    rw [List.append_assoc, List.append_assoc, lex_blanks hbs, lex_token ht hclosed,
      ih hts.tail htail', Option.map_map]
    rfl

end RamRestore.Json
