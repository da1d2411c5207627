import RamRestore.Config
import RamRestore.Proofs.Json.Parser

/-! # Configurations are read back

A configuration may be written with its members in any order, left out where they are at their
defaults, and among members that mean nothing. All texts of such an object say the same.
-/

namespace RamRestore

open Json (Value Piece Spells Number)

def LoadType.name : LoadType → String
  | .eager => "eager"
  | .lazy => "lazy"

namespace Config

/--
The member `key` comes at most once. Where it comes its value is `written`, and where it does not
the setting is at its default.
-/
structure Sets (members : List (Option String × Value)) (key : String) (written : Value → Prop)
    (atDefault : Prop) : Prop where
  once : members.countP (·.1 == some key) ≤ 1
  present : ∀ v, (some key, v) ∈ members → written v
  absent : (∀ v, (some key, v) ∉ members) → atDefault

def natural (n : Nat) : Value := .number ⟨false, n, true⟩

/-- These members write the configuration. Members with other names may have any value. -/
structure Declares (members : List (Option String × Value)) (c : Config) : Prop where
  named : ∀ m ∈ members, m.1.isSome
  loadType : Sets members "load_type"
    (fun v => v = .string (some c.loadType.name) ∨ v = .object [(some c.loadType.name, .null)])
    (c.loadType = .lazy)
  queueCapacity : Sets members "queue_capacity" (· = natural c.queueCapacity)
    (c.queueCapacity = 32)
  decompressThreads : Sets members "decompress_threads"
    (· = (c.decompressThreads.map natural).getD .null) (c.decompressThreads = none)

def InWords (c : Config) : Prop :=
  c.queueCapacity < word64Count ∧ ∀ n ∈ c.decompressThreads, n < word64Count

instance (c : Config) : Decidable c.InWords :=
  inferInstanceAs (Decidable (_ ∧ ∀ n ∈ c.decompressThreads, n < word64Count))

variable {members : List (Option String × Value)} {c : Config} {text : List UInt8}

/-! ## Single settings -/

theorem Sets.lookup {key : String} {written : Value → Prop} {atDefault : Prop}
    (h : Sets members key written atDefault) :
    (Json.member? key members = none ∧ atDefault) ∨
      ∃ v, Json.member? key members = some v ∧ written v := by
  cases hfind : members.find? (·.1 == some key) with
  | none =>
    refine .inl ⟨by rw [Json.member?, hfind, Option.map_none], h.absent fun v hv => ?_⟩
    simpa using List.find?_eq_none.1 hfind _ hv
  | some m =>
    have hkey : m.1 = some key := by simpa using List.find?_some hfind
    refine .inr ⟨m.2, by rw [Json.member?, hfind, Option.map_some], h.present m.2 ?_⟩
    rw [← hkey]
    exact List.mem_of_find?_eq_some hfind

theorem ofValue?_name (t : LoadType) {v : Value}
    (h : v = .string (some t.name) ∨ v = .object [(some t.name, .null)]) :
    LoadType.ofValue? v = some t := by
  cases t <;> rcases h with rfl | rfl <;> rfl

theorem below?_natural (limit n : Nat) :
    (natural n).below? limit = if n < limit then some n else none := by
  change (some n).filter (· < limit) = _
  simp only [Option.filter_some, decide_eq_true_eq]

theorem threads?_natural (n : Nat) :
    threads? (natural n) = if n < word64Count then some (some n) else none := by
  rw [threads?]
  · rw [below?_natural]
    split <;> rfl
  · exact Value.noConfusion

theorem Declares.loadType_read (h : Declares members c) :
    ((Json.member? "load_type" members).map LoadType.ofValue?).getD (some .lazy) =
      some c.loadType := by
  obtain ⟨hnone, hdefault⟩ | ⟨v, hv, hwritten⟩ := h.loadType.lookup
  · rw [hnone, hdefault]
    rfl
  · rw [hv, Option.map_some, Option.getD_some, ofValue?_name c.loadType hwritten]

theorem Declares.queueCapacity_read (h : Declares members c) :
    ((Json.member? "queue_capacity" members).map (Value.below? word64Count)).getD (some 32) =
      if c.queueCapacity < word64Count then some c.queueCapacity else none := by
  obtain ⟨hnone, hdefault⟩ | ⟨v, hv, rfl⟩ := h.queueCapacity.lookup
  · rw [hnone, hdefault, if_pos (by decide)]
    rfl
  · rw [hv, Option.map_some, Option.getD_some, below?_natural]

theorem Declares.decompressThreads_read (h : Declares members c) :
    ((Json.member? "decompress_threads" members).map threads?).getD (some none) =
      if ∀ n ∈ c.decompressThreads, n < word64Count then some c.decompressThreads else none := by
  obtain ⟨hnone, hdefault⟩ | ⟨v, hv, rfl⟩ := h.decompressThreads.lookup
  · rw [hnone, hdefault]
    simp
  · rw [hv, Option.map_some, Option.getD_some]
    cases c.decompressThreads with
    | none => simp [threads?]
    | some n =>
      rw [Option.map_some, Option.getD_some, threads?_natural]
      simp

/-! ## The configuration -/

theorem Declares.admissible (h : Declares members c) : Json.keysAdmissible keys members = true := by
  rw [Json.keysAdmissible, Bool.and_eq_true, List.all_eq_true]
  refine ⟨h.named, ?_⟩
  simp only [keys, List.all_cons, List.all_nil, Bool.and_true, ← List.countP_eq_length_filter,
    Bool.and_eq_true, decide_eq_true_eq]
  exact ⟨h.loadType.once, h.queueCapacity.once, h.decompressThreads.once⟩

theorem Declares.ofValue? (h : Declares members c) :
    Config.ofValue? (.object members) = if c.InWords then some c else none := by
  have hload := h.loadType_read
  have hqueue := h.queueCapacity_read
  have hthreads := h.decompressThreads_read
  rw [Config.ofValue?, if_pos h.admissible, ofParts?]
  dsimp only
  rw [hload, hqueue, hthreads]
  by_cases hq : c.queueCapacity < word64Count
  · by_cases ht : ∀ n ∈ c.decompressThreads, n < word64Count
    · rw [if_pos hq, if_pos ht, if_pos (show c.InWords from ⟨hq, ht⟩)]
      rfl
    · rw [if_pos hq, if_neg ht, if_neg fun h : c.InWords => ht h.2]
      rfl
  · rw [if_neg hq, if_neg fun h : c.InWords => hq h.1]
    rfl

theorem ofValue?_repeated
    (h : ∃ key ∈ keys, 2 ≤ members.countP (·.1 == some key)) :
    ofValue? (.object members) = none := by
  obtain ⟨key, hkey, htwice⟩ := h
  have hbad : Json.keysAdmissible keys members ≠ true := by
    intro hok
    rw [Json.keysAdmissible, Bool.and_eq_true, List.all_eq_true] at hok
    have honce := List.all_eq_true.1 hok.2 key hkey
    rw [decide_eq_true_eq, ← List.countP_eq_length_filter] at honce
    omega
  rw [ofValue?, if_neg hbad]

/--
Every text of an object that writes a configuration is parsed to the configuration if its numbers
are words, and is refused otherwise. It is refused if a known member comes twice, and if anything
but blanks follows the object.
-/
theorem every_text_parsed (h : (Value.object members).Writes text) :
    (∀ c, Declares members c → parse? text = if c.InWords then some c else none) ∧
      ((∃ key ∈ keys, 2 ≤ members.countP (·.1 == some key)) → parse? text = none) ∧
      ∀ tail, ¬tail ⊆ Json.blanks → parse? (text ++ tail) = none := by
  refine ⟨fun c hc => ?_, fun htwice => ?_, fun tail htail => ?_⟩
  · rw [parse?, h.parse?, Option.bind_some, hc.ofValue?]
  · rw [parse?, h.parse?, Option.bind_some, ofValue?_repeated htwice]
  · rw [parse?, h.parse?_append htail, Option.bind_none]

/-! ## A text with an escaped name, a member that means nothing, and blanks -/

def sampleMembers : List (Option String × Value) :=
  [(some "x", .array [.bool true, .object [(none, .number ⟨true, 1, false⟩)]]),
    (some "load_type", .string (some "eager")), (some "queue_capacity", natural 7)]

def sampleWord (cs : List Char) : List Piece :=
  cs.filterMap fun c =>
    if h : 0x20 ≤ c.toNat ∧ c.toNat ≠ 0x22 ∧ c.toNat ≠ 0x5C then some (.plain c h) else none

def sampleHalf : List Piece := [.unit ⟨⟨0xD, true⟩, ⟨8, true⟩, ⟨0, true⟩, ⟨0, true⟩⟩]

def sampleLoadType : List Piece :=
  sampleWord ['l', 'o', 'a', 'd'] ++
    .unit ⟨⟨0, true⟩, ⟨0, true⟩, ⟨5, true⟩, ⟨0xF, false⟩⟩ :: sampleWord ['t', 'y', 'p', 'e']

def sampleQueueCapacity : List Piece :=
  sampleWord ['q', 'u', 'e', 'u', 'e', '_', 'c', 'a', 'p', 'a', 'c', 'i', 't', 'y']

def sampleQuoted (ps : List Piece) : List UInt8 := 0x22 :: ps.flatMap Piece.bytes ++ [0x22]

def sampleText : List UInt8 :=
  [0x20] ++ ([0x7B] ++ ([0x0A] ++ (sampleQuoted (sampleWord ['x']) ++ ([0x20] ++ ([0x3A] ++
  ([] ++ ([0x5B] ++ ([] ++ ([0x74, 0x72, 0x75, 0x65] ++ ([0x09] ++ ([0x2C] ++
  ([] ++ ([0x7B] ++ ([] ++ (sampleQuoted sampleHalf ++ ([] ++ ([0x3A] ++
  ([0x20] ++ ([0x2D, 0x31, 0x65, 0x35] ++ ([] ++ ([0x7D] ++ ([] ++ ([0x5D] ++ ([] ++ ([0x2C] ++
  ([0x0D, 0x0A] ++ (sampleQuoted sampleLoadType ++ ([] ++ ([0x3A] ++
  ([] ++ (sampleQuoted (sampleWord ['e', 'a', 'g', 'e', 'r']) ++ ([] ++ ([0x2C] ++
  ([0x0A] ++ (sampleQuoted sampleQueueCapacity ++ ([0x20] ++ ([0x3A] ++
  ([0x20] ++ ([0x37] ++ ([] ++ ([0x7D] ++ [0x0A])))))))))))))))))))))))))))))))))))))))))

theorem sample_string {ps : List Piece} {text : Option String}
    (h : (Piece.chars? ps).map String.ofList = text) : Spells (.string text) (sampleQuoted ps) :=
  h ▸ .string ps

theorem sample_fraction : Spells (.number ⟨true, 1, false⟩) [0x2D, 0x31, 0x65, 0x35] := by
  have h := Spells.number ⟨true, 1, none, some ⟨false, none, ⟨5, []⟩⟩⟩
  rw [Number.bytes, Json.decimal] at h
  exact h

theorem sample_natural : Spells (.number ⟨false, 7, true⟩) [0x37] := by
  have h := Spells.number ⟨false, 7, none, none⟩
  rw [Number.bytes, Json.decimal] at h
  exact h

theorem sample_writes : (Value.object sampleMembers).Writes sampleText :=
  .cons (by decide) .openBrace <| .cons (by decide) (sample_string (by decide)) <|
  .cons (by decide) .colon <| .cons (by decide) .openBracket <| .cons (by decide) .isTrue <|
  .cons (by decide) .comma <| .cons (by decide) .openBrace <|
  .cons (by decide) (sample_string (by decide)) <| .cons (by decide) .colon <|
  .cons (by decide) sample_fraction <| .cons (by decide) .closeBrace <|
  .cons (by decide) .closeBracket <| .cons (by decide) .comma <|
  .cons (by decide) (sample_string (by decide)) <| .cons (by decide) .colon <|
  .cons (by decide) (sample_string (by decide)) <| .cons (by decide) .comma <|
  .cons (by decide) (sample_string (by decide)) <| .cons (by decide) .colon <|
  .cons (by decide) sample_natural <| .cons (by decide) .closeBrace <| .nil (by decide)

theorem sample_declares : Declares sampleMembers ⟨.eager, 7, none⟩ where
  named := by decide
  loadType :=
    ⟨by decide, fun v hv => .inl (by simpa [sampleMembers, LoadType.name] using hv),
      fun h => absurd (by simp [sampleMembers]) (h (.string (some "eager")))⟩
  queueCapacity :=
    ⟨by decide, fun v hv => by simpa [sampleMembers] using hv,
      fun h => absurd (by simp [sampleMembers]) (h (natural 7))⟩
  decompressThreads := ⟨by decide, fun v hv => by simp [sampleMembers] at hv, fun _ => rfl⟩

theorem every_text_parsed_sample :
    (Value.object sampleMembers).Writes sampleText ∧
      parse? sampleText = some ⟨.eager, 7, none⟩ ∧
      parse? (sampleText ++ [0x78]) = none := by
  obtain ⟨hparse, -, htail⟩ := every_text_parsed sample_writes
  exact ⟨sample_writes, (hparse _ sample_declares).trans (if_pos (by decide)),
    htail [0x78] (by decide)⟩

end Config
end RamRestore
