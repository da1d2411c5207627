import RamRestore.PageState
import RamRestore.Proofs.Guest
import RamRestore.Proofs.Index.Geometry
import RamRestore.Unpack

/-! # Restored memory

The snapshot says what each page is to hold. Memory is restored as far as the states of the
pages tell: filled pages hold their contents, and all else is as it was before.
-/

namespace RamRestore.Index

def packed? (x : Index) (data : Bytes) (i : Nat) : Option Bytes :=
  let bytes := data.extract (x.page i).position ((x.page i).position + (x.page i).size)
  if bytes.size = (x.page i).size then some bytes else none

/-- What page `i` is to hold, if the snapshot has contents for it. -/
def content? (x : Index) (data : Bytes) (i : Nat) : Option Bytes :=
  (x.packed? data i).bind fun bytes =>
    if x.compressed then (unpack (x.pageSize i) bytes.toList).toOption else some bytes

/-- Memory holds the contents of the pages that are filled, and is as it was elsewhere. -/
structure Restored (x : Index) (data : Bytes) (state : Nat → PageState)
    (before now : Nat → UInt8) : Prop where
  filled : ∀ i ∈ x.stored, state i = .filled → ∃ c, x.content? data i = some c ∧
    ∀ k < x.pageSize i, now (x.address i + k) = c.getD k 0
  kept : ∀ a, (∀ i ∈ x.stored, x.Covers i a → state i ≠ .filled) → now a = before a

section

variable {x : Index} {data c : Bytes} {i : Nat} {state state' : Nat → PageState}
  {before now now' : Nat → UInt8}

theorem packed_eq_some {bytes : Bytes} (hs : bytes.size = (x.page i).size)
    (hb : bytes = data.extract (x.page i).position ((x.page i).position + (x.page i).size)) :
    x.packed? data i = some bytes := by
  unfold packed?
  rw [← hb, if_pos hs]

theorem unpack_size {n : Nat} {block : List UInt8} (h : unpack n block = .ok c) : c.size = n :=
  (unpack_eq_ok_iff.1 h).2

theorem size_eq_pageSize (hw : x.WellFormed) (hi : i ∈ x.stored) (hz : x.compressed = false) :
    (x.page i).size = x.pageSize i := by
  obtain ⟨b, hget, -, -, ha⟩ := hw.page i (mem_stored.1 hi).1
  have hpos := size_pos_of_stored hi
  have hps : x.pageSize i = b.ram.pageSize := by simp only [pageSize, hget]
  rcases ha with ⟨h₀, -⟩ | ⟨hsz, -⟩
  · omega
  · simp only [hz, Bool.false_eq_true, ↓reduceIte] at hsz
    omega

/-- The contents of a page fill it exactly. -/
theorem size_content (hw : x.WellFormed) (hi : i ∈ x.stored) (h : x.content? data i = some c) :
    c.size = x.pageSize i := by
  obtain ⟨bytes, hb, hc⟩ := Option.bind_eq_some_iff.1 h
  split at hc
  · cases hu : unpack (x.pageSize i) bytes.toList with
    | error cause => simp [hu, Except.toOption] at hc
    | ok page =>
      simp only [hu, Except.toOption, Option.some.injEq] at hc
      exact hc ▸ unpack_size hu
  · rename_i hz
    cases hc
    unfold packed? at hb
    dsimp only at hb
    split at hb
    · rename_i hs
      cases hb
      exact hs.trans (size_eq_pageSize hw hi (by simpa using hz))
    · cases hb

theorem Restored.congr (h : x.Restored data state before now)
    (hs : ∀ j ∈ x.stored, state' j = .filled ↔ state j = .filled) (hn : now' = now) :
    x.Restored data state' before now' := by
  subst hn
  exact ⟨fun j hj hf => h.filled j hj ((hs j hj).1 hf),
    fun a ha => h.kept a fun j hj hc hf => ha j hj hc ((hs j hj).2 hf)⟩

theorem Restored.fill (h : x.Restored data state before now) (hw : x.WellFormed)
    (hb : RamBlock.Disjoint (x.blocks.map (·.ram))) (hi : i ∈ x.stored)
    (hc : x.content? data i = some c) (hs : ∀ j, i ≠ j → state' j = state j)
    (hf : state' i = .filled) (hn : Copied (x.address i) c now now') :
    x.Restored data state' before now' := by
  have hsize : c.size = x.pageSize i := size_content hw hi hc
  constructor
  · intro j hj hfj
    by_cases hij : i = j
    · subst hij
      refine ⟨c, hc, fun k hk => ?_⟩
      rw [hn, if_pos ⟨by omega, by omega⟩, Nat.add_sub_cancel_left]
    · obtain ⟨d, hd, hk⟩ := h.filled j hj (hs j hij ▸ hfj)
      refine ⟨d, hd, fun k hlt => ?_⟩
      rw [hn, if_neg, hk k hlt]
      -- an address of page `i` is none of page `j`
      rintro ⟨h₁, h₂⟩
      exact hij (covers_unique hw hb (mem_stored.1 hi).1 (mem_stored.1 hj).1
        (a := x.address j + k) ⟨h₁, by omega⟩ ⟨by omega, by omega⟩)
  · intro a ha
    rw [hn, if_neg]
    · refine h.kept a fun j hj hca hfj => ?_
      by_cases hij : i = j
      · subst hij
        exact ha i hi hca hf
      · exact ha j hj hca ((hs j hij).trans hfj)
    · rintro ⟨h₁, h₂⟩
      exact ha i hi ⟨h₁, by omega⟩ hf

theorem restored_start (h : ∀ i ∈ x.stored, state i ≠ .filled) :
    x.Restored data state now now :=
  ⟨fun i hi hf => absurd hf (h i hi), fun _ _ => rfl⟩

theorem Restored.page_kept (h : x.Restored data state before now) (hw : x.WellFormed)
    (hb : RamBlock.Disjoint (x.blocks.map (·.ram))) (hi : i ∈ x.stored) (hf : state i ≠ .filled)
    {k : Nat} (hk : k < x.pageSize i) : now (x.address i + k) = before (x.address i + k) := by
  refine h.kept _ fun j hj hc => ?_
  have hci : x.Covers i (x.address i + k) := ⟨by omega, by omega⟩
  rwa [← covers_unique hw hb (mem_stored.1 hi).1 (mem_stored.1 hj).1 hci hc]

end

end RamRestore.Index
