import Mathlib.Data.List.Pairwise
import RamRestore.Proofs.Index.Geometry
import RamRestore.Proofs.Index.Partition

/-! # Which page an address belongs to

Blocks that do not meet, with runs that do not meet either, have one page at most for an
address, and that is the page that the address is located in.
-/

namespace RamRestore

/-- Clearing the bits below a power of two does not change the quotient by it. -/
theorem RamBlock.pageStart_div {b : RamBlock} {offset : Nat} (hp : isPageSize b.pageSize = true)
    (ho : offset < word64Count) : b.pageStart offset / b.pageSize = offset / b.pageSize := by
  obtain ⟨k, hk, he⟩ := isPageSize_iff.1 hp
  have he : b.pageSize = 2 ^ k := he
  have hmask : ∀ i, (2 ^ 64 - 2 ^ k).testBit (i + k) = decide (i + k < 64) := by
    intro i
    have hpos := Nat.two_pow_pos k
    have hlt : 2 ^ k - 1 < 2 ^ 64 :=
      Nat.lt_of_lt_of_le (Nat.sub_lt hpos Nat.one_pos) (Nat.pow_le_pow_right (by decide) (by omega))
    have h := Nat.testBit_two_pow_sub_succ hlt (i + k)
    rw [Nat.sub_add_cancel hpos, Nat.testBit_two_pow_sub_one] at h
    rw [h, decide_eq_false (by omega : ¬ i + k < k), Bool.not_false, Bool.and_true]
  change (offset &&& (2 ^ 64 - b.pageSize)) / b.pageSize = _
  rw [he]
  apply Nat.eq_of_testBit_eq
  intro i
  rw [Nat.testBit_div_two_pow, Nat.testBit_div_two_pow, Nat.testBit_and, hmask]
  by_cases hi : i + k < 64
  · simp [hi]
  · have hhigh : offset < 2 ^ (i + k) := by
      have hpow : 2 ^ 64 ≤ 2 ^ (i + k) := Nat.pow_le_pow_right Nat.two_pos (Nat.le_of_not_lt hi)
      exact Nat.lt_of_lt_of_le ho hpow
    rw [Nat.testBit_lt_two_pow hhigh, Bool.false_and]

theorem eq_of_common {α : Type} {bs : List α} {start length : α → Nat} {a : Nat} {b c : α}
    (h : bs.Pairwise fun b c => start b + length b ≤ start c ∨ start c + length c ≤ start b)
    (hb : b ∈ bs) (hc : c ∈ bs) (hab : start b ≤ a ∧ a < start b + length b)
    (hac : start c ≤ a ∧ a < start c + length c) : b = c := by
  have hsymm : Std.Symm fun b c =>
      start b + length b ≤ start c ∨ start c + length c ≤ start b := ⟨fun _ _ h => h.symm⟩
  by_contra hne
  have := h.forall hb hc hne
  omega

namespace Index

variable {x : Index} {a i : Nat}

/-- The runs of an index do not meet, and its page sizes are powers of two. -/
structure Separate (x : Index) : Prop where
  wellFormed : x.WellFormed
  runs : x.blocks.Pairwise fun b c => b.first + b.count ≤ c.first ∨ c.first + c.count ≤ b.first
  isPageSize : ∀ b ∈ x.blocks, isPageSize b.ram.pageSize = true

theorem Separate.pageSize_pos (h : x.Separate) : ∀ b ∈ x.blocks, 0 < b.ram.pageSize :=
  fun b hb => (isPageSize_bounds (h.isPageSize b hb)).1

theorem separate_of_read {rams : List RamBlock} {source : Source} (hr : RamBlock.Accepted rams)
    (hx : (read rams source).outcome = .ok x) : x.Separate := by
  obtain ⟨hrams, hw⟩ := read_ok hx
  obtain ⟨heads, -, hp⟩ := partitioned_of_read hr hx
  refine ⟨hw, hp.apart, fun b hb => ?_⟩
  have hmem : b.ram ∈ rams := hrams ▸ List.mem_map_of_mem hb
  exact hr.isPageSize hmem

theorem find_block_iff (hb : RamBlock.Unshared (x.blocks.map (·.ram))) {b : PlacedBlock} :
    x.blocks.find? (·.ram.contains a) = some b ↔
      b ∈ x.blocks ∧ b.ram.start ≤ a ∧ a < b.ram.start + b.ram.size := by
  have hp : x.blocks.Pairwise fun b c =>
      ∀ a, b.ram.contains a = true → c.ram.contains a = false := List.pairwise_map.1 hb
  have hsymm : Std.Symm fun b c : PlacedBlock =>
      ∀ a, b.ram.contains a = true → c.ram.contains a = false :=
    ⟨fun b c h a hc => by
      rw [← Bool.not_eq_true]
      intro hb
      rw [h a hb] at hc
      cases hc⟩
  rw [← RamBlock.contains_iff]
  constructor
  · intro hc
    exact ⟨List.mem_of_find?_eq_some hc,
      List.find?_some (p := fun b : PlacedBlock => b.ram.contains a) hc⟩
  · rintro ⟨hmem, hin⟩
    cases hf : x.blocks.find? (·.ram.contains a) with
    | none => exact absurd hin (List.find?_eq_none.1 hf b hmem)
    | some c =>
      have hc := List.find?_some (p := fun b : PlacedBlock => b.ram.contains a) hf
      by_contra hne
      have := hp.forall (List.mem_of_find?_eq_some hf) hmem (fun h => hne (congrArg some h)) a hc
      rw [hin] at this
      cases this

section

variable (h : x.Separate) (hb : RamBlock.Disjoint (x.blocks.map (·.ram)))

include hb

theorem inside_of_mem {b : PlacedBlock} (hmem : b ∈ x.blocks) :
    b.ram.start + b.ram.size ≤ word64Count := hb.inside b.ram (List.mem_map_of_mem hmem)

include h

/-- A page of a run: where it lies in the block of the run. -/
theorem Separate.page_of_run {b : PlacedBlock} {k : Nat} (hmem : b ∈ x.blocks)
    (hk : k < b.count) :
    x.pageSize (b.first + k) = b.ram.pageSize ∧
      x.address (b.first + k) = b.ram.start + k * b.ram.pageSize := by
  have hlt : b.first + k < x.pages.size :=
    Nat.lt_of_lt_of_le (Nat.add_lt_add_left hk _) (h.wellFormed.run_le b hmem)
  obtain ⟨c, hget, hfirst, hlast, -⟩ := h.wellFormed.page _ hlt
  obtain rfl : b = c := eq_of_common h.runs hmem (List.mem_of_getElem? hget)
    ⟨Nat.le_add_right _ _, Nat.add_lt_add_left hk _⟩ ⟨hfirst, hlast⟩
  have hsize : x.pageSize (b.first + k) = b.ram.pageSize := by simp only [pageSize, hget]
  refine ⟨hsize, ?_⟩
  obtain ⟨c, m, hget', -, hi, haddr, -⟩ := h.wellFormed.place (fun c => inside_of_mem hb) hlt
    (by rw [hsize]; exact h.pageSize_pos b hmem)
  obtain rfl := Option.some.inj (hget.symm.trans hget')
  rwa [← Nat.add_left_cancel hi] at haddr

theorem locate_of_mem {b : PlacedBlock} {o : Nat} (hmem : b ∈ x.blocks) (ho : o < b.ram.size) :
    x.locate (b.ram.start + o) =
      if o / b.ram.pageSize < b.count then some (b.first + o / b.ram.pageSize) else none := by
  have hfind := (find_block_iff hb.disjoint).2
    ⟨hmem, Nat.le_add_right _ o, Nat.add_lt_add_left ho _⟩
  have hword : o < word64Count := by
    have := inside_of_mem hb hmem
    omega
  simp only [locate, hfind, Nat.add_sub_cancel_left,
    RamBlock.pageStart_div (h.isPageSize b hmem) hword]

/-- The page that an address is located in is the one that covers it. -/
theorem locate_eq_some_iff : x.locate a = some i ↔ i < x.pages.size ∧ x.Covers i a := by
  constructor
  · intro hl
    refine ⟨locate_lt h.wellFormed hl, ?_⟩
    cases hfind : x.blocks.find? (·.ram.contains a) with
    | none => simp [locate, hfind] at hl
    | some b =>
      obtain ⟨hmem, hstart, hend⟩ := (find_block_iff hb.disjoint).1 hfind
      obtain ⟨o, rfl⟩ := Nat.exists_eq_add_of_le hstart
      rw [locate_of_mem h hb hmem (by omega)] at hl
      split at hl
      · rename_i hk
        obtain rfl := Option.some.inj hl
        obtain ⟨hsize, haddr⟩ := h.page_of_run hb hmem hk
        have hdiv := Nat.div_add_mod o b.ram.pageSize
        have hmod := Nat.mod_lt o (h.pageSize_pos b hmem)
        rw [Nat.mul_comm] at hdiv
        rw [Covers, haddr, hsize]
        omega
      · cases hl
  · rintro ⟨hlt, hle, hend⟩
    obtain ⟨b, k, hget, hsize, rfl, haddr, hfit⟩ :=
      h.wellFormed.place (fun c => inside_of_mem hb) hlt (by omega)
    obtain ⟨c, hget', -, hcount, -⟩ := h.wellFormed.page _ hlt
    obtain rfl := Option.some.inj (hget.symm.trans hget')
    rw [haddr] at hle hend hfit
    rw [hsize] at hend
    obtain ⟨o, rfl⟩ := Nat.exists_eq_add_of_le (Nat.le_of_add_right_le hle)
    have hk : o / b.ram.pageSize = k := by
      apply Nat.div_eq_of_lt_le
      · omega
      · rw [Nat.succ_mul]
        omega
    rw [locate_of_mem h hb (List.mem_of_getElem? hget) (by omega), hk, if_pos (by omega)]

theorem locate_eq_none_iff : x.locate a = none ↔ ∀ i < x.pages.size, ¬ x.Covers i a := by
  rw [Option.eq_none_iff_forall_ne_some]
  simp only [ne_eq, locate_eq_some_iff h hb, not_and]

end

/-- Addresses and pages of an index belong together: each address to the one page whose memory
it lies in, if there is one. -/
structure PagesLocated (rams : List RamBlock) (x : Index) : Prop where
  locate_iff : ∀ a i, x.locate a = some i ↔
    i < x.pages.size ∧ x.address i ≤ a ∧ a < x.address i + x.pageSize i
  unique : ∀ a i j, i < x.pages.size → j < x.pages.size → x.Covers i a → x.Covers j a → i = j
  nonempty : ∀ i < x.pages.size, 0 < x.pageSize i
  whole : ∀ i < x.pages.size, ∀ o < x.pageSize i, x.locate (x.address i + o) = some i
  /-- Before, between and behind the blocks. -/
  outside : ∀ a, (∀ ram ∈ rams, ¬ (ram.start ≤ a ∧ a < ram.start + ram.size)) →
    x.locate a = none
  /-- Behind the pages that are listed, also where only a part of a page is left. -/
  unlisted : ∀ b ∈ x.blocks, ∀ a, b.ram.start + b.count * b.ram.pageSize ≤ a →
    a < b.ram.start + b.ram.size → x.locate a = none

/-- In an index that was accepted, the page of an address undoes the address of a page. -/
theorem locate_inverts_address {rams : List RamBlock} {source : Source}
    (hr : RamBlock.Accepted rams) (hb : RamBlock.Disjoint rams)
    (hx : (read rams source).outcome = .ok x) : x.PagesLocated rams := by
  have hs := separate_of_read hr hx
  have hrams := (read_ok hx).1
  have hbx : RamBlock.Disjoint (x.blocks.map (·.ram)) := by rwa [hrams]
  have hlocate : ∀ a i, x.locate a = some i ↔ i < x.pages.size ∧ x.Covers i a :=
    fun a i => locate_eq_some_iff hs hbx
  refine ⟨hlocate, ?_, ?_, ?_, ?_, ?_⟩
  · intro a i j hi hj hci hcj
    have hli := (hlocate a i).2 ⟨hi, hci⟩
    rw [(hlocate a j).2 ⟨hj, hcj⟩] at hli
    exact (Option.some.inj hli).symm
  · intro i hi
    obtain ⟨b, hget, -⟩ := hs.wellFormed.page i hi
    simp only [pageSize, hget]
    exact hs.pageSize_pos b (List.mem_of_getElem? hget)
  · intro i hi o ho
    exact (hlocate _ i).2 ⟨hi, Nat.le_add_right _ o, Nat.add_lt_add_left ho _⟩
  · intro a ha
    have hfind : x.blocks.find? (·.ram.contains a) = none := by
      rw [List.find?_eq_none]
      intro b hmem hin
      exact ha b.ram (hrams ▸ List.mem_map_of_mem hmem) (RamBlock.contains_iff.1 hin)
    simp only [locate, hfind]
  · intro b hmem a hle hlt
    obtain ⟨o, rfl⟩ := Nat.exists_eq_add_of_le (Nat.le_of_add_right_le hle)
    rw [locate_of_mem hs hbx hmem (by omega), if_neg]
    have := Nat.div_mul_le_self o b.ram.pageSize
    intro hk
    have := (Nat.div_lt_iff_lt_mul (hs.pageSize_pos b hmem)).1 hk
    omega

def sampleBlocks : List RamBlock := [⟨"a", 17, 7, 2⟩, ⟨"b", 24, 14, 4⟩]

theorem accepted_sampleBlocks : RamBlock.Accepted sampleBlocks := by
  have ha : RamBlock.Accepted [⟨"a", 17, 7, 2⟩] := .snoc .nil (by decide +kernel)
  exact ha.snoc (by decide +kernel)

theorem locate_inverts_address_sample : ∃ x,
    (read sampleBlocks (.ofBytes sampleSnapshot)).outcome = .ok x ∧ x.pages.size = 5 ∧
      x.PagesLocated sampleBlocks := by
  have hb : RamBlock.Apart sampleBlocks := ⟨by decide, by decide⟩
  have hsize : (read sampleBlocks (.ofBytes sampleSnapshot)).outcome.toOption.map (·.pages.size)
      = some 5 := by decide +kernel
  cases hx : (read sampleBlocks (.ofBytes sampleSnapshot)).outcome with
  | error cause => simp [hx, Except.toOption] at hsize
  | ok x =>
    rw [hx] at hsize
    exact ⟨x, rfl, Option.some.inj hsize,
      locate_inverts_address accepted_sampleBlocks hb.disjoint hx⟩

example : ((read sampleBlocks (.ofBytes sampleSnapshot)).outcome.toOption.map fun x =>
    [16, 17, 20, 21, 23, 24, 35, 36].map x.locate) =
      some [none, some 3, some 4, none, none, some 0, some 2, none] := by decide +kernel

end Index
end RamRestore
