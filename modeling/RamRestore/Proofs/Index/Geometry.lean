import RamRestore.Proofs.Index.Parsed

/-! # Where pages lie

The pages of a well formed index lie in their blocks. Where the blocks are regions of the
address space that do not meet, no address belongs to two pages.
-/

namespace RamRestore

/-- The memory of blocks: regions of the address space that do not meet. -/
structure RamBlock.Apart (blocks : List RamBlock) : Prop where
  inside : ∀ b ∈ blocks, b.start + b.size ≤ word64Count
  apart : blocks.Pairwise fun b c => b.start + b.size ≤ c.start ∨ c.start + c.size ≤ b.start

/-- The memory of blocks: regions of the address space, no two of which have an address in common.
An empty block may lie inside another one. -/
structure RamBlock.Disjoint (blocks : List RamBlock) : Prop where
  inside : ∀ b ∈ blocks, b.start + b.size ≤ word64Count
  disjoint : blocks.Pairwise fun b c => ∀ a, b.contains a = true → c.contains a = false

theorem RamBlock.contains_iff {b : RamBlock} {a : Nat} :
    b.contains a = true ↔ b.start ≤ a ∧ a < b.start + b.size := by
  rw [contains, Bool.and_eq_true, decide_eq_true_eq, decide_eq_true_eq]
  omega

theorem RamBlock.Apart.disjoint {blocks : List RamBlock} (h : RamBlock.Apart blocks) :
    RamBlock.Disjoint blocks where
  inside := h.inside
  disjoint := h.apart.imp fun hbc a hb => by
    rw [← Bool.not_eq_true, contains_iff]
    have := contains_iff.1 hb
    omega

def RamBlock.Unshared (blocks : List RamBlock) : Prop :=
  blocks.Pairwise fun b c => ∀ a, b.contains a = true → c.contains a = false

theorem RamBlock.Unshared.perm {bs cs : List RamBlock} (h : RamBlock.Unshared bs)
    (hp : bs.Perm cs) : RamBlock.Unshared cs := by
  refine (hp.pairwise_iff fun {b c} hbc a hc => ?_).1 h
  rw [← Bool.not_eq_true]
  intro hb
  rw [hbc a hb] at hc
  cases hc

/-- The address of a page inside the block does not wrap around. -/
theorem RamBlock.pageAddress_eq {b : RamBlock} {k : Nat} (hp : 0 < b.pageSize)
    (hb : b.start + b.size ≤ word64Count) (hk : (k + 1) * b.pageSize ≤ b.size) :
    b.pageAddress k = b.start + k * b.pageSize := by
  rw [Nat.succ_mul] at hk
  exact Nat.mod_eq_of_lt (by omega)

namespace Index

variable {x : Index} {i j a : Nat}

/-- The address lies in the memory of page `i`. -/
def Covers (x : Index) (i a : Nat) : Prop := x.address i ≤ a ∧ a < x.address i + x.pageSize i

theorem mem_stored : i ∈ x.stored ↔ i < x.pages.size ∧ (x.page i).isZero = false := by
  simp [stored]

theorem size_pos_of_stored (h : i ∈ x.stored) : 0 < (x.page i).size := by
  have := (mem_stored.1 h).2
  simp only [Page.isZero, decide_eq_false_iff_not] at this
  omega

theorem locate_lt (h : x.WellFormed) (hl : x.locate a = some i) : i < x.pages.size := by
  unfold locate at hl
  split at hl
  · simp at hl
  · rename_i b hb
    dsimp only at hl
    split at hl
    · rename_i hk
      simp only [Option.some.injEq] at hl
      have := h.run_le b (List.mem_of_find?_eq_some hb)
      omega
    · simp at hl

theorem WellFormed.place (h : x.WellFormed)
    (hb : ∀ b ∈ x.blocks, b.ram.start + b.ram.size ≤ word64Count)
    (hi : i < x.pages.size) (hs : 0 < x.pageSize i) :
    ∃ b k, x.blocks[(x.page i).block]? = some b ∧ x.pageSize i = b.ram.pageSize ∧
      i = b.first + k ∧ x.address i = b.ram.start + k * b.ram.pageSize ∧
      x.address i + b.ram.pageSize ≤ b.ram.start + b.ram.size := by
  obtain ⟨b, hget, hle, hlt, -⟩ := h.page i hi
  have hsize : x.pageSize i = b.ram.pageSize := by simp only [pageSize, hget]
  have hmem : b ∈ x.blocks := List.mem_of_getElem? hget
  have hin := hb b hmem
  have hk : (i - b.first) * b.ram.pageSize + b.ram.pageSize ≤ b.ram.size := by
    rw [← Nat.succ_mul]
    exact Nat.le_trans (Nat.mul_le_mul_right _ (by omega)) (h.fits b hmem)
  have ha : x.address i = b.ram.start + (i - b.first) * b.ram.pageSize := by
    simp only [address, hget, RamBlock.pageAddress]
    exact Nat.mod_eq_of_lt (by omega)
  exact ⟨b, i - b.first, hget, hsize, by omega, ha, by omega⟩

theorem covers_unique (h : x.WellFormed) (hb : RamBlock.Disjoint (x.blocks.map (·.ram)))
    (hi : i < x.pages.size) (hj : j < x.pages.size) (hci : x.Covers i a) (hcj : x.Covers j a) :
    i = j := by
  obtain ⟨hi₁, hi₂⟩ := hci
  obtain ⟨hj₁, hj₂⟩ := hcj
  have hin : ∀ b ∈ x.blocks, b.ram.start + b.ram.size ≤ word64Count :=
    fun b hmem => hb.inside b.ram (List.mem_map_of_mem hmem)
  obtain ⟨b, k, hbi, hsi, rfl, hai, hle⟩ := h.place hin hi (by omega)
  obtain ⟨c, m, hcj, hsj, rfl, haj, hle'⟩ := h.place hin hj (by omega)
  by_cases he : (x.page (b.first + k)).block = (x.page (c.first + m)).block
  · rw [he, hcj] at hbi
    obtain rfl := Option.some.inj hbi
    have hk : k * c.ram.pageSize < (m + 1) * c.ram.pageSize := by rw [Nat.succ_mul]; omega
    have hm : m * c.ram.pageSize < (k + 1) * c.ram.pageSize := by rw [Nat.succ_mul]; omega
    have := Nat.lt_of_mul_lt_mul_right hk
    have := Nat.lt_of_mul_lt_mul_right hm
    omega
  · obtain ⟨h₁, hb'⟩ := List.getElem?_eq_some_iff.1 hbi
    obtain ⟨h₂, hc'⟩ := List.getElem?_eq_some_iff.1 hcj
    have hab : b.ram.contains a = true := by
      rw [RamBlock.contains_iff]
      omega
    have hac : c.ram.contains a = true := by
      rw [RamBlock.contains_iff]
      omega
    have hp := List.pairwise_iff_getElem.1 hb.disjoint
    rcases Nat.lt_or_gt_of_ne he with hlt | hlt
    · have := hp _ _ (by simpa) (by simpa) hlt a
      simp only [List.getElem_map, hb', hc'] at this
      cases hac.symm.trans (this hab)
    · have := hp _ _ (by simpa) (by simpa) hlt a
      simp only [List.getElem_map, hb', hc'] at this
      cases hab.symm.trans (this hac)

/-- No other page that has to be read goes to the address of page `i`. -/
def SoleAt (x : Index) (i : Nat) : Prop := ∀ j ∈ x.stored, x.address j = x.address i → j = i

/-- Pages of blocks that do not meet have addresses of their own. -/
theorem soleAt_of_disjoint (h : x.WellFormed) (hb : RamBlock.Disjoint (x.blocks.map (·.ram)))
    (hs : ∀ j < x.pages.size, 0 < x.pageSize j) (hi : i < x.pages.size) : x.SoleAt i := by
  intro j hj ha
  have hlt : j < x.pages.size := (mem_stored.1 hj).1
  have hcj : x.Covers j (x.address j) := ⟨Nat.le_refl _, Nat.lt_add_of_pos_right (hs j hlt)⟩
  have hci : x.Covers i (x.address j) := by
    rw [ha]
    exact ⟨Nat.le_refl _, Nat.lt_add_of_pos_right (hs i hi)⟩
  exact covers_unique h hb hlt hi hcj hci

end Index
end RamRestore
