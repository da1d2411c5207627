import RamRestore.Proofs.Index.Contents
import RamRestore.Proofs.Index.Locate

/-! # The image of a snapshot

A snapshot says what all memory of its blocks is to hold, if there is nothing but zeroes at first:
the contents of the pages that it has, and zeroes everywhere else.
-/

namespace RamRestore.Index

def imageByte (x : Index) (data : Bytes) (b : PlacedBlock) (o : Nat) : UInt8 :=
  let k := o / b.ram.pageSize
  if k < b.count && !(x.page (b.first + k)).isZero then
    ((x.content? data (b.first + k)).getD #[]).getD (o % b.ram.pageSize) 0
  else 0

def image (x : Index) (data : Bytes) : Bytes :=
  x.blocks.foldl (fun bytes b =>
    bytes ++ Array.ofFn fun o : Fin b.ram.size => x.imageByte data b o) #[]

variable {x : Index} {data : Bytes} {b : PlacedBlock} {o : Nat}

/-- Memory that was all zero holds the image when every page is filled. -/
theorem Restored.get_eq_imageByte {state : Nat → PageState} {before now : Nat → UInt8}
    (h : x.Restored data state before now) (hx : x.Separate)
    (hb : RamBlock.Disjoint (x.blocks.map (·.ram))) (hf : ∀ i ∈ x.stored, state i = .filled)
    (hz : ∀ a, before a = 0) (hmem : b ∈ x.blocks) (ho : o < b.ram.size) :
    now (b.ram.start + o) = x.imageByte data b o := by
  have hlocate := locate_of_mem hx hb hmem ho
  have hcovers : ∀ i ∈ x.stored, x.Covers i (b.ram.start + o) →
      x.locate (b.ram.start + o) = some i :=
    fun i hi hc => (locate_eq_some_iff hx hb).2 ⟨(mem_stored.1 hi).1, hc⟩
  unfold imageByte
  dsimp only
  split
  · rename_i hk
    rw [Bool.and_eq_true, decide_eq_true_eq, Bool.not_eq_true'] at hk
    obtain ⟨hsize, haddr⟩ := hx.page_of_run hb hmem hk.1
    have hlt : b.first + o / b.ram.pageSize < x.pages.size :=
      Nat.lt_of_lt_of_le (Nat.add_lt_add_left hk.1 _) (hx.wellFormed.run_le b hmem)
    have hi := mem_stored.2 ⟨hlt, hk.2⟩
    obtain ⟨c, hc, hbytes⟩ := h.filled _ hi (hf _ hi)
    have hmod : o % b.ram.pageSize < x.pageSize (b.first + o / b.ram.pageSize) := by
      rw [hsize]
      exact Nat.mod_lt _ (hx.pageSize_pos b hmem)
    have hbyte := hbytes _ hmod
    rwa [haddr, Nat.add_assoc, Nat.mul_comm, Nat.div_add_mod, ← Option.getD_some (a := c), ← hc]
      at hbyte
  · rename_i hk
    rw [h.kept, hz]
    intro i hi hc _
    have := hcovers i hi hc
    rw [hlocate] at this
    split at this
    · rename_i hlt
      cases this
      simp [hlt, (mem_stored.1 hi).2] at hk
    · cases this

end RamRestore.Index
