import RamRestore.Index

/-! # File order

Pages are read by their positions in the file. The sort that brings them into that order need not
keep pages at one position as they were, so nothing is said of these: whatever it exchanges, it
leaves the pages that there are, sorted by position.
-/

namespace RamRestore

namespace Sorting

variable {α : Type}

theorem swap_perm (a : Array α) (i j : Nat) : (a.swapIfInBounds i j).toList.Perm a.toList := by
  unfold Array.swapIfInBounds
  split
  · split
    · exact (Array.swap_perm _ _).toList
    · rfl
  · rfl

/-- Steps that only exchange entries leave the entries that there are. -/
theorem foldl_perm {β : Type} {f : Array α → β → Array α}
    (hf : ∀ a b, (f a b).toList.Perm a.toList) (bs : List β) (a : Array α) :
    (bs.foldl f a).toList.Perm a.toList := by
  induction bs generalizing a with
  | nil => rfl
  | cons b bs ih => exact (ih (f a b)).trans (hf a b)

variable (less : α → α → Bool)

theorem compareExchange_perm (a : Array α) (i j : Nat) :
    (compareExchange less a i j).toList.Perm a.toList := by
  unfold compareExchange
  split
  · exact swap_perm a i j
  · rfl

theorem networks_perm (a : Array α) (start length : Nat) :
    (networks less a start length).toList.Perm a.toList :=
  foldl_perm (fun a _ => compareExchange_perm less a _ _) _ a

theorem arrangeShort_perm (a : Array α) (start length : Nat) :
    (arrangeShort less a start length).toList.Perm a.toList := by
  unfold arrangeShort
  split
  · exact networks_perm less a start length
  · exact (networks_perm less _ _ _).trans (networks_perm less a _ _)

section Partition

variable (low : α → Bool)

theorem Parting.step_perm (s : Parting α) (i : Nat) :
    (s.step low i).entries.toList.Perm s.entries.toList :=
  (swap_perm _ _ _).trans (swap_perm _ _ _)

theorem Parting.foldl_step_perm (is : List Nat) (s : Parting α) :
    (is.foldl (Parting.step low) s).entries.toList.Perm s.entries.toList := by
  induction is generalizing s with
  | nil => rfl
  | cons i is ih => exact (ih (s.step low i)).trans (s.step_perm low i)

end Partition

theorem partition_perm (low : α → α → Bool) (a : Array α) (start length pivot : Nat) :
    (partition low a start length pivot).1.toList.Perm a.toList := by
  unfold partition
  dsimp only
  split
  · exact swap_perm a start pivot
  · exact (((swap_perm _ _ _).trans (swap_perm _ _ _)).trans
      (Parting.foldl_step_perm _ _ _)).trans (swap_perm a start pivot)

theorem siftDown_perm (a : Array α) (start length node : Nat) :
    (siftDown less a start length node).toList.Perm a.toList := by
  fun_induction siftDown less a start length node with
  | case1 a node child hchild child' hless ih => exact ih.trans (swap_perm a _ _)
  | case2 => rfl
  | case3 => rfl

theorem heapStep_perm (start length : Nat) (a : Array α) (i : Nat) :
    (heapStep less start length a i).toList.Perm a.toList := by
  unfold heapStep
  split
  · exact siftDown_perm less a _ _ _
  · exact (siftDown_perm less _ _ _ _).trans (swap_perm a _ _)

theorem heapSort_perm (a : Array α) (start length : Nat) :
    (heapSort less a start length).toList.Perm a.toList :=
  foldl_perm (heapStep_perm less start length) _ a

theorem arrange_perm (limit : Nat) (a : Array α) (start length : Nat) (ancestor : Option α) :
    (arrange less limit a start length ancestor).toList.Perm a.toList := by
  induction limit generalizing a start length ancestor with
  | zero =>
    unfold arrange
    split
    · exact arrangeShort_perm less a start length
    · exact heapSort_perm less a start length
  | succ limit ih =>
    unfold arrange
    dsimp only
    split
    · exact arrangeShort_perm less a start length
    · split
      · exact (ih _ _ _ _).trans (partition_perm _ a _ _ _)
      · exact ((ih _ _ _ _).trans (ih _ _ _ _)).trans (partition_perm less a _ _ _)

theorem rearrange_perm (as : List α) : (rearrange less as).Perm as := by
  unfold rearrange
  split
  · rfl
  · exact arrange_perm less _ as.toArray _ _ _

variable (key : α → Nat) (as : List α)

theorem byKey_perm : (byKey key as).Perm as :=
  (List.mergeSort_perm _ _).trans (rearrange_perm _ as)

theorem pairwise_byKey : (byKey key as).Pairwise fun a b => key a ≤ key b := by
  have h : (byKey key as).Pairwise fun a b => decide (key a ≤ key b) = true := by
    apply List.pairwise_mergeSort
    · simp only [decide_eq_true_eq]
      omega
    · simp only [Bool.or_eq_true, decide_eq_true_eq]
      omega
  exact h.imp of_decide_eq_true

end Sorting

namespace Index

/-- The pages that have to be read, sorted by their positions in the file. -/
structure InFileOrder (x : Index) (order : List Nat) : Prop where
  perm : order.Perm x.stored
  sorted : order.Pairwise fun i j => (x.page i).position ≤ (x.page j).position

variable {x : Index} {order : List Nat}

theorem readOrder_inFileOrder (x : Index) : x.InFileOrder x.readOrder where
  perm := Sorting.byKey_perm _ _
  sorted := Sorting.pairwise_byKey _ _

theorem InFileOrder.mem_iff (h : x.InFileOrder order) {i : Nat} : i ∈ order ↔ i ∈ x.stored :=
  h.perm.mem_iff

theorem InFileOrder.nodup (h : x.InFileOrder order) : order.Nodup :=
  h.perm.nodup_iff.2 (List.nodup_range.filter _)

end Index

end RamRestore
