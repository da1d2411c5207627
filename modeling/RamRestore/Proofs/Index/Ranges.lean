import Mathlib.Data.List.SplitBy
import RamRestore.Proofs.Index.Locate
import RamRestore.Proofs.Load.Zeroes

/-! # Ranges of memory to watch

The pages that have to be read are cut into groups, in index order: a page stays in the group of
the page before it if it starts where that one ends. There is one way to do so, and the memory of
each group is one range to watch.
-/

namespace RamRestore.Index

variable {x : Index} {i j a : Nat} {g is : List Nat} {gs : List (List Nat)}

def Adjoins (x : Index) (i j : Nat) : Prop := x.address i + x.pageSize i = x.address j

instance : DecidableRel x.Adjoins := fun _ _ => inferInstanceAs (Decidable (_ = _))

/-- The pages that have to be read, in index order, cut into groups: in a group each page adjoins
the one before it, and no group adjoins the one before it. -/
structure Grouping (x : Index) (gs : List (List Nat)) : Prop where
  pages : x.stored = gs.flatten
  nonempty : [] ∉ gs
  joined : ∀ g ∈ gs, g.IsChain x.Adjoins
  parted : gs.IsChain fun g h => ∃ hg hh, ¬ x.Adjoins (g.getLast hg) (h.head hh)

def span (x : Index) (g : List Nat) : Nat × Nat :=
  ((g.head?.map x.address).getD 0, (g.map x.pageSize).sum)

def groups (x : Index) : List (List Nat) := x.stored.splitBy fun i j => x.Adjoins i j

/-- There is one way to cut the pages into groups. -/
theorem grouping_iff : x.Grouping gs ↔ gs = x.groups := by
  have hsplit : x.groups = gs ↔ _ := List.splitBy_eq_iff
  simp only [decide_eq_true_eq, decide_eq_false_iff_not] at hsplit
  rw [eq_comm, hsplit]
  constructor
  · rintro ⟨hpages, hnonempty, hjoined, hparted⟩
    exact ⟨hpages, hnonempty, hjoined, hparted⟩
  · rintro ⟨hpages, hnonempty, hjoined, hparted⟩
    exact ⟨hpages, hnonempty, hjoined, hparted⟩

@[simp] theorem span_singleton (i : Nat) : x.span [i] = (x.address i, x.pageSize i) := by
  simp [span]

theorem span_concat (hg : g ≠ []) (j : Nat) :
    x.span (g ++ [j]) = ((x.span g).1, (x.span g).2 + x.pageSize j) := by
  obtain ⟨i, is, rfl⟩ := List.exists_cons_of_ne_nil hg
  simp [span, Nat.add_assoc]

/-- Joining ranges and cutting pages into groups go through the pages side by side. The range that
is open is the memory of the group that is open, and ends with its last page `i`. -/
theorem joinRanges_eq (i : Nat) (g : List Nat) (gs : List (List Nat)) (is : List Nat)
    (hend : (x.span (i :: g).reverse).1 + (x.span (i :: g).reverse).2 =
      x.address i + x.pageSize i) :
    gs.reverse.map x.span ++ x.joinRanges (some (x.span (i :: g).reverse)) is =
      (List.splitBy.loop (fun i j => x.Adjoins i j) is i g gs).map x.span := by
  induction is generalizing i g gs with
  | nil => simp [joinRanges, List.splitBy.loop]
  | cons j is ih =>
    rw [joinRanges, List.splitBy.loop, hend]
    by_cases hadj : x.address i + x.pageSize i = x.address j
    · have hspan : x.span (j :: i :: g).reverse = ((x.span (i :: g).reverse).1,
          (x.span (i :: g).reverse).2 + x.pageSize j) := by
        rw [List.reverse_cons, span_concat (by simp)]
      have hrest := ih j (i :: g) gs (by rw [hspan]; dsimp only; omega)
      rw [if_pos hadj, ← hspan, hrest, decide_eq_true (show x.Adjoins i j from hadj)]
    · have hrest := ih j [] ((i :: g).reverse :: gs) (by simp)
      rw [if_neg hadj, decide_eq_false (show ¬ x.Adjoins i j from hadj)]
      simpa using hrest

/-- The ranges to watch are the memory of the groups. -/
theorem ranges_eq : x.ranges = x.groups.map x.span := by
  unfold ranges groups
  cases x.stored with
  | nil => rfl
  | cons i is =>
    rw [joinRanges, List.splitBy]
    have h := joinRanges_eq (x := x) i [] [] is (by simp)
    simpa using h

theorem inRange_span (hg : g.IsChain x.Adjoins) :
    InRange (x.span g) a ↔ ∃ i ∈ g, x.Covers i a := by
  induction g with
  | nil => simp [span, InRange]
  | cons i is ih =>
    cases is with
    | nil => simp [InRange, Covers]
    | cons j is =>
      obtain ⟨hadj, hg⟩ := List.isChain_cons_cons.1 hg
      have hj : InRange (x.span (j :: is)) a ↔
          x.address i + x.pageSize i ≤ a ∧
            a < x.address i + x.pageSize i + (x.span (j :: is)).2 := by
        rw [hadj]
        rfl
      rw [List.exists_mem_cons_iff, ← ih hg, hj]
      simp only [InRange, Covers, span, List.head?_cons, Option.map_some, Option.getD_some,
        List.map_cons, List.sum_cons]
      omega

/-- What watching these ranges means for the memory of an index: every byte of a page that has to be
read is watched, no byte is watched twice, and no byte of a page that is all zero. -/
structure Watches (x : Index) (ranges : List (Nat × Nat)) : Prop where
  nonempty : ∀ r ∈ ranges, 0 < r.2
  disjoint : ranges.Pairwise fun r q => ∀ a, InRange r a → ¬ InRange q a
  covered : ∀ a, (∃ r ∈ ranges, InRange r a) ↔ ∃ i ∈ x.stored, x.Covers i a
  zero : ∀ i < x.pages.size, (x.page i).isZero = true → ∀ a, x.Covers i a →
    ∀ r ∈ ranges, ¬ InRange r a

theorem Grouping.mem_stored (h : x.Grouping gs) : i ∈ x.stored ↔ ∃ g ∈ gs, i ∈ g := by
  rw [h.pages, List.mem_flatten]

theorem Grouping.disjoint (h : x.Grouping gs) :
    gs.Pairwise fun g g' => ∀ i ∈ g, i ∉ g' := by
  have hnodup : x.stored.Nodup := List.nodup_range.filter _
  rw [h.pages, List.nodup_flatten] at hnodup
  exact hnodup.2.imp fun hd i hi hi' => hd hi hi'

theorem Grouping.inRange_iff (h : x.Grouping gs) :
    (∃ r ∈ gs.map x.span, InRange r a) ↔ ∃ i ∈ x.stored, x.Covers i a := by
  constructor
  · rintro ⟨r, hr, ha⟩
    obtain ⟨g, hg, rfl⟩ := List.mem_map.1 hr
    obtain ⟨i, hi, hc⟩ := (inRange_span (h.joined g hg)).1 ha
    exact ⟨i, h.mem_stored.2 ⟨g, hg, hi⟩, hc⟩
  · rintro ⟨i, hi, hc⟩
    obtain ⟨g, hg, hi⟩ := h.mem_stored.1 hi
    exact ⟨_, List.mem_map_of_mem hg, (inRange_span (h.joined g hg)).2 ⟨i, hi, hc⟩⟩

theorem Grouping.watches (h : x.Grouping gs) (hx : x.Separate)
    (hb : RamBlock.Disjoint (x.blocks.map (·.ram))) : x.Watches (gs.map x.span) where
  nonempty := by
    intro r hr
    obtain ⟨g, hg, rfl⟩ := List.mem_map.1 hr
    obtain ⟨i, is, rfl⟩ := List.exists_cons_of_ne_nil fun he : g = [] => h.nonempty (he ▸ hg)
    have hi : i ∈ x.stored := h.mem_stored.2 ⟨_, hg, List.mem_cons_self⟩
    obtain ⟨b, hget, -⟩ := hx.wellFormed.page i (Index.mem_stored.1 hi).1
    have hpos : 0 < x.pageSize i := by
      simp only [pageSize, hget]
      exact hx.pageSize_pos b (List.mem_of_getElem? hget)
    simp only [span, List.map_cons, List.sum_cons]
    omega
  disjoint := by
    rw [List.pairwise_map]
    refine h.disjoint.imp_of_mem fun hg hg' hd a ha ha' => ?_
    obtain ⟨i, hi, hc⟩ := (inRange_span (h.joined _ hg)).1 ha
    obtain ⟨j, hj, hc'⟩ := (inRange_span (h.joined _ hg')).1 ha'
    have hi' := (Index.mem_stored.1 (h.mem_stored.2 ⟨_, hg, hi⟩)).1
    have hj' := (Index.mem_stored.1 (h.mem_stored.2 ⟨_, hg', hj⟩)).1
    obtain rfl := covers_unique hx.wellFormed hb hi' hj' hc hc'
    exact hd i hi hj
  covered _ := h.inRange_iff
  zero := by
    intro i hi hz a hc r hr ha
    obtain ⟨j, hj, hc'⟩ := h.inRange_iff.1 ⟨r, hr, ha⟩
    obtain ⟨hlt, hjz⟩ := Index.mem_stored.1 hj
    obtain rfl := covers_unique hx.wellFormed hb hi hlt hc hc'
    rw [hz] at hjz
    cases hjz

end RamRestore.Index
