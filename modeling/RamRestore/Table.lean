import Std.Data.TreeMap

/-! # Tables

A table is a total map on the natural numbers that differs from one value at
finitely many places. Looking up after an update is the only law its users need.
-/

namespace RamRestore

/-- A map on all natural numbers, given by a default and the entries that were set. -/
structure Table (α : Type) where
  fallback : α
  entries : Std.TreeMap Nat α

namespace Table

variable {α : Type}

def const (v : α) : Table α := ⟨v, ∅⟩

def get (t : Table α) (i : Nat) : α := t.entries.getD i t.fallback

def set (t : Table α) (i : Nat) (v : α) : Table α :=
  { t with entries := t.entries.insert i v }

@[simp] theorem get_const (v : α) (i : Nat) : (const v).get i = v := by
  simp [const, get]

theorem get_set (t : Table α) (i j : Nat) (v : α) :
    (t.set i v).get j = if i = j then v else t.get j := by
  simp only [get, set, Std.TreeMap.getD_insert, Nat.compare_eq_eq]

@[simp] theorem get_set_self (t : Table α) (i : Nat) (v : α) : (t.set i v).get i = v := by
  simp [get_set]

def setAll (t : Table α) (is : List Nat) (v : α) : Table α :=
  is.foldl (fun t i => t.set i v) t

theorem get_setAll (t : Table α) (is : List Nat) (v : α) (j : Nat) :
    (t.setAll is v).get j = if j ∈ is then v else t.get j := by
  induction is generalizing t with
  | nil => simp [setAll]
  | cons i is ih =>
    have h : t.setAll (i :: is) v = (t.set i v).setAll is v := rfl
    rw [h, ih, get_set]
    by_cases hj : j ∈ is
    · simp [hj]
    · by_cases hi : i = j
      · simp [hi]
      · simp [hj, hi, Ne.symm hi]

end Table
end RamRestore
