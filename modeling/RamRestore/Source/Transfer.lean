import RamRestore.Source

/-! # Transfers

A transfer reads a given number of bytes at a position, in as many reads as the source
needs for it. It stops when it has them all, when the data ends, or when a read fails.
-/

namespace RamRestore

/-- A transfer on its way: what it is after, and what it has. -/
structure Transfer where
  position : Nat
  size : Nat
  got : Bytes := #[]

namespace Transfer

def offset (t : Transfer) : Nat := t.position + t.got.size

def wanted (t : Transfer) : Nat := t.size - t.got.size

inductive Stop where
  | full
  | short
  | failed (cause : IoError)

inductive Progress where
  | going (t : Transfer)
  | stopped (got : Bytes) (stop : Stop)

def call (t : Transfer) (s : Source) : ReadCall × Progress :=
  match s.answer t.offset t.wanted with
  | .interrupted => (⟨t.offset, t.wanted, .interrupted⟩, .going t)
  | .failed cause => (⟨t.offset, t.wanted, .failed cause.kind⟩, .stopped t.got (.failed cause))
  | .bytes b =>
    let got := t.got ++ b
    (⟨t.offset, t.wanted, .got b.size⟩,
      if b.size = 0 then .stopped t.got .short
      else if got.size < t.size then .going { t with got }
      else .stopped got .full)

structure Outcome where
  got : Bytes
  stop : Stop
  calls : List ReadCall
  source : Source

theorem call_going {t t' : Transfer} {s : Source} {c : ReadCall}
    (h : t.call s = (c, .going t')) :
    t'.size = t.size ∧
      (t.got.size < t'.got.size ∧ t'.got.size < t'.size ∨
        t' = t ∧ 0 < s.interruptions.get t.offset) := by
  unfold call Source.answer at h
  by_cases hi : 0 < s.interruptions.get t.offset
  · simp only [hi, ↓reduceIte, Prod.mk.injEq, Progress.going.injEq] at h
    simp [← h.2, hi]
  · simp only [hi, ↓reduceIte] at h
    cases hf : s.failure t.offset t.wanted with
    | some e => simp [hf] at h
    | none =>
      simp only [hf, Prod.mk.injEq] at h
      obtain ⟨-, h⟩ := h
      split at h
      · simp at h
      · split at h
        · rename_i hb hlt
          simp only [Progress.going.injEq] at h
          subst h
          simp only [Array.size_append] at hlt ⊢
          exact ⟨trivial, .inl ⟨by omega, hlt⟩⟩
        · simp at h

theorem position_of_going {t t' : Transfer} {s : Source} {c : ReadCall}
    (h : t.call s = (c, .going t')) : t'.position = t.position := by
  unfold call at h
  split at h
  · cases h
    rfl
  · cases h
  · simp only [Prod.mk.injEq] at h
    obtain ⟨-, h⟩ := h
    split at h
    · cases h
    · split at h
      · cases h
        rfl
      · cases h

/-- How often reads at these `n` offsets will be interrupted. -/
def delays (s : Source) (offset : Nat) : (n : Nat) → Nat
  | 0 => 0
  | n + 1 => delays s offset n + s.interruptions.get (offset + n)

theorem delays_after_le (s : Source) (offset k n : Nat) :
    delays (s.after k) offset n ≤ delays s offset n := by
  induction n with
  | zero => exact Nat.le_refl 0
  | succ n ih =>
    refine Nat.add_le_add ih ?_
    simp only [Source.after, Table.get_set]
    split
    · rename_i hk
      rw [hk]
      exact Nat.sub_le _ _
    · exact Nat.le_refl _

theorem delays_after_lt {s : Source} {offset k n : Nat} (hk : k < n)
    (h : 0 < s.interruptions.get (offset + k)) :
    delays (s.after (offset + k)) offset n < delays s offset n := by
  induction n with
  | zero => exact absurd hk (Nat.not_lt_zero k)
  | succ n ih =>
    have hrest := delays_after_le s offset (offset + k) n
    simp only [delays, Source.after, Table.get_set] at hrest ih ⊢
    split
    · rename_i he
      obtain rfl : k = n := Nat.add_left_cancel he
      omega
    · have := ih (by omega)
      omega

def run (t : Transfer) (s : Source) : Outcome :=
  if t.size ≤ t.got.size then ⟨t.got, .full, [], s⟩
  else match _h : t.call s with
    | (c, .stopped got stop) => ⟨got, stop, [c], s.after t.offset⟩
    | (c, .going t') =>
      let o := t'.run (s.after t.offset)
      { o with calls := c :: o.calls }
termination_by t.size - t.got.size + delays s t.position t.size
decreasing_by
  obtain ⟨hs, ⟨h₁, h₂⟩ | ⟨rfl, h₂⟩⟩ := call_going _h
  · rw [position_of_going _h, hs]
    have := delays_after_le s t.position t.offset t.size
    omega
  · have := delays_after_lt (k := t'.got.size) (n := t'.size) (by omega) h₂
    simp only [offset]
    omega

end Transfer
end RamRestore
