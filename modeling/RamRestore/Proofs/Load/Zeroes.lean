import RamRestore.Proofs.Confinement
import RamRestore.Proofs.Index.Cleared
import RamRestore.Proofs.Load.Agreement

/-! # Zero pages

Before a load reads any page, it clears the pages that are all zero: such memory is all zero
then, or the checker has vouched for it. All other memory is as it was.
-/

namespace RamRestore

def Vouched (zeroChecker : Bytes → Bool) (now : Nat → UInt8) (start length : Nat) : Prop :=
  zeroChecker (Array.ofFn fun k : Fin length => now (start + k)) = true ∨
    ∀ k < length, now (start + k) = 0

/-- What page `i` is to hold, it holds: its contents, or zeros if it takes no room on disk. -/
def Index.Holds (x : Index) (data : Bytes) (zeroChecker : Bytes → Bool) (now : Nat → UInt8)
    (i : Nat) : Prop :=
  if (x.page i).isZero then Vouched zeroChecker now (x.address i) (x.pageSize i)
  else ∃ c, x.content? data i = some c ∧ ∀ k < x.pageSize i, now (x.address i + k) = c.getD k 0

section

variable {zeroChecker : Bytes → Bool} {now now' : Nat → UInt8} {start length : Nat}

theorem Vouched.congr (h : Vouched zeroChecker now start length)
    (he : ∀ k < length, now' (start + k) = now (start + k)) :
    Vouched zeroChecker now' start length := by
  have hbytes : (Array.ofFn fun k : Fin length => now' (start + k)) =
      Array.ofFn fun k : Fin length => now (start + k) := by
    congr 1
    funext k
    exact he k k.isLt
  rcases h with h | h
  · exact .inl (hbytes ▸ h)
  · exact .inr fun k hk => (he k hk).trans (h k hk)

theorem Index.Holds.congr {x : Index} {data : Bytes} {i : Nat}
    (h : x.Holds data zeroChecker now i)
    (he : ∀ k < x.pageSize i, now' (x.address i + k) = now (x.address i + k)) :
    x.Holds data zeroChecker now' i := by
  unfold Holds at h ⊢
  split at h
  · rw [if_pos ‹_›]
    exact h.congr he
  · rw [if_neg ‹_›]
    obtain ⟨c, hc, hk⟩ := h
    exact ⟨c, hc, fun k hlt => (he k hlt).trans (hk k hlt)⟩

end

/-- A page that has to be read has no address of a page that is all zero. -/
theorem Index.not_covers_zero {x : Index} (h : x.WellFormed)
    (hb : RamBlock.Disjoint (x.blocks.map (·.ram))) {i j k : Nat} (hi : i < x.pages.size)
    (hz : (x.page i).isZero = true) (hk : k < x.pageSize i) (hj : j ∈ x.stored) :
    ¬ x.Covers j (x.address i + k) := by
  intro hc
  obtain ⟨hlt, hjz⟩ := mem_stored.1 hj
  obtain rfl := covers_unique h hb hi hlt ⟨Nat.le_add_right _ _, Nat.add_lt_add_left hk _⟩ hc
  simp [hz] at hjz

def InRange (r : Nat × Nat) (a : Nat) : Prop := r.1 ≤ a ∧ a < r.1 + r.2

namespace Loader

variable {W : Type} [Guest W] [LawfulGuest W] {zeroChecker : Bytes → Bool} {w : W}
  {ranges : List (Nat × Nat)}

open LawfulGuest

theorem byte_clear_of_outside {a : Nat} (h : ∀ r ∈ ranges, ¬ InRange r a) :
    byte (clear zeroChecker w ranges).2 a = byte w a :=
  (Within.refl.clear (P := fun a n => (a, n) ∈ ranges) fun _ hr => hr).byte_eq
    fun a n hr => h (a, n) hr

/-- One range that is cleared is all zero, or the checker has vouched for it. -/
theorem vouched_write (zeroChecker : Bytes → Bool) (w : W) (start length : Nat) :
    let (bytes, v) := Guest.read w start length
    Vouched zeroChecker
      (byte (if zeroChecker bytes then v else Guest.write v start (Array.replicate length 0)))
      start length := by
  dsimp only
  rw [read_eq]
  split
  · rename_i hz
    refine .inl ?_
    rwa [byte_read]
  · refine .inr fun k hk => ?_
    rw [byte_write, if_pos (by simp [hk])]
    simp [hk]

theorem vouched_clear (h : ∀ r ∈ ranges, ∀ q ∈ ranges, ∀ a, InRange r a → InRange q a → r = q) :
    ∀ r ∈ ranges, Vouched zeroChecker (byte (clear zeroChecker w ranges).2) r.1 r.2 := by
  induction ranges generalizing w with
  | nil => simp
  | cons first ranges ih =>
    obtain ⟨start, length⟩ := first
    have hrest : ∀ v : W, ∀ r ∈ ranges,
        Vouched zeroChecker (byte (clear zeroChecker v ranges).2) r.1 r.2 :=
      fun v => ih fun r hr q hq => h r (.tail _ hr) q (.tail _ hq)
    intro r hr
    rw [clear]
    by_cases hmem : r ∈ ranges
    · exact hrest _ r hmem
    · obtain rfl := (List.mem_cons.1 hr).resolve_right hmem
      refine (vouched_write zeroChecker w start length).congr fun k hk => ?_
      apply byte_clear_of_outside
      rintro q hq hin
      have hfirst : InRange (start, length) (start + k) :=
        ⟨Nat.le_add_right _ _, Nat.add_lt_add_left hk _⟩
      rw [← h _ hr q (.tail _ hq) _ hfirst hin] at hq
      exact hmem hq

variable {l : Loader W} {m₀ : Load W}

omit [LawfulGuest W] in
/-- What is cleared before a load begins is the memory of its zero pages. -/
theorem mem_cleared_opened (ho : l.opened? = some m₀) {r : Nat × Nat} (hpos : 0 < r.2) :
    r ∈ (Index.read l.blocks l.source).cleared ↔ ∃ i < m₀.index.pages.size,
      (m₀.index.page i).isZero = true ∧ r = (m₀.index.address i, m₀.index.pageSize i) :=
  Index.mem_cleared_read (opened_of_registering (registering_of_opened ho) ho).1 hpos

/-- Before a load reads any page, its zero pages hold what they are to hold. -/
theorem holds_of_opened (ho : l.opened? = some m₀) (hb : RamBlock.Disjoint l.blocks) (data : Bytes)
    {i : Nat} (hi : i < m₀.index.pages.size) (hz : (m₀.index.page i).isZero = true) :
    m₀.index.Holds data l.zeroChecker (byte m₀.guest) i := by
  obtain ⟨hf, hblocks⟩ := opened_fresh ho
  have hb' : RamBlock.Disjoint (m₀.index.blocks.map (·.ram)) := hblocks ▸ hb
  obtain ⟨-, hguest⟩ := opened_of_registering (registering_of_opened ho) ho
  rw [Index.Holds, if_pos hz, hguest]
  by_cases hpos : 0 < m₀.index.pageSize i
  · refine vouched_clear ?_ (m₀.index.address i, m₀.index.pageSize i)
      ((mem_cleared_opened ho hpos).2 ⟨i, hi, hz, rfl⟩)
    intro r hr q hq a hra hqa
    obtain ⟨j, hj, -, rfl⟩ :=
      (mem_cleared_opened ho (Nat.pos_of_lt_add_right (Nat.lt_of_le_of_lt hra.1 hra.2))).1 hr
    obtain ⟨k, hk, -, rfl⟩ :=
      (mem_cleared_opened ho (Nat.pos_of_lt_add_right (Nat.lt_of_le_of_lt hqa.1 hqa.2))).1 hq
    rw [Index.covers_unique hf.wellFormed hb' hj hk hra hqa]
  · exact .inr fun k hk => absurd (Nat.lt_of_le_of_lt (Nat.zero_le k) hk) hpos

theorem byte_opened (ho : l.opened? = some m₀) {a : Nat}
    (ha : ∀ i < m₀.index.pages.size, (m₀.index.page i).isZero = true → ¬ m₀.index.Covers i a) :
    byte m₀.guest a = byte l.guest a := by
  obtain ⟨-, hguest⟩ := opened_of_registering (registering_of_opened ho) ho
  rw [hguest]
  apply byte_clear_of_outside
  intro r hr hin
  obtain ⟨i, hi, hz, rfl⟩ :=
    (mem_cleared_opened ho (Nat.pos_of_lt_add_right (Nat.lt_of_le_of_lt hin.1 hin.2))).1 hr
  exact ha i hi hz hin

end Loader
end RamRestore
