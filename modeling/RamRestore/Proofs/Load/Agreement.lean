import RamRestore.Proofs.Load.EagerOutcome

/-! # Agreement of lazy and eager loads

A lazy load and an eager load of one snapshot begin with the same index and the same memory.
Where only the source can make them fail they agree: both fail, or both restore the same
memory.
-/

namespace RamRestore

variable {W V : Type} [Guest W] [LawfulGuest W] [Guest V] [LawfulGuest V]

open LawfulGuest

/-- Copying the same data to the same place keeps memories equal. -/
theorem Copied.congr {start : Nat} {data : Bytes} {before before' now now' : Nat → UInt8}
    (h : Copied start data before now) (h' : Copied start data before' now')
    (hb : before' = before) : now' = now := by
  funext a
  rw [h a, h' a, hb]

namespace Loader

theorem clear_congr (zeroChecker : Bytes → Bool) {w : W} {v : V} (h : byte v = byte w)
    (ranges : List (Nat × Nat)) :
    byte (clear zeroChecker v ranges).2 = byte (clear zeroChecker w ranges).2 := by
  induction ranges generalizing w v with
  | nil => exact h
  | cons range ranges ih =>
    obtain ⟨address, length⟩ := range
    have hr : (Guest.read v address length).1 = (Guest.read w address length).1 := by
      rw [read_eq, read_eq, h]
    have hb : byte (Guest.read v address length).2 = byte (Guest.read w address length).2 := by
      rw [byte_read, byte_read, h]
    simp only [clear, hr]
    split
    · exact ih hb
    · exact ih ((byte_write _ _ _).congr (byte_write _ _ _) hb)

/-- Two loaders that differ at most in how they load: the same blocks, snapshot and memory. -/
structure SameSnapshot (l : Loader W) (k : Loader V) : Prop where
  blocks : k.blocks = l.blocks
  zeroChecker : k.zeroChecker = l.zeroChecker
  source : Source.SameAnswers l.source k.source
  memory : byte k.guest = byte l.guest

variable {l : Loader W} {k : Loader V} {m₀ : Load W} {n₀ : Load V}

omit [LawfulGuest W] in
theorem opened_of_registering {source : Source} {guest : W}
    (hp : l.phase = .registering source guest) (h : l.opened? = some m₀) :
    (Index.read l.blocks source).outcome = .ok m₀.index ∧
      m₀.guest = (clear l.zeroChecker guest (Index.read l.blocks source).cleared).2 := by
  unfold opened? at h
  simp only [hp] at h
  split at h
  · cases h
  · rename_i index hr
    cases h
    exact ⟨hr, rfl⟩

omit [LawfulGuest W] in
theorem registering_of_opened (h : l.opened? = some m₀) :
    l.phase = .registering l.source l.guest := by
  unfold opened? at h
  unfold source guest
  split at h
  · rename_i hp
    simp only [hp]
  · cases h

theorem SameSnapshot.opened (h : SameSnapshot l k) (hl : l.opened? = some m₀)
    (hk : k.opened? = some n₀) :
    n₀.index = m₀.index ∧ Source.SameAnswers m₀.source n₀.source ∧
      byte n₀.guest = byte m₀.guest := by
  obtain ⟨hread, hguest⟩ := opened_of_registering (registering_of_opened hl) hl
  obtain ⟨hread', hguest'⟩ := opened_of_registering (registering_of_opened hk) hk
  obtain ⟨ho, hc⟩ :
      (Index.read l.blocks k.source).outcome = (Index.read l.blocks l.source).outcome ∧
      (Index.read l.blocks k.source).cleared = (Index.read l.blocks l.source).cleared :=
    Index.read_congr h.source
  rw [h.blocks, ho, hread] at hread'
  refine ⟨(Except.ok.inj hread').symm,
    ((opened_source hl).symm.trans h.source).trans (opened_source hk), ?_⟩
  rw [hguest, hguest', h.blocks, h.zeroChecker, hc]
  exact clear_congr l.zeroChecker h.memory _

end Loader

namespace Load

theorem byte_registerAll (ranges : List (Nat × Nat)) (w : W) :
    byte (registerAll w ranges).2 = byte w := by
  induction ranges generalizing w with
  | nil => rfl
  | cons range ranges ih =>
    obtain ⟨start, length⟩ := range
    unfold registerAll
    split
    · rename_i hr
      exact (ih _).trans (byte_register hr)
    · rfl

theorem byte_startBackground {l m : Load W} {threads : Threads} {failure : Option LoadError}
    (h : l.startBackground threads = (failure, m)) : byte m.guest = byte l.guest := by
  have hr := byte_registerAll l.index.ranges l.guest
  unfold startBackground at h
  split at h
  · rename_i he
    cases h
    rwa [he] at hr
  · rename_i he
    rw [he] at hr
    dsimp only at h
    split at h
    · cases h
      exact hr
    · split at h
      · rename_i ha
        cases h
        exact (byte_arm ha).trans hr
      · cases h
        exact hr

variable {E : Surroundings} {l : Loader W} {k : Loader V} {m : Load W} {n : Load V}
  {x : Session W} {failure : Option LoadError}

/-- Memory that is restored completely is the same for all that began with the same. -/
theorem restored_unique {index : Index} {data : Bytes} {state state' : Nat → PageState}
    {before now now' : Nat → UInt8} (h : index.Restored data state before now)
    (h' : index.Restored data state' before now') (hs : ∀ i ∈ index.stored, state i = .filled)
    (hs' : ∀ i ∈ index.stored, state' i = .filled) : now' = now := by
  funext a
  by_cases hc : ∃ i ∈ index.stored, index.Covers i a
  · obtain ⟨i, hi, hle, hlt⟩ := hc
    obtain ⟨c, hci, hk⟩ := h.filled i hi (hs i hi)
    obtain ⟨d, hdi, hk'⟩ := h'.filled i hi (hs' i hi)
    rw [hci] at hdi
    obtain rfl := Option.some.inj hdi
    have ha : a = index.address i + (a - index.address i) := by omega
    rw [ha, hk _ (by omega), hk' _ (by omega)]
  · rw [h.kept a fun i hi hci => absurd ⟨i, hi, hci⟩ hc,
      h'.kept a fun i hi hci => absurd ⟨i, hi, hci⟩ hc]

end Load
end RamRestore
