import RamRestore.Proofs.Load.Manned

/-! # Pages are released

Whoever claims a page gives it up again, on every way out of what it claimed the page for. Only
the reader stays in a page when it is stopped there, because its read does not return or because
that read killed it. So at most one page stays claimed while nobody is at work.
-/

namespace RamRestore

namespace Load

variable {W : Type} [Guest W] {E : Surroundings} {x y z : Session W} {l l' : Load W} {i : Nat}
  {P : Nat → Prop}

/-- Between two sessions the reader was killed by a read of page `i`. -/
def KilledAt (E : Surroundings) (x : Session W) (i : Nat) (y : Session W) : Prop :=
  ∃ u v t, Steps E x u ∧ u.load.reader = .reading i t ∧ t.offset ∈ u.load.source.lethal ∧
    u.load.readerStep? = some v ∧ v.reader = .ended ∧ Steps E ⟨v, u.faults⟩ y

theorem KilledAt.trans (h : KilledAt E x i y) (hs : Steps E y z) : KilledAt E x i z := by
  obtain ⟨u, v, t, hu, hr, ht, hv, hended, hy⟩ := h
  exact ⟨u, v, t, hu, hr, ht, hv, hended, hy.trans hs⟩

/-! ### The reader -/

theorem reader_idle (l : Load W) : l.idle.2.reader = l.reader := by
  unfold idle
  split
  · rfl
  · split
    · exact reader_receive _ _
    · rfl
    · exact queueReads_keeps reader (fun _ _ _ => rfl) l _ _

def begins (l l' : Load W) : List Nat :=
  match l.reader, l'.reader with
  | .waiting, .reading i _ => [i]
  | _, _ => []

def ReaderTurn (x y : Session W) : Prop :=
  ∃ l', x.load.readerStep? = some l' ∧ y = ⟨l', x.faults⟩

/-- Only a step of the reader has an effect on it, and nobody asks it for anything any more once
the queues are gone. -/
theorem Step.reader_cases (h : Step E x y) :
    ReaderTurn x y ∨ y.load.reader = x.load.reader ∧
      (x.load.cursor = none → y.load.requests = x.load.requests) := by
  have hb : y.load.background = x.load.background → y.load.reader = x.load.reader ∧
      (x.load.cursor = none → y.load.requests = x.load.requests) := fun hb =>
    ⟨congrArg Background.reader hb, fun _ => congrArg Background.requests hb⟩
  cases h with
  | reader h => exact .inl ⟨_, h, rfl⟩
  | settle h =>
    obtain ⟨-, rfl⟩ | ⟨i, -, -, rfl⟩ := encounter_settled h
    · exact .inr (hb rfl)
    · exact .inr (hb (background_takeOver _ i))
  | claim h =>
    obtain ⟨-, -, rfl⟩ := encounter_claimed h
    exact .inr (hb rfl)
  | read h =>
    obtain ⟨c, -, rfl⟩ := readOnce_going h
    exact .inr (hb rfl)
  | land h =>
    obtain ⟨got, stop, cs, s, -, rfl⟩ := readOnce_none_ends h
    exact .inr (hb (background_land _ _ got stop))
  | @idle l =>
    refine .inr ⟨reader_idle _, fun hc => ?_⟩
    have hidle : l.idle = l.finish := by rw [Load.idle, show l.cursor = none from hc]
    rw [hidle]
    rfl
  | fault | source => exact .inr (hb rfl)
  | interrupt => exact .inr ⟨rfl, fun _ => rfl⟩

omit [Guest W] in
theorem lethal_of_ended {t : Transfer} (hr : l.reader = .reading i t)
    (h : l.readerStep? = some l') (he : l'.reader = .ended) : t.offset ∈ l.source.lethal := by
  unfold readerStep? at h
  rw [hr] at h
  unfold readOn? at h
  dsimp only at h
  split at h
  · cases h
  · split at h
    · rename_i hlethal
      exact List.contains_iff_mem.1 hlethal
    · split at h
      · cases h
        cases he
      · cases h
        unfold landRead at he
        split at he <;> cases he

omit [Guest W] in
theorem killed_of_lethal {t : Transfer} (hr : l.reader = .reading i t)
    (ht : t.offset ∈ l.source.lethal) (h : l.readerStep? = some l') : Killed l' := by
  unfold readerStep? at h
  rw [hr] at h
  unfold readOn? at h
  dsimp only at h
  split at h
  · cases h
  · rw [if_pos (List.contains_iff_mem.2 ht)] at h
    cases h
    exact ⟨rfl, ⟨t.offset, t.wanted, .died⟩, by simp [note], rfl⟩

theorem KilledAt.killed (h : KilledAt E x i y) : Killed y.load := by
  obtain ⟨u, v, t, -, hr, ht, hv, -, hy⟩ := h
  exact hy.keep (P := fun z => Killed z.load) (fun _ _ hm hz => hz.move hm)
    (killed_of_lethal hr ht hv)

omit [Guest W] in
/-- Inside a page the reader only stops where its read does not return. -/
theorem held_of_stuck {t : Transfer} (hr : l.reader = .reading i t) (h : l.readerStep? = none) :
    t.offset ∈ l.source.held := by
  unfold readerStep? at h
  rw [hr] at h
  unfold readOn? at h
  dsimp only at h
  split at h
  · rename_i hheld
    exact List.contains_iff_mem.1 hheld
  · split at h
    · cases h
    · split at h <;> cases h

/-! ### Pages that stay claimed -/

theorem Attended.moves (h : Attended P x) (hm : Moves E x y)
    (hr : y.load.reader = x.load.reader) : Attended P y := by
  have hz : (x.load.reader = .ended → y.load.reader = .ended) ∧
      (Attended P y ∨ x.load.reader ≠ .ended ∧ y.load.reader = .ended) := by
    clear hr
    induction hm with
    | refl => exact ⟨id, .inl h⟩
    | tail _ hs ih =>
      obtain ⟨hended, ha⟩ := ih
      refine ⟨fun hx => hs.ended_mono (hended hx), ?_⟩
      rcases ha with ha | ⟨hx, hy⟩
      · by_cases hx : x.load.reader = .ended
        · exact .inl (ha.move hs fun _ _ hr _ => by cases (hended hx).symm.trans hr)
        · rename_i b c _
          by_cases hc : c.load.reader = .ended
          · exact .inr ⟨hx, hc⟩
          · exact .inl (ha.move hs fun _ _ _ hk => absurd hk.reader hc)
      · exact .inr ⟨hx, hs.ended_mono hy⟩
  rcases hz.2 with ha | ⟨hx, hy⟩
  · exact ha
  · exact absurd (hr.symm.trans hy) hx

/-- At most one page is claimed and abandoned, the one at which the reader was killed. -/
def Released (E : Surroundings) (x y : Session W) : Prop :=
  ∃ p : Option Nat, (∀ i, p = some i → KilledAt E x i y) ∧ Attended (fun i => p = some i) y

theorem Released.step (h : Released E x y) (hy : Steps E x y) (hs : Step E y z) :
    Released E x z := by
  obtain ⟨p, hp, ha⟩ := h
  have hp' : ∀ i, p = some i → KilledAt E x i z := fun i hi => (hp i hi).trans (.single hs)
  rcases hs.reader_cases with ⟨l', hl, rfl⟩ | ⟨hr, -⟩
  · have hm : Move E y ⟨l', y.faults⟩ := readerStep?_move hl
    by_cases hk : l'.reader = .ended ∧ ∃ i t, y.load.reader = .reading i t
    · obtain ⟨hended, i, t, hr⟩ := hk
      -- nobody was killed before who is killed now
      obtain rfl : p = none := by
        cases p with
        | none => rfl
        | some j => cases (hp j rfl).killed.reader.symm.trans hr
      refine ⟨some i, fun j hj => ?_, (ha.mono nofun).move hm fun j u hj _ => ?_⟩
      · obtain rfl := Option.some.inj hj
        exact ⟨y, l', t, hy, hr, lethal_of_ended hr hl hended, hl, hended, .refl⟩
      · obtain ⟨rfl, -⟩ := Reader.reading.inj (hr.symm.trans hj)
        rfl
    · exact ⟨p, hp', ha.move hm fun i t hr hkilled => absurd ⟨hkilled.reader, i, t, hr⟩ hk⟩
  · exact ⟨p, hp', ha.moves hs.moves hr⟩

theorem Steps.released (h : Attended (fun _ => False) x) (hs : Steps E x y) :
    Released E x y := by
  induction hs with
  | refl => exact ⟨none, nofun, h.mono fun _ => False.elim⟩
  | tail hy hs ih => exact ih.step hy hs

end Load

namespace Loader

open Load

variable {W : Type} [Guest W] {l : Loader W} {E : Surroundings} {m : Load W} {x : Session W}
  {failure : Option LoadError}

/--
No operation leaves a page claimed. At no time after a start is a page being filled between two
steps; and of the pages that are being read one at most is neither a fault's own, which is still
reading it, nor given up again. That page is the one that the reader is inside, where it only
stops at a read that does not return, or the one that it was killed in. An eager start has
released every page when it returns, whatever it returns.
-/
theorem pages_released (hm : l.Starts failure m) (hs : Steps E ⟨m, 0⟩ x) :
    (∀ i, x.load.state i ≠ .filling) ∧
      (∃ p : Option Nat,
        (∀ i, p = some i →
          (∃ t, x.load.reader = .reading i t ∧
            (x.load.readerStep? = none → t.offset ∈ x.load.source.held)) ∨
            KilledAt E ⟨m, 0⟩ i x) ∧
          ∀ i, x.load.state i = .reading → p = some i ∨ ∃ t, .reading i t ∈ x.faults) ∧
      (l.StartsEagerly failure m →
        ∀ i, m.state i = .empty ∨ m.state i = .filled ∨ m.state i = .error) := by
  obtain ⟨p, hp, ha⟩ := hs.released hm.attended
  refine ⟨ha.filling, ?_, fun h => h.released⟩
  by_cases hr : ∃ i t, x.load.reader = .reading i t
  · obtain ⟨i, t, hr⟩ := hr
    refine ⟨some i, fun j hj => ?_, fun j hj => ?_⟩
    · obtain rfl := Option.some.inj hj
      exact .inl ⟨t, hr, held_of_stuck hr⟩
    · rcases ha.reading j hj with ⟨u, hu⟩ | hk
      · rcases mem_transfers.1 hu with hu | hu
        · obtain ⟨rfl, -⟩ := Reader.reading.inj (hr.symm.trans hu)
          exact .inl rfl
        · exact .inr ⟨u, hu⟩
      · cases (hp j hk).killed.reader.symm.trans hr
  · refine ⟨p, fun j hj => .inr (hp j hj), fun j hj => ?_⟩
    rcases ha.reading j hj with ⟨u, hu⟩ | hk
    · rcases mem_transfers.1 hu with hu | hu
      · exact absurd ⟨j, u, hu⟩ hr
      · exact .inr ⟨u, hu⟩
    · exact .inl hk

def deadlySample : Loader PlainWatch := sample.withSource { sample.source with lethal := [8] }

def deadlyLoad : Load PlainWatch := deadlySample.start.2.load?.get (by decide +kernel)

def deadlyEnd : Load PlainWatch := (deadlyLoad.idle.2.readerSteps 2).idle.2

theorem deadlySample_starts : deadlySample.Starts none deadlyLoad :=
  .inl ⟨⟨deadlySample.opened?.get (by decide +kernel), (Option.some_get _).symm,
    by decide +kernel⟩, by decide +kernel, (Option.some_get _).symm⟩

theorem deadlySample_steps {E : Surroundings} : Steps E ⟨deadlyLoad, 0⟩ ⟨deadlyEnd, 0⟩ :=
  .head .idle ((steps_readerSteps _ 0 2).tail .idle)

theorem pages_released_sample : deadlyEnd.state 0 = .reading ∧ deadlyEnd.complete = true ∧
    KilledAt .quiet ⟨deadlyLoad, 0⟩ 0 ⟨deadlyEnd, 0⟩ := by
  have hs : deadlyEnd.state 0 = .reading := by decide +kernel
  obtain ⟨-, ⟨p, hp, hreading⟩, -⟩ := pages_released deadlySample_starts
    (deadlySample_steps (E := .quiet))
  obtain rfl | ⟨t, ht⟩ := hreading 0 hs
  · obtain ⟨t, hr, -⟩ | hk := hp 0 rfl
    · have he : deadlyEnd.reader.transfer? = none := by decide +kernel
      have hr' : deadlyEnd.reader = .reading 0 t := hr
      rw [hr'] at he
      cases he
    · exact ⟨hs, by decide +kernel, hk⟩
  · simp at ht

end Loader
end RamRestore
