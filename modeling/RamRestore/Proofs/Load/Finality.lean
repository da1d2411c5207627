import RamRestore.Proofs.Load.Failures

/-! # What is final

A load has two latches, completion and the first failure, and nothing undoes either of them. Once
the idle callback has answered that all is done, or background work was ended from outside, the
callback has nothing left to do: later calls give the same answer and leave the load as it is.
-/

namespace RamRestore

namespace Load

variable {W : Type}

/-- What one load has latched, a later one has latched as well. -/
structure Latched (l m : Load W) : Prop where
  complete : l.complete = true → m.complete = true
  failure : ∀ cause, l.failure = some cause → m.failure = some cause

structure Shut (l : Load W) : Prop where
  cursor : l.cursor = none
  complete : l.complete = true

section

variable {k l m : Load W}

theorem Latched.refl (l : Load W) : Latched l l := ⟨id, fun _ => id⟩

theorem Latched.trans (h : Latched k l) (h' : Latched l m) : Latched k m :=
  ⟨h'.complete ∘ h.complete, fun cause hf => h'.failure cause (h.failure cause hf)⟩

theorem Latched.of_background (hb : m.background = l.background)
    (hf : ∀ cause, l.failure = some cause → m.failure = some cause) : Latched l m := by
  have hc : m.complete = l.complete := congrArg Background.complete hb
  exact ⟨hc.trans, hf⟩

theorem Fresh.latched (h : l.Fresh) (m : Load W) : Latched l m :=
  ⟨fun hc => by simp [h.complete] at hc, fun cause hf => by simp [h.failure] at hf⟩

theorem latched_conclude (l : Load W) (returned : Option LoadError) :
    Latched l (l.conclude returned).2 :=
  ⟨fun _ => rfl, fun _ => id⟩

theorem shut_interrupt (l : Load W) : Shut l.interrupt := ⟨rfl, rfl⟩

theorem shut_failBackground (l : Load W) (cause : LoadError) :
    Shut (l.failBackground cause).2 := ⟨rfl, rfl⟩

end

variable [Guest W]

/-- Why the idle callback answers that all is done, and the failure that it records then. -/
inductive Finale (l : Load W) : Option LoadError → Prop
  /-- There are no queues. -/
  | absent (hc : l.cursor = none) : Finale l none
  /-- The reader has passed on that there are no more pages. -/
  | endMarker {c : Cursor} {rs : List Result} (hc : l.cursor = some c)
      (hr : l.results = .allLoaded :: rs) : Finale l none
  /-- The reader could not read a page. -/
  | unread {c : Cursor} {cause : LoadError} {rs : List Result} (hc : l.cursor = some c)
      (hr : l.results = .failed cause :: rs) : Finale l (some cause)
  /-- A page that was read could not be placed. -/
  | unplaced {c : Cursor} {i : Nat} {cause : LoadError} {rs : List Result}
      (hc : l.cursor = some c) (hr : l.results = .loaded i :: rs)
      (hp : ({ l with results := rs }.placeParked i).1 = some cause) : Finale l (some cause)
  /-- The reader is gone. -/
  | gone {c : Cursor} (hc : l.cursor = some c) (hr : l.results = []) (he : l.reader = .ended) :
      Finale l (some (.io .readerStopped))

section

variable {l : Load W} {E : Surroundings} {x y : Session W} {e : Option LoadError}

theorem Shut.idle (h : Shut l) : l.idle = (.allDone, l) := by
  unfold Load.idle
  rw [h.cursor]
  dsimp only [finish, markComplete]
  rw [← h.complete]

theorem Shut.steps (h : Shut x.load) (hs : Steps E x y) : Shut y.load :=
  hs.keep (P := fun z => Shut z.load) (fun _ _ hm hz =>
    have hover := hm.over hz.cursor
    ⟨hover.1, hover.2.1 hz.complete⟩) h

theorem idle_received {c : Cursor} {r : Result} {rs : List Result} (hc : l.cursor = some c)
    (hr : l.results = r :: rs) : l.idle = { l with results := rs }.receive r := by
  rw [Load.idle, hc, hr]

theorem idle_gone {c : Cursor} (hc : l.cursor = some c) (hr : l.results = [])
    (he : l.reader = .ended) : l.idle = l.failBackground (.io .readerStopped) := by
  rw [Load.idle, hc, hr, he]

omit [Guest W] in
theorem failure_failBackground (m : Load W) (cause : LoadError) :
    (m.failBackground cause).2.failure = m.failure.or (some cause) :=
  failure_recordAny m (some cause)

theorem Finale.idle (h : Finale l e) :
    l.idle.1 = .allDone ∧ Shut l.idle.2 ∧ l.idle.2.failure = l.failure.or e := by
  cases h with
  | absent hc =>
    have h : l.idle = l.finish := by rw [Load.idle, hc]
    rw [h]
    exact ⟨rfl, ⟨hc, rfl⟩, (Option.or_none ..).symm⟩
  | endMarker hc hr =>
    rw [idle_received hc hr]
    exact ⟨rfl, ⟨rfl, rfl⟩, (Option.or_none ..).symm⟩
  | unread hc hr =>
    rw [idle_received hc hr]
    exact ⟨rfl, shut_failBackground _ _, failure_failBackground _ _⟩
  | @unplaced c i cause rs hc hr hp =>
    rw [idle_received hc hr, receive_unplaced hp]
    refine ⟨rfl, shut_failBackground _ _, ?_⟩
    rw [failure_failBackground, failure_placeParked]
  | gone hc hr he =>
    rw [idle_gone hc hr he]
    exact ⟨rfl, shut_failBackground _ _, failure_failBackground _ _⟩

/-- There is no other way for an idle call to answer that all is done. -/
theorem exists_finale (h : l.idle.1 = .allDone) : ∃ e, Finale l e := by
  cases hc : l.cursor with
  | none => exact ⟨_, .absent hc⟩
  | some c =>
    cases hr : l.results with
    | cons r rs =>
      cases r with
      | loaded i =>
        cases hp : ({ l with results := rs }.placeParked i).1 with
        | none =>
          rw [idle_received hc hr, receive_placed hp] at h
          cases h
        | some cause => exact ⟨_, .unplaced hc hr hp⟩
      | failed cause => exact ⟨_, .unread hc hr⟩
      | allLoaded => exact ⟨_, .endMarker hc hr⟩
    | nil =>
      cases he : l.reader with
      | ended => exact ⟨_, .gone hc hr he⟩
      | _ =>
        rw [Load.idle, hc, hr, he] at h
        exact absurd h (queueReads_ne_allDone l c l.capacity)

theorem shut_of_allDone (h : l.idle.1 = .allDone) : Shut l.idle.2 := by
  obtain ⟨e, he⟩ := exists_finale h
  exact he.idle.2.1

theorem receive_goesOn_or_shut (l : Load W) (r : Result) :
    (l.receive r).2.background = l.background ∨
      Shut (l.receive r).2 ∧ (l.receive r).2.results = [] := by
  apply (background_receive l r).imp_right
  intro hb
  have hshut : Shut (l.receive r).2 :=
    ⟨congrArg Background.cursor hb, congrArg Background.complete hb⟩
  exact ⟨hshut, congrArg Background.results hb⟩

theorem Move.latched (h : Move E x y) : Latched x.load y.load := by
  have hf : ∀ cause, x.load.failure = some cause → y.load.failure = some cause :=
    fun _ => h.failure
  cases h with
  | takeOver => exact .of_background (background_takeOver _ _) hf
  | land => exact .of_background (background_land _ _ _ _) hf
  | readerLand =>
    refine ⟨fun hc => ?_, hf⟩
    unfold landRead
    split <;> exact hc
  | @receive l _ _ r rs =>
    rcases receive_goesOn_or_shut { l with results := rs } r with hb | ⟨hs, -⟩
    · exact ⟨(congrArg Background.complete hb).trans, hf⟩
    · exact ⟨fun _ => hs.complete, hf⟩
  | ended | gone | interrupt => exact ⟨fun _ => rfl, hf⟩
  | _ => exact ⟨id, hf⟩

theorem Steps.latched (h : Steps E x y) : Latched x.load y.load :=
  h.keep (P := fun z => Latched x.load z.load) (fun _ _ hm hz => hz.trans hm.latched) (.refl _)

theorem SweepStep.latched {x y : Sweep W} (h : SweepStep x y) : Latched x.load y.load := by
  refine .of_background h.background fun cause hf => ?_
  cases h with
  | @settled l _ i _ _ hr | @packed l _ i _ _ _ hr =>
    have hread := failure_readInPlace l i
    rw [hr] at hread
    exact hread.trans hf
  | @failed l _ i _ _ _ _ hr =>
    have hread := failure_readInPlace l i
    rw [hr] at hread
    exact failure_record_of (hread.trans hf) _
  | @unpack l _ i _ _ data _ hu =>
    have hunpack := failure_unpackInPlace l i data
    rw [hu] at hunpack
    exact failure_recordAny_of (hunpack.trans hf) _

theorem Sweeps.latched {x y : Sweep W} (h : Sweeps x y) : Latched x.load y.load :=
  h.keep (P := fun z => Latched x.load z.load) (fun _ _ hs hz => hz.trans hs.latched) (.refl _)

theorem Move.closing (h : Move E x y) (hc : x.load.cursor ≠ none) :
    y.load.cursor ≠ none ∨ Shut y.load ∧ y.load.results = [] := by
  have hopen : y.load.cursor = x.load.cursor → y.load.cursor ≠ none := fun hy hn => hc (hy ▸ hn)
  cases h with
  | takeOver => exact .inl (hopen (congrArg Background.cursor (background_takeOver _ _)))
  | land => exact .inl (hopen (congrArg Background.cursor (background_land _ _ _ _)))
  | readerLand =>
    refine .inl (hopen ?_)
    unfold landRead
    split <;> rfl
  | @receive l _ _ r rs =>
    rcases receive_goesOn_or_shut { l with results := rs } r with hb | hs
    · exact .inl (hopen (congrArg Background.cursor hb))
    · exact .inr hs
  | gone | interrupt => exact .inr ⟨⟨rfl, rfl⟩, rfl⟩
  | look | ask | askEnd => exact .inl nofun
  | _ => exact .inl (hopen rfl)

/-- The queues only go away when background work is over. -/
theorem Move.closed (hx : x.load.cursor = none → x.load.complete = true) (h : Move E x y)
    (hy : y.load.cursor = none) : y.load.complete = true := by
  by_cases hc : x.load.cursor = none
  · exact (h.over hc).2.1 (hx hc)
  · rcases h.closing hc with hn | ⟨hs, -⟩
    · exact absurd hy hn
    · exact hs.complete

theorem Steps.closed (hx : x.load.cursor = none → x.load.complete = true) (h : Steps E x y) :
    y.load.cursor = none → y.load.complete = true :=
  h.keep (P := fun z => z.load.cursor = none → z.load.complete = true)
    (fun _ _ hm hz => hm.closed hz) hx

end

end Load

namespace Loader

open Load

variable {W : Type} [Guest W]

theorem Leads.latched {l : Loader W} {E : Surroundings} {x y : Session W} (h : l.Leads E x y) :
    Latched x.load y.load := by
  cases h with
  | opened ho _ => exact (opened_fresh ho).1.latched _
  | «eager» _ _ _ _ hy => exact hy.latched
  | @concluded _ l' _ _ _ _ returned _ _ _ _ _ hl' _ hy =>
    exact hl'.latched.trans ((latched_conclude l' returned).trans hy.latched)
  | started _ _ hy => exact hy.latched

/--
Completion and the first failure are final, whatever happens later. Once the idle callback has
answered that all is done, or background work was ended from outside, every later call gives that
answer and leaves the load exactly as it is. The callback gives it where there are no queues, on
the end marker, or with a failure that it records, and in no other case; and queues that a start
has set up only go away when background work is over.
-/
theorem completion_final (l : Loader W) (E : Surroundings) (x : Session W) :
    (∀ y, x.load.idle.1 = .allDone → Steps E ⟨x.load.idle.2, x.faults⟩ y →
        y.load.idle = (.allDone, y.load)) ∧
      (∀ y, Steps E ⟨x.load.interrupt, x.faults⟩ y → y.load.idle = (.allDone, y.load)) ∧
      (∀ y, l.Leads E x y → (x.load.complete = true → y.load.complete = true) ∧
        ∀ cause, x.load.failure = some cause → y.load.failure = some cause) ∧
      (x.load.idle.1 = .allDone ↔ ∃ e, Finale x.load e) ∧
      (∀ e, Finale x.load e → x.load.idle.2.failure = x.load.failure.or e) ∧
      ∀ failure m, l.StartsLazily failure m → m.cursor ≠ none → Steps E ⟨m, 0⟩ x →
        x.load.cursor = none → x.load.complete = true := by
  refine ⟨fun y hd hy => ?_, fun y hy => ?_, fun y hy => ?_, ⟨exists_finale, ?_⟩, fun e he => ?_,
    fun failure m _ hc hs => ?_⟩
  · exact ((shut_of_allDone hd).steps hy).idle
  · exact ((shut_interrupt x.load).steps hy).idle
  · exact ⟨hy.latched.complete, hy.latched.failure⟩
  · rintro ⟨e, he⟩
    exact he.idle.1
  · exact he.idle.2.2
  · exact hs.closed fun hn => absurd hn hc

theorem completion_final_sample : spoiltWord.idle.1 = .allDone ∧
    spoiltWord.idle.2.failure.isSome ∧
    ∀ cause, spoiltWord.idle.2.failure = some cause →
      (spoiltWord.idle.2.record (.unmapped 5)).failure = some cause ∧
        (spoiltWord.idle.2.record (.unmapped 5)).idle =
          (.allDone, spoiltWord.idle.2.record (.unmapped 5)) := by
  let E : Surroundings := { Surroundings.quiet with fault := fun a => a = 5 }
  have hd : spoiltWord.idle.1 = .allDone := by decide +kernel
  have hs : Steps E ⟨spoiltWord.idle.2, 0⟩ ⟨spoiltWord.idle.2.record (.unmapped 5), 0⟩ := by
    have hlocate : spoiltWord.idle.2.index.locate 5 = none := by decide +kernel
    have hsettled : spoiltWord.idle.2.encounter 5 =
        .settled (spoiltWord.idle.2.record (.unmapped 5)) := by
      rw [encounter, hlocate]
    exact .head (.fault rfl) (.single (.settle hsettled))
  have hidle : Steps E ⟨spoiltLoad, 0⟩ ⟨spoiltWord.idle.2, 0⟩ := spoiltSample_steps.tail .idle
  obtain ⟨hlater, -⟩ := completion_final spoiltSample E ⟨spoiltWord, 0⟩
  obtain ⟨-, -, hlatched, -⟩ := completion_final spoiltSample E ⟨spoiltWord.idle.2, 0⟩
  obtain ⟨-, hfailure⟩ := hlatched _ (.started spoiltSample_starts hidle hs)
  exact ⟨hd, by decide +kernel, fun cause hc => ⟨hfailure cause hc, hlater _ hd hs⟩⟩

end Loader
end RamRestore
