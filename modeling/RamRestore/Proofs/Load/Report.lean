import RamRestore.Proofs.Load.Completion
import RamRestore.Proofs.Load.Yield

/-! # What the reader reports

What the reader says about pages is true, and the idle callback hears all of it. So a load to
which nothing else happens fails if and only if its source has no contents for some page.
-/

namespace RamRestore.Load

variable {W : Type} [Guest W] {E : Surroundings} {x y : Session W}
  {yield : Nat → Except LoadError Bytes}

def Spoilt (yield : Nat → Except LoadError Bytes) (index : Index) : Prop :=
  ∃ i ∈ index.stored, ∃ cause, yield i = .error cause

/-- What the reader says is true, and there is a failure only if a page is spoilt. -/
structure Reported (yield : Nat → Except LoadError Bytes) (x : Session W) : Prop where
  faults : ∀ a, .at a ∈ x.faults → ∃ i, x.load.index.locate a = some i
  loaded : ∀ i, .loaded i ∈ x.load.pending → x.load.state i = .read ∨ x.load.state i = .filled
  failed : ∀ cause, .failed cause ∈ x.load.pending → Spoilt yield x.load.index
  failure : x.load.failure.isSome → Spoilt yield x.load.index
  ended : x.load.cursor ≠ none → x.load.reader = .ended → .allLoaded ∈ x.load.results

section

variable {l l' : Load W} {fs : Multiset Service} {i : Nat}

omit [Guest W] in
theorem spoilt_of_error (ho : Orderly x) (ht : Truthful yield x) {i : Nat}
    (h : x.load.state i = .error) : Spoilt yield x.load.index :=
  ⟨i, ho.stored_of_state (by simp [h]) (by simp [h]), (ht.truth i).error h⟩

omit [Guest W] in
theorem Reported.update (h : Reported yield x) (hi : y.load.index = x.load.index)
    (hf : ∀ a, .at a ∈ y.faults → .at a ∈ x.faults)
    (hp : ∀ r ∈ y.load.pending, r ∈ x.load.pending ∨ r = .allLoaded)
    (hs : ∀ j, x.load.state j = .read ∨ x.load.state j = .filled →
      y.load.state j = .read ∨ y.load.state j = .filled)
    (hfail : y.load.failure.isSome → x.load.failure.isSome ∨ Spoilt yield x.load.index)
    (hend : y.load.cursor ≠ none → y.load.reader = .ended → .allLoaded ∈ y.load.results) :
    Reported yield y where
  faults a ha := hi ▸ h.faults a (hf a ha)
  loaded j hj := hs j (h.loaded j ((hp _ hj).resolve_right nofun))
  failed cause hj := hi ▸ h.failed cause ((hp _ hj).resolve_right nofun)
  failure hn := hi ▸ (hfail hn).elim h.failure id
  ended := hend

omit [Guest W] in
theorem Reported.fault (h : Reported yield x) (hi : y.load.index = x.load.index)
    (hb : y.load.background = x.load.background) (hf : ∀ a, .at a ∈ y.faults → .at a ∈ x.faults)
    (hs : ∀ j, x.load.state j = .read ∨ x.load.state j = .filled →
      y.load.state j = .read ∨ y.load.state j = .filled)
    (hfail : y.load.failure.isSome → x.load.failure.isSome ∨ Spoilt yield x.load.index) :
    Reported yield y := by
  have hresults : y.load.results = x.load.results := congrArg Background.results hb
  have hreader : y.load.reader = x.load.reader := congrArg Background.reader hb
  have hcursor : y.load.cursor = x.load.cursor := congrArg Background.cursor hb
  apply h.update hi hf _ hs hfail
  · rw [hcursor, hreader, hresults]
    exact h.ended
  · simp only [pending, hresults, hreader]
    exact fun r => .inl

omit [Guest W] in
theorem unhurt_recordAny {e : Option LoadError} (h : (l.recordAny e).Unhurt) : l.Unhurt := by
  cases e <;> exact ⟨h.placed, h.calls⟩

/-- Placing a page that is read or filled can only be refused. -/
theorem placeParked_of_unhurt (hs : l.state i = .read ∨ l.state i = .filled)
    (hp : l.state i = .read → l.parked i ≠ none) (hu : (l.placeParked i).2.Unhurt) :
    (l.placeParked i).1 = none := by
  rcases hs with hs | hs
  · cases hc : l.parked i with
    | none => exact absurd hc (hp hs)
    | some c =>
      have he : l.placeParked i = l.fill i c := by simp only [placeParked, hs, hc]
      rw [he] at hu ⊢
      exact (state_fill_of_unhurt hu (.refl _)).1
  · simp only [placeParked, hs]

theorem Reported.takeOver {a : Nat} (ho : Orderly ⟨l, .at a ::ₘ fs⟩)
    (ht : Truthful yield ⟨l, .at a ::ₘ fs⟩) (h : Reported yield ⟨l, .at a ::ₘ fs⟩)
    (hs : l.state i = .read ∨ l.state i = .filled ∨ l.state i = .error)
    (hu : (l.takeOver i).Unhurt) : Reported yield ⟨l.takeOver i, fs⟩ := by
  have hb := background_takeOver l i
  have hindex : (l.takeOver i).index = l.index :=
    (samePages_recordAny _ _).index.trans (index_placeParked l i)
  have hstate : ∀ j, (l.takeOver i).state j = (l.placeParked i).2.state j :=
    (samePages_recordAny _ _).state
  have hup : (l.placeParked i).2.Unhurt := unhurt_recordAny hu
  by_cases he : l.state i = .error
  · -- the failure that is recorded is that the page failed before
    have hp : (l.placeParked i).2 = l := by simp only [placeParked, he]
    apply h.fault hindex hb
    · intro b hb
      exact Multiset.mem_cons_of_mem hb
    · intro j hj
      simpa only [hstate, hp] using hj
    · intro _
      exact .inr (spoilt_of_error ho ht he)
  · have hs' : l.state i = .read ∨ l.state i = .filled := by
      rcases hs with hs | hs | hs
      · exact .inl hs
      · exact .inr hs
      · exact absurd hs he
    have hnone := placeParked_of_unhurt hs' (fun hr => ((ht.truth i).read hr).2) hup
    apply h.fault hindex hb
    · intro b hb
      exact Multiset.mem_cons_of_mem hb
    · intro j hj
      dsimp only
      rw [hstate, state_placeParked (Prod.ext hnone rfl)]
      split
      · exact .inr rfl
      · exact hj
    · intro hf
      simp only [Load.takeOver, hnone, recordAny, failure_placeParked] at hf
      exact .inl hf

theorem Reported.land {t : Transfer} {got : Bytes} {stop : Transfer.Stop} {cs : List ReadCall}
    {s : Source} (ho : Orderly ⟨l, .reading i t ::ₘ fs⟩)
    (ht : Truthful yield ⟨l, .reading i t ::ₘ fs⟩) (h : Reported yield ⟨l, .reading i t ::ₘ fs⟩)
    (he : t.Ends l.source got stop cs s) (hu : ((l.note cs s).land i got stop).Unhurt) :
    Reported yield ⟨(l.note cs s).land i got stop, fs⟩ := by
  have hr : l.state i = .reading := ho.reading (i, t) (by simp)
  have hyield := ht.ends (i := i) (t := t) (by simp) he
  have hcontents : (l.note cs s).contents = l.contents := contents_congr rfl
  unfold Load.land at hu ⊢
  rw [hcontents, hyield] at hu ⊢
  cases hc : yield i with
  | error cause =>
    refine h.fault rfl rfl ?_ ?_ ?_
    · intro b hb
      exact Multiset.mem_cons_of_mem hb
    · intro j hj
      have hne : i ≠ j := by
        rintro rfl
        simp [hr] at hj
      have hs : (((l.note cs s).setState i .error).record cause).state j = l.state j :=
        (state_setState (l.note cs s) i j .error).trans (if_neg hne)
      dsimp only
      rwa [hs]
    · intro _
      exact .inr ⟨i, ho.stored_of_state (by simp [hr]) (by simp [hr]), cause, hc⟩
  | ok c =>
    simp only [hc] at hu
    have hu' : ((l.note cs s).fill i c).2.Unhurt := unhurt_recordAny hu
    have hnone := (state_fill_of_unhurt hu' (.refl _)).1
    dsimp only
    simp only [hnone, recordAny]
    apply h.fault (index_fill ..) (background_fill (l.note cs s) i c)
    · intro b hb
      exact Multiset.mem_cons_of_mem hb
    · intro j hj
      dsimp only
      rw [state_fill, hnone]
      split
      · exact .inr rfl
      · exact hj
    · intro hf
      dsimp only at hf
      rw [failure_fill] at hf
      exact .inl hf

omit [Guest W] in
theorem Reported.landRead {t : Transfer} {got : Bytes} {stop : Transfer.Stop}
    {cs : List ReadCall} {s : Source} (ho : Orderly ⟨l, fs⟩) (ht : Truthful yield ⟨l, fs⟩)
    (h : Reported yield ⟨l, fs⟩) (hr : l.reader = .reading i t)
    (he : t.Ends l.source got stop cs s) :
    Reported yield ⟨(l.note cs s).landRead i got stop, fs⟩ := by
  have hmem : (i, t) ∈ Session.transfers ⟨l, fs⟩ := by
    simp [Session.transfers, hr, Reader.transfer?]
  have hs : l.state i = .reading := ho.reading (i, t) hmem
  have hyield := ht.ends hmem he
  have hcontents : (l.note cs s).contents = l.contents := contents_congr rfl
  have hold : ∀ r, r ∈ l.results → r ∈ l.pending := fun r => List.mem_append_left _
  have hne : ∀ j, l.state j = .read ∨ l.state j = .filled → i ≠ j := by
    rintro j hj rfl
    simp [hs] at hj
  unfold Load.landRead
  rw [hcontents, hyield]
  cases hc : yield i with
  | ok c =>
    have hstate : ∀ j, ((l.note cs s).park i c).state j = if i = j then .read else l.state j :=
      fun j => state_park (l.note cs s) i j c
    refine ⟨h.faults, fun j hj => ?_, fun cause hj => ?_, h.failure, fun _ hend => by cases hend⟩
    · simp only [pending, Reader.offered_offering, List.mem_append, List.mem_singleton,
        Result.loaded.injEq] at hj
      rcases hj with hj | rfl
      · have := h.loaded j (hold _ hj)
        have hsame := (hstate j).trans (if_neg (hne j this))
        exact this.imp hsame.trans hsame.trans
      · exact .inl ((hstate j).trans (if_pos rfl))
    · simp only [pending, Reader.offered_offering, List.mem_append, List.mem_singleton,
        reduceCtorEq, or_false] at hj
      exact h.failed cause (hold _ hj)
  | error cause =>
    have hspoilt : Spoilt yield l.index :=
      ⟨i, ho.stored_of_state (by simp [hs]) (by simp [hs]), cause, hc⟩
    refine ⟨h.faults, fun j hj => ?_, fun _ _ => hspoilt, h.failure, fun _ hend => by cases hend⟩
    simp only [pending, Reader.offered_offering, List.mem_append, List.mem_singleton,
      reduceCtorEq, or_false] at hj
    have := h.loaded j (hold _ hj)
    have hsame : ((l.note cs s).setState i .error).state j = l.state j :=
      (state_setState (l.note cs s) i j .error).trans (if_neg (hne j this))
    exact this.imp hsame.trans hsame.trans

theorem unhurt_receive (h : (l.receive (.loaded i)).2.Unhurt) : (l.placeParked i).2.Unhurt := by
  cases hp : (l.placeParked i).1 with
  | none =>
    rw [receive_placed hp] at h
    exact h
  | some cause =>
    rw [receive_unplaced hp] at h
    exact ⟨h.placed, h.calls⟩

theorem Reported.receive {c : Cursor} {r : Result} {rs : List Result}
    (ht : Truthful yield ⟨l, fs⟩) (h : Reported yield ⟨l, fs⟩) (hc : l.cursor = some c)
    (hr : l.results = r :: rs) (hu : ({ l with results := rs }.receive r).2.Unhurt) :
    Reported yield ⟨({ l with results := rs }.receive r).2, fs⟩ := by
  have hpending : l.pending = r :: (rs ++ l.reader.offered) := by
    simp only [pending, hr, List.cons_append]
  cases r with
  | loaded i =>
    have hs := h.loaded i (by simp [hpending])
    have hnone : ({ l with results := rs }.placeParked i).1 = none :=
      placeParked_of_unhurt hs (fun hr => ((ht.truth i).read hr).2) (unhurt_receive hu)
    rw [receive_placed hnone]
    have hb := background_placeParked { l with results := rs } i
    have hresults : ({ l with results := rs }.placeParked i).2.results = rs :=
      congrArg Background.results hb
    have hreader : ({ l with results := rs }.placeParked i).2.reader = l.reader :=
      congrArg Background.reader hb
    refine h.update (index_placeParked ..) (fun b => id) (fun r' hr' => ?_) (fun j hj => ?_)
      (fun hf => .inl ?_) (fun _ hend => ?_)
    · simp only [pending, hresults, hreader] at hr'
      rw [hpending]
      exact .inl (List.mem_cons_of_mem _ hr')
    · dsimp only
      rw [state_placeParked (Prod.ext hnone rfl)]
      split
      · exact .inr rfl
      · exact hj
    · rwa [failure_placeParked] at hf
    · rw [hreader] at hend
      have := h.ended (by simp [hc]) hend
      rw [hresults]
      simpa [hr] using this
  | failed cause =>
    have hspoilt := h.failed cause (by simp [hpending])
    refine h.update rfl (fun b => id) (fun r' hr' => ?_) (fun j hj => hj)
      (fun _ => .inr hspoilt) (fun hn => absurd rfl hn)
    have : r' ∈ l.reader.offered := hr'
    rw [hpending]
    exact .inl (List.mem_cons_of_mem _ (List.mem_append_right _ this))
  | allLoaded =>
    refine h.update rfl (fun b => id) (fun r' hr' => ?_) (fun j hj => hj) .inl
      (fun hn => absurd rfl hn)
    have : r' ∈ l.reader.offered := hr'
    rw [hpending]
    exact .inl (List.mem_cons_of_mem _ (List.mem_append_right _ this))

theorem Reported.move (hE : Calm E x.load.index) (ho : Orderly x) (ht : Truthful yield x)
    (h : Reported yield x) (hm : Move E x y) (hy : y.load.Unhurt) : Reported yield y := by
  cases hm with
  | arrive ha =>
    refine ⟨fun b hb => ?_, h.loaded, h.failed, h.failure, h.ended⟩
    simp only [Multiset.mem_cons, Service.at.injEq] at hb
    rcases hb with rfl | hb
    · exact hE.fault _ ha
    · exact h.faults b hb
  | @unmapped l fs a hl =>
    obtain ⟨i, hi⟩ := h.faults a (Multiset.mem_cons_self ..)
    simp [hl] at hi
  | takeOver _ hs => exact h.takeOver ho ht hs hy
  | @claim l fs a i hl he =>
    refine ⟨fun b hb => ?_, fun j hj => ?_, h.failed, h.failure, h.ended⟩
    · simp only [Multiset.mem_cons, reduceCtorEq, false_or] at hb
      exact h.faults b (Multiset.mem_cons_of_mem hb)
    · have := h.loaded j hj
      have hne : i ≠ j := by
        rintro rfl
        simp [he] at this
      have hsame := (state_claim l i j).trans (if_neg hne)
      exact this.imp hsame.trans hsame.trans
  | read =>
    refine h.update rfl (fun b hb => ?_) (fun r => .inl) (fun j => id) .inl h.ended
    simp only [Multiset.mem_cons, reduceCtorEq, false_or] at hb
    exact Multiset.mem_cons_of_mem hb
  | land he => exact h.land ho ht he hy
  | skip => exact h.update rfl (fun b => id) (fun r => .inl) (fun j => id) .inl h.ended
  | @readerClaim l fs i q hr hq he =>
    refine h.update rfl (fun b => id) (fun r hr' => ?_) (fun j hj => ?_) .inl
      fun _ hend => by cases hend
    · simp only [pending, Reader.offered_reading, List.append_nil] at hr'
      exact .inl (List.mem_append_left _ hr')
    · have hne : i ≠ j := by
        rintro rfl
        simp [he] at hj
      have hsame := (state_claim l i j).trans (if_neg hne)
      exact hj.imp hsame.trans hsame.trans
  | echo =>
    refine h.update rfl (fun b => id) (fun r hr' => ?_) (fun j => id) .inl
      fun _ hend => by cases hend
    simp only [pending, Reader.offered_offering, List.mem_append, List.mem_singleton] at hr'
    exact hr'.imp (List.mem_append_left _) id
  | quit hc =>
    refine h.update rfl (fun b => id) (fun r hr' => ?_) (fun j => id) .inl
      fun hn => absurd hc hn
    simp only [pending, Reader.offered_ended, List.append_nil] at hr'
    exact .inl (List.mem_append_left _ hr')
  | @die l fs i t =>
    refine absurd rfl (hy.calls ⟨t.offset, t.wanted, .died⟩ ?_)
    dsimp only [note]
    rw [← Array.mem_toList_iff]
    simp
  | readerRead hr =>
    refine h.update rfl (fun b => id) (fun r hr' => ?_) (fun j => id) .inl
      fun _ hend => by cases hend
    simp only [pending, Reader.offered_reading, List.append_nil] at hr'
    exact .inl (List.mem_append_left _ hr')
  | readerLand hr he => exact h.landRead ho ht hr he
  | @deliver l fs r hr =>
    refine h.update rfl (fun b => id) (fun r' hr' => ?_) (fun j => id) .inl fun _ hend => ?_
    · have hoffered : (if r = .allLoaded then Reader.ended else .waiting).offered = [] := by
        split <;> rfl
      simp only [pending, hoffered, List.append_nil, List.mem_append, List.mem_singleton] at hr'
      simp only [pending, hr, Reader.offered_offering, List.mem_append, List.mem_singleton]
      exact .inl hr'
    · dsimp only at hend ⊢
      split at hend
      · simp [*]
      · cases hend
  | ended => exact h.update rfl (fun b => id) (fun r => .inl) (fun j => id) .inl h.ended
  | receive hc hr => exact h.receive ht hc hr hy
  | gone hc hq hr =>
    have := h.ended (by simp [hc]) hr
    simp [hq] at this
  | look hc =>
    exact h.update rfl (fun b => id) (fun r => .inl) (fun j => id) .inl
      fun _ => h.ended (by simp [hc])
  | ask hc =>
    exact h.update rfl (fun b => id) (fun r => .inl) (fun j => id) .inl
      fun _ => h.ended (by simp [hc])
  | askEnd hc =>
    exact h.update rfl (fun b => id) (fun r => .inl) (fun j => id) .inl
      fun _ => h.ended (by simp [hc])
  | interrupt hi => exact absurd hi hE.interrupts
  | source => exact h.update rfl (fun b => id) (fun r => .inl) (fun j => id) .inl h.ended

end

end RamRestore.Load
