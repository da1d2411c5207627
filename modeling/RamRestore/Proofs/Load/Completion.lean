import RamRestore.Proofs.Load.Listening
import RamRestore.Proofs.Load.Start

/-! # Completion

Unless a load fails or is interrupted, no page is lost: the idle callback listens until the
end marker has come back to it, and then every page is filled or with a fault.
-/

namespace RamRestore

namespace Load

variable {W : Type}

/-- Unless there was a failure, no page is lost. -/
def Accounted (x : Session W) : Prop :=
  x.load.failure.isSome ∨
    match x.load.cursor with
    | some c => Listening x c
    | none => Finished x

section

variable {x y : Session W} {c : Cursor}

theorem Accounted.of_failure (h : x.load.failure.isSome) : Accounted x := .inl h

theorem Accounted.of_listening (hc : x.load.cursor = some c) (h : Listening x c) :
    Accounted x := by
  refine .inr ?_
  rw [hc]
  exact h

theorem Accounted.of_finished (hc : x.load.cursor = none) (h : Finished x) : Accounted x := by
  refine .inr ?_
  rw [hc]
  exact h

theorem Accounted.listening (h : Accounted x) (hn : x.load.failure = none)
    (hc : x.load.cursor = some c) : Listening x c := by
  rcases h with h | h
  · simp [hn] at h
  · rwa [hc] at h

theorem Accounted.finished (h : Accounted x) (hn : x.load.failure = none)
    (hc : x.load.cursor = none) : Finished x := by
  rcases h with h | h
  · simp [hn] at h
  · rwa [hc] at h

def FaultTouches (x y : Session W) (i : Nat) : Prop :=
  y.load.state i = x.load.state i ∨ y.load.state i = .filled ∨
    y.load.state i = .reading ∧ ∃ t, .reading i t ∈ y.faults

theorem FaultTouches.state_eq {i : Nat} {s : PageState} (h : FaultTouches x y i)
    (hy : y.load.state i = s) (hf : s ≠ .filled) (hr : s ≠ .reading) : x.load.state i = s := by
  rcases h with h | h | ⟨h, -⟩
  · exact h.symm.trans hy
  · exact absurd (hy.symm.trans h) hf
  · exact absurd (hy.symm.trans h) hr

theorem Finished.fault (hx : Finished x) (hi : y.load.index = x.load.index)
    (hb : y.load.background = x.load.background) (hs : ∀ i, FaultTouches x y i)
    (hr : ∀ i t, .reading i t ∈ x.faults →
      y.load.state i = .filled ∨ ∃ t', .reading i t' ∈ y.faults) : Finished y where
  reader := (congrArg Background.reader hb).trans hx.reader
  pages i hlt := by
    rcases hx.pages i (hi ▸ hlt) with h | ⟨t, h⟩
    · rcases hs i with h' | h' | ⟨-, h'⟩
      · exact .inl (h'.trans h)
      · exact .inl h'
      · exact .inr h'
    · exact hr i t h

theorem Listening.fault (hx : Listening x c) (hi : y.load.index = x.load.index)
    (hb : y.load.background = x.load.background) (hs : ∀ i, FaultTouches x y i)
    (hr : ∀ i t, .reading i t ∈ x.faults →
      y.load.state i = .filled ∨ ∃ t', .reading i t' ∈ y.faults) : Listening y c := by
  have hreader : y.load.reader = x.load.reader := congrArg Background.reader hb
  have hresults : y.load.results = x.load.results := congrArg Background.results hb
  have hrequests : y.load.requests = x.load.requests := congrArg Background.requests hb
  have hcomplete : y.load.complete = x.load.complete := congrArg Background.complete hb
  have hline : y.load.line = x.load.line := line_congr hb
  have hpending : y.load.pending = x.load.pending := pending_congr hb
  constructor
  · exact hcomplete.trans hx.incomplete
  · rw [hi]
    exact hx.next_le
  · rw [hi]
    exact hx.finished
  · rw [hline]
    exact hx.line
  · rw [hline]
    exact hx.marked
  · rw [hresults, hreader]
    exact hx.last
  · intro i hlt h
    rw [hrequests]
    exact hx.empty i hlt ((hs i).state_eq h nofun nofun)
  · intro i h
    rw [hreader, hresults]
    rcases hs i with h' | h' | ⟨-, h'⟩
    · rcases hx.reading i (h' ▸ h) with ⟨t, ht⟩ | h''
      · rcases hr i t ht with hfilled | ht'
        · simp [hfilled] at h
        · exact .inl ht'
      · exact .inr h''
    · simp [h'] at h
    · exact .inl h'
  · intro i h
    rw [hpending]
    exact hx.read i ((hs i).state_eq h nofun nofun)
  · exact fun i h => hx.filling i ((hs i).state_eq h nofun nofun)
  · intro i h
    rw [hpending]
    exact hx.error i ((hs i).state_eq h nofun nofun)

theorem Accounted.fault (hx : Accounted x) (hf : x.load.failure.isSome → y.load.failure.isSome)
    (hi : y.load.index = x.load.index) (hb : y.load.background = x.load.background)
    (hs : ∀ i, FaultTouches x y i)
    (hr : ∀ i t, .reading i t ∈ x.faults →
      y.load.state i = .filled ∨ ∃ t', .reading i t' ∈ y.faults) : Accounted y := by
  have hcursor : y.load.cursor = x.load.cursor := congrArg Background.cursor hb
  rcases hx with hx | hx
  · exact .inl (hf hx)
  · cases hc : x.load.cursor with
    | none =>
      rw [hc] at hx
      exact .of_finished (hcursor.trans hc) (hx.fault hi hb hs hr)
    | some c =>
      rw [hc] at hx
      exact .of_listening (hcursor.trans hc) (hx.fault hi hb hs hr)

theorem Accounted.reader (hx : Accounted x) (hf : y.load.failure = x.load.failure)
    (hc : y.load.cursor = x.load.cursor) (hr : x.load.reader ≠ .ended)
    (h : ∀ c, x.load.cursor = some c → Listening x c → Listening y c) : Accounted y := by
  rcases hx with hx | hx
  · exact .inl (hf ▸ hx)
  · cases hcx : x.load.cursor with
    | none =>
      rw [hcx] at hx
      exact absurd hx.reader hr
    | some c =>
      rw [hcx] at hx
      exact .of_listening (hc.trans hcx) (h c hcx hx)

end

variable [Guest W] {E : Surroundings}

section

variable {l l' : Load W} {fs : Multiset Service} {i : Nat} {c : Cursor} {r : Result}
  {rs : List Result} {cause : LoadError}

omit [Guest W] in
theorem failure_recordAny (l : Load W) (e : Option LoadError) :
    (l.recordAny e).failure = l.failure.or e := by
  cases e <;> cases hf : l.failure <;> simp [recordAny, record, hf]

omit [Guest W] in
theorem failure_record_of (h : l.failure = some cause) (e : LoadError) :
    (l.record e).failure = some cause := by
  simp [record, h]

omit [Guest W] in
theorem failure_recordAny_of (h : l.failure = some cause) (e : Option LoadError) :
    (l.recordAny e).failure = some cause := by
  rw [failure_recordAny, h, Option.some_or]

theorem failure_receive (h : l.failure = some cause) :
    (l.receive r).2.failure = some cause := by
  cases r with
  | loaded i =>
    have hf := failure_placeParked l i
    cases hp : (l.placeParked i).1 with
    | none =>
      rw [receive_placed hp]
      exact hf.trans h
    | some =>
      rw [receive_unplaced hp]
      exact failure_record_of (hf.trans h) _
  | failed => exact failure_record_of h _
  | allLoaded => exact h

theorem Move.failure {x y : Session W} (h : Move E x y) (hf : x.load.failure = some cause) :
    y.load.failure = some cause := by
  cases h with
  | unmapped => exact failure_record_of hf _
  | @takeOver l fs a i => exact failure_recordAny_of ((failure_placeParked l i).trans hf) _
  | @land l fs i t got stop cs s =>
    unfold Load.land
    dsimp only
    split
    · exact failure_record_of hf _
    · exact failure_recordAny_of ((failure_fill (l.note cs s) i _).trans hf) _
  | readerLand =>
    unfold landRead
    split <;> exact hf
  | receive => exact failure_receive hf
  | gone => exact failure_record_of hf _
  | _ => exact hf

theorem Accounted.receive (hx : Accounted ⟨l, fs⟩) (hc : l.cursor = some c)
    (hr : l.results = r :: rs) : Accounted ⟨({ l with results := rs }.receive r).2, fs⟩ := by
  rcases hx with hf | hx
  · obtain ⟨cause, hf⟩ := Option.isSome_iff_exists.1 hf
    exact .inl (Option.isSome_iff_exists.2 ⟨cause, failure_receive hf⟩)
  · rw [hc] at hx
    cases r with
    | loaded i =>
      cases hp : ({ l with results := rs }.placeParked i).1 with
      | none =>
        have hb := background_placeParked { l with results := rs } i
        rw [receive_placed hp]
        exact .of_listening ((congrArg Background.cursor hb).trans hc)
          (hx.receive hr (Prod.ext hp rfl))
      | some =>
        rw [receive_unplaced hp]
        exact .of_failure rfl
    | failed => exact .of_failure rfl
    | allLoaded =>
      obtain ⟨hreader, hpages⟩ := hx.finish hr
      exact .of_finished rfl ⟨hreader, hpages⟩

theorem Accounted.takeOver {a : Nat} (hx : Accounted ⟨l, .at a ::ₘ fs⟩) :
    Accounted ⟨l.takeOver i, fs⟩ := by
  unfold Load.takeOver
  dsimp only
  cases hp : (l.placeParked i).1 with
  | some => exact .of_failure rfl
  | none =>
    refine hx.fault (fun hf => ?_) (index_placeParked l i) (background_placeParked l i)
      (fun j => ?_) (fun j t hj => ?_)
    · exact (failure_placeParked l i).symm ▸ hf
    · have hs := state_placeParked (Prod.ext hp rfl) j
      dsimp only [FaultTouches, recordAny]
      rw [hs]
      split
      · exact .inr (.inl rfl)
      · exact .inl rfl
    · simp only [Multiset.mem_cons, reduceCtorEq, false_or] at hj
      exact .inr ⟨t, hj⟩

theorem Accounted.land {t : Transfer} (hx : Accounted ⟨l, .reading i t ::ₘ fs⟩) (got : Bytes)
    (stop : Transfer.Stop) (cs : List ReadCall) (s : Source) :
    Accounted ⟨(l.note cs s).land i got stop, fs⟩ := by
  unfold Load.land
  dsimp only
  split
  · exact .of_failure rfl
  · rename_i contents _
    cases hp : ((l.note cs s).fill i contents).1 with
    | some => exact .of_failure rfl
    | none =>
      have hs : ∀ j, ((l.note cs s).fill i contents).2.state j =
          if i = j then .filled else l.state j := by
        intro j
        rw [state_fill, hp]
        rfl
      refine hx.fault (fun hf => ?_) (index_fill _ i contents) (background_fill _ i contents)
        (fun j => ?_) (fun j t hj => ?_)
      · exact (failure_fill (l.note cs s) i contents).symm ▸ hf
      · dsimp only [FaultTouches, recordAny]
        rw [hs]
        split
        · exact .inr (.inl rfl)
        · exact .inl rfl
      · dsimp only [recordAny]
        rw [hs]
        split
        · exact .inl rfl
        · rename_i hij
          simp only [Multiset.mem_cons, Service.reading.injEq] at hj
          rcases hj with ⟨rfl, -⟩ | hj
          · exact absurd rfl hij
          · exact .inr ⟨t, hj⟩

theorem Accounted.move {x y : Session W} (hx : Accounted x) (hE : ¬ E.interrupts)
    (h : Move E x y) : Accounted y := by
  cases h with
  | arrive =>
    refine hx.fault id rfl rfl (fun j => .inl rfl) (fun j t hj => ?_)
    exact .inr ⟨t, Multiset.mem_cons_of_mem hj⟩
  | unmapped => exact .of_failure rfl
  | takeOver => exact hx.takeOver
  | @claim l fs a i =>
    refine hx.fault id rfl rfl (fun j => ?_) (fun j t hj => ?_)
    · dsimp only [FaultTouches]
      rw [state_claim]
      split
      · rename_i hij
        exact .inr (.inr ⟨rfl, l.transfer i, by simp [hij]⟩)
      · exact .inl rfl
    · simp only [Multiset.mem_cons, reduceCtorEq, false_or] at hj
      exact .inr ⟨t, Multiset.mem_cons_of_mem hj⟩
  | @read l fs i t t' =>
    refine hx.fault id rfl rfl (fun j => .inl rfl) (fun j t₁ hj => .inr ?_)
    simp only [Multiset.mem_cons, Service.reading.injEq] at hj ⊢
    rcases hj with ⟨rfl, -⟩ | hj
    · exact ⟨t', .inl ⟨rfl, rfl⟩⟩
    · exact ⟨t₁, .inr hj⟩
  | land => exact hx.land ..
  | skip hr hq hs =>
    exact hx.reader rfl rfl (by simp [hr]) fun c _ h => h.skip hr hq hs
  | readerClaim hr hq =>
    exact hx.reader rfl rfl (by simp [hr]) fun c _ h => h.readerClaim hr hq
  | echo hr hq => exact hx.reader rfl rfl (by simp [hr]) fun c _ h => h.echo hr hq
  | quit hc hr =>
    refine hx.reader rfl rfl ?_ fun c hc' _ => by simp [hc] at hc'
    rcases hr with ⟨hr, -⟩ | ⟨r, hr⟩ <;> simp [hr]
  | die hr => exact hx.reader rfl rfl (by simp [hr]) fun c _ h => h.die hr _ _
  | readerRead hr => exact hx.reader rfl rfl (by simp [hr]) fun c _ h => h.readerRead hr _ _
  | @readerLand l fs i t got stop cs s hr =>
    refine hx.reader ?_ ?_ (by simp [hr]) fun c _ h => ?_
    · unfold landRead
      split <;> rfl
    · unfold landRead
      split <;> rfl
    · exact h.landRead hr got stop cs s
  | deliver hr => exact hx.reader rfl rfl (by simp [hr]) fun c _ h => h.deliver hr
  | @ended l fs hc =>
    rcases hx with hf | hx
    · exact .inl hf
    · rw [hc] at hx
      exact .of_finished hc ⟨hx.reader, hx.pages⟩
  | receive hc hr => exact hx.receive hc hr
  | gone => exact .of_failure rfl
  | look hc hle hge hs =>
    rcases hx with hf | hx
    · exact .inl hf
    · rw [hc] at hx
      exact .of_listening rfl (hx.look hle hge hs)
  | @ask l fs c hc hlt =>
    rcases hx with hf | hx
    · exact .inl hf
    · rw [hc] at hx
      have hn : c.finished = false := by
        cases hf : c.finished with
        | false => rfl
        | true => exact absurd (hx.finished hf) (Nat.ne_of_lt hlt)
      refine .of_listening rfl (hx.request hn hlt (by simp [hn]) nofun fun j h₁ h₂ => ?_)
      rw [Nat.le_antisymm h₁ (Nat.le_of_lt_succ h₂)]
  | askEnd hc hn hf =>
    rcases hx with hf | hx
    · exact .inl hf
    · rw [hc] at hx
      exact .of_listening rfl (hx.request hf hx.next_le (fun _ => hn) (fun _ => rfl)
        fun j h₁ h₂ => absurd h₂ (Nat.not_lt_of_le h₁))
  | interrupt h => exact absurd h hE
  | source =>
    exact hx.fault id rfl rfl (fun j => .inl rfl) (fun j t hj => .inr ⟨t, hj⟩)

end

theorem Accounted.run {x y : Session W} (hx : Accounted x) (hE : ¬ E.interrupts)
    (h : Moves E x y) : Accounted y :=
  h.keep (fun _ _ hm hx => hx.move hE hm) hx

omit [Guest W] in
theorem Fresh.pending {m : Load W} (hf : m.Fresh) : m.pending = [] := by
  rcases hf.reader with hr | hr <;> simp [Load.pending, hf.results, hr]

omit [Guest W] in
theorem Fresh.accounted {m : Load W} (hf : m.Fresh) (hc : m.cursor = some {}) :
    Accounted ⟨m, 0⟩ := by
  have hs : ∀ i s, s ≠ .empty → s ≠ .filled → m.state i ≠ s := by
    rintro i s h₁ h₂ rfl
    rcases hf.empty_or_filled i with h | h
    · exact h₁ h
    · exact h₂ h
  have hline : m.line = [] := by
    rcases hf.reader with hr | hr <;> simp [line, hf.results, hf.requests, hr]
  apply Accounted.of_listening hc
  constructor
  · exact hf.complete
  · exact Nat.zero_le _
  · simp
  · simp [hline]
  · simp [hline]
  · simp [hf.results]
  · intro i hi
    exact absurd hi (Nat.not_lt_zero i)
  · exact fun i h => absurd h (hs i _ (by simp) (by simp))
  · exact fun i h => absurd h (hs i _ (by simp) (by simp))
  · exact fun i => hs i _ (by simp) (by simp)
  · exact fun i h => absurd h (hs i _ (by simp) (by simp))

theorem accounted_start {l : Loader W} {m : Load W} (h : l.StartsLazily none m) :
    Accounted ⟨m, 0⟩ :=
  h.fresh.1.accounted h.waiting.1

omit [Guest W] in
theorem Accounted.filled {x : Session W} (hx : Accounted x) (hc : x.load.complete = true)
    (hfs : x.faults = 0) (hn : x.load.failure = none) :
    ∀ i < x.load.index.pages.size, x.load.state i = .filled := by
  cases hcursor : x.load.cursor with
  | some c =>
    have := (hx.listening hn hcursor).incomplete
    simp [hc] at this
  | none =>
    intro i hi
    rcases (hx.finished hn hcursor).pages i hi with h | ⟨t, h⟩
    · exact h
    · simp [hfs] at h

omit [Guest W] in
theorem queueReads_ne_allDone (l : Load W) (c : Cursor) (n : Nat) :
    (l.queueReads c n).1 ≠ .allDone := by
  induction n generalizing l c with
  | zero => simp [queueReads]
  | succ n ih =>
    unfold queueReads
    dsimp only
    split
    · split <;> simp
    · split
      · apply ih
      · simp

/--
A lazy load never completes with a page missing: once background loading is over and no fault is on
its way, a failure is recorded or every page of the index is filled. The reader may go on in the
middle of an idle call.
-/
theorem filled_of_complete {l : Loader W} {m : Load W} {x : Session W}
    (hm : l.StartsLazily none m) (hE : ¬ E.interrupts) (hr : Moves E ⟨m, 0⟩ x)
    (hc : x.load.complete = true) (hfs : x.faults = 0) :
    x.load.failure.isSome ∨ ∀ i < m.index.pages.size, x.load.state i = .filled := by
  have hx := (accounted_start hm).run hE hr
  cases hn : x.load.failure with
  | some => exact .inl rfl
  | none =>
    refine .inr ?_
    rw [← hr.index]
    exact hx.filled hc hfs hn

theorem filled_of_complete_sample : Loader.sampleEnd.failure.isSome ∨
    ∀ i < Loader.sampleLoad.index.pages.size, Loader.sampleEnd.state i = .filled :=
  filled_of_complete (E := .quiet) Loader.sample_startsLazily id Loader.sample_steps.moves
    (by decide +kernel) rfl

end Load
end RamRestore
