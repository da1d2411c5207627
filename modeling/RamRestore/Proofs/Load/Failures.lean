import RamRestore.Proofs.Load.Completion
import RamRestore.Proofs.Load.Lifecycle

/-! # Pages that failed

That a page has failed does not mean at once that the load has. A fault and an eager load record
why; the reader only sends word, and the load has failed when the idle callback gets to it. Who
interrupts the load throws away what was sent.
-/

namespace RamRestore

namespace Load

variable {W : Type}

def Blamed (l : Load W) : Prop := ∀ i, l.state i = .error → l.failure.isSome

structure Unattended (x : Session W) : Prop where
  reader : x.load.reader = .ended
  cursor : x.load.cursor = none
  blamed : Blamed x.load

structure Interrupted (E : Surroundings) (x : Session W) : Prop where
  interrupts : E.interrupts
  cursor : x.load.cursor = none
  complete : x.load.complete = true

def Surroundings.calm (E : Surroundings) : Surroundings := { E with interrupts := False }

section

variable {l m : Load W} {i : Nat}

theorem Blamed.congr (h : Blamed l) (hs : ∀ j, m.state j = l.state j)
    (hf : m.failure = l.failure) : Blamed m :=
  fun j hj => hf ▸ h j (hs j ▸ hj)

theorem Blamed.of_failure (h : l.failure.isSome) : Blamed l := fun _ _ => h

theorem Fresh.blamed (h : l.Fresh) : Blamed l := by
  intro i he
  rcases h.empty_or_filled i with hs | hs <;> simp [hs] at he

theorem Blamed.update (h : Blamed l) (hs : m.state i ≠ .error)
    (hj : ∀ j, i ≠ j → m.state j = l.state j) (hf : m.failure = l.failure) : Blamed m := by
  intro j he
  by_cases hij : i = j
  · subst hij
    exact absurd he hs
  · rw [hf]
    exact h j (hj j hij ▸ he)

end

variable [Guest W]

section

variable {E : Surroundings} {l : Load W} {x y : Session W} {i : Nat}

theorem Blamed.takeOver (h : Blamed l) : Blamed (l.takeOver i) := by
  unfold Load.takeOver
  dsimp only
  cases hp : (l.placeParked i).1 with
  | some cause => exact .of_failure rfl
  | none =>
    have hs := state_placeParked (Prod.ext hp rfl)
    refine h.update (i := i) ?_ (fun j hij => ?_) (failure_placeParked l i)
    · dsimp only [recordAny]
      simp [hs]
    · dsimp only [recordAny]
      rw [hs, if_neg hij]

theorem Blamed.land (h : Blamed l) (got : Bytes) (stop : Transfer.Stop) (cs : List ReadCall)
    (s : Source) : Blamed ((l.note cs s).land i got stop) := by
  unfold Load.land
  dsimp only
  split
  · exact .of_failure rfl
  · rename_i c _
    cases hp : ((l.note cs s).fill i c).1 with
    | some cause => exact .of_failure rfl
    | none =>
      refine h.update (i := i) ?_ (fun j hij => ?_) (failure_fill (l.note cs s) i c)
      · dsimp only [recordAny]
        simp [state_fill, hp]
      · dsimp only [recordAny]
        rw [state_fill, if_neg hij]
        rfl

theorem Move.over (hc : x.load.cursor = none) (hm : Move E x y) :
    y.load.cursor = none ∧ (x.load.complete = true → y.load.complete = true) ∧
      (x.load.reader = .ended → y.load.reader = .ended) := by
  have hb : y.load.background = x.load.background →
      y.load.cursor = none ∧ (x.load.complete = true → y.load.complete = true) ∧
        (x.load.reader = .ended → y.load.reader = .ended) := by
    intro hb
    have hcursor : y.load.cursor = x.load.cursor := congrArg Background.cursor hb
    have hreader : y.load.reader = x.load.reader := congrArg Background.reader hb
    have hcomplete : y.load.complete = x.load.complete := congrArg Background.complete hb
    rw [hcursor, hreader, hcomplete]
    exact ⟨hc, id, id⟩
  cases hm with
  | takeOver => exact hb (background_takeOver _ _)
  | land => exact hb (background_land _ _ _ _)
  | readerLand hr =>
    refine ⟨?_, ?_, fun he => ?_⟩
    · unfold landRead
      split <;> exact hc
    · unfold landRead
      split <;> exact id
    · cases he.symm.trans hr
  | skip => exact ⟨hc, id, id⟩
  | readerClaim hr | readerRead hr | echo hr | deliver hr =>
    exact ⟨hc, id, fun he => by cases he.symm.trans hr⟩
  | quit | die => exact ⟨hc, id, fun _ => rfl⟩
  | ended | interrupt => exact ⟨by first | exact hc | rfl, fun _ => rfl, id⟩
  | receive hc' | gone hc' | look hc' | ask hc' | askEnd hc' => cases hc.symm.trans hc'
  | _ => exact hb rfl

theorem Interrupted.move (h : Interrupted E x) (hm : Move E x y) : Interrupted E y := by
  obtain ⟨hc, hcomplete, -⟩ := hm.over h.cursor
  exact ⟨h.interrupts, hc, hcomplete h.complete⟩

/-- Where only faults are left, each of them records why its page failed. -/
theorem Unattended.move (h : Unattended x) (hm : Move E x y) : Unattended y := by
  obtain ⟨hc, -, hended⟩ := hm.over h.cursor
  refine ⟨hended h.reader, hc, ?_⟩
  obtain ⟨hreader, hcursor, hb⟩ := h
  cases hm with
  | takeOver => exact hb.takeOver
  | land => exact hb.land _ _ _ _
  | unmapped => exact .of_failure rfl
  | @claim l _ _ i =>
    refine hb.update (i := i) ?_ (fun j hij => ?_) rfl
    · dsimp only
      simp [state_claim]
    · dsimp only
      rw [state_claim, if_neg hij]
  | readerLand hr | readerClaim hr => cases hreader.symm.trans hr
  | receive hc' | gone hc' => cases hcursor.symm.trans hc'
  | _ => exact hb.congr (fun _ => rfl) rfl

theorem Unattended.steps (h : Unattended x) (hs : Steps E x y) : Unattended y :=
  hs.keep (fun _ _ hm hz => hz.move hm) h

theorem Move.calm (h : Move E x y) :
    Move E.calm x y ∨ E.interrupts ∧ y = ⟨x.load.interrupt, x.faults⟩ := by
  cases h with
  | interrupt h => exact .inr ⟨h, rfl⟩
  | arrive h => exact .inl (.arrive h)
  | unmapped h => exact .inl (.unmapped h)
  | takeOver h hs => exact .inl (.takeOver h hs)
  | claim h hs => exact .inl (.claim h hs)
  | read h => exact .inl (.read h)
  | land h => exact .inl (.land h)
  | skip hr hq hs => exact .inl (.skip hr hq hs)
  | readerClaim hr hq hs => exact .inl (.readerClaim hr hq hs)
  | echo hr hq => exact .inl (.echo hr hq)
  | quit hc hr => exact .inl (.quit hc hr)
  | die hr => exact .inl (.die hr)
  | readerRead hr h => exact .inl (.readerRead hr h)
  | readerLand hr h => exact .inl (.readerLand hr h)
  | deliver hr hc hroom => exact .inl (.deliver hr hc hroom)
  | ended hc => exact .inl (.ended hc)
  | receive hc hr => exact .inl (.receive hc hr)
  | gone hc hq hr => exact .inl (.gone hc hq hr)
  | look hc hle hge hs => exact .inl (.look hc hle hge hs)
  | ask hc hlt hs hr => exact .inl (.ask hc hlt hs hr)
  | askEnd hc hn hf hr => exact .inl (.askEnd hc hn hf hr)
  | source h => exact .inl (.source h)

/-- What a load can be like once it was started. -/
def Answerable (E : Surroundings) (x : Session W) : Prop :=
  Accounted x ∨ Unattended x ∨ Interrupted E x

theorem Answerable.move (h : Answerable E x) (hm : Move E x y) : Answerable E y := by
  rcases h with h | h | h
  · rcases hm.calm with hm | ⟨hE, rfl⟩
    · exact .inl (h.move id hm)
    · exact .inr (.inr ⟨hE, rfl, rfl⟩)
  · exact .inr (.inl (h.move hm))
  · exact .inr (.inr (h.move hm))

theorem Answerable.steps (h : Answerable E x) (hs : Steps E x y) : Answerable E y :=
  hs.keep (fun _ _ hm hz => hz.move hm) h

omit [Guest W] in
/-- When the idle callback has received the end marker no page has failed. -/
theorem Finished.not_error (h : Finished x) (ho : Orderly x) : x.load.state i ≠ .error := by
  intro he
  have hlt : i < x.load.index.pages.size := by
    by_contra hge
    have hs := ho.beyond i (Nat.le_of_not_lt hge)
    rw [he] at hs
    cases hs
  rcases h.pages i hlt with hs | ⟨t, ht⟩
  · rw [he] at hs
    cases hs
  · have hs := ho.reading (i, t) (Multiset.mem_add.2 (.inr ((Multiset.mem_filterMap _ _).2
      ⟨_, ht, rfl⟩)))
    rw [he] at hs
    cases hs

omit [Guest W] in
theorem Answerable.reported (h : Answerable E x) (ho : Orderly x) (he : x.load.state i = .error) :
    x.load.failure.isSome ∨ (∃ cause, .failed cause ∈ x.load.pending) ∨ Interrupted E x := by
  rcases h with (h | h) | h | h
  · exact .inl h
  · cases hc : x.load.cursor with
    | none =>
      rw [hc] at h
      exact absurd he (h.not_error ho)
    | some c =>
      rw [hc] at h
      exact .inr (.inl (h.error i he))
  · exact .inl (h.blamed i he)
  · exact .inr (.inr h)

omit [Guest W] in
theorem Answerable.failed (h : Answerable E x) (ho : Orderly x) (hE : ¬ E.interrupts)
    (hc : x.load.complete = true) (he : x.load.state i = .error) : x.load.failure.isSome := by
  rcases h with (h | h) | h | h
  · exact h
  · cases hcursor : x.load.cursor with
    | none =>
      rw [hcursor] at h
      exact absurd he (h.not_error ho)
    | some c =>
      rw [hcursor] at h
      have := h.incomplete
      simp [hc] at this
  · exact h.blamed i he
  · exact absurd h.interrupts hE

end

theorem Blamed.sweep {x y : Sweep W} (hx : Tidy x) (h : Blamed x.load) (hs : SweepStep x y) :
    Blamed y.load := by
  rcases hs.moved hx with ⟨hp, -, hf⟩ | ⟨i, s, t, hm⟩
  · exact h.congr hp.state hf
  · by_cases ht : t = .error
    · exact .of_failure (Option.isSome_iff_ne_none.2 (hm.failed ht))
    · refine h.update (i := i) ?_ (fun j hij => ?_) (hm.failure ht)
      · rw [hm.state, if_pos rfl]
        exact ht
      · rw [hm.state, if_neg hij]

end Load

namespace Loader

open Load

variable {W : Type} [Guest W] {l : Loader W} {E : Surroundings} {m m₀ : Load W} {x : Session W}
  {i : Nat} {failure : Option LoadError}

theorem sweeps_blamed {order : List Nat} {x : Sweep W} (ho : l.opened? = some m₀)
    (hi : m₀.index.InFileOrder order) (hs : Sweeps ⟨m₀, order, 0⟩ x) : Blamed x.load := by
  obtain ⟨hf, -⟩ := opened_fresh ho
  exact (hs.keep (P := fun z => Tidy z ∧ Blamed z.load)
    (fun _ _ h ⟨ht, hb⟩ => ⟨ht.step h, hb.sweep ht h⟩) ⟨hf.tidy hi, hf.blamed⟩).2

theorem opened_background (h : l.opened? = some m₀) :
    m₀.reader = .ended ∧ m₀.cursor = none := by
  unfold opened? at h
  split at h
  · dsimp only at h
    split at h
    · cases h
    · cases h
      exact ⟨rfl, rfl⟩
  · cases h

theorem StartsEagerly.unattended (h : l.StartsEagerly failure m) : Unattended ⟨m, 0⟩ := by
  obtain ⟨m₀, ho, -, order, hi, -, returned, l', hr, hc⟩ := h
  obtain ⟨rest, hs, -⟩ := hr.sweeps
  have hb : l'.background = m₀.background := hs.background
  obtain ⟨hreader, hcursor⟩ := opened_background ho
  cases hc
  exact ⟨(congrArg Background.reader hb).trans hreader,
    (congrArg Background.cursor hb).trans hcursor, sweeps_blamed ho hi hs⟩

theorem unattended_opened (ho : l.opened? = some m₀) : Unattended ⟨m₀, 0⟩ := by
  obtain ⟨hreader, hcursor⟩ := opened_background ho
  exact ⟨hreader, hcursor, (opened_fresh ho).1.blamed⟩

theorem Starts.answerable (h : l.Starts failure m) : Answerable E ⟨m, 0⟩ := by
  rcases h with h | h | h
  · obtain ⟨m₀, ho, hs⟩ := h.startBackground
    have hf := (opened_fresh ho).1
    obtain ⟨hreader, hcursor⟩ := opened_background ho
    obtain ⟨guest, ⟨-, rfl⟩ | ⟨reader, -, rfl⟩⟩ := startBackground_cases hs
    · exact .inr (.inl ⟨hreader, hcursor, hf.blamed⟩)
    · exact .inl (h.fresh.1.accounted rfl)
  · exact .inr (.inl h.unattended)
  · exact .inr (.inl (unattended_opened h.opened))

/--
A page that has failed is a failure of the load, unless the reader's word of it is still on its
way or was thrown away when the load was interrupted. So a load that is complete and was not
interrupted has failed if one of its pages did, and an eager load has failed as soon as a page has.
-/
theorem failed_page_reported (hx : l.Attains E x) (he : x.load.state i = .error) :
    (x.load.failure.isSome ∨ (∃ cause, .failed cause ∈ x.load.pending) ∨ Interrupted E x) ∧
      (¬ E.interrupts → x.load.complete = true → x.load.failure.isSome) ∧
      (∀ m₀, l.opened? = some m₀ → l.isLazy m₀.guest = false → x.load.failure.isSome) := by
  have ho : Orderly x := hx.traced.1
  cases hx with
  | opened hm₀ =>
    have hf := (opened_fresh hm₀).1.blamed i he
    exact ⟨.inl hf, fun _ _ => hf, fun _ _ _ => hf⟩
  | «eager» hm₀ _ hi hs =>
    have hf := sweeps_blamed hm₀ hi hs i he
    exact ⟨.inl hf, fun _ _ => hf, fun _ _ _ => hf⟩
  | started hm hs =>
    have ha := (hm.answerable (E := E)).steps hs
    refine ⟨ha.reported ho he, fun hE hc => ha.failed ho hE hc he, fun m₀ hm₀ hl => ?_⟩
    rcases hm with ⟨⟨m₁, hm₁, hl₁⟩, -, -⟩ | hm | hm
    · obtain rfl := Option.some.inj (hm₀.symm.trans hm₁)
      simp [hl] at hl₁
    · exact (hm.unattended.steps hs).blamed i he
    · exact ((unattended_opened hm.opened).steps hs).blamed i he

def spoiltSample : Loader PlainWatch :=
  { Loader.ofSource {} (fun _ => false) true
      (.ofBytes #[0, 0, 0, 0, 0, 0, 0, 8, 0, 0, 0, 1, 0, 0, 0, 0, 0, 0, 0, 0, 1, 97, 0, 0, 0, 1, 1,
        200, 1])
      { memory := .filled 0 } with
    blocks := [⟨"a", 0x1000000000, 1, 1⟩] }

def spoiltLoad : Load PlainWatch := spoiltSample.start.2.load?.get (by decide +kernel)

/-- The reader has sent word that it could not read the page. -/
def spoiltWord : Load PlainWatch := spoiltLoad.idle.2.readerSteps 3

theorem spoiltSample_starts : spoiltSample.Starts none spoiltLoad :=
  .inl ⟨⟨spoiltSample.opened?.get (by decide +kernel), (Option.some_get _).symm,
    by decide +kernel⟩, by decide +kernel, (Option.some_get _).symm⟩

theorem spoiltSample_steps {E : Surroundings} : Steps E ⟨spoiltLoad, 0⟩ ⟨spoiltWord, 0⟩ :=
  .head .idle (steps_readerSteps _ 0 3)

theorem failed_page_reported_sample : spoiltWord.state 0 = .error ∧ spoiltWord.failure = none ∧
    ∃ cause, .failed cause ∈ spoiltWord.pending := by
  have hs : spoiltWord.state 0 = .error := by decide +kernel
  have hf : spoiltWord.failure = none := by decide +kernel
  obtain ⟨h, -, -⟩ := failed_page_reported (E := .quiet)
    (.started spoiltSample_starts spoiltSample_steps) hs
  rcases h with h | h | h
  · simp [hf] at h
  · exact ⟨hs, hf, h⟩
  · exact h.interrupts.elim

/-- An interrupted load can be complete without a failure although a page has failed. -/
theorem failure_lost : ¬ ∀ (l : Loader PlainWatch) (E : Surroundings) (x : Session PlainWatch)
    (i : Nat), l.Attains E x → x.load.complete = true → x.load.failure = none →
      x.load.state i ≠ .error := by
  intro h
  let E : Surroundings := { Surroundings.quiet with interrupts := True }
  have hs : Steps E ⟨spoiltLoad, 0⟩ ⟨spoiltWord.interrupt, 0⟩ :=
    spoiltSample_steps.tail (.interrupt trivial)
  exact h spoiltSample E ⟨spoiltWord.interrupt, 0⟩ 0 (.started spoiltSample_starts hs) rfl
    (by decide +kernel) (by decide +kernel)

end Loader
end RamRestore
