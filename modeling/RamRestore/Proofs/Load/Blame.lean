import RamRestore.Proofs.Load.Inline

/-! # What an eager load says of its failure

A failed eager load returns an error that names a page, and records the cause of a failure. Both
are about pages that failed. Without a pool they are about the same page; the workers of a pool
may record what happened to another one.
-/

namespace RamRestore

def LoadError.pageAddress? : LoadError → Option Nat
  | .shortRead address _ _ _ => some address
  | .unpack address _ => some address
  | _ => none

def LoadError.isUnpack : LoadError → Bool
  | .unpack _ _ => true
  | _ => false

theorem Index.Spoils.pageAddress {x : Index} {s : Source} {i a : Nat} {cause : LoadError}
    (h : x.Spoils s i cause) (ha : cause.pageAddress? = some a) : a = x.address i := by
  cases h with
  | read => cases ha
  | short | unpack =>
    cases ha
    rfl

namespace Load

variable {W : Type}

def jobs (x : UnpackPool W) : Multiset (Nat × Bytes) :=
  heldJobs x.phase + ↑x.waiting + ↑x.running

/-- What the reading thread has to say of a failure, or has said, is about a page that it could
not read. -/
def Blames (yield : Nat → Except LoadError Bytes) (l : Load W) :
    PoolPhase Feeding (Nat × Bytes) (Option LoadError) → Prop
  | .feeding (.failing i cause) =>
    l.state i = .error ∧ yield i = .error cause ∧ cause.isUnpack = false
  | .feeding _ => True
  | .holding _ f | .sleeping _ f => ∃ is, f = .looking is
  | .stopped (some e) => ∃ i cause, e = .pageFailed (l.index.address i) ∧ l.state i = .error ∧
    yield i = .error cause ∧ cause.isUnpack = false
  | .stopped none => True

/-- The pages that failed in a pool so far are those that its failure is about. -/
structure PoolBlame (yield : Nat → Except LoadError Bytes) (x : UnpackPool W) : Prop where
  agrees : x.shared.yield = yield
  packed : ∀ p ∈ jobs x, x.shared.index.compressed = true ∧
    (x.shared.transfer p.1).result x.shared.source = (p.2, .full)
  error : ∀ i, x.shared.state i = .error → (∃ cause, yield i = .error cause) ∧
    (x.shared.failure ≠ none ∨ ∃ cause, x.phase = .feeding (.failing i cause))
  recorded : ∀ cause, x.shared.failure = some cause →
    ∃ i, x.shared.state i = .error ∧ yield i = .error cause
  phase : Blames yield x.shared x.phase

section

variable {x y : UnpackPool W} {yield : Nat → Except LoadError Bytes} {l l' : Load W} {i : Nat}

theorem Blames.mono {phase : PoolPhase Feeding (Nat × Bytes) (Option LoadError)}
    (h : Blames yield l phase) (hi : l'.index = l.index)
    (hs : ∀ j, l.state j = .error → l'.state j = .error) : Blames yield l' phase := by
  cases phase with
  | feeding f =>
    cases f with
    | failing => exact ⟨hs _ h.1, h.2⟩
    | looking | reading => trivial
  | holding | sleeping => exact h
  | stopped returned =>
    cases returned with
    | none => trivial
    | some e =>
      obtain ⟨j, cause, he, hj, hc⟩ := h
      exact ⟨j, cause, hi ▸ he, hs j hj, hc⟩

theorem Blames.wake {phase : PoolPhase Feeding (Nat × Bytes) (Option LoadError)}
    (h : Blames yield l phase) : Blames yield l phase.wake := by
  cases phase <;> exact h

theorem wake_eq_failing {phase : PoolPhase Feeding (Nat × Bytes) (Option LoadError)} {i : Nat}
    {cause : LoadError} (h : phase = .feeding (.failing i cause)) : phase.wake = phase := by
  rw [h]
  rfl

theorem PoolBlame.update (h : PoolBlame yield x) (hi : y.shared.index = x.shared.index)
    (hs : Source.SameAnswers x.shared.source y.shared.source)
    (hj : ∀ j, i ≠ j → y.shared.state j = x.shared.state j) (hn : x.shared.state i ≠ .error)
    (hp : ∀ p ∈ jobs y, x.shared.index.compressed = true ∧
      (x.shared.transfer p.1).result x.shared.source = (p.2, .full))
    (hf : y.shared.failure = x.shared.failure ∨ ∃ cause, y.shared.state i = .error ∧
      yield i = .error cause ∧ y.shared.failure = some (x.shared.failure.getD cause))
    (he : y.shared.state i = .error → (∃ cause, yield i = .error cause) ∧
      (y.shared.failure ≠ none ∨ ∃ cause, y.phase = .feeding (.failing i cause)))
    (ho : ∀ j cause, x.phase = .feeding (.failing j cause) → y.phase = x.phase)
    (hb : Blames yield y.shared y.phase) : PoolBlame yield y where
  agrees := (yield_congr hi hs).trans h.agrees
  packed p hp' := by
    rw [hi, transfer_congr hi, Transfer.result_congr hs]
    exact hp p hp'
  error j hje := by
    by_cases hij : i = j
    · exact hij ▸ he (hij ▸ hje)
    · obtain ⟨hcause, hrecorded⟩ := h.error j (hj j hij ▸ hje)
      refine ⟨hcause, ?_⟩
      rcases hrecorded with hrecorded | ⟨cause, hphase⟩
      · rcases hf with hf | ⟨cause, -, -, hf⟩
        · exact .inl (hf ▸ hrecorded)
        · exact .inl (by simp [hf])
      · exact .inr ⟨cause, (ho j cause hphase).trans hphase⟩
  recorded cause hc := by
    have hold : x.shared.failure = some cause →
        ∃ j, y.shared.state j = .error ∧ yield j = .error cause := by
      intro hx
      obtain ⟨j, hje, hcause⟩ := h.recorded cause hx
      have hij : i ≠ j := by
        rintro rfl
        exact hn hje
      exact ⟨j, (hj j hij).trans hje, hcause⟩
    rcases hf with hf | ⟨cause', hie, hcause', hf⟩
    · exact hold (hf ▸ hc)
    · cases hx : x.shared.failure with
      | none =>
        simp only [hf, hx, Option.getD_none, Option.some.injEq] at hc
        exact ⟨i, hie, hc ▸ hcause'⟩
      | some first =>
        simp only [hf, hx, Option.getD_some, Option.some.injEq] at hc
        exact hold (hx.trans (congrArg some hc))
  phase := hb

theorem PoolBlame.turn (h : PoolBlame yield x) (hs : y.shared = x.shared) (hk : jobs y = jobs x)
    (ho : ∀ j cause, x.phase = .feeding (.failing j cause) → y.phase = x.phase)
    (hb : Blames yield y.shared y.phase) : PoolBlame yield y where
  agrees := hs ▸ h.agrees
  packed := by
    rw [hk, hs]
    exact h.packed
  error j hj := by
    obtain ⟨hcause, hrecorded⟩ := h.error j (hs ▸ hj)
    refine ⟨hcause, hrecorded.imp (fun hn => hs ▸ hn) ?_⟩
    rintro ⟨cause, hphase⟩
    exact ⟨cause, (ho j cause hphase).trans hphase⟩
  recorded := by
    rw [hs]
    exact h.recorded
  phase := hb

theorem PoolBlame.record {cause : LoadError} (h : PoolBlame yield x)
    (hp : x.phase = .feeding (.failing i cause)) :
    PoolBlame yield { x with
      phase := .stopped (some (.pageFailed (x.shared.index.address i)))
      shared := x.shared.record cause } := by
  have hphase := h.phase
  rw [hp] at hphase
  obtain ⟨hi, hcause, hunpack⟩ := hphase
  constructor
  · exact h.agrees
  · have hpacked := h.packed
    simp only [jobs, hp] at hpacked
    exact hpacked
  · intro j hj
    exact ⟨(h.error j hj).1, .inl nofun⟩
  · intro c hc
    change some (x.shared.failure.getD cause) = some c at hc
    cases hx : x.shared.failure with
    | none =>
      simp only [hx, Option.getD_none, Option.some.injEq] at hc
      exact ⟨i, hi, hc ▸ hcause⟩
    | some first =>
      simp only [hx, Option.getD_some, Option.some.injEq] at hc
      exact h.recorded c (hx.trans (congrArg some hc))
  · exact ⟨i, cause, rfl, hi, hcause, hunpack⟩

theorem PoolBlame.hire {k : Nat} (h : PoolBlame yield x) (hs : x.start? k = some y) :
    PoolBlame yield y := by
  obtain ⟨j, -, hj, rfl⟩ := Pool.start?_eq_some hs
  refine h.turn rfl ?_ (fun _ _ _ => rfl) h.phase
  simp only [jobs]
  rw [coe_eq_cons_eraseIdx hj, coe_append_singleton, Multiset.add_cons, Multiset.add_cons,
    Multiset.cons_add]

variable [Guest W]

/-- What reading page `i` in place comes to, and that it leaves the other pages alone. -/
structure ReadsPage (l : Load W) (i : Nat) (r : InPlace) (l' : Load W) : Prop where
  index : l'.index = l.index
  source : Source.SameAnswers l.source l'.source
  failure : l'.failure = l.failure
  others : ∀ j, i ≠ j → l'.state j = l.state j
  outcome : match r with
    | .settled => l' = l ∨ l.state i = .empty ∧ l'.state i = .filled
    | .packed data => l.state i = .empty ∧ l'.state i = .read ∧ l.index.compressed = true ∧
      (l.transfer i).result l.source = (data, .full)
    | .failed cause => l.state i = .empty ∧ l'.state i = .error ∧ l.yield i = .error cause ∧
      cause.isUnpack = false

theorem isUnpack_of_failed {cause : LoadError} (h : l.readInPlace i = (.failed cause, l')) :
    cause.isUnpack = false := by
  have hread : ∀ {got : Bytes} {stop : Transfer.Stop},
      l.readFailure? i got stop = some cause → cause.isUnpack = false := by
    intro got stop hr
    cases stop <;> cases hr <;> rfl
  by_cases he : l.state i = .empty
  · rw [readInPlace_of_empty he] at h
    dsimp only at h
    generalize (l.transfer i).run l.source = o at h
    cases hr : l.readFailure? i o.got o.stop with
    | some cause' =>
      simp only [hr] at h
      cases h
      exact hread hr
    | none =>
      simp only [hr] at h
      cases hz : l.index.compressed <;> simp only [hz, Bool.false_eq_true, ↓reduceIte] at h <;>
        cases h
  · rw [readInPlace_of_not_empty he] at h
    cases h

theorem readInPlace_readsPage {r : InPlace} (h : l.readInPlace i = (r, l')) :
    ReadsPage l i r l' := by
  by_cases he : l.state i = .empty
  · -- a page that is read gets this state, and all others keep theirs
    have hread : ∀ {w : W} {s : PageState},
        SamePages (((l.claim i).onGuest w).setState i s) l' → Took l [i] s l' :=
      fun hp => took_of_samePages h hp
    have hother : ∀ {s : PageState}, Took l [i] s l' → ∀ j, i ≠ j → l'.state j = l.state j :=
      fun ht j hij => (ht.state j).trans (if_neg (by simpa using hij.symm))
    have hself : ∀ {s : PageState}, Took l [i] s l' → l'.state i = s :=
      fun ht => (ht.state i).trans (if_pos (List.mem_singleton.2 rfl))
    obtain ⟨hf, ⟨got, stop, cause, guest, rfl, hr, hc, hp⟩ |
      ⟨data, hr, ⟨rfl, hz, hp⟩ | ⟨rfl, -, hp⟩⟩⟩ := readInPlace_cases he h
    · have ht := hread hp
      exact ⟨ht.index, ht.source, hf, hother ht, he, hself ht, (yield_of_result hr).trans hc,
        isUnpack_of_failed h⟩
    · have ht := hread (w := l.guest) hp
      exact ⟨ht.index, ht.source, hf, hother ht, he, hself ht, hz, hr⟩
    · have ht := hread hp
      exact ⟨ht.index, ht.source, hf, hother ht, .inr ⟨he, hself ht⟩⟩
  · rw [readInPlace_of_not_empty he] at h
    cases h
    exact ⟨rfl, .refl _, rfl, fun _ _ => rfl, .inl rfl⟩

theorem PoolBlame.feed (h : PoolBlame yield x) (hf : x.feed? unpacking = some y) :
    PoolBlame yield y := by
  rcases Pool.feed?_cases hf with ⟨f, hp, hy⟩ | ⟨j, f, hp, ⟨-, rfl⟩ | ⟨-, rfl⟩⟩
  · generalize hfeed : unpacking.feed f x.shared = r at hy
    have hc : FeedCase x.shared f (unpacking.feed f x.shared) := feedCase f x.shared
    rw [hfeed] at hc
    have hpacked := h.packed
    simp only [jobs, hp, heldJobs, Multiset.zero_add] at hpacked
    have hnot : ∀ j cause, f ≠ .failing j cause → x.phase = .feeding (.failing j cause) →
        y.phase = x.phase := by
      intro j cause hne hx
      rw [hp] at hx
      cases hx
      exact absurd rfl hne
    cases hc with
    | done =>
      obtain rfl := hy
      exact h.turn rfl (by simp only [jobs, hp, heldJobs]) (fun j c => hnot j c (by simp)) trivial
    | look =>
      obtain rfl := hy
      exact h.turn rfl (by simp only [jobs, hp, heldJobs]) (fun j c => hnot j c (by simp)) trivial
    | @settled i is l' hr =>
      obtain rfl := hy
      obtain ⟨hi, hs, hfail, hothers, rfl | ⟨he, hself⟩⟩ := readInPlace_readsPage hr
      · exact h.turn rfl (by simp only [jobs, hp, heldJobs]) (fun j c => hnot j c (by simp)) trivial
      · refine h.update hi hs hothers (by simp [he]) ?_ (.inl hfail) (fun he' => ?_)
          (fun j c => hnot j c (by simp)) trivial
        · simpa only [jobs, heldJobs, Multiset.zero_add] using hpacked
        · cases hself.symm.trans he'
    | @packed i is data l' hr =>
      obtain rfl := hy
      obtain ⟨hi, hs, hfail, hothers, he, hself, hz, hresult⟩ := readInPlace_readsPage hr
      refine h.update hi hs hothers (by simp [he]) ?_ (.inl hfail) (fun he' => ?_)
        (fun j c => hnot j c (by simp)) ⟨is, rfl⟩
      · intro p hmem
        simp only [jobs, heldJobs, Multiset.singleton_add, Multiset.cons_add] at hmem
        rcases Multiset.mem_cons.1 hmem with rfl | hmem
        · exact ⟨hz, hresult⟩
        · exact hpacked p hmem
      · cases hself.symm.trans he'
    | @failed i is cause l' hr =>
      obtain rfl := hy
      obtain ⟨hi, hs, hfail, hothers, he, hself, hyield, hunpack⟩ := readInPlace_readsPage hr
      rw [h.agrees] at hyield
      refine h.update hi hs hothers (by simp [he]) ?_ (.inl hfail)
        (fun _ => ⟨⟨cause, hyield⟩, .inr ⟨cause, rfl⟩⟩) (fun j c => hnot j c (by simp))
        ⟨hself, hyield, hunpack⟩
      simpa only [jobs, heldJobs, Multiset.zero_add] using hpacked
    | @record i cause =>
      obtain rfl := hy
      exact h.record hp
  · have hphase := h.phase
    rw [hp] at hphase
    obtain ⟨is, rfl⟩ := hphase
    refine h.turn rfl ?_ (by simp [hp]) trivial
    simp only [jobs, hp, heldJobs]
    rw [coe_append_singleton, Multiset.zero_add, Multiset.singleton_add]
  · have hphase := h.phase
    rw [hp] at hphase
    exact h.turn rfl (by simp only [jobs, hp, heldJobs]) (by simp [hp]) hphase

structure UnpacksPage (l : Load W) (i : Nat) (data : Bytes) (returned : Option LoadError)
    (l' : Load W) : Prop where
  index : l'.index = l.index
  source : l'.source = l.source
  failure : l'.failure = l.failure
  others : ∀ j, i ≠ j → l'.state j = l.state j
  outcome : match returned with
    | none => l'.state i = .filled
    | some cause => l'.state i = .error ∧ l.decode i data = .error cause

theorem unpackInPlace_unpacksPage {data : Bytes} {returned : Option LoadError}
    (hz : l.index.compressed = true) (h : l.unpackInPlace i data = (returned, l')) :
    UnpacksPage l i data returned l' := by
  have hstate := state_setState_setState l i
  obtain ⟨guest, ⟨page, -, hu⟩ | ⟨cause, hd, hu⟩⟩ := unpackInPlace_cases (i := i) data hz
  · cases h.symm.trans hu
    exact ⟨rfl, rfl, rfl, fun j hij => (hstate j _ _ _).trans (if_neg hij),
      (hstate i _ _ _).trans (if_pos rfl)⟩
  · cases h.symm.trans hu
    exact ⟨rfl, rfl, rfl, fun j hij => (hstate j _ _ _).trans (if_neg hij),
      (hstate i _ _ _).trans (if_pos rfl), hd⟩

theorem PoolBlame.finish {k : Nat} (h : PoolBlame yield x)
    (hread : ∀ p ∈ jobs x, x.shared.state p.1 = .read) (hs : x.finish? unpacking k = some y) :
    PoolBlame yield y := by
  obtain ⟨⟨i, data⟩, hj, rfl⟩ := Pool.finish?_eq_some hs
  have hjobs : jobs x =
      (i, data) ::ₘ (heldJobs x.phase + ↑x.waiting + ↑(x.running.eraseIdx k)) := by
    rw [jobs, coe_eq_cons_eraseIdx hj, Multiset.add_cons]
  have hi : x.shared.state i = .read := hread (i, data) (by simp [hjobs])
  obtain ⟨hz, hresult⟩ := h.packed (i, data) (by simp [hjobs])
  have hyield : yield i = x.shared.decode i data := by
    rw [← h.agrees, yield_of_result hresult, contents_full]
  cases hu : x.shared.unpackInPlace i data with
  | mk failure l' =>
    obtain ⟨hindex, hsource, hfail, hothers, hself⟩ := unpackInPlace_unpacksPage hz hu
    have hwork : unpacking.work (i, data) x.shared = l'.recordAny failure := by
      simp only [unpacking, hu]
    have hpages := samePages_recordAny l' failure
    have hstate : ∀ j, i ≠ j → (l'.recordAny failure).state j = x.shared.state j :=
      fun j hij => (hpages.state j).trans (hothers j hij)
    rw [hwork]
    refine h.update (i := i) (hpages.index.trans hindex) ?_ hstate (by simp [hi]) ?_ ?_ ?_
      (fun _ _ => wake_eq_failing) (h.phase.wake.mono (hpages.index.trans hindex) ?_)
    · cases failure <;> exact hsource ▸ .refl _
    · intro p hp
      refine h.packed p ?_
      rw [jobs, (wake_eq (W := W) x.phase).1] at hp
      rw [hjobs]
      exact Multiset.mem_cons_of_mem hp
    · cases failure with
      | none => exact .inl hfail
      | some cause =>
        refine .inr ⟨cause, hself.1, hyield.trans hself.2, ?_⟩
        exact congrArg (fun f : Option LoadError => some (f.getD cause)) hfail
    · intro he
      cases failure with
      | none => cases hself.symm.trans he
      | some cause => exact ⟨⟨cause, hyield.trans hself.2⟩, .inl nofun⟩
    · intro j hje
      have hij : i ≠ j := by
        rintro rfl
        cases hi.symm.trans hje
      exact (hstate j hij).trans hje

omit [Guest W] in
theorem state_anticipate (recorded : LoadError) (l : Load W)
    (phase : PoolPhase Feeding (Nat × Bytes) (Option LoadError)) :
    (anticipate recorded l phase).state = l.state := by
  unfold anticipate
  split <;> rfl

/-- However far a pool has come, its load counts as a tidy one. -/
theorem SweptTo.tidy (hl : l.Fresh) {order : List Nat} (ho : l.index.InFileOrder order)
    (h : SweptTo ⟨l, order, 0⟩ x) :
    x.shared.index = l.index ∧
      ∃ rest, Tidy ⟨anticipate .alreadyStarted x.shared x.phase, rest, jobs x⟩ := by
  obtain ⟨rest, hs, -⟩ := h
  have hindex : (anticipate .alreadyStarted x.shared x.phase).index = x.shared.index := by
    unfold anticipate
    split <;> rfl
  obtain ⟨hi, ht⟩ := (hs .alreadyStarted).keep
    (P := fun z => z.load.index = l.index ∧ Tidy z)
    (fun _ _ hstep ⟨hi, ht⟩ => ⟨hstep.index.trans hi, ht.step hstep⟩) ⟨rfl, hl.tidy ho⟩
  exact ⟨hindex ▸ hi, rest, ht⟩

omit [Guest W] in
theorem Fresh.poolBlame (hl : l.Fresh) (order : List Nat) (workers : Nat) :
    PoolBlame l.yield (l.pool order workers) where
  agrees := rfl
  packed p hp := by simp [jobs, pool, Pool.ofProgram, heldJobs] at hp
  error i he := by
    rcases hl.empty_or_filled i with hs | hs <;> cases hs.symm.trans he
  recorded cause hc := by cases hl.failure.symm.trans hc
  phase := trivial

theorem Fresh.poolBlame_steps (hl : l.Fresh) {order : List Nat} (ho : l.index.InFileOrder order)
    {workers : Nat} (h : (l.pool order workers).Steps unpacking x) : PoolBlame l.yield x := by
  induction h with
  | refl => exact hl.poolBlame order workers
  | @tail x y hx hs ih =>
    cases hs with
    | feed h => exact ih.feed h
    | start h => exact ih.hire h
    | finish h =>
      obtain ⟨-, rest, ht⟩ := ((sweptTo_pool l order workers).steps hx).tidy hl ho
      refine ih.finish (fun p hp => ?_) h
      rw [← state_anticipate .alreadyStarted x.shared x.phase]
      exact ht.read p hp

theorem all_or_first {α : Type} (P : α → Prop) (as : List α) :
    (∀ a ∈ as, P a) ∨ ∃ done a rest, as = done ++ a :: rest ∧ (∀ b ∈ done, P b) ∧ ¬ P a := by
  induction as with
  | nil => exact .inl nofun
  | cons a as ih =>
    by_cases ha : P a
    · rcases ih with h | ⟨done, b, rest, rfl, h, hb⟩
      · exact .inl fun b hb => (List.mem_cons.1 hb).elim (fun he => he ▸ ha) (h b)
      · refine .inr ⟨a :: done, b, rest, rfl, fun c hc => ?_, hb⟩
        exact (List.mem_cons.1 hc).elim (fun he => he ▸ ha) (h c)
    · exact .inr ⟨[], a, as, rfl, nofun, ha⟩

/-- Page `i` has failed, and this is why it cannot be loaded. -/
structure FailedFor (l : Load W) (s : Source) (i : Nat) (cause : LoadError) : Prop where
  stored : i ∈ l.index.stored
  state : l.state i = .error
  spoils : l.index.Spoils s i cause

/-- What an eager load returns that failed, and what it recorded: the error to return names page
`j`, and the cause is that of page `k`. -/
structure Explained (l : Load W) (s : Source) (e : LoadError) (j k : Nat) (cause : LoadError) :
    Prop where
  returned : e = .pageFailed (l.index.address j)
  named : ∃ c, l.FailedFor s j c
  recorded : l.failure = some cause
  cause : l.FailedFor s k cause

omit [Guest W] in
theorem FailedFor.of_yield {m : Load W} {cause : LoadError} (hi : m.index = l.index)
    (hs : i ∈ l.index.stored) (he : m.state i = .error) (hc : l.yield i = .error cause) :
    m.FailedFor l.source i cause :=
  ⟨hi ▸ hs, he, hi ▸ yield_eq_error_iff.1 hc⟩

omit [Guest W] in
theorem state_of_firstFailed (h : l.firstFailed? = some i) :
    l.state i = .error ∧ ∀ j < i, l.state j ≠ .error := by
  obtain ⟨he, -, hn⟩ := List.find?_range_eq_some.1 h
  exact ⟨of_decide_eq_true he, fun j hj => by simpa using hn j hj⟩

theorem Fresh.explained_pooled (hl : l.Fresh) {order : List Nat} (hi : l.index.InFileOrder order)
    {workers : Nat} {returned : Option LoadError} {e : LoadError} {m : Load W}
    (h : (l.pool order workers).Steps unpacking x) (ho : x.Over returned)
    (hc : x.shared.conclude returned = (some e, m)) :
    m.index = l.index ∧ ∃ j k cause, Explained m l.source e j k cause ∧
      ((∃ c, m.FailedFor l.source j c ∧ c.isUnpack = false) ∨ ∀ i < j, m.state i ≠ .error) := by
  have hb := hl.poolBlame_steps hi h
  obtain ⟨hindex, rest, ht⟩ := ((sweptTo_pool l order workers).steps h).tidy hl hi
  have hstored : ∀ i, x.shared.state i = .error → i ∈ l.index.stored := by
    intro i hi
    rw [ho.phase] at ht
    exact hindex ▸ ht.orderly.stored_of_state (by simp [anticipate, hi]) (by simp [anticipate, hi])
  have hfailed : ∀ i cause, x.shared.state i = .error → l.yield i = .error cause →
      x.shared.markComplete.FailedFor l.source i cause :=
    fun i cause hi hcause => .of_yield hindex (hstored i hi) hi hcause
  -- whatever page failed, a failure was recorded
  have hrecorded : ∀ j, x.shared.state j = .error →
      (∃ c, x.shared.markComplete.FailedFor l.source j c) ∧ ∃ k cause,
        x.shared.failure = some cause ∧ x.shared.markComplete.FailedFor l.source k cause := by
    intro j hj
    obtain ⟨⟨c, hcj⟩, hn⟩ := hb.error j hj
    refine ⟨⟨c, hfailed j c hj hcj⟩, ?_⟩
    have hn : x.shared.failure ≠ none := by
      refine hn.resolve_right ?_
      simp [ho.phase]
    obtain ⟨cause, hcause⟩ := Option.ne_none_iff_exists'.1 hn
    obtain ⟨k, hk, hck⟩ := hb.recorded cause hcause
    exact ⟨k, cause, hcause, hfailed k cause hk hck⟩
  have hphase := hb.phase
  rw [ho.phase] at hphase
  unfold conclude at hc
  obtain ⟨he, rfl⟩ := Prod.mk.inj hc
  refine ⟨hindex, ?_⟩
  cases returned with
  | some e' =>
    obtain ⟨j, c, rfl, hj, hcj, hu⟩ := hphase
    cases he
    obtain ⟨hnamed, k, cause, hcause, hk⟩ := hrecorded j hj
    exact ⟨j, k, cause, ⟨rfl, hnamed, hcause, hk⟩, .inl ⟨c, hfailed j c hj hcj, hu⟩⟩
  | none =>
    obtain ⟨j, hfirst, rfl⟩ := Option.map_eq_some_iff.1 he
    obtain ⟨hj, hbefore⟩ := state_of_firstFailed hfirst
    obtain ⟨hnamed, k, cause, hcause, hk⟩ := hrecorded j hj
    exact ⟨j, k, cause, ⟨rfl, hnamed, hcause, hk⟩, .inr hbefore⟩

/-- A load that reads its pages in order itself records the cause of the page that it names. -/
theorem Fresh.explained_inline (hl : l.Fresh) {order : List Nat} (hi : l.index.InFileOrder order)
    {returned : Option LoadError} {e : LoadError} {m : Load W}
    (h : l.loadInline order = (returned, l')) (hc : l'.conclude returned = (some e, m)) :
    m.index = l.index ∧ ∃ j cause, Explained m l.source e j j cause := by
  unfold conclude at hc
  obtain ⟨he, rfl⟩ := Prod.mk.inj hc
  rcases all_or_first (fun i => ∃ c, l.yield i = .ok c) order with
    hy | ⟨done, j, rest, rfl, hy, hbad⟩
  · obtain ⟨k, hrun, ht, -⟩ := hl.loadInline_through hi hy
    cases h.symm.trans hrun
    obtain ⟨j, hfirst, -⟩ := Option.map_eq_some_iff.1 he
    obtain ⟨hj, -⟩ := state_of_firstFailed hfirst
    rw [ht.state] at hj
    split at hj
    · cases hj
    · rcases hl.empty_or_filled j with hs | hs <;> cases hs.symm.trans hj
  · obtain ⟨cause, hcause⟩ : ∃ cause, l.yield j = .error cause := by
      cases hyj : l.yield j with
      | ok c => exact absurd ⟨c, hyj⟩ hbad
      | error cause => exact ⟨cause, rfl⟩
    obtain ⟨k, m, hrun, ht, ht', hm⟩ := hl.loadInline_stops hi hy hcause
    cases h.symm.trans hrun
    cases he
    have hindex : l'.index = l.index := ht'.index.trans ht.index
    have hstored : j ∈ l.index.stored := hi.mem_iff.1 (by simp)
    have hj : l'.state j = .error := (ht'.state j).trans (if_pos (List.mem_singleton.2 rfl))
    have hfailed : l'.markComplete.FailedFor l.source j cause :=
      .of_yield hindex hstored hj hcause
    exact ⟨hindex, j, cause, by rw [← hindex]; rfl, ⟨cause, hfailed⟩, hm, hfailed⟩

/-- What an eager load returns and what it recorded are about one page, unless several pages failed
on a pool. Then the error to return names a page that could not be read, or the first one that
failed in index order. -/
theorem Fresh.explained (hl : l.Fresh) {config : Config} {threads : Threads} {e : LoadError}
    {m : Load W} (h : l.LoadsEagerly config threads (some e) m) :
    m.index = l.index ∧ ∃ j k cause, Explained m l.source e j k cause ∧
      (j = k ∨ l.workers? config threads ≠ none ∧
        ((∃ c, m.FailedFor l.source j c ∧ c.isUnpack = false) ∨
          ∀ i < j, m.state i ≠ .error)) := by
  obtain ⟨order, hi, -, returned, l', hr, hc⟩ := h
  generalize l.workers? config threads = workers at hr ⊢
  cases hr with
  | inline h =>
    obtain ⟨hindex, j, cause, hx⟩ := hl.explained_inline hi h hc
    exact ⟨hindex, j, j, cause, hx, .inl rfl⟩
  | pooled h ho =>
    obtain ⟨hindex, j, k, cause, hx, hwhich⟩ := hl.explained_pooled hi h ho hc
    exact ⟨hindex, j, k, cause, hx, .inr ⟨nofun, hwhich⟩⟩

omit [Guest W] in
theorem FailedFor.congr {s s' : Source} {cause : LoadError} (hs : Source.SameAnswers s s')
    (h : l.FailedFor s i cause) : l.FailedFor s' i cause :=
  ⟨h.stored, h.state, h.spoils.congr hs⟩

omit [Guest W] in
theorem Explained.congr {s s' : Source} {e cause : LoadError} {j k : Nat}
    (hs : Source.SameAnswers s s') (h : Explained l s e j k cause) :
    Explained l s' e j k cause := by
  obtain ⟨he, ⟨c, hj⟩, hf, hk⟩ := h
  exact ⟨he, ⟨c, hj.congr hs⟩, hf, hk.congr hs⟩

end

end Load

namespace Loader

variable {W : Type} [Guest W]

open Load

/-- An eager start that fails has recorded why some page failed. It is the page that the error to
return names, unless pages were unpacked on a pool and several failed. -/
theorem eager_failure_recorded {l : Loader W} {m : Load W} {e : LoadError}
    (h : l.StartsEagerly (some e) m) :
    ∃ j k cause, Explained m l.source e j k cause ∧
      (j = k ∨ m.workers? l.config l.threads ≠ none ∧
        ((∃ c, m.FailedFor l.source j c ∧ c.isUnpack = false) ∨ ∀ i < j, m.state i ≠ .error)) ∧
      (m.workers? l.config l.threads = none ∨ (∀ i, m.state i = .error → i = j) →
        ∀ a, cause.pageAddress? = some a → e = .pageFailed a) := by
  obtain ⟨m₀, ho, -, h⟩ := h
  obtain ⟨hl, -⟩ := opened_fresh ho
  have hs := (opened_source ho).symm
  obtain ⟨hindex, j, k, cause, hx, hwhich⟩ := hl.explained h
  have hworkers : m.workers? l.config l.threads = m₀.workers? l.config l.threads := by
    rw [workers?, workers?, hindex]
  rw [← hworkers] at hwhich
  refine ⟨j, k, cause, hx.congr hs, ?_, fun hone a ha => ?_⟩
  · exact hwhich.imp_right fun ⟨hp, hfirst⟩ =>
      ⟨hp, hfirst.imp_left fun ⟨c, hj, hu⟩ => ⟨c, hj.congr hs, hu⟩⟩
  · have hjk : k = j := by
      rcases hwhich with rfl | ⟨hp, -⟩
      · rfl
      · rcases hone with hn | honly
        · exact absurd hn hp
        · exact honly k hx.cause.state
    rw [hx.returned, hx.cause.spoils.pageAddress ha, hjk]

/-- A loader with one worker, and two pages that cannot be unpacked. The second one comes first in
the file. -/
def spoiltPair : Loader PlainWatch :=
  { Loader.ofSource { loadType := .eager, decompressThreads := some 1 } (fun _ => false) true
      (.ofBytes #[0, 0, 0, 0, 0, 0, 0, 10, 16, 16, 0, 0, 0, 1, 0, 0, 0, 1, 0, 0, 0, 2, 1, 97, 0, 0,
        0, 2, 1, 2, 1, 5])
      { memory := .filled 5 } with
    blocks := [⟨"a", 16, 2, 1⟩] }

def spoiltPairOpened : Load PlainWatch := spoiltPair.opened?.get (by decide +kernel)

def spoiltPairPool : UnpackPool PlainWatch :=
  (Pool.ofProgram 1 spoiltPairOpened.capacity (.looking [1, 0]) spoiltPairOpened).run unpacking

def spoiltPairLoad : Load PlainWatch := spoiltPairPool.shared.markComplete

theorem spoiltPair_startsEagerly :
    spoiltPair.StartsEagerly (some (.pageFailed 16)) spoiltPairLoad := by
  have horder : spoiltPairOpened.index.InFileOrder [1, 0] :=
    ⟨by decide +kernel, by decide +kernel⟩
  have hsteps : (spoiltPairOpened.pool [1, 0] 1).Steps unpacking spoiltPairPool :=
    Pool.run_steps _
  have hworkers : spoiltPairOpened.workers? spoiltPair.config spoiltPair.threads = some 1 := by
    decide +kernel
  obtain ⟨returned, ho⟩ : ∃ returned, spoiltPairPool.Over returned :=
    (Pool.sound_ofProgram _ _ _ _).run_over
  have hr : spoiltPairPool.returned?.join = none := by decide +kernel
  rw [ho.returned?] at hr
  obtain rfl : returned = none := hr
  refine ⟨spoiltPairOpened, (Option.some_get _).symm, by decide +kernel, [1, 0], horder,
    fun _ => nofun, none, spoiltPairPool.shared, ?_, ?_⟩
  · rw [hworkers]
    exact .pooled hsteps ho
  · have hfirst : spoiltPairPool.shared.firstFailed? = some 0 := by decide +kernel
    have haddress : spoiltPairPool.shared.index.address 0 = 16 := by decide +kernel
    simp only [conclude, hfirst, Option.map_some, haddress, Option.none_or, spoiltPairLoad]

theorem eager_failure_recorded_sample : ∃ j k cause,
    Explained spoiltPairLoad spoiltPair.source (.pageFailed 16) j k cause := by
  obtain ⟨j, k, cause, h, -⟩ := eager_failure_recorded spoiltPair_startsEagerly
  exact ⟨j, k, cause, h⟩

/-- The error to return names the page that comes first in the index, and the cause is that of the
page that comes first in the file. -/
theorem cause_of_another_page : ∃ a b cause,
    spoiltPair.StartsEagerly (some (.pageFailed a)) spoiltPairLoad ∧
      spoiltPairLoad.failure = some cause ∧ cause.pageAddress? = some b ∧ b ≠ a := by
  have hc : spoiltPairLoad.failure.bind LoadError.pageAddress? = some 17 := by decide +kernel
  obtain ⟨cause, hf, ha⟩ := Option.bind_eq_some_iff.1 hc
  exact ⟨16, 17, cause, spoiltPair_startsEagerly, hf, ha, by decide⟩

end Loader
end RamRestore
