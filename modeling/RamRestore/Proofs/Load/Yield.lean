import RamRestore.Proofs.Load.Start

/-! # What pages come to

A source that answers in the same way every time decides for each page, once and for all,
whether it can be read and unpacked. As long as nothing else goes wrong, the states of the
pages follow from that alone.
-/

namespace RamRestore.Load

variable {W : Type}

/-- What reading page `i` comes to: its contents, or why there are none. -/
def yield (l : Load W) (i : Nat) : Except LoadError Bytes :=
  let (got, stop) := (l.transfer i).result l.source
  l.contents i got stop

theorem yield_congr {V : Type} {l : Load W} {m : Load V} (hi : m.index = l.index)
    (hs : Source.SameAnswers l.source m.source) : m.yield = l.yield := by
  funext i
  simp only [yield, transfer_congr hi, contents_congr hi, Transfer.result_congr hs]

theorem yield_of_result {l : Load W} {i : Nat} {got : Bytes} {stop : Transfer.Stop}
    (h : (l.transfer i).result l.source = (got, stop)) : l.yield i = l.contents i got stop := by
  simp only [yield, h]

/-- What may happen around a load in which only its source can make it fail. -/
structure Calm (E : Surroundings) (index : Index) : Prop where
  fault : ∀ a, E.fault a → ∃ i, index.locate a = some i
  source : ∀ s s', E.source s s' → Source.SameAnswers s s'
  interrupts : ¬ E.interrupts

/-- So far every page that was handed to the guest was accepted, and the reader lives. -/
structure Unhurt (l : Load W) : Prop where
  placed : ∀ p ∈ l.placed, p.accepted = true
  calls : ∀ c ∈ l.calls, c.outcome ≠ .died

/-- The state of page `i` tells the truth about what the page comes to. -/
structure TruthAt (yield : Nat → Except LoadError Bytes) (l : Load W) (i : Nat) : Prop where
  read : l.state i = .read → (∃ c, yield i = .ok c) ∧ l.parked i ≠ none
  filled : i ∈ l.index.stored → l.state i = .filled → ∃ c, yield i = .ok c
  error : l.state i = .error → ∃ cause, yield i = .error cause

/-- The states of the pages tell the truth, and the transfers on their way will, too. -/
structure Truthful (yield : Nat → Except LoadError Bytes) (x : Session W) : Prop where
  agrees : x.load.yield = yield
  results : ∀ p ∈ x.transfers, p.2.got.size < p.2.size ∧
    p.2.result x.load.source = (x.load.transfer p.1).result x.load.source
  truth : ∀ i, TruthAt yield x.load i

section

variable {x y : Session W} {yield : Nat → Except LoadError Bytes} {l : Load W} {i : Nat}
  {t : Transfer} {got : Bytes} {stop : Transfer.Stop} {cs : List ReadCall} {s : Source}

/-- How a transfer on its way ends is what its page comes to. -/
theorem Truthful.ends (h : Truthful yield x) (ht : (i, t) ∈ x.transfers)
    (he : t.Ends x.load.source got stop cs s) : x.load.contents i got stop = yield i := by
  obtain ⟨hlt, hr⟩ := h.results (i, t) ht
  have hresult : t.result x.load.source = (got, stop) := by
    cases he with
    | full hle => exact absurd hlt (Nat.not_lt_of_le hle)
    | stopped hc => exact Transfer.result_stopped hlt hc
  rw [hr] at hresult
  rw [← h.agrees, yield_of_result hresult]

theorem Truthful.update (h : Truthful yield x) (hi : y.load.index = x.load.index)
    (hs : Source.SameAnswers x.load.source y.load.source)
    (ht : ∀ p ∈ y.transfers, p.2.got.size < p.2.size ∧
      p.2.result x.load.source = (x.load.transfer p.1).result x.load.source)
    (hj : ∀ j, (y.load.state j = x.load.state j ∧ y.load.parked j = x.load.parked j) ∨
      TruthAt yield y.load j) : Truthful yield y where
  agrees := (yield_congr hi hs).trans h.agrees
  results p hp := by
    rw [transfer_congr hi, Transfer.result_congr hs, Transfer.result_congr hs]
    exact ht p hp
  truth j := by
    rcases hj j with ⟨hstate, hparked⟩ | hj
    · obtain ⟨hread, hfilled, herror⟩ := h.truth j
      constructor
      · rwa [hstate, hparked]
      · rwa [hi, hstate]
      · rwa [hstate]
    · exact hj

theorem Truthful.touch {s : PageState} {contents : Option Bytes} (h : Truthful yield x)
    (hi : y.load.index = x.load.index) (hs : Source.SameAnswers x.load.source y.load.source)
    (ht : ∀ p ∈ y.transfers, p.2.got.size < p.2.size ∧
      p.2.result x.load.source = (x.load.transfer p.1).result x.load.source)
    (hstate : ∀ j, y.load.state j = if i = j then s else x.load.state j)
    (hparked : ∀ j, y.load.parked j = if i = j then contents else x.load.parked j)
    (hself : TruthAt yield y.load i) : Truthful yield y := by
  apply h.update hi hs ht
  intro j
  by_cases hij : i = j
  · exact .inr (hij ▸ hself)
  · rw [hstate, hparked, if_neg hij, if_neg hij]
    exact .inl ⟨rfl, rfl⟩

theorem truthAt_reading (h : l.state i = .reading) : TruthAt yield l i := by
  constructor <;> simp [h]

theorem truthAt_filled {c : Bytes} (h : l.state i = .filled) (hc : yield i = .ok c) :
    TruthAt yield l i := by
  constructor <;> simp [h, hc]

theorem truthAt_error {cause : LoadError} (h : l.state i = .error)
    (hc : yield i = .error cause) : TruthAt yield l i := by
  constructor <;> simp [h, hc]

theorem truthAt_read {c d : Bytes} (h : l.state i = .read) (hp : l.parked i = some d)
    (hc : yield i = .ok c) : TruthAt yield l i := by
  constructor <;> simp [h, hp, hc]

end

variable [Guest W] {E : Surroundings} {x y : Session W} {yield : Nat → Except LoadError Bytes}

theorem Move.calls_mono (h : Move E x y) : ∀ c ∈ x.load.calls, c ∈ y.load.calls := by
  intro c hc
  rcases h.inflow with ⟨cs, s, hi, -⟩ | ⟨hi, -⟩
  · rw [show y.load.calls = x.load.calls ++ cs from congrArg Prod.snd hi,
      ← Array.mem_toList_iff]
    simp [hc]
  · exact hi ▸ hc

theorem Move.sameAnswers (hE : Calm E x.load.index) (h : Move E x y) :
    Source.SameAnswers x.load.source y.load.source := by
  rcases h.inflow with ⟨cs, s, hi, hs⟩ | ⟨-, hs⟩
  · rwa [show y.load.source = s from congrArg Prod.fst hi]
  · exact hE.source _ _ hs

theorem state_fill_of_unhurt {l m : Load W} {i : Nat} {c : Bytes} (hm : m.Unhurt)
    (hp : SamePages (l.fill i c).2 m) : (l.fill i c).1 = none ∧ m.state i = .filled := by
  have hmem : ⟨i, l.index.address i, (l.fill i c).1.isNone⟩ ∈ m.placed := by
    rw [hp.placed, placed_fill]
    simp
  have hnone := hm.placed _ hmem
  refine ⟨Option.isNone_iff_eq_none.1 hnone, ?_⟩
  rw [hp.state, state_fill, if_pos rfl, if_pos hnone]

theorem Truthful.fill (h : Truthful yield x) {i : Nat} {c d : Bytes} (hy : y.load.Unhurt)
    (hs : Source.SameAnswers x.load.source y.load.source)
    (ht : ∀ p ∈ y.transfers, p.2.got.size < p.2.size ∧
      p.2.result x.load.source = (x.load.transfer p.1).result x.load.source) (hc : yield i = .ok d)
    (hp : SamePages (x.load.fill i c).2 y.load) : Truthful yield y := by
  obtain ⟨-, hf⟩ := state_fill_of_unhurt hy hp
  exact h.touch (hp.index.trans (index_fill ..)) hs ht
    (fun j => (hp.state j).trans (state_fill x.load i j c))
    (fun j => (hp.parked j).trans (parked_fill x.load i j c)) (truthAt_filled hf hc)

theorem Truthful.move (hE : Calm E x.load.index) (ho : Orderly x) (h : Truthful yield x)
    (hm : Move E x y) (hy : y.load.Unhurt) : Truthful yield y := by
  have hs := hm.sameAnswers hE
  have hresults : ∀ p ∈ y.transfers, p.2.got.size < p.2.size ∧
      p.2.result x.load.source = (x.load.transfer p.1).result x.load.source := by
    apply hm.pageStep.transfers_keep
      (P := fun p => p.2.got.size < p.2.size ∧
        p.2.result x.load.source = (x.load.transfer p.1).result x.load.source)
    · exact fun i hl he => ⟨Index.size_pos_of_stored (ho.stored_of_claim hl he), rfl⟩
    · intro i t t' c ⟨hlt, hr⟩ hc
      refine ⟨?_, (Transfer.result_going hc).trans hr⟩
      rcases Transfer.call_going_cases hc with rfl | ⟨b, -, -, hlt', rfl⟩
      · exact hlt
      · exact hlt'
    · exact h.results
  cases hm.pageStep with
  | stay hp | advance _ _ _ _ _ _ _ hp | abandon _ _ _ hp =>
    exact h.update hp.index hs hresults fun j => .inl ⟨hp.state j, hp.parked j⟩
  | claim i hl he hp ht =>
    have hstate : ∀ j, y.load.state j = if i = j then .reading else x.load.state j :=
      fun j => (hp.state j).trans (state_claim x.load i j)
    exact h.touch hp.index hs hresults hstate
      (fun j => (hp.parked j).trans (parked_claim x.load i j))
      (truthAt_reading ((hstate i).trans (if_pos rfl)))
  | park i t got c stop cs s hts he hc hp =>
    have hyield := h.ends (i := i) (t := t) (by simp [hts]) he
    rw [hc] at hyield
    have hstate : ∀ j, y.load.state j = if i = j then .read else x.load.state j :=
      fun j => (hp.state j).trans (state_park x.load i j c)
    have hparked : ∀ j, y.load.parked j = if i = j then some c else x.load.parked j :=
      fun j => (hp.parked j).trans (parked_park x.load i j c)
    exact h.touch hp.index hs hresults hstate hparked
      (truthAt_read ((hstate i).trans (if_pos rfl)) ((hparked i).trans (if_pos rfl)) hyield.symm)
  | fail i t got cause stop cs s hts he hc hp =>
    have hyield := h.ends (i := i) (t := t) (by simp [hts]) he
    rw [hc] at hyield
    have hstate : ∀ j, y.load.state j = if i = j then .error else x.load.state j :=
      fun j => (hp.state j).trans (state_setState x.load i j .error)
    exact h.touch hp.index hs hresults hstate
      (fun j => (hp.parked j).trans (parked_setState x.load i j .error))
      (truthAt_error ((hstate i).trans (if_pos rfl)) hyield.symm)
  | fill i t got c stop cs s hts he hc hp =>
    have hyield := h.ends (i := i) (t := t) (by simp [hts]) he
    rw [hc] at hyield
    exact h.fill hy hs hresults hyield.symm hp
  | fillParked i c hr hc hp ht =>
    obtain ⟨⟨d, hd⟩, -⟩ := (h.truth i).read hr
    exact h.fill hy hs hresults hd hp
  | lose i hr hc hp ht => exact absurd hc ((h.truth i).read hr).2

end RamRestore.Load
