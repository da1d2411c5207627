import Mathlib.Algebra.Order.BigOperators.Group.List
import RamRestore.Proofs.Load.Finality
import RamRestore.Proofs.Load.Pace
import RamRestore.Proofs.Load.Released
import RamRestore.Proofs.Load.Served

/-! # The reader once the queues are gone

Nobody tells the reader that background work is over. It finds nobody listening when it offers
a result, or comes to the end of the requests that had been sent. Until then it may begin one
more page, and whatever page it was at can still be settled.
-/

namespace RamRestore

/-- How many pages the reader can still begin once nobody listens to it any more. -/
def Reader.pagesLeft : Reader → Nat
  | .waiting => 1
  | _ => 0

namespace Load

variable {W : Type}

def requestWork (l : Load W) : Request → Nat
  | .page i => (l.transfer i).readsLeft l.source + 2
  | .finish => 1

/-- The most steps that the reader has left once nobody listens to it any more. -/
def stepsLeft (l : Load W) : Nat :=
  match l.reader with
  | .ended => 0
  | .offering _ => 1
  | .reading _ t => t.readsLeft l.source + 2
  | .waiting => (l.requests.map l.requestWork).sum + 1

/-- The page was read and its contents are parked, or it failed. -/
def ReadOrFailed (l : Load W) (i : Nat) : Prop :=
  (l.state i = .read ∧ ∃ c, l.parked i = some c) ∨ l.state i = .error

inductive Windup (l : Load W) : Load W → Prop
  | skip {i : Nat} {q : List Request} (hr : l.reader = .waiting)
      (hq : l.requests = .page i :: q) : Windup l { l with requests := q }
  | claim {i : Nat} {q : List Request} (hr : l.reader = .waiting)
      (hq : l.requests = .page i :: q) :
      Windup l { l.claim i with requests := q, reader := .reading i (l.transfer i) }
  | echo {q : List Request} (hr : l.reader = .waiting) (hq : l.requests = .finish :: q) :
      Windup l { l with requests := q, reader := .offering .allLoaded }
  | quit (hr : l.reader = .waiting ∨ ∃ r, l.reader = .offering r) :
      Windup l { l with reader := .ended }
  | die {i : Nat} {t : Transfer} (hr : l.reader = .reading i t) :
      Windup l { l.note [⟨t.offset, t.wanted, .died⟩] l.source with reader := .ended }
  | read {i : Nat} {t t' : Transfer} {c : ReadCall} (hr : l.reader = .reading i t)
      (h : t.call l.source = (c, .going t')) :
      Windup l { l.note [c] (l.source.after t.offset) with reader := .reading i t' }
  | land {i : Nat} {t : Transfer} {c : ReadCall} {got : Bytes} {stop : Transfer.Stop}
      (hr : l.reader = .reading i t) (h : t.call l.source = (c, .stopped got stop)) :
      Windup l ((l.note [c] (l.source.after t.offset)).landRead i got stop)

section

variable {l l' : Load W} {i : Nat} {t : Transfer}

theorem readerStep?_windup (hc : l.cursor = none) (h : l.readerStep? = some l') :
    Windup l l' := by
  unfold readerStep? at h
  split at h
  · cases h
  · rename_i hr
    split at h
    · rename_i i q hq
      cases h
      unfold beginRead
      split
      · exact .claim hr hq
      · exact .skip hr hq
    · cases h
      exact .echo hr ‹_›
    · split at h
      · cases h
      · cases h
        exact .quit (.inl hr)
  · rename_i i t hr
    unfold readOn? at h
    split at h
    · cases h
    · split at h
      · cases h
        exact .die hr
      · split at h
        · cases h
          exact .read hr ‹_›
        · cases h
          exact .land hr ‹_›
  · rename_i r hr
    rw [if_pos (by simp [hc])] at h
    cases h
    exact .quit (.inr ⟨r, hr⟩)

theorem exists_turn (hc : l.cursor = none) :
    l.reader = .ended ∨ (∃ l', l.readerStep? = some l') ∨
      ∃ i t, l.reader = .reading i t ∧ t.offset ∈ l.source.held := by
  cases h : l.readerStep? with
  | some l' => exact .inr (.inl ⟨l', rfl⟩)
  | none =>
    cases hr : l.reader with
    | ended => exact .inl rfl
    | reading i t => exact .inr (.inr ⟨i, t, rfl, held_of_stuck hr h⟩)
    | offering r => simp [readerStep?, hr, hc] at h
    | waiting =>
      cases hq : l.requests with
      | nil => simp [readerStep?, hr, hq, hc] at h
      | cons r q => cases r <;> simp [readerStep?, hr, hq] at h

theorem reader_landRead (l : Load W) (i : Nat) (got : Bytes) (stop : Transfer.Stop) :
    ∃ r, (l.landRead i got stop).reader = .offering r := by
  unfold landRead
  split
  · exact ⟨_, rfl⟩
  · exact ⟨_, rfl⟩

theorem readOrFailed_landRead (l : Load W) (i : Nat) (got : Bytes) (stop : Transfer.Stop) :
    ReadOrFailed (l.landRead i got stop) i := by
  unfold landRead
  split
  · rename_i c _
    refine .inl ⟨(state_park l i i c).trans (if_pos rfl), c, ?_⟩
    exact (parked_park l i i c).trans (if_pos rfl)
  · exact .inr ((state_setState l i i .error).trans (if_pos rfl))

theorem stepsLeft_of_waiting (hr : l.reader = .waiting) :
    l.stepsLeft = (l.requests.map l.requestWork).sum + 1 := by
  rw [stepsLeft, hr]

theorem stepsLeft_of_reading (hr : l.reader = .reading i t) :
    l.stepsLeft = t.readsLeft l.source + 2 := by
  rw [stepsLeft, hr]

theorem requestWork_congr (hi : l'.index = l.index) (hs : l'.source = l.source) :
    l'.requestWork = l.requestWork := by
  funext r
  cases r with
  | page i => simp only [requestWork, transfer_congr hi, hs]
  | finish => rfl

/-- Every step takes the reader nearer to its end. -/
theorem Windup.stepsLeft_lt (h : Windup l l') : l'.stepsLeft < l.stepsLeft := by
  cases h with
  | @skip i q hr hq =>
    have hwork : ({ l with requests := q } : Load W).requestWork = l.requestWork :=
      requestWork_congr rfl rfl
    have hleft : ({ l with requests := q } : Load W).stepsLeft = (q.map l.requestWork).sum + 1 :=
      (stepsLeft_of_waiting (l := { l with requests := q }) hr).trans (by rw [hwork])
    rw [hleft, stepsLeft_of_waiting hr, hq, List.map_cons, List.sum_cons, requestWork]
    omega
  | @claim i q hr hq =>
    rw [stepsLeft_of_waiting hr, hq, List.map_cons, List.sum_cons, requestWork,
      stepsLeft_of_reading rfl]
    change (l.transfer i).readsLeft l.source + 2 < _
    omega
  | @echo q hr hq =>
    rw [stepsLeft_of_waiting hr, hq, List.map_cons, List.sum_cons, requestWork]
    change 1 < _
    omega
  | quit hr =>
    change 0 < _
    rcases hr with hr | ⟨r, hr⟩ <;> simp [stepsLeft, hr]
  | die hr =>
    rw [stepsLeft_of_reading hr]
    exact Nat.succ_pos _
  | @read i t t' c hr hcall =>
    rw [stepsLeft_of_reading hr, stepsLeft_of_reading rfl]
    exact Nat.add_lt_add_right (Transfer.readsLeft_going hcall) 2
  | @land i t c got stop hr hcall =>
    obtain ⟨r, hoffering⟩ :=
      reader_landRead (l.note [c] (l.source.after t.offset)) i got stop
    rw [stepsLeft_of_reading hr, stepsLeft, hoffering]
    dsimp only
    omega

theorem Windup.begins_le (h : Windup l l') :
    (begins l l').length + l'.reader.pagesLeft ≤ l.reader.pagesLeft := by
  cases h with
  | skip hr | claim hr | echo hr => simp [begins, hr, Reader.pagesLeft]
  | quit hr => rcases hr with hr | ⟨r, hr⟩ <;> simp [begins, hr, Reader.pagesLeft]
  | die hr | read hr => simp [begins, hr, Reader.pagesLeft]
  | @land i t c got stop hr hcall =>
    obtain ⟨r, hoffering⟩ :=
      reader_landRead (l.note [c] (l.source.after t.offset)) i got stop
    simp [begins, hr, hoffering, Reader.pagesLeft]

theorem Windup.inside (h : Windup l l') (hr : l.reader = .reading i t) :
    (∃ t', l'.reader = .reading i t') ∨ l'.reader = .ended ∨ ReadOrFailed l' i := by
  cases h with
  | skip hr' | claim hr' | echo hr' => cases hr.symm.trans hr'
  | quit hr' =>
    rcases hr' with hr' | ⟨r, hr'⟩
    · cases hr.symm.trans hr'
    · cases hr.symm.trans hr'
  | die => exact .inr (.inl rfl)
  | @read j u t' _ hr' =>
    obtain ⟨rfl, -⟩ := Reader.reading.inj (hr.symm.trans hr')
    exact .inl ⟨t', rfl⟩
  | land hr' =>
    obtain ⟨rfl, -⟩ := Reader.reading.inj (hr.symm.trans hr')
    exact .inr (.inr (readOrFailed_landRead _ _ _ _))

theorem mem_begins (h : i ∈ begins l l') : ∃ t, l'.reader = .reading i t := by
  unfold begins at h
  split at h
  · rename_i j t _ hr
    obtain rfl := List.mem_singleton.1 h
    exact ⟨t, hr⟩
  · cases h

/-- What others do leaves the reader no more to do than it had. -/
theorem stepsLeft_le {m : Load W} (hr : m.reader = l.reader) (hq : m.requests = l.requests)
    (hi : m.index = l.index)
    (hs : ∀ o, m.source.interruptions.get o ≤ l.source.interruptions.get o) :
    m.stepsLeft ≤ l.stepsLeft := by
  have hwork : ∀ r, m.requestWork r ≤ l.requestWork r := by
    intro r
    cases r with
    | page i =>
      have ht : m.transfer i = l.transfer i := congrFun (transfer_congr hi) i
      simp only [requestWork, ht]
      exact Nat.add_le_add_right (Transfer.readsLeft_mono hs _) 2
    | finish => exact Nat.le_refl 1
  unfold stepsLeft
  rw [hr, hq]
  split
  · exact Nat.le_refl _
  · exact Nat.le_refl _
  · exact Nat.add_le_add_right (Transfer.readsLeft_mono hs _) 2
  · exact Nat.add_le_add_right (List.sum_le_sum fun r _ => hwork r) 1

end

variable [Guest W] {E : Surroundings} {x y z : Session W} {l : Load W} {i k : Nat} {ps : List Nat}

/-! ### What others do -/

theorem Step.source_cases (h : Step E x y) :
    x.load.source.Follows y.load.source ∨ E.source x.load.source y.load.source := by
  cases h with
  | settle h => exact .inl (Attend.settle h).follows
  | claim h => exact .inl (Attend.claim h).follows
  | read h => exact .inl (Attend.read h).follows
  | land h => exact .inl (Attend.land h).follows
  | idle => exact .inl (.inl (source_idle _))
  | reader h => exact .inl (readerStep?_keeps h).2
  | fault | interrupt => exact .inl (.inl rfl)
  | source h => exact .inr h

/-- Queues that are gone hold no results. -/
theorem Move.unheard (hx : x.load.cursor = none → x.load.results = []) (h : Move E x y)
    (hy : y.load.cursor = none) : y.load.results = [] := by
  by_cases hc : x.load.cursor = none
  · have hb : y.load.background = x.load.background → y.load.results = [] := fun hb =>
      (congrArg Background.results hb).trans (hx hc)
    cases h with
    | takeOver => exact hb (background_takeOver _ _)
    | land => exact hb (background_land _ _ _ _)
    | readerLand =>
      unfold landRead
      split <;> exact hx hc
    | deliver _ hc' => exact absurd hc hc'
    | receive hc' | gone hc' | look hc' | ask hc' | askEnd hc' => cases hc.symm.trans hc'
    | interrupt => rfl
    | _ => exact hx hc
  · rcases h.closing hc with hn | ⟨-, hr⟩
    · exact absurd hy hn
    · exact hr

/-- A page that was read stays read until it is settled, and then stays settled. -/
theorem Move.handled (ho : Orderly x) (h : Move E x y)
    (hs : x.load.state i = .read ∨ x.load.state i = .filled ∨ x.load.state i = .error) :
    y.load.state i = .read ∨ y.load.state i = .filled ∨ y.load.state i = .error := by
  have hother : ∀ {j s}, j ≠ i → (∀ k, y.load.state k = if j = k then s else x.load.state k) →
      y.load.state i = .read ∨ y.load.state i = .filled ∨ y.load.state i = .error := by
    intro j s hj hk
    rw [hk, if_neg hj]
    exact hs
  have hreading : ∀ {j t ts}, x.transfers = (j, t) ::ₘ ts → j ≠ i := by
    rintro j t ts ht rfl
    have hr := ho.reading (j, t) (by simp [ht])
    simp [hr] at hs
  cases h.pageStep with
  | stay hp | advance _ _ _ _ _ _ _ hp | abandon _ _ _ hp => rwa [hp.state]
  | claim j _ he hp =>
    refine hother ?_ fun k => (hp.state k).trans (state_claim x.load j k)
    rintro rfl
    simp [he] at hs
  | park j _ _ c _ _ _ ht _ _ hp =>
    exact hother (hreading ht) fun k => (hp.state k).trans (state_park x.load j k c)
  | fail j _ _ _ _ _ _ ht _ _ hp =>
    exact hother (hreading ht) fun k => (hp.state k).trans (state_setState x.load j k .error)
  | fill j _ _ c _ _ _ ht _ _ hp =>
    exact hother (hreading ht) fun k => (hp.state k).trans (state_fill x.load j k c)
  | fillParked j c _ _ hp =>
    rw [hp.state, state_fill]
    split
    · split
      · exact .inr (.inl rfl)
      · exact .inr (.inr rfl)
    · exact hs
  | lose j _ _ hp =>
    rw [hp.state, state_setState]
    split
    · exact .inr (.inr rfl)
    · exact hs

theorem Steps.handled (ho : Orderly x) (h : Steps E x y)
    (hs : x.load.state i = .read ∨ x.load.state i = .filled ∨ x.load.state i = .error) :
    y.load.state i = .read ∨ y.load.state i = .filled ∨ y.load.state i = .error :=
  (h.keep (P := fun z => Orderly z ∧
      (z.load.state i = .read ∨ z.load.state i = .filled ∨ z.load.state i = .error))
    (fun _ _ hm ⟨hz, hi⟩ => ⟨hz.move hm, hm.handled hz hi⟩) ⟨ho, hs⟩).2

/-! ### Courses -/

/-- A run in which the reader takes `k` steps and begins the pages `ps`, one after the other. -/
inductive Course (E : Surroundings) (x : Session W) : Nat → List Nat → Session W → Prop
  | start : Course E x 0 [] x
  | reader {k : Nat} {ps : List Nat} {y : Session W} {l' : Load W} (h : Course E x k ps y)
      (hr : y.load.readerStep? = some l') :
      Course E x (k + 1) (ps ++ begins y.load l') ⟨l', y.faults⟩
  | other {k : Nat} {ps : List Nat} {y z : Session W} (h : Course E x k ps y)
      (hs : Step E y z) (hn : ¬ ReaderTurn y z) : Course E x k ps z

theorem Course.steps (h : Course E x k ps y) : Steps E x y := by
  induction h with
  | start => exact .refl
  | reader _ hr ih => exact ih.tail (.reader hr)
  | other _ hs _ ih => exact ih.tail hs

theorem Steps.course (h : Steps E x y) : ∃ k ps, Course E x k ps y := by
  induction h with
  | refl => exact ⟨0, [], .start⟩
  | @tail y z _ hs ih =>
    obtain ⟨k, ps, hk⟩ := ih
    by_cases hr : ReaderTurn y z
    · obtain ⟨l', hl, rfl⟩ := hr
      exact ⟨k + 1, _, hk.reader hl⟩
    · exact ⟨k, ps, hk.other hs hr⟩

theorem Steps.gone (hc : x.load.cursor = none) (h : Steps E x y) : y.load.cursor = none :=
  h.keep (P := fun z => z.load.cursor = none) (fun _ _ hm hz => (hm.over hz).1) hc

theorem Course.begins_le (hc : x.load.cursor = none) (h : Course E x k ps y) :
    ps.length + y.load.reader.pagesLeft ≤ x.load.reader.pagesLeft := by
  induction h with
  | start => simp
  | reader h hr ih =>
    have hle := (readerStep?_windup (h.steps.gone hc) hr).begins_le
    rw [List.length_append]
    dsimp only
    omega
  | other _ hs hn ih =>
    obtain ⟨hr, -⟩ := hs.reader_cases.resolve_left hn
    rwa [hr]

theorem Course.stepsLeft_le (hc : x.load.cursor = none)
    (hE : ∀ s s', E.source s s' → ∀ o, s'.interruptions.get o ≤ s.interruptions.get o)
    (h : Course E x k ps y) : k + y.load.stepsLeft ≤ x.load.stepsLeft := by
  induction h with
  | start => simp
  | reader h hr ih =>
    have hlt := (readerStep?_windup (h.steps.gone hc) hr).stepsLeft_lt
    dsimp only
    omega
  | other h hs hn ih =>
    obtain ⟨hr, hq⟩ := hs.reader_cases.resolve_left hn
    have hi := Steps.index (.single hs)
    have hle := Load.stepsLeft_le hr (hq (h.steps.gone hc)) hi fun o =>
      hs.source_cases.elim (·.interruptions_le o) (hE _ _ · o)
    omega

def LandedAt (E : Surroundings) (x : Session W) (i : Nat) (y : Session W) : Prop :=
  ∃ u v t, Steps E x u ∧ u.load.reader = .reading i t ∧ u.load.readerStep? = some v ∧
    ReadOrFailed v i ∧ Steps E ⟨v, u.faults⟩ y

theorem LandedAt.tail (h : LandedAt E x i y) (hs : Step E y z) : LandedAt E x i z := by
  obtain ⟨u, v, t, hu, hr, hv, hi, hy⟩ := h
  exact ⟨u, v, t, hu, hr, hv, hi, hy.tail hs⟩

/-- What becomes of a page that the reader is at or begins. -/
theorem Course.fate (hc : x.load.cursor = none) (h : Course E x k ps y)
    (hi : i ∈ ps ∨ ∃ t, x.load.reader = .reading i t) :
    (∃ t, y.load.reader = .reading i t) ∨ KilledAt E x i y ∨ LandedAt E x i y := by
  induction h with
  | start => exact .inl (hi.resolve_left nofun)
  | @reader k ps y l' h hr ih =>
    have hstep : Step E y ⟨l', y.faults⟩ := .reader hr
    by_cases hb : i ∈ begins y.load l'
    · exact .inl (mem_begins hb)
    · have hi' : i ∈ ps ∨ ∃ t, x.load.reader = .reading i t := by
        rw [List.mem_append] at hi
        exact hi.imp_left (·.resolve_right hb)
      rcases ih hi' with ⟨t, ht⟩ | hk | hl
      · rcases (readerStep?_windup (h.steps.gone hc) hr).inside ht with hin | hended | hdone
        · exact .inl hin
        · exact .inr (.inl ⟨y, l', t, h.steps, ht, lethal_of_ended ht hr hended, hr, hended, .refl⟩)
        · exact .inr (.inr ⟨y, l', t, h.steps, ht, hr, hdone, .refl⟩)
      · exact .inr (.inl (hk.trans (.single hstep)))
      · exact .inr (.inr (hl.tail hstep))
  | other h hs hn ih =>
    obtain ⟨hr, -⟩ := hs.reader_cases.resolve_left hn
    rcases ih hi with ⟨t, ht⟩ | hk | hl
    · exact .inl ⟨t, hr.trans ht⟩
    · exact .inr (.inl (hk.trans (.single hs)))
    · exact .inr (.inr (hl.tail hs))

theorem fault?_answers {a : Nat} (hl : l.index.locate a = some i)
    (hs : l.state i = .read ∨ l.state i = .filled ∨ l.state i = .error) :
    ∃ l', l.fault? a = some l' ∧ Answered l' (some i) := by
  refine ⟨l.takeOver i, ?_, answered_takeOver hs⟩
  unfold fault? encounter
  rw [hl]
  rcases hs with hs | hs | hs <;> simp only [hs]

/-- What has become of the reader since nobody listens to it, after `k` of its steps in which it
began the pages `ps`. -/
structure Expires (E : Surroundings) (x : Session W) (k : Nat) (ps : List Nat) (y : Session W) :
    Prop where
  /-- It begins one page at most, and none unless it was waiting for requests. -/
  begun : ps.length ≤ 1
  busy : x.load.reader ≠ .waiting → ps = []
  /-- No result is delivered. -/
  silent : y.load.cursor = none ∧ y.load.results = []
  /-- As long as no more reads are interrupted than were to be anyway, there is an end to it. -/
  bounded : (∀ s s', E.source s s' → ∀ o, s'.interruptions.get o ≤ s.interruptions.get o) →
    k ≤ x.load.stepsLeft ∧ (k = x.load.stepsLeft → y.load.reader = .ended)
  /-- Before its end only a read that does not return keeps it from going on. -/
  goesOn : y.load.reader = .ended ∨ (∃ l', y.load.readerStep? = some l') ∨
    ∃ i t, y.load.reader = .reading i t ∧ t.offset ∈ y.load.source.held
  /-- A page that it was at or began is still being read, unless the reader was killed there or is
  through with it. Then the page was read or failed, and a fault settles it at once. -/
  pages : ∀ i, (i ∈ ps ∨ ∃ t, x.load.reader = .reading i t) →
    (∃ t, y.load.reader = .reading i t) ∨ KilledAt E x i y ∨
      LandedAt E x i y ∧ (ReadOrFailed y.load i ∨ y.load.state i = .filled) ∧
        ∀ a, y.load.index.locate a = some i →
          ∃ l', y.load.fault? a = some l' ∧ Answered l' (some i)

omit [Guest W] in
theorem ended_of_stepsLeft (h : l.stepsLeft = 0) : l.reader = .ended := by
  unfold stepsLeft at h
  split at h
  · assumption
  · cases h
  · cases h
  · cases h

omit [Guest W] in
theorem ReadOrFailed.cases (h : ReadOrFailed l i) :
    l.state i = .read ∨ l.state i = .filled ∨ l.state i = .error :=
  h.imp And.left .inr

theorem Course.expires (hs : Sane x) (hc : x.load.cursor = none) (hr : x.load.results = [])
    (h : Course E x k ps y) : Expires E x k ps y := by
  have hle := h.begins_le hc
  have hy := h.steps.gone hc
  have hsane := hs.run h.steps.moves
  constructor
  · have : x.load.reader.pagesLeft ≤ 1 := by cases x.load.reader <;> simp [Reader.pagesLeft]
    omega
  · intro hn
    have : x.load.reader.pagesLeft = 0 := by
      cases hx : x.load.reader with
      | waiting => exact absurd hx hn
      | _ => rfl
    exact List.length_eq_zero_iff.1 (by omega)
  · exact ⟨hy, h.steps.keep (P := fun z => z.load.cursor = none → z.load.results = [])
      (fun _ _ hm hz => hm.unheard hz) (fun _ => hr) hy⟩
  · intro hE
    have hsteps := h.stepsLeft_le hc hE
    exact ⟨by omega, fun hk => ended_of_stepsLeft (by omega)⟩
  · exact exists_turn hy
  · intro i hi
    refine (h.fate hc hi).imp_right (Or.imp_right fun hl => ⟨hl, ?_⟩)
    obtain ⟨u, v, t, hu, -, hv, hdone, hvy⟩ := hl
    have hsv : Sane ⟨v, u.faults⟩ :=
      (hs.run hu.moves).run (E := E) (.single (readerStep?_move hv))
    have hstate := hvy.handled hsv.orderly hdone.cases
    refine ⟨?_, fun a ha => fault?_answers ha hstate⟩
    rcases hstate with hread | hfilled | herror
    · exact .inl (.inl ⟨hread, Option.ne_none_iff_exists'.1 (hsane.shelved i hread)⟩)
    · exact .inr hfilled
    · exact .inl (.inr herror)

end Load

namespace Loader

open Load

variable {W : Type} [Guest W] {l : Loader W} {E : Surroundings} {m : Load W} {x : Session W}
  {failure : Option LoadError}

/--
Stopping the queues stops the reader. From whatever time of a lazy load at which there are no
queues, and whatever faults, idle calls and interruptions there are between its steps, the reader
begins one more page at most, delivers nothing, and ends after a bounded number of steps, as long
as reads return. Unless it is killed there, a page that it was at or began is read or failed when
it leaves it, and can be settled by a fault ever after.
-/
theorem reader_expires (hm : l.StartsLazily failure m) (hx : Moves E ⟨m, 0⟩ x)
    (hc : x.load.cursor = none) :
    (∀ y, Steps E x y → ∃ k ps, Course E x k ps y) ∧
      ∀ k ps y, Course E x k ps y → Expires E x k ps y := by
  have hresults : x.load.results = [] :=
    hx.keep (P := fun z => z.load.cursor = none → z.load.results = [])
      (fun _ _ h hz => h.unheard hz) (fun _ => hm.fresh.1.results) hc
  exact ⟨fun _ => Steps.course, fun _ _ _ h =>
    h.expires ((starts_sane (.inl hm)).run hx) hc hresults⟩

def sampleStopped : Load PlainWatch := (sampleLoad.idle.2.readerSteps 1).interrupt

theorem reader_expires_sample : sampleStopped.requests = [.finish] ∧
    (sampleStopped.readerSteps 2).stepsLeft = 0 ∧
    (sampleStopped.readerSteps 2).state 0 = .read ∧
    ∃ l', (sampleStopped.readerSteps 2).fault? 16 = some l' ∧ Answered l' (some 0) := by
  let E : Surroundings := { Surroundings.quiet with interrupts := True }
  have hx : Steps E ⟨sampleLoad, 0⟩ ⟨sampleStopped, 0⟩ :=
    .head .idle ((steps_readerSteps _ 0 1).tail (.interrupt trivial))
  have hreader : sampleStopped.reader.transfer?.map Prod.fst = some 0 := by decide +kernel
  have hat : ∃ t, sampleStopped.reader = .reading 0 t := by
    unfold Reader.transfer? at hreader
    split at hreader
    · rename_i i t hr
      obtain rfl : i = 0 := by simpa using hreader
      exact ⟨t, hr⟩
    · cases hreader
  obtain ⟨hcourse, hexpires⟩ := reader_expires sample_startsLazily hx.moves rfl
  obtain ⟨k, ps, hk⟩ := hcourse _ (steps_readerSteps sampleStopped 0 2)
  have hleft : (sampleStopped.readerSteps 2).stepsLeft = 0 := by decide +kernel
  refine ⟨by decide +kernel, hleft, by decide +kernel, ?_⟩
  rcases (hexpires k ps _ hk).pages 0 (.inr hat) with ⟨t, ht⟩ | hkilled | ⟨-, -, hsettles⟩
  · cases (ended_of_stepsLeft hleft).symm.trans ht
  · obtain ⟨c, hc, hdied⟩ := hkilled.killed.died
    have hno : ∀ c ∈ (sampleStopped.readerSteps 2).calls.toList, c.outcome ≠ .died := by
      decide +kernel
    exact absurd hdied (hno c (Array.mem_toList_iff.2 hc))
  · exact hsettles 16 (by decide +kernel)

end Loader
end RamRestore
