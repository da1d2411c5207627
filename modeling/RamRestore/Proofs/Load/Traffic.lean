import RamRestore.Proofs.Load.Pace
import RamRestore.Proofs.Load.Released
import RamRestore.Proofs.Load.Walk

/-! # What goes through the queues

The reader leaves out pages that somebody else has, and the idle callback those that are filled,
but nobody changes their order. So the reader reads the pages, and the idle callback hands them to
the guest, in the order in which they were asked for.
-/

namespace RamRestore

/-- What went through the queues during a run, in the order in which it went. -/
structure Traffic where
  /-- The requests that the queue accepted. -/
  asked : List Request := []
  /-- The pages that the reader began. -/
  read : List Nat := []
  /-- The results that the reader sent. -/
  sent : List Result := []
  /-- The pages that the idle callback handed to the guest. -/
  handed : List Nat := []
  deriving DecidableEq, Repr

namespace Traffic

variable {W : Type}

/-- What is added between two loads: the requests and the results at the ends of their queues, the
page that the reader begins, and what the guest got if a result left its queue. -/
def pass (k : Traffic) (l l' : Load W) : Traffic where
  asked := k.asked ++ l'.requests.drop l.requests.length
  read := k.read ++ Load.begins l l'
  sent := k.sent ++ l'.results.drop l.results.length
  handed := k.handed ++
    if l'.results.length < l.results.length then
      (l'.placed.toList.drop l.placed.size).map Placement.page
    else []

def readerSteps (k : Traffic) (l : Load W) : (n : Nat) → Traffic
  | 0 => k
  | n + 1 =>
    match l.readerStep? with
    | none => k
    | some l' => (k.pass l l').readerSteps l' n

end Traffic

def Result.page? : Result → Option Nat
  | .loaded i => some i
  | _ => none

/-- The page that the reader is at, or has not passed on yet. -/
def Reader.page? : Reader → Option Nat
  | .reading i _ => some i
  | .offering r => r.page?
  | _ => none

namespace Load

variable {W : Type}

/-- On their way to the guest pages may be left out, but keep their order. -/
structure Relayed (k : Traffic) (l : Load W) : Prop where
  taken : ∃ taken, k.asked = taken ++ l.requests ∧
    k.read.Sublist (taken.filterMap Request.page?)
  sent : (k.sent.filterMap Result.page? ++ l.reader.page?.toList).Sublist k.read
  received : ∃ received, k.sent = received ++ l.results ∧
    k.handed.Sublist (received.filterMap Result.page?)
  last : k.sent.Pairwise fun r _ => r ≠ .allLoaded
  ended : .allLoaded ∈ k.sent → l.reader = .ended

variable {l l' : Load W} {k : Traffic} {i : Nat}

/-! ### The reader -/

/-- The reader takes the requests `q`, begins the pages `ps` and sends the results `rs`. -/
structure Exchange (l l' : Load W) (q : List Request) (ps : List Nat) (rs : List Result) :
    Prop where
  awake : l.reader ≠ .ended
  requests : l.requests = q ++ l'.requests
  begun : begins l l' = ps
  results : l'.results = l.results ++ rs
  asked : ps.Sublist (q.filterMap Request.page?)
  /-- What it sends or still has it had before or has begun. -/
  passed : (rs.filterMap Result.page? ++ l'.reader.page?.toList).Sublist
    (l.reader.page?.toList ++ ps)
  unfollowed : rs.Pairwise fun r _ => r ≠ .allLoaded
  last : .allLoaded ∈ rs → l'.reader = .ended

theorem exchange_inside (ha : l.reader ≠ .ended) (hq : l'.requests = l.requests)
    (hr : l'.results = l.results) (hb : begins l l' = [])
    (hp : l'.reader.page?.toList.Sublist l.reader.page?.toList) : Exchange l l' [] [] [] where
  awake := ha
  requests := hq.symm
  begun := hb
  results := by rw [hr, List.append_nil]
  asked := .refl _
  passed := by simpa using hp
  unfollowed := .nil
  last := nofun

theorem exchange_ended (ha : l.reader ≠ .ended) (hq : l'.requests = l.requests)
    (hr : l'.results = l.results) (hn : l'.reader = .ended) : Exchange l l' [] [] [] := by
  refine exchange_inside ha hq hr ?_ (by rw [hn]; exact List.nil_sublist _)
  rw [begins, hn]
  split <;> simp_all

theorem exchange_landRead {t : Transfer} (hr : l.reader = .reading i t) (got : Bytes)
    (stop : Transfer.Stop) (cs : List ReadCall) (s : Source) :
    Exchange l ((l.note cs s).landRead i got stop) [] [] [] := by
  have ha : l.reader ≠ .ended := by simp [hr]
  unfold landRead
  split
  · refine exchange_inside ha rfl rfl (by simp [begins, hr]) ?_
    rw [hr]
    exact .refl _
  · exact exchange_inside ha rfl rfl (by simp [begins, hr]) (List.nil_sublist _)

theorem exchange_echo {q : List Request} (hr : l.reader = .waiting)
    (hq : l.requests = .finish :: q) :
    Exchange l { l with requests := q, reader := .offering .allLoaded } [.finish] [] [] where
  awake := by simp [hr]
  requests := hq
  begun := by simp [begins, hr]
  results := (List.append_nil _).symm
  asked := .refl _
  passed := List.nil_sublist _
  unfollowed := .nil
  last := nofun

theorem exchange_deliver {r : Result} (hr : l.reader = .offering r) :
    Exchange l { l with
      results := l.results ++ [r], reader := if r = .allLoaded then .ended else .waiting }
      [] [] [r] where
  awake := by simp [hr]
  requests := rfl
  begun := by simp [begins, hr]
  results := rfl
  asked := .refl _
  passed := by
    have hnone : (if r = .allLoaded then Reader.ended else .waiting).page? = none := by
      split <;> rfl
    rw [hnone, hr]
    cases r <;> exact .refl _
  unfollowed := List.pairwise_singleton ..
  last hm := if_pos (List.mem_singleton.1 hm).symm

theorem exchange_skip {q : List Request} (hr : l.reader = .waiting)
    (hq : l.requests = .page i :: q) : Exchange l { l with requests := q } [.page i] [] [] where
  awake := by simp [hr]
  requests := hq
  begun := by simp [begins, hr]
  results := (List.append_nil _).symm
  asked := List.nil_sublist _
  passed := by
    rw [hr]
    exact .refl _
  unfollowed := .nil
  last := nofun

theorem exchange_claim {q : List Request} (hr : l.reader = .waiting)
    (hq : l.requests = .page i :: q) :
    Exchange l { l.claim i with requests := q, reader := .reading i (l.transfer i) }
      [.page i] [i] [] where
  awake := by simp [hr]
  requests := hq
  begun := by simp [begins, hr]
  results := (List.append_nil _).symm
  asked := .refl _
  passed := by
    rw [hr]
    exact .refl _
  unfollowed := .nil
  last := nofun

/-! ### Everybody else -/

/-- The requests `new` are made, the results `received` leave their queue, and the guest gets the
pages `ps` for that. The reader does nothing. -/
structure Takes (l l' : Load W) (new : List Request) (received : List Result) (ps : List Nat) :
    Prop where
  reader : l'.reader = l.reader
  requests : l'.requests = l.requests ++ new
  results : l.results = received ++ l'.results
  handed : (if l'.results.length < l.results.length then
    (l'.placed.toList.drop l.placed.size).map Placement.page else []) = ps
  pages : ps.Sublist (received.filterMap Result.page?)

theorem begins_of_reader (h : l'.reader = l.reader) : begins l l' = [] := by
  rw [begins, h]
  split <;> simp_all

theorem Takes.pass {new : List Request} {received : List Result} {ps : List Nat}
    (h : Takes l l' new received ps) :
    k.pass l l' = { k with asked := k.asked ++ new, handed := k.handed ++ ps } := by
  have hle : l'.results.length ≤ l.results.length := by
    rw [h.results, List.length_append]
    exact Nat.le_add_left _ _
  rw [Traffic.pass, h.requests, List.drop_left, begins_of_reader h.reader, h.handed,
    List.drop_eq_nil_of_le hle, List.append_nil, List.append_nil]

theorem takes_asked {new : List Request} (hr : l'.reader = l.reader)
    (hq : l'.requests = l.requests ++ new) (hresults : l'.results = l.results) :
    Takes l l' new [] [] where
  reader := hr
  requests := hq
  results := hresults.symm
  handed := by rw [hresults, if_neg (Nat.lt_irrefl _)]
  pages := .refl _

theorem takes_of_background (h : l'.background = l.background) : Takes l l' [] [] [] :=
  takes_asked (congrArg Background.reader h)
    (by rw [List.append_nil]; exact congrArg Background.requests h) (congrArg Background.results h)

/-- Results that go when the queues are closed are lost. -/
theorem takes_closed (hr : l'.reader = l.reader) (hq : l'.requests = l.requests)
    (hresults : l'.results = []) (hp : l'.placed = l.placed) : Takes l l' [] l.results [] where
  reader := hr
  requests := by rw [hq, List.append_nil]
  results := by rw [hresults, List.append_nil]
  handed := by
    rw [hp, ← Array.length_toList, List.drop_length]
    split <;> rfl
  pages := List.nil_sublist _

variable [Guest W] {E : Surroundings} {x y z : Session W}

/-- Placing a page hands that page to the guest, if any. -/
theorem placeParked_hands (l : Load W) (i : Nat) :
    ∃ new, (l.placeParked i).2.placed.toList = l.placed.toList ++ new ∧
      (new.map Placement.page).Sublist [i] := by
  unfold placeParked
  split
  · split
    · exact ⟨_, by rw [placed_fill, Array.toList_push], .refl _⟩
    · exact ⟨[], (List.append_nil _).symm, List.nil_sublist _⟩
  · exact ⟨[], (List.append_nil _).symm, List.nil_sublist _⟩
  · exact ⟨[], (List.append_nil _).symm, List.nil_sublist _⟩

theorem takes_receive {r : Result} {rs : List Result} (hr : l.results = r :: rs) :
    ∃ received ps, Takes l ({ l with results := rs }.receive r).2 [] received ps := by
  cases r with
  | failed | allLoaded => exact ⟨_, _, takes_closed rfl rfl rfl rfl⟩
  | loaded i =>
    obtain ⟨new, hnew, hsub⟩ := placeParked_hands { l with results := rs } i
    have hb := background_placeParked { l with results := rs } i
    have hdrop :
        ({ l with results := rs }.placeParked i).2.placed.toList.drop l.placed.size = new := by
      rw [hnew, ← Array.length_toList]
      exact List.drop_left
    cases hp : ({ l with results := rs }.placeParked i).1 with
    | none =>
      have hresults : ({ l with results := rs }.placeParked i).2.results = rs :=
        congrArg Background.results hb
      rw [receive_placed hp]
      refine ⟨[.loaded i], new.map Placement.page, congrArg Background.reader hb, ?_, ?_, ?_, hsub⟩
      · rw [List.append_nil]
        exact congrArg Background.requests hb
      · rw [hresults]
        exact hr
      · rw [hresults, hr]
        exact (if_pos (Nat.lt_succ_self _)).trans (congrArg _ hdrop)
    | some cause =>
      rw [receive_unplaced hp]
      refine ⟨l.results, new.map Placement.page, congrArg Background.reader hb, ?_, ?_, ?_, ?_⟩
      · rw [List.append_nil]
        exact congrArg Background.requests hb
      · exact (List.append_nil _).symm
      · rw [hr]
        exact (if_pos (Nat.succ_pos _)).trans (congrArg _ hdrop)
      · rw [hr]
        exact hsub.trans ((List.nil_sublist _).cons_cons i)

/-- In a move the reader uses the queues, or somebody else. -/
theorem Move.dealings (h : Move E x y) : (∃ q ps rs, Exchange x.load y.load q ps rs) ∨
    ∃ new received ps, Takes x.load y.load new received ps := by
  cases h with
  | skip hr hq => exact .inl ⟨_, _, _, exchange_skip hr hq⟩
  | readerClaim hr hq => exact .inl ⟨_, _, _, exchange_claim hr hq⟩
  | echo hr hq => exact .inl ⟨_, _, _, exchange_echo hr hq⟩
  | quit _ hr =>
    refine .inl ⟨_, _, _, exchange_ended ?_ rfl rfl rfl⟩
    rintro he
    rcases hr with ⟨hr, -⟩ | ⟨r, hr⟩ <;> cases hr.symm.trans he
  | die hr => exact .inl ⟨_, _, _, exchange_ended (by simp [hr]) rfl rfl rfl⟩
  | readerRead hr =>
    refine .inl ⟨_, _, _, exchange_inside (by simp [hr]) rfl rfl (by simp [begins, hr]) ?_⟩
    rw [hr]
    exact .refl _
  | readerLand hr => exact .inl ⟨_, _, _, exchange_landRead hr _ _ _ _⟩
  | deliver hr => exact .inl ⟨_, _, _, exchange_deliver hr⟩
  | receive _ hr =>
    obtain ⟨received, ps, ht⟩ := takes_receive hr
    exact .inr ⟨_, received, ps, ht⟩
  | gone | interrupt => exact .inr ⟨_, _, _, takes_closed rfl rfl rfl rfl⟩
  | ask | askEnd => exact .inr ⟨_, _, _, takes_asked rfl rfl rfl⟩
  | takeOver => exact .inr ⟨_, _, _, takes_of_background (background_takeOver _ _)⟩
  | land => exact .inr ⟨_, _, _, takes_of_background (background_land _ _ _ _)⟩
  | _ => exact .inr ⟨[], _, _, takes_asked rfl (List.append_nil _).symm rfl⟩

/-! ### The order is kept -/

omit [Guest W] in
theorem Relayed.takes {new : List Request} {received : List Result} {ps : List Nat}
    (h : Relayed k l) (ht : Takes l l' new received ps) : Relayed (k.pass l l') l' := by
  obtain ⟨taken, htaken, hread⟩ := h.taken
  obtain ⟨before, hbefore, hhanded⟩ := h.received
  rw [ht.pass]
  refine ⟨⟨taken, ?_, hread⟩, ?_, ⟨before ++ received, ?_, ?_⟩, h.last, fun hm => ?_⟩
  · rw [ht.requests, htaken, List.append_assoc]
  · rw [ht.reader]
    exact h.sent
  · rw [List.append_assoc, ← ht.results]
    exact hbefore
  · rw [List.filterMap_append]
    exact hhanded.append ht.pages
  · exact ht.reader.trans (h.ended hm)

omit [Guest W] in
theorem Relayed.exchange {q : List Request} {ps : List Nat} {rs : List Result} (h : Relayed k l)
    (ht : Exchange l l' q ps rs) : Relayed (k.pass l l') l' := by
  obtain ⟨taken, htaken, hread⟩ := h.taken
  obtain ⟨received, hreceived, hhanded⟩ := h.received
  have hopen : .allLoaded ∉ k.sent := fun hm => ht.awake (h.ended hm)
  have hk : k.pass l l' = { k with read := k.read ++ ps, sent := k.sent ++ rs } := by
    have hle : l'.requests.length ≤ l.requests.length := by
      rw [ht.requests, List.length_append]
      exact Nat.le_add_left _ _
    have hge : ¬ l'.results.length < l.results.length := by
      rw [ht.results, List.length_append]
      exact Nat.not_lt_of_le (Nat.le_add_right _ _)
    rw [Traffic.pass, if_neg hge, List.drop_eq_nil_of_le hle, ht.begun, ht.results, List.drop_left,
      List.append_nil, List.append_nil]
  rw [hk]
  refine ⟨⟨taken ++ q, ?_, ?_⟩, ?_, ⟨received, ?_, hhanded⟩, ?_, fun hm => ?_⟩
  · rw [htaken, ht.requests, List.append_assoc]
  · rw [List.filterMap_append]
    exact hread.append ht.asked
  · rw [List.filterMap_append, List.append_assoc]
    refine (ht.passed.append_left _).trans ?_
    rw [← List.append_assoc]
    exact h.sent.append_right _
  · rw [hreceived, ht.results, List.append_assoc]
  · exact List.pairwise_append.2 ⟨h.last, ht.unfollowed, fun r hr _ _ he => hopen (he ▸ hr)⟩
  · exact ht.last ((List.mem_append.1 hm).resolve_left hopen)

structure Walked (k : Traffic) (l : Load W) : Prop where
  asked : Asked k.asked l
  relayed : Relayed k l

theorem Walked.move (h : Walked k x.load) (hm : Move E x y) :
    Walked (k.pass x.load y.load) y.load := by
  constructor
  · exact h.asked.move hm
  · rcases hm.dealings with ⟨q, ps, rs, ht⟩ | ⟨new, received, ps, ht⟩
    · exact h.relayed.exchange ht
    · exact h.relayed.takes ht

/-! ### Runs -/

/-- Moves, and what goes through the queues meanwhile. -/
inductive Conveys (E : Surroundings) (x : Session W) : Traffic → Session W → Prop
  | start : Conveys E x {} x
  | move {k : Traffic} {y z : Session W} (h : Conveys E x k y) (hm : Move E y z) :
      Conveys E x (k.pass y.load z.load) z

theorem Moves.conveys (h : Moves E x y) : ∃ k, Conveys E x k y := by
  induction h with
  | refl => exact ⟨{}, .start⟩
  | tail _ hm ih =>
    obtain ⟨k, hk⟩ := ih
    exact ⟨_, hk.move hm⟩

theorem Conveys.walked (h : Conveys E x k y) (hx : Walked {} x.load) : Walked k y.load := by
  induction h with
  | start => exact hx
  | move _ hm ih => exact ih.move hm

theorem Conveys.readerSteps {fs : Multiset Service} (h : Conveys E x k ⟨l, fs⟩) (n : Nat) :
    Conveys E x (k.readerSteps l n) ⟨l.readerSteps n, fs⟩ := by
  induction n generalizing k l with
  | zero => exact h
  | succ n ih =>
    unfold Traffic.readerSteps Load.readerSteps
    cases hr : l.readerStep? with
    | none => exact h
    | some l' => exact ih (h.move (readerStep?_move hr))

theorem Conveys.ask {fs : Multiset Service} {new : List Request} (h : Conveys E x k ⟨l, fs⟩)
    (hm : Move E ⟨l, fs⟩ ⟨l', fs⟩) (ht : Takes l l' new [] []) :
    Conveys E x { k with asked := k.asked ++ new } ⟨l', fs⟩ := by
  have hk := h.move hm
  rwa [ht.pass, List.append_nil] at hk

theorem Conveys.queueReads {fs : Multiset Service} {c : Cursor} (h : Conveys E x k ⟨l, fs⟩)
    (hc : l.cursor = some c) (n : Nat) : ∃ new, (l.queueReads c n).2.requests = l.requests ++ new ∧
      Conveys E x { k with asked := k.asked ++ new } ⟨(l.queueReads c n).2, fs⟩ := by
  have hnone : ∀ {k : Traffic} {m : Load W}, Conveys E x k ⟨m, fs⟩ →
      Conveys E x { k with asked := k.asked ++ [] } ⟨m, fs⟩ := fun h => by rwa [List.append_nil]
  induction n generalizing k l c with
  | zero => exact ⟨[], (List.append_nil _).symm, hnone h⟩
  | succ n ih =>
    obtain ⟨hle, hge, hpass, hempty⟩ := l.nextEmpty_spec c.next
    have hlook : Conveys E x { k with asked := k.asked ++ [] } _ :=
      h.ask (.look hc hle hge hpass) (takes_asked rfl (List.append_nil _).symm rfl)
    rw [List.append_nil] at hlook
    unfold Load.queueReads
    dsimp only
    split
    · rename_i hn
      split
      · rename_i hr
        simp only [Bool.and_eq_true, Bool.not_eq_true'] at hr
        refine ⟨[.finish], rfl, hlook.ask ?_ (takes_asked rfl rfl rfl)⟩
        exact .askEnd (c := { c with next := l.nextEmpty c.next }) rfl hn hr.1 hr.2
      · exact ⟨[], (List.append_nil _).symm, hnone hlook⟩
    · rename_i hn
      split
      · rename_i hr
        have hlt : l.nextEmpty c.next < l.index.pages.size := Nat.lt_of_le_of_ne hle hn
        obtain ⟨new, hnew, hk⟩ :=
          ih (hlook.ask (.ask rfl hlt (hempty hn) hr) (takes_asked rfl rfl rfl)) rfl
        refine ⟨.page (l.nextEmpty c.next) :: new, hnew.trans (List.append_assoc ..), ?_⟩
        rwa [List.append_assoc] at hk
      · exact ⟨[], (List.append_nil _).symm, hnone hlook⟩

theorem Conveys.idle {fs : Multiset Service} (h : Conveys E x k ⟨l, fs⟩) :
    Conveys E x (k.pass l l.idle.2) ⟨l.idle.2, fs⟩ := by
  cases hc : l.cursor with
  | none =>
    rw [Load.idle, hc]
    exact h.move (.ended hc)
  | some c =>
    cases hr : l.results with
    | cons r rs =>
      rw [idle_received hc hr]
      exact h.move (.receive hc hr)
    | nil =>
      cases he : l.reader with
      | ended =>
        rw [idle_gone hc hr he]
        exact h.move (.gone hc hr he)
      | _ =>
        obtain ⟨new, hnew, hk⟩ := h.queueReads hc l.capacity
        have hidle : l.idle = l.queueReads c l.capacity := by rw [Load.idle, hc, hr, he]
        have ht : Takes l (l.queueReads c l.capacity).2 new [] [] :=
          takes_asked (queueReads_keeps reader (fun _ _ _ => rfl) l c _) hnew
            (queueReads_keeps results (fun _ _ _ => rfl) l c _)
        rwa [hidle, ht.pass, List.append_nil]

/-- In this traffic nobody leaves the order of the pages. -/
structure InOrder (k : Traffic) (l : Load W) : Prop where
  /-- Every page is asked for once at most, and nothing after the word that there are no more. -/
  asked : ∃ pages : List Nat, pages.Pairwise (· < ·) ∧ (∀ i ∈ pages, i < l.index.pages.size) ∧
    (k.asked = pages.map .page ∨ k.asked = pages.map .page ++ [.finish])
  /-- While there are queues no page behind the cursor is forgotten. -/
  kept : ∀ c, l.cursor = some c → ∀ i < c.next, l.state i ≠ .empty ∨ .page i ∈ l.requests
  read : k.read.Pairwise (· < ·)
  /-- What is handed to the guest was received before. -/
  handed : k.handed.Pairwise (· < ·) ∧ ∀ i ∈ k.handed, .loaded i ∈ k.sent
  /-- That all is loaded is the last result. -/
  last : ∀ rs rs', k.sent = rs ++ .allLoaded :: rs' → rs' = []

omit [Guest W] in
theorem Walked.inOrder (h : Walked k l) : InOrder k l := by
  obtain ⟨taken, htaken, hread⟩ := h.relayed.taken
  obtain ⟨received, hreceived, hhanded⟩ := h.relayed.received
  have hpages := pages_ordered h.asked.ordered
  have hmem : ∀ i ∈ k.asked.filterMap Request.page?, .page i ∈ k.asked := by
    intro i hi
    obtain ⟨r, hr, hri⟩ := List.mem_filterMap.1 hi
    cases r with
    | page j => exact Option.some.inj hri ▸ hr
    | finish => cases hri
  have hread : k.read.Sublist (k.asked.filterMap Request.page?) := by
    rw [htaken, List.filterMap_append]
    exact hread.trans (List.sublist_append_left ..)
  have hsent : (k.sent.filterMap Result.page?).Sublist k.read :=
    (List.sublist_append_left ..).trans h.relayed.sent
  have hhanded : k.handed.Sublist (k.sent.filterMap Result.page?) := by
    rw [hreceived, List.filterMap_append]
    exact hhanded.trans (List.sublist_append_left ..)
  refine ⟨⟨_, hpages, fun i hi => h.asked.within i (hmem i hi), asked_cases h.asked.ordered⟩,
    fun c hc => (h.asked.follows c hc).kept, hpages.sublist hread,
    ⟨hpages.sublist (hhanded.trans (hsent.trans hread)), fun i hi => ?_⟩, fun rs rs' hk => ?_⟩
  · obtain ⟨r, hr, hri⟩ := List.mem_filterMap.1 (hhanded.subset hi)
    cases r with
    | loaded j => exact Option.some.inj hri ▸ hr
    | failed | allLoaded => cases hri
  · have hlast := h.relayed.last
    rw [hk, List.pairwise_append, List.pairwise_cons] at hlast
    exact List.eq_nil_iff_forall_not_mem.2 fun r hr => hlast.2.1.1 r hr rfl

end Load

namespace Loader

open Load

variable {W : Type} [Guest W] {l : Loader W} {E : Surroundings} {m : Load W} {x : Session W}
  {failure : Option LoadError}

theorem startsLazily_walked (hm : l.StartsLazily failure m) : Walked {} m := by
  obtain ⟨hfresh, -⟩ := hm.fresh
  obtain ⟨m₀, ho, hs⟩ := hm.startBackground
  have hcursor : ∀ c, m.cursor = some c → c = {} := by
    have hnone : m₀.cursor = none := by
      unfold opened? at ho
      split at ho
      · dsimp only at ho
        split at ho <;> cases ho
        rfl
      · cases ho
    obtain ⟨guest, ⟨-, rfl⟩ | ⟨reader, -, rfl⟩⟩ := startBackground_cases hs
    · exact fun c hc => nomatch hnone.symm.trans hc
    · exact fun c hc => (Option.some.inj hc).symm
  have hreader : m.reader.page? = none := by
    rcases hfresh.reader with hr | hr <;> rw [hr] <;> rfl
  refine ⟨⟨.nil, nofun, fun c hc => ?_⟩, ⟨⟨[], ?_, .refl _⟩, ?_, ⟨[], ?_, .refl _⟩, .nil, nofun⟩⟩
  · obtain rfl := hcursor c hc
    exact ⟨Nat.zero_le _, nofun, nofun, nofun, nofun⟩
  · rw [hfresh.requests]
    rfl
  · rw [hreader]
    exact .refl _
  · rw [hfresh.results]
    rfl

/--
Whatever happens during a lazy load, the idle callback asks for the pages in order and for each of
them once at most, then says once at most that there are no more, and forgets no page. In the same
order pages are read and handed to the guest, and that all is loaded is the last result.
-/
theorem pages_walked_in_order (hm : l.StartsLazily failure m) (hs : Moves E ⟨m, 0⟩ x) :
    (∃ k, Conveys E ⟨m, 0⟩ k x) ∧ ∀ k, Conveys E ⟨m, 0⟩ k x → InOrder k x.load :=
  ⟨hs.conveys, fun _ hk => (hk.walked (startsLazily_walked hm)).inOrder⟩

def sampleTraffic : Traffic := ⟨[.page 0, .finish], [0], [.loaded 0, .allLoaded], [0]⟩

theorem sample_conveys {E : Surroundings} :
    Conveys E ⟨sampleLoad, 0⟩ sampleTraffic ⟨sampleEnd, 0⟩ := by
  have h : Conveys E ⟨sampleLoad, 0⟩ _ ⟨sampleEnd, 0⟩ :=
    (Conveys.start.idle.readerSteps 6).idle.idle
  refine Eq.mp (congrArg (Conveys E _ · _) ?_) h
  decide +kernel

theorem pages_walked_in_order_sample :
    sample.StartsLazily none sampleLoad ∧ Steps .quiet ⟨sampleLoad, 0⟩ ⟨sampleEnd, 0⟩ ∧
      Conveys .quiet ⟨sampleLoad, 0⟩ sampleTraffic ⟨sampleEnd, 0⟩ ∧
      InOrder sampleTraffic sampleEnd :=
  ⟨sample_startsLazily, sample_steps, sample_conveys,
    (pages_walked_in_order sample_startsLazily (sample_steps (E := .quiet)).moves).2 _
      sample_conveys⟩

end Loader
end RamRestore
