import RamRestore.Proofs.Load.Traffic

/-! # How far the reader gets ahead

The reader claims pages before the idle callback can place them, as far as the result queue has room
for what it read. When the queues are closed, the results in them are lost and their pages are left
as they are. The reader then gets through with one page at most, since nobody takes its result.
-/

namespace RamRestore

def Reader.hands : Reader → Nat
  | .ended => 0
  | _ => 1

theorem Reader.hands_eq_one {r : Reader} (h : r ≠ .ended) : r.hands = 1 := by
  cases r with
  | ended => exact absurd rfl h
  | _ => rfl

theorem Reader.length_page?_le (r : Reader) : r.page?.toList.length ≤ r.hands := by
  cases r with
  | offering r =>
    cases r with
    | loaded => exact Nat.le_refl 1
    | failed | allLoaded => exact Nat.zero_le 1
  | reading => exact Nat.le_refl 1
  | waiting => exact Nat.zero_le 1
  | ended => exact Nat.le_refl 0

theorem Reader.hands_le_one (r : Reader) : r.hands ≤ 1 := by
  cases r with
  | ended => exact Nat.zero_le 1
  | _ => exact Nat.le_refl 1

theorem Reader.page?_of_offered {r : Reader} {i : Nat} (h : .loaded i ∈ r.offered) :
    r.page? = some i := by
  cases r with
  | offering r =>
    obtain rfl := List.mem_singleton.1 h
    rfl
  | _ => cases h

namespace Load

variable {W : Type}

structure Within (l : Load W) : Prop where
  requests : l.requests.length ≤ l.capacity
  results : l.results.length ≤ l.capacity

/-- Every page that was read has its result still coming, or was left behind when the queues were
closed. No more pages are left behind than the reader could get ahead. -/
structure Ahead (left : List Nat) (l : Load W) : Prop where
  told : ∀ i, l.state i = .read → .loaded i ∈ l.pending ∨ l.cursor = none ∧ i ∈ left
  room : left.length + l.results.length + l.reader.hands ≤ l.capacity + 1
  whole : l.cursor ≠ none → l.reader ≠ .ended → left = []

section

variable {l m : Load W} {left : List Nat} {i : Nat}

theorem Within.of_background (h : Within l) (hb : m.background = l.background) : Within m := by
  have hcapacity : m.capacity = l.capacity := congrArg Background.capacity hb
  constructor
  · rw [hcapacity, show m.requests = l.requests from congrArg Background.requests hb]
    exact h.requests
  · rw [hcapacity, show m.results = l.results from congrArg Background.results hb]
    exact h.results

theorem Within.interrupt (h : Within l) : Within l.interrupt := ⟨h.requests, Nat.zero_le _⟩

theorem length_requests_lt (h : l.canRequest = true) : l.requests.length < l.capacity := by
  simp only [canRequest, Bool.and_eq_true, decide_eq_true_eq] at h
  exact h.2

theorem Ahead.stay (h : Ahead left l) (hs : ∀ i, m.state i = .read → l.state i = .read)
    (hcapacity : m.capacity = l.capacity) (hc : m.cursor = none ↔ l.cursor = none)
    (hresults : m.results = l.results) (ho : l.reader.offered ⊆ m.reader.offered)
    (he : m.reader = .ended ↔ l.reader = .ended) : Ahead left m := by
  have hhands : m.reader.hands = l.reader.hands := by
    by_cases hended : l.reader = .ended
    · rw [he.2 hended, hended]
    · rw [Reader.hands_eq_one hended, Reader.hands_eq_one (mt he.1 hended)]
  constructor
  · intro i hi
    rw [pending, hresults, hc]
    apply (h.told i (hs i hi)).imp_left
    intro hm
    exact List.mem_append.2 ((List.mem_append.1 hm).imp_right fun hr => ho hr)
  · rw [hresults, hhands, hcapacity]
    exact h.room
  · intro hcursor hreader
    exact h.whole (mt hc.2 hcursor) (mt he.2 hreader)

theorem Ahead.of_background (h : Ahead left l) (hb : m.background = l.background)
    (hs : ∀ i, m.state i = .read → l.state i = .read) : Ahead left m := by
  have hreader : m.reader = l.reader := congrArg Background.reader hb
  have hcursor : m.cursor = l.cursor := congrArg Background.cursor hb
  exact h.stay hs (congrArg Background.capacity hb) (hcursor ▸ .rfl)
    (congrArg Background.results hb) (hreader ▸ List.Subset.refl _) (hreader ▸ .rfl)

/-- A reader that ends leaves the page behind that it is at. -/
theorem Ahead.end (h : Ahead left l) (hs : ∀ i, m.state i = .read → l.state i = .read)
    (hb : m.background = { l with reader := .ended }.background)
    (hq : l.cursor = none ∨ l.reader.offered = []) : Ahead (l.reader.page?.toList ++ left) m := by
  have hc : m.cursor = l.cursor := congrArg Background.cursor hb
  have hresults : m.results = l.results := congrArg Background.results hb
  have hreader : m.reader = .ended := congrArg Background.reader hb
  have hcapacity : m.capacity = l.capacity := congrArg Background.capacity hb
  constructor
  · intro i hi
    rw [pending, hresults, hc]
    rcases h.told i (hs i hi) with hm | ⟨hn, hm⟩
    · rcases List.mem_append.1 hm with hm | hm
      · exact .inl (List.mem_append_left _ hm)
      · refine .inr ⟨hq.resolve_right (List.ne_nil_of_mem hm), List.mem_append_left _ ?_⟩
        rw [Reader.page?_of_offered hm]
        exact List.mem_singleton_self i
    · exact .inr ⟨hn, List.mem_append_right _ hm⟩
  · have hroom := h.room
    have hpage := l.reader.length_page?_le
    rw [hresults, hreader, hcapacity, List.length_append]
    simp only [Reader.hands]
    omega
  · exact fun _ he => absurd hreader he

/-- With the queues the results in them are gone, and their pages are left behind. -/
theorem Ahead.close (h : Ahead left l) (hs : ∀ i, m.state i = .read → l.state i = .read)
    (hb : m.background = l.interrupt.background) :
    Ahead (l.results.filterMap Result.page? ++ left) m := by
  have hc : m.cursor = none := congrArg Background.cursor hb
  have hresults : m.results = [] := congrArg Background.results hb
  have hreader : m.reader = l.reader := congrArg Background.reader hb
  have hcapacity : m.capacity = l.capacity := congrArg Background.capacity hb
  constructor
  · intro i hi
    rw [pending, hresults, hreader]
    rcases h.told i (hs i hi) with hm | ⟨-, hm⟩
    · rcases List.mem_append.1 hm with hm | hm
      · exact .inr ⟨hc, List.mem_append_left _ (List.mem_filterMap.2 ⟨_, hm, rfl⟩)⟩
      · exact .inl hm
    · exact .inr ⟨hc, List.mem_append_right _ hm⟩
  · have hroom := h.room
    have hpages := List.length_filterMap_le Result.page? l.results
    rw [hresults, hreader, hcapacity, List.length_append, List.length_nil]
    omega
  · exact fun hn => absurd hc hn

theorem Ahead.pop {r : Result} {rs : List Result} (h : Ahead left l) (hr : l.results = r :: rs)
    (hs : ∀ i, m.state i = .read → l.state i = .read ∧ r ≠ .loaded i)
    (hb : m.background = { l with results := rs }.background) : Ahead left m := by
  have hcursor : m.cursor = l.cursor := congrArg Background.cursor hb
  have hresults : m.results = rs := congrArg Background.results hb
  have hreader : m.reader = l.reader := congrArg Background.reader hb
  have hcapacity : m.capacity = l.capacity := congrArg Background.capacity hb
  constructor
  · intro i hi
    obtain ⟨hread, hne⟩ := hs i hi
    rw [pending, hresults, hreader, hcursor]
    apply (h.told i hread).imp_left
    intro hm
    rw [pending, hr, List.cons_append] at hm
    exact (List.mem_cons.1 hm).resolve_left hne.symm
  · have hroom := h.room
    rw [hr, List.length_cons] at hroom
    rw [hresults, hreader, hcapacity]
    omega
  · rw [hcursor, hreader]
    exact h.whole

theorem Ahead.deliver {r : Result} (h : Ahead left l) (hr : l.reader = .offering r)
    (hc : l.cursor ≠ none) (hroom : l.results.length < l.capacity) :
    Ahead left { l with
      results := l.results ++ [r], reader := if r = .allLoaded then .ended else .waiting } := by
  have hnil : left = [] := h.whole hc (by rw [hr]; nofun)
  have hoffered : (if r = .allLoaded then Reader.ended else .waiting).offered = [] := by
    split <;> rfl
  have hhands : (if r = .allLoaded then Reader.ended else .waiting).hands ≤ 1 := by
    split <;> decide
  constructor
  · intro i hi
    rw [pending, hoffered, List.append_nil]
    have hm := h.told i hi
    rwa [pending, hr] at hm
  · rw [hnil]
    simp only [List.length_append, List.length_nil, List.length_singleton]
    omega
  · exact fun _ _ => hnil

theorem Ahead.landRead {t : Transfer} (h : Ahead left l) (hr : l.reader = .reading i t)
    (got : Bytes) (stop : Transfer.Stop) (cs : List ReadCall) (s : Source) :
    Ahead left ((l.note cs s).landRead i got stop) := by
  have hhands : l.reader.hands = 1 := by rw [hr]; rfl
  have hroom := h.room
  have hwhole : l.cursor ≠ none → left = [] := fun hc => h.whole hc (by rw [hr]; nofun)
  have hqueued : ∀ j, l.state j = .read → .loaded j ∈ l.results ∨ l.cursor = none ∧ j ∈ left := by
    intro j hj
    have hm := h.told j hj
    rwa [pending, hr, Reader.offered_reading, List.append_nil] at hm
  unfold Load.landRead
  split
  · rename_i c _
    constructor
    · intro j hj
      change ((l.note cs s).park i c).state j = .read at hj
      rw [state_park] at hj
      split at hj
      · rename_i hij
        exact .inl (List.mem_append_right _ (hij ▸ List.mem_singleton_self _))
      · exact (hqueued j hj).imp_left (List.mem_append_left _)
    · rw [hhands] at hroom
      exact hroom
    · exact fun hc _ => hwhole hc
  · rename_i cause _
    constructor
    · intro j hj
      change ((l.note cs s).setState i .error).state j = .read at hj
      rw [state_setState] at hj
      split at hj
      · cases hj
      · exact (hqueued j hj).imp_left (List.mem_append_left _)
    · rw [hhands] at hroom
      exact hroom
    · exact fun hc _ => hwhole hc

end

variable [Guest W] {E : Surroundings} {x y : Session W} {l : Load W} {i j : Nat}
  {left : List Nat}

theorem Within.move (h : Within x.load) (hm : Move E x y) : Within y.load := by
  obtain ⟨hrequests, hresults⟩ := h
  cases hm with
  | takeOver => exact Within.of_background ⟨hrequests, hresults⟩ (background_takeOver _ _)
  | land => exact Within.of_background ⟨hrequests, hresults⟩ (background_land _ _ _ _)
  | skip _ hq | readerClaim _ hq | echo _ hq =>
    rw [hq] at hrequests
    exact ⟨Nat.le_of_succ_le hrequests, hresults⟩
  | readerLand =>
    unfold landRead
    split <;> exact ⟨hrequests, hresults⟩
  | deliver _ _ hroom =>
    refine ⟨hrequests, ?_⟩
    rw [List.length_append]
    exact hroom
  | @receive l _ _ r rs _ hr =>
    rw [hr] at hresults
    have hw : Within { l with results := rs } := ⟨hrequests, Nat.le_of_succ_le hresults⟩
    rcases background_receive { l with results := rs } r with hb | hb
    · exact hw.of_background hb
    · exact hw.interrupt.of_background hb
  | ask _ _ _ hr | askEnd _ _ _ hr =>
    refine ⟨?_, hresults⟩
    have hlt := length_requests_lt hr
    rw [request, List.length_append]
    exact hlt
  | gone | interrupt => exact Within.interrupt ⟨hrequests, hresults⟩
  | _ => exact ⟨hrequests, hresults⟩

theorem state_placeParked_read (h : (l.placeParked i).2.state j = .read) :
    l.state j = .read ∧ i ≠ j := by
  unfold placeParked at h
  split at h
  · split at h
    · rw [state_fill] at h
      split at h
      · split at h <;> cases h
      · exact ⟨h, ‹_›⟩
    · rw [state_setState] at h
      split at h
      · cases h
      · exact ⟨h, ‹_›⟩
  · rename_i hs
    refine ⟨h, ?_⟩
    rintro rfl
    cases hs.symm.trans h
  · rename_i hs _
    refine ⟨h, ?_⟩
    rintro rfl
    exact hs h

theorem state_land_read {got : Bytes} {stop : Transfer.Stop}
    (h : (l.land i got stop).state j = .read) : l.state j = .read := by
  unfold land at h
  split at h
  · change (l.setState i .error).state j = .read at h
    rw [state_setState] at h
    split at h
    · cases h
    · exact h
  · rename_i c _
    rw [(samePages_recordAny _ _).state, state_fill] at h
    split at h
    · split at h <;> cases h
    · exact h

omit [Guest W] in
theorem state_claim_read (l : Load W) (j : Nat) (h : (l.claim i).state j = .read) :
    l.state j = .read := by
  rw [state_claim] at h
  split at h
  · cases h
  · exact h

omit [Guest W] in
theorem reader_landRead_ne_ended (l : Load W) (i : Nat) (got : Bytes) (stop : Transfer.Stop) :
    (l.landRead i got stop).reader ≠ .ended := by
  unfold landRead
  split <;> nofun

theorem state_receive_read {r : Result} (h : (l.receive r).2.state j = .read) :
    l.state j = .read ∧ r ≠ .loaded j := by
  cases r with
  | loaded i =>
    rw [(samePages_receive l i).state] at h
    obtain ⟨hs, hij⟩ := state_placeParked_read h
    exact ⟨hs, fun he => hij (Result.loaded.inj he)⟩
  | failed | allLoaded => exact ⟨h, nofun⟩

/-- A move leaves the pages behind that it gives up. -/
theorem Ahead.move (h : Ahead left x.load) (hm : Move E x y) :
    ∃ left', left ⊆ left' ∧ Ahead left' y.load ∧
      ∀ i t, x.load.reader = .reading i t → y.load.reader = .ended → i ∈ left' := by
  -- unless the reader ends in the middle of a page, there is nothing to be said about it
  have hkeep : ∀ {left'}, left ⊆ left' → Ahead left' y.load →
      (y.load.reader = .ended → ∀ i t, x.load.reader ≠ .reading i t) →
      ∃ left', left ⊆ left' ∧ Ahead left' y.load ∧
        ∀ i t, x.load.reader = .reading i t → y.load.reader = .ended → i ∈ left' :=
    fun hsub hy hn => ⟨_, hsub, hy, fun i t hr he => absurd hr (hn he i t)⟩
  have hended : y.load.reader = x.load.reader → y.load.reader = .ended →
      ∀ i t, x.load.reader ≠ .reading i t := by
    intro hr he i t hi
    cases he.symm.trans (hr.trans hi)
  have hrefl := List.Subset.refl left
  have hclose := List.subset_append_right (x.load.results.filterMap Result.page?) left
  cases hm with
  | @takeOver l fs a i =>
    have hb := background_takeOver l i
    refine hkeep hrefl (h.of_background hb fun j hj => ?_) (hended (congrArg Background.reader hb))
    rw [takeOver, (samePages_recordAny _ _).state] at hj
    exact (state_placeParked_read hj).1
  | @claim l fs a i hl he =>
    exact hkeep hrefl (h.of_background rfl (state_claim_read l)) (hended rfl)
  | @land l fs i t got stop cs s he =>
    have hb := background_land (l.note cs s) i got stop
    exact hkeep hrefl (h.of_background hb fun _ => state_land_read)
      (hended (congrArg Background.reader hb))
  | @readerClaim l fs i q hr hq he =>
    exact hkeep hrefl (h.stay (state_claim_read l) rfl .rfl rfl (by simp [hr]) (by simp [hr])) nofun
  | echo hr | readerRead hr =>
    exact hkeep hrefl (h.stay (fun _ => id) rfl .rfl rfl (by simp [hr]) (by simp [hr])) nofun
  | @readerLand l fs i t got stop cs s hr he =>
    exact hkeep hrefl (h.landRead hr got stop cs s)
      fun hended => absurd hended (reader_landRead_ne_ended _ i got stop)
  | deliver hr hc hroom =>
    exact hkeep hrefl (h.deliver hr hc hroom) fun _ i t hi => by cases hr.symm.trans hi
  | @die l fs i t hr =>
    refine ⟨_, List.subset_append_right .., h.end (fun _ => id) rfl (.inr (by simp [hr])), ?_⟩
    rintro j u hj -
    apply List.mem_append_left
    rw [hj]
    exact List.mem_singleton_self j
  | @quit l fs hc hr =>
    refine ⟨_, List.subset_append_right .., h.end (fun _ => id) rfl (.inl hc), ?_⟩
    rintro j u hj -
    rcases hr with ⟨hr, -⟩ | ⟨r, hr⟩ <;> cases hr.symm.trans hj
  | @receive l fs c r rs hc hr =>
    have hs : ∀ j, ({ l with results := rs }.receive r).2.state j = .read →
        l.state j = .read ∧ r ≠ .loaded j := fun _ => state_receive_read
    rcases background_receive { l with results := rs } r with hb | hb
    · exact hkeep hrefl (h.pop hr hs hb) (hended (congrArg Background.reader hb))
    · exact hkeep hclose (h.close (fun j hj => (hs j hj).1) hb)
        (hended (congrArg Background.reader hb))
  | gone | interrupt => exact hkeep hclose (h.close (fun _ => id) rfl) (hended rfl)
  | look hc | ask hc | askEnd hc =>
    exact hkeep hrefl (h.stay (fun _ => id) rfl (by simp [hc, request]) rfl (fun _ => id) .rfl)
      (hended rfl)
  | _ => exact hkeep hrefl ⟨h.told, h.room, h.whole⟩ (hended rfl)

theorem Move.capacity (hm : Move E x y) : y.load.capacity = x.load.capacity := by
  cases hm with
  | takeOver => exact congrArg Background.capacity (background_takeOver _ _)
  | land => exact congrArg Background.capacity (background_land _ _ _ _)
  | readerLand =>
    unfold landRead
    split <;> rfl
  | @receive l _ _ r rs =>
    rcases background_receive { l with results := rs } r with hb | hb <;>
      exact congrArg Background.capacity hb
  | _ => rfl

/-- What was read ahead is known, and pages that are being read have somebody at them. -/
structure ReadAhead (left : List Nat) (x : Session W) : Prop where
  within : Within x.load
  ahead : Ahead left x.load
  attended : Attended (· ∈ left) x

theorem ReadAhead.move (h : ReadAhead left x) (hm : Move E x y) : ∃ left', ReadAhead left' y := by
  obtain ⟨left', hsub, hahead, hdied⟩ := h.ahead.move hm
  refine ⟨left', h.within.move hm, hahead, ?_⟩
  apply (h.attended.mono fun _ hi => hsub hi).move hm
  exact fun i t hr hk => hdied i t hr hk.reader

theorem Moves.readAhead (hs : Moves E x y) (h : ReadAhead left x) :
    y.load.capacity = x.load.capacity ∧ ∃ left', ReadAhead left' y :=
  hs.keep (P := fun z => z.load.capacity = x.load.capacity ∧ ∃ left', ReadAhead left' z)
    (fun _ _ hm ⟨hc, _, hz⟩ => ⟨hm.capacity.trans hc, hz.move hm⟩) ⟨rfl, left, h⟩

omit [Guest W] in
theorem Fresh.within (h : l.Fresh) : Within l := by
  constructor
  · rw [h.requests]
    exact Nat.zero_le _
  · rw [h.results]
    exact Nat.zero_le _

omit [Guest W] in
theorem Fresh.ahead (h : l.Fresh) : Ahead [] l := by
  constructor
  · intro i hi
    rcases h.empty_or_filled i with hs | hs <;> cases hs.symm.trans hi
  · have hhands := l.reader.hands_le_one
    rw [h.results, List.length_nil, List.length_nil]
    omega
  · exact fun _ _ => rfl

omit [Guest W] in
theorem Fresh.readAhead (h : l.Fresh) : ReadAhead [] ⟨l, 0⟩ :=
  ⟨h.within, h.ahead, h.attended.mono fun _ => False.elim⟩

/-- The pages that are being read, or whose contents wait to be placed. -/
def busy (l : Load W) : List Nat :=
  (List.range l.index.pages.size).filter fun i => l.state i = .reading ∨ l.state i = .read

omit [Guest W] in
/-- Each page that is being read or was read was left behind, has its result in the queue, is in the
reader's hands or is being read by a fault. -/
theorem ReadAhead.length_busy_le (h : ReadAhead left x) :
    (busy x.load).length ≤ x.load.capacity + 1 + x.faults.card := by
  have hnodup : (↑(busy x.load) : Multiset Nat).Nodup :=
    Multiset.coe_nodup.2 (List.nodup_range.filter _)
  have hsub : (↑(busy x.load) : Multiset Nat) ⊆
      ↑(left ++ x.load.results.filterMap Result.page? ++ x.load.reader.page?.toList) +
        (x.faults.filterMap Service.transfer?).map Prod.fst := by
    intro i hi
    obtain ⟨-, hi⟩ := List.mem_filter.1 (Multiset.mem_coe.1 hi)
    rw [Multiset.mem_add, Multiset.mem_coe, List.mem_append, List.mem_append]
    rcases of_decide_eq_true hi with hi | hi
    · rcases h.attended.reading i hi with ⟨t, ht⟩ | hleft
      · rcases mem_transfers.1 ht with hr | hf
        · exact .inl (.inr (by rw [hr]; exact List.mem_singleton_self i))
        · exact .inr (Multiset.mem_map.2 ⟨(i, t), (Multiset.mem_filterMap _ _).2 ⟨_, hf, rfl⟩, rfl⟩)
      · exact .inl (.inl (.inl hleft))
    · rcases h.ahead.told i hi with hm | ⟨-, hleft⟩
      · rcases List.mem_append.1 hm with hm | hm
        · exact .inl (.inl (.inr (List.mem_filterMap.2 ⟨_, hm, rfl⟩)))
        · exact .inl (.inr (by rw [Reader.page?_of_offered hm]; exact List.mem_singleton_self i))
      · exact .inl (.inl (.inl hleft))
  have hcard := Multiset.card_le_card ((Multiset.le_iff_subset hnodup).2 hsub)
  have hroom := h.ahead.room
  have hresults := List.length_filterMap_le Result.page? x.load.results
  have hreader := x.load.reader.length_page?_le
  have hfaults : (x.faults.filterMap Service.transfer?).card ≤ x.faults.card :=
    Quot.inductionOn x.faults (List.length_filterMap_le Service.transfer?)
  simp only [Multiset.coe_card, Multiset.card_add, Multiset.card_map, List.length_append] at hcard
  omega

/-! ### Results that are to come -/

theorem count_loaded (rs : List Result) (i : Nat) :
    rs.count (.loaded i) = (rs.filterMap Result.page?).count i := by
  induction rs with
  | nil => rfl
  | cons r rs ih =>
    cases r with
    | loaded j =>
      rw [List.filterMap_cons_some (rfl : Result.page? (.loaded j) = some j), List.count_cons,
        List.count_cons, ih]
      simp
    | failed | allLoaded =>
      rw [List.filterMap_cons_none rfl, List.count_cons_of_ne (by nofun), ih]

omit [Guest W] in
/-- Pages are read one after the other, so no page has two results on their way. -/
theorem Walked.count_pending_le {k : Traffic} (h : Walked k l) (i : Nat) :
    l.pending.count (.loaded i) ≤ 1 := by
  obtain ⟨received, hreceived, -⟩ := h.relayed.received
  have hread : k.read.Nodup := h.inOrder.read.imp fun hlt => Nat.ne_of_lt hlt
  have hoffered : (l.reader.offered.filterMap Result.page?).Sublist l.reader.page?.toList := by
    cases l.reader with
    | offering r => cases r <;> exact .refl _
    | _ => exact List.nil_sublist _
  have hsub : (l.pending.filterMap Result.page?).Sublist k.read := by
    refine List.Sublist.trans ?_ h.relayed.sent
    rw [pending, hreceived, List.filterMap_append, List.filterMap_append, List.append_assoc]
    exact ((List.Sublist.refl _).append hoffered).trans (List.sublist_append_right ..)
  rw [count_loaded]
  exact List.nodup_iff_count_le_one.1 (hread.sublist hsub) i

end Load

namespace Loader

open Load

variable {W : Type} [Guest W] {l : Loader W} {E : Surroundings} {m : Load W} {x : Session W}
  {failure : Option LoadError}

/--
Whatever happens during a lazy load, neither queue holds more entries than it has room for, and no
more pages than that and one are being read or wait to be placed, but for those that faults on their
way are reading. While there are queues, each page that waits to be placed has one result still
coming.
-/
theorem read_ahead_bounded (hm : l.StartsLazily failure m) (hs : Moves E ⟨m, 0⟩ x) :
    x.load.requests.length ≤ max 1 l.config.queueCapacity ∧
    x.load.results.length ≤ max 1 l.config.queueCapacity ∧
    (busy x.load).length ≤ max 1 l.config.queueCapacity + 1 + x.faults.card ∧
    (x.load.cursor ≠ none →
      ∀ i, x.load.state i = .read → x.load.pending.count (.loaded i) = 1) := by
  obtain ⟨hfresh, -⟩ := hm.fresh
  obtain ⟨hcapacity, left, h⟩ := hs.readAhead hfresh.readAhead
  have hc : x.load.capacity = max 1 l.config.queueCapacity :=
    hcapacity.trans (capacity_of_startsLazily hm)
  rw [← hc]
  constructor
  · exact h.within.requests
  constructor
  · exact h.within.results
  constructor
  · exact h.length_busy_le
  · intro hopen i hi
    obtain ⟨k, hk⟩ := hs.conveys
    have hle := (hk.walked (startsLazily_walked hm)).count_pending_le i
    obtain hin | ⟨hnone, -⟩ := h.ahead.told i hi
    · exact Nat.le_antisymm hle (List.count_pos_iff.2 hin)
    · exact absurd hnone hopen

def pairSample : Loader PlainWatch :=
  { twins with
    config := { queueCapacity := 1 }
    blocks := [⟨"a", 0x1000000000, 1, 1⟩, ⟨"b", 0x1000000001, 1, 1⟩] }

def pairLoad : Load PlainWatch := pairSample.start.2.load?.get (by decide +kernel)

/-- Both pages are read; one result is in the queue, the other one in the reader's hands. -/
def pairAhead : Load PlainWatch := (pairLoad.idle.2.readerSteps 1).idle.2.readerSteps 9

theorem pairSample_startsLazily : pairSample.StartsLazily none pairLoad where
  isLazy := ⟨pairSample.opened?.get (by decide +kernel), (Option.some_get _).symm,
    by decide +kernel⟩
  start := by decide +kernel
  load := (Option.some_get _).symm

theorem pairSample_steps {E : Surroundings} : Steps E ⟨pairLoad, 0⟩ ⟨pairAhead, 0⟩ :=
  .head .idle ((steps_readerSteps _ 0 1).trans (.head .idle (steps_readerSteps _ 0 9)))

theorem read_ahead_bounded_sample :
    (busy pairAhead).length = max 1 pairSample.config.queueCapacity + 1 ∧
      (busy pairAhead).length ≤ max 1 pairSample.config.queueCapacity + 1 + 0 ∧
      pairAhead.results = [.loaded 0] ∧ pairAhead.pending.count (.loaded 1) = 1 := by
  obtain ⟨-, -, hbusy, hcount⟩ :=
    read_ahead_bounded pairSample_startsLazily (pairSample_steps (E := .quiet)).moves
  exact ⟨by decide +kernel, hbusy, by decide +kernel,
    hcount (by decide +kernel) 1 (by decide +kernel)⟩

end Loader
end RamRestore
