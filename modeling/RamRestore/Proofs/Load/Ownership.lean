import RamRestore.Proofs.Index.Geometry
import RamRestore.Proofs.Load.PageStep

/-! # Who has which page

Every transfer on its way has a page of its own, which is being read and whose record says
that it has to be. Requests and faults only ever name pages of the index.
-/

namespace RamRestore.Load

variable {W : Type}

/-- What holds at all times between the state of a load, its requests and its transfers. -/
structure Orderly (x : Session W) : Prop where
  wellFormed : x.load.index.WellFormed
  requests : ∀ i, .page i ∈ x.load.requests → i < x.load.index.pages.size
  /-- Nobody touches what is no page. -/
  beyond : ∀ i, x.load.index.pages.size ≤ i → x.load.state i = .empty
  /-- Pages that are all zero are filled from the start. -/
  zero : ∀ i < x.load.index.pages.size, (x.load.index.page i).isZero → x.load.state i = .filled
  reading : ∀ p ∈ x.transfers, x.load.state p.1 = .reading
  nodup : (x.transfers.map Prod.fst).Nodup

section

variable {x y : Session W} {i : Nat}

theorem Orderly.stored_of_state (h : Orderly x) (he : x.load.state i ≠ .empty)
    (hf : x.load.state i ≠ .filled) : i ∈ x.load.index.stored := by
  rw [Index.mem_stored]
  have hlt : i < x.load.index.pages.size := Nat.lt_of_not_le fun hle => he (h.beyond i hle)
  refine ⟨hlt, ?_⟩
  cases hz : (x.load.index.page i).isZero with
  | false => rfl
  | true => exact absurd (h.zero i hlt hz) hf

theorem Orderly.stored_of_empty (h : Orderly x) (hi : i < x.load.index.pages.size)
    (he : x.load.state i = .empty) : i ∈ x.load.index.stored := by
  rw [Index.mem_stored]
  refine ⟨hi, ?_⟩
  cases hz : (x.load.index.page i).isZero with
  | false => rfl
  | true => simp [h.zero i hi hz] at he

theorem Orderly.stored_of_claim (h : Orderly x)
    (hl : (∃ a, x.load.index.locate a = some i) ∨ .page i ∈ x.load.requests)
    (he : x.load.state i = .empty) : i ∈ x.load.index.stored := by
  refine h.stored_of_empty ?_ he
  rcases hl with ⟨a, hl⟩ | hl
  · exact Index.locate_lt h.wellFormed hl
  · exact h.requests i hl

/-- The page of a transfer is nobody else's. -/
theorem Orderly.not_mem_transfers (h : Orderly x) {t : Transfer} {ts : Multiset (Nat × Transfer)}
    (hx : x.transfers = (i, t) ::ₘ ts) : ∀ p ∈ ts, p.1 ≠ i := by
  have hn := h.nodup
  simp only [hx, Multiset.map_cons, Multiset.nodup_cons] at hn
  intro p hp he
  exact hn.1 (Multiset.mem_map.2 ⟨p, hp, he⟩)

theorem Orderly.update (h : Orderly x) (hw : y.load.index = x.load.index)
    (hq : ∀ i, .page i ∈ y.load.requests → i < x.load.index.pages.size)
    (hi : i ∈ x.load.index.stored) (hs : ∀ j, i ≠ j → y.load.state j = x.load.state j)
    (ht : ∀ p ∈ y.transfers, y.load.state p.1 = .reading)
    (hn : (y.transfers.map Prod.fst).Nodup) : Orderly y := by
  obtain ⟨hlt, hz⟩ := Index.mem_stored.1 hi
  constructor
  · rw [hw]
    exact h.wellFormed
  · rw [hw]
    exact hq
  · intro j hj
    rw [hw] at hj
    rw [hs j (by omega)]
    exact h.beyond j hj
  · intro j hj hzj
    rw [hw] at hj hzj
    have hne : i ≠ j := by
      rintro rfl
      simp [hz] at hzj
    rw [hs j hne]
    exact h.zero j hj hzj
  · exact ht
  · exact hn

theorem Orderly.ended (h : Orderly x) (hw : y.load.index = x.load.index)
    (hq : ∀ i, .page i ∈ y.load.requests → i < x.load.index.pages.size) {t : Transfer}
    (hx : x.transfers = (i, t) ::ₘ y.transfers)
    (hs : ∀ j, i ≠ j → y.load.state j = x.load.state j) : Orderly y := by
  have hr : x.load.state i = .reading := h.reading (i, t) (by simp [hx])
  have hi : i ∈ x.load.index.stored := h.stored_of_state (by simp [hr]) (by simp [hr])
  refine h.update hw hq hi hs (fun p hp => ?_) ?_
  · rw [hs p.1 (h.not_mem_transfers hx p hp).symm]
    exact h.reading p (by simp [hx, hp])
  · have hn := h.nodup
    simp only [hx, Multiset.map_cons, Multiset.nodup_cons] at hn
    exact hn.2

theorem Orderly.settled (h : Orderly x) (hw : y.load.index = x.load.index)
    (hq : ∀ i, .page i ∈ y.load.requests → i < x.load.index.pages.size)
    (hr : x.load.state i = .read) (ht : y.transfers = x.transfers)
    (hs : ∀ j, i ≠ j → y.load.state j = x.load.state j) : Orderly y := by
  have hi : i ∈ x.load.index.stored := h.stored_of_state (by simp [hr]) (by simp [hr])
  refine h.update hw hq hi hs (fun p hp => ?_) (ht ▸ h.nodup)
  have hp' := h.reading p (ht ▸ hp)
  have hne : i ≠ p.1 := by
    rintro rfl
    simp [hr] at hp'
  rw [hs p.1 hne]
  exact hp'

end

variable [Guest W] {E : Surroundings} {x y : Session W}

theorem Move.mem_requests (h : Move E x y) {i : Nat} (hi : .page i ∈ y.load.requests) :
    .page i ∈ x.load.requests ∨ i < x.load.index.pages.size := by
  cases h with
  | @takeOver l _ _ j =>
    have hb : (l.takeOver j).requests = l.requests :=
      congrArg Background.requests (background_takeOver l j)
    exact .inl (by rwa [hb] at hi)
  | @land l _ j t got stop cs s =>
    have hb : ((l.note cs s).land j got stop).requests = l.requests :=
      congrArg Background.requests (background_land (l.note cs s) j got stop)
    exact .inl (by rwa [hb] at hi)
  | skip hr hq => exact .inl (by simp only [hq]; exact .tail _ hi)
  | readerClaim hr hq => exact .inl (by simp only [hq]; exact .tail _ hi)
  | echo hr hq => exact .inl (by simp only [hq]; exact .tail _ hi)
  | readerLand =>
    unfold landRead at hi
    split at hi <;> exact .inl hi
  | receive => exact .inl (by rwa [requests_receive] at hi)
  | ask hc hlt =>
    simp only [request, List.mem_append, List.mem_singleton, Request.page.injEq] at hi
    rcases hi with hi | rfl
    · exact .inl hi
    · exact .inr hlt
  | askEnd =>
    simp only [request, List.mem_append, List.mem_singleton, reduceCtorEq, or_false] at hi
    exact .inl hi
  | _ => exact .inl hi

theorem Orderly.move (hx : Orderly x) (h : Move E x y) : Orderly y := by
  have hq : ∀ i, .page i ∈ y.load.requests → i < x.load.index.pages.size := fun i hi =>
    (h.mem_requests hi).elim (hx.requests i) id
  cases h.pageStep with
  | stay hp ht =>
    constructor
    · simpa only [hp.index] using hx.wellFormed
    · simpa only [hp.index] using hq
    · simpa only [hp.index, hp.state] using hx.beyond
    · simpa only [hp.index, hp.state] using hx.zero
    · simpa only [hp.state, ht] using hx.reading
    · simpa only [ht] using hx.nodup
  | claim i hl hs hp ht =>
    have hstate : ∀ j, y.load.state j = if i = j then .reading else x.load.state j :=
      fun j => (hp.state j).trans (state_claim x.load i j)
    have hne : ∀ p ∈ x.transfers, p.1 ≠ i := by
      rintro p hp' rfl
      simp [hx.reading p hp'] at hs
    refine hx.update hp.index hq (hx.stored_of_claim hl hs) (fun j hj => ?_) (fun p hp' => ?_) ?_
    · rw [hstate, if_neg hj]
    · rw [ht, Multiset.mem_cons] at hp'
      rw [hstate]
      split
      · rfl
      · rename_i hj
        rcases hp' with rfl | hp'
        · exact absurd rfl hj
        · exact hx.reading p hp'
    · rw [ht, Multiset.map_cons, Multiset.nodup_cons]
      constructor
      · intro hm
        obtain ⟨p, hp', he⟩ := Multiset.mem_map.1 hm
        exact hne p hp' he
      · exact hx.nodup
  | advance i t t' c ts hts hc hp ht =>
    have hr := hx.reading (i, t) (by simp [hts])
    have hi := hx.stored_of_state (i := i) (by simp [hr]) (by simp [hr])
    refine hx.update hp.index hq hi (fun j _ => hp.state j) (fun p hp' => ?_) ?_
    · rw [hp.state]
      rw [ht, Multiset.mem_cons] at hp'
      rcases hp' with rfl | hp'
      · exact hr
      · exact hx.reading p (by simp [hts, hp'])
    · have hn := hx.nodup
      rw [hts, Multiset.map_cons] at hn
      rwa [ht, Multiset.map_cons]
  | abandon i t hts hp => exact hx.ended hp.index hq hts fun j _ => hp.state j
  | park i t got c stop cs s hts he hc hp =>
    refine hx.ended hp.index hq hts fun j hj => ?_
    rw [hp.state, state_park, if_neg hj]
  | fail i t got cause stop cs s hts he hc hp =>
    refine hx.ended hp.index hq hts fun j hj => ?_
    rw [hp.state, state_setState, if_neg hj]
  | fill i t got c stop cs s hts he hc hp =>
    refine hx.ended (hp.index.trans (index_fill ..)) hq hts fun j hj => ?_
    rw [hp.state, state_fill, if_neg hj]
  | fillParked i c hs hc hp ht =>
    refine hx.settled (hp.index.trans (index_fill ..)) hq hs ht fun j hj => ?_
    rw [hp.state, state_fill, if_neg hj]
  | lose i hs hc hp ht =>
    refine hx.settled hp.index hq hs ht fun j hj => ?_
    rw [hp.state, state_setState, if_neg hj]

theorem Orderly.steps (hx : Orderly x) (h : Steps E x y) : Orderly y :=
  h.keep (fun _ _ hm hx => hx.move hm) hx

end RamRestore.Load
