import RamRestore.Proofs.Load.Failures
import RamRestore.Proofs.Load.Yield

/-! # Who is at a page that is being read

A page that is being read has a fault or the reader at it, unless the reader was killed in the
middle of the page. Nobody is ever in the middle of filling a page between two steps.
-/

namespace RamRestore

namespace Load

variable {W : Type}

structure Killed (l : Load W) : Prop where
  reader : l.reader = .ended
  died : ∃ c ∈ l.calls, c.outcome = .died

/-- Somebody is at each page that is being read, unless it was abandoned; no page is being filled
between two steps. -/
structure Attended (abandoned : Nat → Prop) (x : Session W) : Prop where
  reading : ∀ i, x.load.state i = .reading → (∃ t, (i, t) ∈ x.transfers) ∨ abandoned i
  filling : ∀ i, x.load.state i ≠ .filling

structure Manned (x : Session W) : Prop where
  reading : ∀ i, x.load.state i = .reading → (∃ t, (i, t) ∈ x.transfers) ∨ Killed x.load
  filling : ∀ i, x.load.state i ≠ .filling

variable [Guest W] {E : Surroundings} {x y : Session W} {i : Nat} {t : Transfer}

theorem Move.ended_mono (hm : Move E x y) (h : x.load.reader = .ended) :
    y.load.reader = .ended := by
  cases hm with
  | takeOver => exact (congrArg Background.reader (background_takeOver _ _)).trans h
  | land => exact (congrArg Background.reader (background_land _ _ _ _)).trans h
  | skip hr | readerClaim hr | readerRead hr | readerLand hr | echo hr | deliver hr =>
    cases h.symm.trans hr
  | quit | die => rfl
  | receive => exact (reader_receive _ _).trans h
  | _ => exact h

theorem Killed.move (h : Killed x.load) (hm : Move E x y) : Killed y.load := by
  obtain ⟨c, hc, hd⟩ := h.died
  exact ⟨hm.ended_mono h.reader, c, hm.calls_mono c hc, hd⟩

theorem moves_land (l : Load W) (i : Nat) (got : Bytes) (stop : Transfer.Stop) :
    l.moves.size < (l.land i got stop).moves.size := by
  unfold land
  split
  · simp [record, setState]
  · rename_i c _
    rw [(samePages_recordAny _ _).moves, moves_fill, Array.size_push, Array.size_push]
    omega

omit [Guest W] in
theorem moves_landRead (l : Load W) (i : Nat) (got : Bytes) (stop : Transfer.Stop) :
    l.moves.size < (l.landRead i got stop).moves.size := by
  unfold landRead
  split <;> simp [park, setState]

/-- Only a reader that is killed leaves a page behind as it is. -/
theorem Move.killed_of_abandoned (hm : Move E x y) (hx : x.transfers = (i, t) ::ₘ y.transfers)
    (hp : SamePages x.load y.load) : x.load.reader = .reading i t ∧ Killed y.load := by
  have hcard := congrArg Multiset.card hx
  have hmoves := congrArg Array.size hp.moves
  cases hm with
  | @die l fs j u hr =>
    have he : (j, u) = (i, t) := by
      have hr' := transfers_of_reading (m := { l.note [⟨u.offset, u.wanted, .died⟩] l.source with
        reader := .ended }) hr rfl fs
      exact (Multiset.cons_inj_left _).1 (hr'.symm.trans hx)
    obtain ⟨rfl, rfl⟩ := Prod.mk.inj he
    exact ⟨hr, rfl, ⟨u.offset, u.wanted, .died⟩, by simp [note], rfl⟩
  | @land l _ j _ got stop cs s =>
    have := moves_land (l.note cs s) j got stop
    exact absurd hmoves (Nat.ne_of_gt this)
  | @readerLand l _ j _ got stop cs s =>
    have := moves_landRead (l.note cs s) j got stop
    exact absurd hmoves (Nat.ne_of_gt this)
  | takeOver =>
    rw [transfers_cons_at, transfers_congr (background_takeOver _ _)] at hcard
    simp at hcard
  | receive => simp [Session.transfers, reader_receive] at hcard
  | arrive | unmapped | claim | read =>
    simp [Session.transfers, Multiset.filterMap_cons, Service.transfer?, record, note, Load.claim,
      beginTransfer, Load.setState] at hcard <;> omega
  | skip hr | readerClaim hr | readerRead hr | echo hr =>
    simp [Session.transfers, hr, Reader.transfer?] at hcard <;> omega
  | @deliver _ _ r hr =>
    by_cases ha : r = .allLoaded <;> simp [Session.transfers, hr, ha, Reader.transfer?] at hcard
  | quit hc hr =>
    rcases hr with ⟨hr, -⟩ | ⟨r, hr⟩ <;> simp [Session.transfers, hr, Reader.transfer?] at hcard
  | _ =>
    simp [Session.transfers, markComplete, failBackground, record, closeQueues, Load.finish,
      request, Load.interrupt] at hcard

section

variable {P Q : Nat → Prop}

omit [Guest W] in
theorem Attended.mono (h : Attended P x) (hPQ : ∀ j, P j → Q j) : Attended Q x :=
  ⟨fun j hj => (h.reading j hj).imp_right (hPQ j), h.filling⟩

omit [Guest W] in
theorem Attended.settle {s : PageState} (h : Attended P x)
    (hs : ∀ j, y.load.state j = if i = j then s else x.load.state j) (hr : s ≠ .reading)
    (hf : s ≠ .filling) (ht : ∀ p ∈ x.transfers, p.1 ≠ i → p ∈ y.transfers) : Attended P y where
  reading j hj := by
    rw [hs] at hj
    split at hj
    · exact absurd hj hr
    · rename_i hij
      exact (h.reading j hj).imp_left fun ⟨t, hmem⟩ => ⟨t, ht _ hmem (Ne.symm hij)⟩
  filling j := by
    rw [hs]
    split
    · exact hf
    · exact h.filling j

theorem Attended.move (h : Attended P x) (hm : Move E x y)
    (hd : ∀ i t, x.load.reader = .reading i t → Killed y.load → P i) : Attended P y := by
  have hended : ∀ {i t}, x.transfers = (i, t) ::ₘ y.transfers → ∀ p ∈ x.transfers, p.1 ≠ i →
      p ∈ y.transfers := by
    intro i t hx p hp hne
    rw [hx, Multiset.mem_cons] at hp
    exact hp.resolve_left fun he => hne (congrArg Prod.fst he)
  cases hm.pageStep with
  | stay hp ht =>
    refine ⟨fun j hj => ?_, fun j => hp.state j ▸ h.filling j⟩
    rw [ht]
    exact h.reading j (hp.state j ▸ hj)
  | claim i hl he hp ht =>
    have hs : ∀ j, y.load.state j = if i = j then .reading else x.load.state j :=
      fun j => (hp.state j).trans (state_claim x.load i j)
    refine ⟨fun j hj => ?_, fun j => ?_⟩
    · rw [ht]
      by_cases hij : i = j
      · exact .inl ⟨x.load.transfer i, by rw [hij]; exact Multiset.mem_cons_self _ _⟩
      · rw [hs, if_neg hij] at hj
        exact (h.reading j hj).imp_left fun ⟨t, hmem⟩ => ⟨t, Multiset.mem_cons_of_mem hmem⟩
    · rw [hs]
      split
      · simp
      · exact h.filling j
  | advance i t t' c ts hx hc hp ht =>
    refine ⟨fun j hj => ?_, fun j => hp.state j ▸ h.filling j⟩
    refine (h.reading j (hp.state j ▸ hj)).imp_left fun ⟨u, hmem⟩ => ?_
    rw [hx, Multiset.mem_cons] at hmem
    rw [ht]
    rcases hmem with he | hmem
    · obtain ⟨rfl, -⟩ := Prod.mk.inj he
      exact ⟨t', Multiset.mem_cons_self _ _⟩
    · exact ⟨u, Multiset.mem_cons_of_mem hmem⟩
  | abandon i t hx hp =>
    obtain ⟨hr, hk⟩ := hm.killed_of_abandoned hx hp
    refine ⟨fun j hj => ?_, fun j => hp.state j ▸ h.filling j⟩
    rcases h.reading j (hp.state j ▸ hj) with ⟨u, hmem⟩ | hj
    · rw [hx, Multiset.mem_cons] at hmem
      rcases hmem with he | hmem
      · obtain ⟨rfl, -⟩ := Prod.mk.inj he
        exact .inr (hd j t hr hk)
      · exact .inl ⟨u, hmem⟩
    · exact .inr hj
  | park i t got c stop cs s hx he hc hp =>
    exact h.settle (fun j => (hp.state j).trans (state_park x.load i j c)) (by simp) (by simp)
      (hended hx)
  | fail i t got cause stop cs s hx he hc hp =>
    exact h.settle (fun j => (hp.state j).trans (state_setState x.load i j .error)) (by simp)
      (by simp) (hended hx)
  | fill i t got c stop cs s hx he hc hp =>
    exact h.settle (fun j => (hp.state j).trans (state_fill x.load i j c)) (by split <;> simp)
      (by split <;> simp) (hended hx)
  | fillParked i c hs hc hp ht =>
    exact h.settle (fun j => (hp.state j).trans (state_fill x.load i j c)) (by split <;> simp)
      (by split <;> simp) fun p hp _ => ht ▸ hp
  | lose i hs hc hp ht =>
    exact h.settle (fun j => (hp.state j).trans (state_setState x.load i j .error)) (by simp)
      (by simp) fun p hp _ => ht ▸ hp

end

omit [Guest W] in
theorem manned_iff : Manned x ↔ Attended (fun _ => Killed x.load) x :=
  ⟨fun h => ⟨h.reading, h.filling⟩, fun h => ⟨h.reading, h.filling⟩⟩

theorem Manned.move (h : Manned x) (hm : Move E x y) : Manned y := by
  have h' : Attended (fun _ => Killed x.load ∨ Killed y.load) x :=
    (manned_iff.1 h).mono fun _ => .inl
  refine manned_iff.2 ((h'.move hm fun _ _ _ => .inr).mono fun _ hk => ?_)
  exact hk.elim (·.move hm) id

theorem Manned.steps (h : Manned x) (hs : Steps E x y) : Manned y :=
  hs.keep (fun _ _ hm hx => hx.move hm) h

omit [Guest W] in
theorem Fresh.attended {l : Load W} (h : l.Fresh) : Attended (fun _ => False) ⟨l, 0⟩ where
  reading j hj := by rcases h.empty_or_filled j with hs | hs <;> simp [hs] at hj
  filling j := by rcases h.empty_or_filled j with hs | hs <;> simp [hs]

def Unclaimed (l : Load W) : Prop := ∀ i, l.state i ≠ .reading ∧ l.state i ≠ .filling

theorem SweepStep.unclaimed {x y : Sweep W} (h : SweepStep x y) (hx : Unclaimed x.load) :
    Unclaimed y.load := by
  have hset : ∀ i s, s ≠ .reading → s ≠ .filling →
      (∀ j, y.load.state j = if i = j then s else x.load.state j) → Unclaimed y.load := by
    intro i s hr hf hs j
    rw [hs]
    split
    · exact ⟨hr, hf⟩
    · exact hx j
  cases h.effect with
  | pass _ _ _ hp => exact fun j => hp.state j ▸ hx j
  | fail i _ _ _ guest _ _ _ _ hp =>
    exact hset i .error nofun nofun fun j =>
      (hp.state j).trans (state_claim_setState x.load i j guest .error)
  | pack i _ _ _ _ _ hp =>
    exact hset i .read nofun nofun fun j =>
      (hp.state j).trans (state_claim_setState x.load i j x.load.guest .read)
  | fill i _ _ _ _ _ hp =>
    exact hset i .filled nofun nofun fun j =>
      (hp.state j).trans (state_claim_setState x.load i j _ .filled)
  | unpack i _ _ _ _ _ hp =>
    exact hset i .filled nofun nofun fun j =>
      (hp.state j).trans (state_setState_setState x.load i j .filling _ .filled)
  | corrupt i _ _ _ _ _ hp =>
    exact hset i .error nofun nofun fun j =>
      (hp.state j).trans (state_setState_setState x.load i j .filling _ .error)

end Load

namespace Loader

open Load

variable {W : Type} [Guest W] {l : Loader W} {m m₀ : Load W} {failure : Option LoadError}

theorem sweeps_unclaimed {order : List Nat} {x : Sweep W} (ho : l.opened? = some m₀)
    (hs : Sweeps ⟨m₀, order, 0⟩ x) : Unclaimed x.load := by
  obtain ⟨hf, -⟩ := opened_fresh ho
  refine hs.keep (P := fun z => Unclaimed z.load) (fun _ _ h hz => h.unclaimed hz) fun i => ?_
  rcases hf.empty_or_filled i with he | he <;> simp [he]

/-- However an eager load went, each page was left alone, filled or given up. -/
theorem StartsEagerly.released (h : l.StartsEagerly failure m) (i : Nat) :
    m.state i = .empty ∨ m.state i = .filled ∨ m.state i = .error := by
  obtain ⟨m₀, ho, -, order, hi, -, returned, l', hr, hc⟩ := h
  obtain ⟨rest, hs, -⟩ := hr.sweeps
  obtain ⟨hreading, hfilling⟩ := sweeps_unclaimed ho hs i
  obtain ⟨-, -, hshelved⟩ := sweeps_sane ho hi hs
  cases hc
  have hread : l'.state i ≠ .read := by
    intro hread
    -- nothing is packed any more
    obtain ⟨data, hp⟩ := hshelved i hread
    cases hp
  change l'.state i = .empty ∨ l'.state i = .filled ∨ l'.state i = .error
  cases hs : l'.state i <;> simp_all

theorem Starts.attended (h : l.Starts failure m) : Attended (fun _ => False) ⟨m, 0⟩ := by
  rcases h with h | h | h
  · exact h.fresh.1.attended
  · constructor
    · intro i hi
      rcases h.released i with hs | hs | hs <;> simp [hs] at hi
    · intro i
      rcases h.released i with hs | hs | hs <;> simp [hs]
  · exact (opened_fresh h.opened).1.attended

theorem starts_manned (h : l.Starts failure m) : Manned ⟨m, 0⟩ :=
  manned_iff.2 (h.attended.mono fun _ => False.elim)

end Loader
end RamRestore
