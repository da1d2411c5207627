import RamRestore.Proofs.Load.Once
import RamRestore.Proofs.Protocol

/-! # Loads keep to the protocol

A load lets each of its calls do in one go what the protocol of a page does in several steps.
Seen from a page that has to be read, every run of a load is a run of the protocol.
-/

namespace RamRestore

namespace Protocol

/-- Steps of one actor, which hands the page to the guest `n` times in them. -/
structure Moved (c : Scene) (a : Actor) (p : Point) (s : Shared) (n : Nat) (c' : Scene) :
    Prop where
  reachable : Reachable c'
  self : c'.point a = p
  shared : c'.shared = s
  others : ∀ b, b ≠ a → c'.point b = c.point b
  fills : fills c'.log = fills c.log + n

section

variable {a : Actor} {act : Option Act} {c c' : Scene} {p q : Point} {s s' : Shared} {n : Nat}
  {contents : Bytes}

theorem Moved.start (h : Reachable c) (hp : c.point a = p) : Moved c a p c.shared 0 c :=
  ⟨h, hp, rfl, fun _ _ => rfl, rfl⟩

theorem Moved.turn (h : Moved c a p s n c') (ht : Turn a p s act q s') :
    Moved c a q s' (n + if act.any Act.isFill then 1 else 0) (c'.after a act q s') where
  reachable := by
    refine h.reachable.turn ?_
    rw [h.self, h.shared]
    exact ht
  self := point_after_self ..
  shared := rfl
  others b hb := (point_after_of_ne hb).trans (h.others b hb)
  fills := by
    cases act with
    | none => simpa [Scene.after] using h.fills
    | some x => simp [Scene.after, h.fills, Nat.add_assoc]

/-- An actor that is about to claim a page for filling which has been read fills it. -/
theorem Moved.seize (h : Moved c a .seizing s n c') (hr : s.state = .read)
    (hp : s.parked = some contents) (accepted : Bool) :
    ∃ c', Moved c a .resting
      { s with slot := ⟨if accepted then .filled else .error, none⟩ } (n + 1) c' :=
  ⟨_, ((((h.turn (.seize hr)).turn (.take hp)).turn (.fill accepted)).turn .store).turn .return⟩

/-- A fault that cannot read the page it has claimed gives it up. -/
theorem Moved.giveUp {k : Nat} (h : Moved c (.fault k) .reading s n c') :
    ∃ c', Moved c (.fault k) .resting (s.store .error) n c' :=
  ⟨_, ((h.turn .readFailed).turn .failOwn).turn .return⟩

theorem Moved.fillOwn {k : Nat} (h : Moved c (.fault k) .reading s n c') (contents : Bytes)
    (accepted : Bool) :
    ∃ c', Moved c (.fault k) .resting (s.store (if accepted then .filled else .error)) (n + 1) c' :=
  ⟨_, ((((h.turn (.readOwn contents)).turn .announce).turn (.fill accepted)).turn .store).turn
    .return⟩

theorem Moved.beaten (h : Moved c a .seizing s n c') (ht : s.state.isTerminal = true) :
    ∃ c', Moved c a .resting s n c' :=
  ⟨_, ((h.turn (.beaten (by intro hr; rw [hr] at ht; cases ht))).turn (.settled ht)).turn .return⟩

end

end Protocol

namespace Load

open Protocol

variable {W : Type}

/-- What a load and the protocol both know of page `i`: its state, what is parked for it, and how
often it was handed to the guest. -/
def aspect (l : Load W) (i : Nat) : PageState × Option Bytes × Nat :=
  (l.state i, l.parked i, l.fills i)

def ReadByFault (i : Nat) (fs : Multiset Service) : Prop := ∃ t, .reading i t ∈ fs

/-- Where the reader is, seen from page `i`. A reader that has ended may have stopped anywhere. -/
def readerPoint? (i : Nat) : Reader → Option Point
  | .waiting => some .resting
  | .reading j _ => some (if j = i then .reading else .resting)
  | .offering r => some (if r = .loaded i then .sending else .resting)
  | .ended => none

/-- A scene of the protocol shows page `i` as a load has it. -/
structure Shows (i : Nat) (x : Session W) (c : Scene) : Prop where
  reachable : Reachable c
  page : x.load.aspect i = (c.shared.state, c.shared.parked, Protocol.fills c.log)
  idle : c.point .idle = .resting
  reader : ∀ p, readerPoint? i x.load.reader = some p → c.point .reader = p
  readByFault : ReadByFault i x.faults → ∃ k, c.point (.fault k) = .reading ∧
    ∀ j, j ≠ k → c.point (.fault j) = .resting
  noFault : ¬ ReadByFault i x.faults → ∀ k, c.point (.fault k) = .resting
  sent : .loaded i ∈ x.load.results → c.shared.sent = true

section

variable {x y : Session W} {l : Load W} {fs : Multiset Service} {i j k n : Nat} {c c' : Scene}
  {p : Point} {s : Shared} {E : Surroundings}

theorem readByFault_cons_at (a : Nat) : ReadByFault i (.at a ::ₘ fs) ↔ ReadByFault i fs := by
  simp [ReadByFault]

theorem readByFault_cons_reading (t : Transfer) :
    ReadByFault i (.reading j t ::ₘ fs) ↔ i = j ∨ ReadByFault i fs := by
  constructor
  · rintro ⟨t', ht⟩
    rcases Multiset.mem_cons.1 ht with he | ht
    · exact .inl (Service.reading.inj he).1
    · exact .inr ⟨t', ht⟩
  · rintro (rfl | ⟨t', ht⟩)
    · exact ⟨t, Multiset.mem_cons_self _ _⟩
    · exact ⟨t', Multiset.mem_cons_of_mem ht⟩

theorem ReadByFault.mem_transfers (h : ReadByFault i x.faults) : ∃ t, (i, t) ∈ x.transfers := by
  obtain ⟨t, ht⟩ := h
  refine ⟨t, Multiset.mem_add.2 (.inr ?_)⟩
  exact (Multiset.mem_filterMap _ _).2 ⟨_, ht, rfl⟩

theorem Orderly.not_readByFault (h : Orderly x) (hs : x.load.state i ≠ .reading) :
    ¬ ReadByFault i x.faults := by
  intro hr
  obtain ⟨t, ht⟩ := hr.mem_transfers
  exact hs (h.reading (i, t) ht)

/-- A fault that reads a page is the only one. -/
theorem Orderly.not_readByFault_of_cons {t : Transfer}
    (h : Orderly ⟨l, .reading i t ::ₘ fs⟩) : ¬ ReadByFault i fs := by
  intro hr
  obtain ⟨t', ht⟩ := ReadByFault.mem_transfers (x := ⟨l, fs⟩) hr
  exact h.not_mem_transfers (transfers_cons_reading l i t fs) (i, t') ht rfl

theorem SamePages.aspect {m : Load W} (h : SamePages l m) (i : Nat) : m.aspect i = l.aspect i := by
  simp only [Load.aspect, Load.fills, h.state, h.parked, h.placed]

theorem aspect_setState_of_ne (h : j ≠ i) (state : PageState) :
    (l.setState j state).aspect i = l.aspect i := by
  simp only [aspect, state_setState, parked_setState, if_neg h]
  rfl

theorem aspect_setState_self (l : Load W) (i : Nat) (state : PageState) :
    (l.setState i state).aspect i = (state, none, l.fills i) := by
  simp only [aspect, state_setState, parked_setState, ↓reduceIte]
  rfl

variable [Guest W]

theorem aspect_fill_of_ne (h : j ≠ i) (contents : Bytes) :
    (l.fill j contents).2.aspect i = l.aspect i := by
  simp only [aspect, state_fill, parked_fill, fills_fill, if_neg h, Nat.add_zero]

theorem aspect_fill_self (l : Load W) (i : Nat) (contents : Bytes) :
    (l.fill i contents).2.aspect i =
      (if (l.fill i contents).1.isNone then .filled else .error, none, l.fills i + 1) := by
  simp only [aspect, state_fill, parked_fill, fills_fill, ↓reduceIte]

theorem aspect_placeParked_of_ne (l : Load W) (h : j ≠ i) :
    (l.placeParked j).2.aspect i = l.aspect i :=
  placeParked_keeps (aspect · i) (fun _ => aspect_fill_of_ne h _) (aspect_setState_of_ne h _)

theorem aspect_land_of_ne (l : Load W) (h : j ≠ i) (got : Bytes) (stop : Transfer.Stop) :
    (l.land j got stop).aspect i = l.aspect i := by
  unfold land
  split
  · exact aspect_setState_of_ne h _
  · exact ((samePages_recordAny _ _).aspect i).trans (aspect_fill_of_ne h _)

omit [Guest W] in
theorem aspect_landRead_of_ne (l : Load W) (h : j ≠ i) (got : Bytes) (stop : Transfer.Stop) :
    (l.landRead j got stop).aspect i = l.aspect i := by
  unfold landRead
  split
  · simp only [aspect, state, parked, park, Table.get_set, if_neg h]
    rfl
  · exact aspect_setState_of_ne h _

omit [Guest W] in
theorem Shows.stay (h : Shows i x c) (hp : y.load.aspect i = x.load.aspect i)
    (hr : ∀ p, readerPoint? i y.load.reader = some p → readerPoint? i x.load.reader = some p)
    (hf : ReadByFault i y.faults ↔ ReadByFault i x.faults)
    (hs : .loaded i ∈ y.load.results → .loaded i ∈ x.load.results) : Shows i y c where
  reachable := h.reachable
  page := hp.trans h.page
  idle := h.idle
  reader p hy := h.reader p (hr p hy)
  readByFault hy := h.readByFault (hf.1 hy)
  noFault hy := h.noFault (mt hf.2 hy)
  sent hy := h.sent (hs hy)

omit [Guest W] in
theorem Shows.note (h : Shows i ⟨l, fs⟩ c) (cs : List ReadCall) (source : Source) :
    Shows i ⟨l.note cs source, fs⟩ c :=
  h.stay rfl (fun _ hp => hp) .rfl id

omit [Guest W] in
theorem Shows.ofBackground (h : Shows i x c) (hp : y.load.aspect i = x.load.aspect i)
    (hb : y.load.background = x.load.background)
    (hf : ReadByFault i y.faults ↔ ReadByFault i x.faults) : Shows i y c := by
  have hr : y.load.reader = x.load.reader := congrArg Background.reader hb
  have hs : y.load.results = x.load.results := congrArg Background.results hb
  exact h.stay hp (fun p hy => hr ▸ hy) hf (fun hy => hs ▸ hy)

omit [Guest W] in
theorem Shows.byFault (h : Shows i x c) (hk : ∀ j, j ≠ k → c.point (.fault j) = .resting)
    (hm : Moved c (.fault k) p s n c') (hs : s.sent = c.shared.sent)
    (hp : y.load.aspect i = (s.state, s.parked, Protocol.fills c.log + n))
    (hb : y.load.background = x.load.background)
    (hf : ReadByFault i y.faults ∧ p = .reading ∨ ¬ ReadByFault i y.faults ∧ p = .resting) :
    Shows i y c' := by
  have hr : y.load.reader = x.load.reader := congrArg Background.reader hb
  have hq : y.load.results = x.load.results := congrArg Background.results hb
  have hothers : ∀ j, j ≠ k → c'.point (.fault j) = .resting := by
    intro j hj
    rw [hm.others (.fault j) (by simpa using hj)]
    exact hk j hj
  constructor
  case reachable => exact hm.reachable
  case page => rw [hp, hm.shared, hm.fills]
  case idle => rw [hm.others .idle nofun, h.idle]
  case reader =>
    intro p hp'
    rw [hm.others .reader nofun]
    exact h.reader p (hr ▸ hp')
  case readByFault =>
    intro hy
    rcases hf with ⟨-, rfl⟩ | ⟨hn, -⟩
    · exact ⟨k, hm.self, hothers⟩
    · exact absurd hy hn
  case noFault =>
    intro hy j
    rcases hf with ⟨hy', -⟩ | ⟨-, rfl⟩
    · exact absurd hy' hy
    · by_cases hj : j = k
      · rw [hj, hm.self]
      · exact hothers j hj
  case sent =>
    intro hy
    rw [hm.shared, hs]
    exact h.sent (hq ▸ hy)

omit [Guest W] in
theorem Shows.byReader (h : Shows i x c) (hm : Moved c .reader p s n c')
    (hp : y.load.aspect i = (s.state, s.parked, Protocol.fills c.log + n))
    (hr : readerPoint? i y.load.reader = some p) (hf : y.faults = x.faults)
    (hs : .loaded i ∈ y.load.results → s.sent = true) : Shows i y c' := by
  have hfault : ∀ k, c'.point (.fault k) = c.point (.fault k) := fun k => hm.others _ nofun
  constructor
  case reachable => exact hm.reachable
  case page => rw [hp, hm.shared, hm.fills]
  case idle => rw [hm.others .idle nofun, h.idle]
  case reader =>
    intro q hq
    rw [hm.self]
    exact Option.some.inj (hr.symm.trans hq)
  case readByFault => simpa only [hf, hfault] using h.readByFault
  case noFault => simpa only [hf, hfault] using h.noFault
  case sent => rwa [hm.shared]

omit [Guest W] in
theorem Shows.byIdle (h : Shows i x c) (hm : Moved c .idle .resting s n c')
    (hs : s.sent = c.shared.sent)
    (hp : y.load.aspect i = (s.state, s.parked, Protocol.fills c.log + n))
    (hr : y.load.reader = x.load.reader) (hf : y.faults = x.faults)
    (hq : .loaded i ∈ y.load.results → .loaded i ∈ x.load.results) : Shows i y c' := by
  have hfault : ∀ k, c'.point (.fault k) = c.point (.fault k) := fun k => hm.others _ nofun
  constructor
  case reachable => exact hm.reachable
  case page => rw [hp, hm.shared, hm.fills]
  case idle => exact hm.self
  case reader =>
    rw [hm.others .reader nofun, hr]
    exact h.reader
  case readByFault => simpa only [hf, hfault] using h.readByFault
  case noFault => simpa only [hf, hfault] using h.noFault
  case sent =>
    intro hy
    rw [hm.shared, hs]
    exact h.sent (hq hy)

omit [Guest W] in
theorem Shows.state (h : Shows i x c) : x.load.state i = c.shared.state :=
  congrArg Prod.fst h.page

omit [Guest W] in
theorem Shows.parked (h : Shows i x c) : x.load.parked i = c.shared.parked :=
  congrArg (·.2.1) h.page

omit [Guest W] in
theorem Shows.fills (h : Shows i x c) : x.load.fills i = Protocol.fills c.log :=
  congrArg (·.2.2) h.page

omit [Guest W] in
/-- What is read has contents parked. -/
theorem Shows.exists_parked (h : Shows i x c) (hr : x.load.state i = .read) :
    ∃ contents, c.shared.parked = some contents := by
  rw [← Option.ne_none_iff_exists']
  exact (h.reachable.sound.tidy.read (h.state ▸ hr)).1

theorem Shows.place {a : Actor} (h : Shows i x c) (hm : Moved c a .seizing c.shared 0 c')
    (hs : x.load.state i = .read ∨ x.load.state i = .filled ∨ x.load.state i = .error) :
    ∃ s n c', Moved c a .resting s n c' ∧ s.sent = c.shared.sent ∧
      (x.load.placeParked i).2.aspect i = (s.state, s.parked, Protocol.fills c.log + n) := by
  by_cases hr : x.load.state i = .read
  · obtain ⟨contents, hp⟩ := h.exists_parked hr
    have hp' : x.load.parked i = some contents := h.parked.trans hp
    obtain ⟨c'', hm'⟩ := hm.seize (h.state ▸ hr) hp (x.load.fill i contents).1.isNone
    refine ⟨_, _, c'', hm', rfl, ?_⟩
    have hplace : x.load.placeParked i = x.load.fill i contents := by
      simp only [placeParked, hr, hp']
    rw [hplace, aspect_fill_self, h.fills]
    rfl
  · have ht : c.shared.state.isTerminal = true := by
      rw [← h.state]
      rcases hs with hs | hs | hs
      · exact absurd hs hr
      · rw [hs]
        rfl
      · rw [hs]
        rfl
    obtain ⟨c'', hm'⟩ := hm.beaten ht
    refine ⟨_, _, c'', hm', rfl, ?_⟩
    have hplace : (x.load.placeParked i).2 = x.load := by
      unfold placeParked
      split
      · exact absurd ‹_› hr
      · rfl
      · rfl
    rw [hplace]
    exact h.page

variable {a : Nat}

theorem Shows.takeOver (h : Shows i ⟨l, .at a ::ₘ fs⟩ c) (hx : Orderly ⟨l, .at a ::ₘ fs⟩)
    (hs : l.state i = .read ∨ l.state i = .filled ∨ l.state i = .error) :
    ∃ c', Shows i ⟨l.takeOver i, fs⟩ c' := by
  have hn : ¬ ReadByFault i (.at a ::ₘ fs) :=
    hx.not_readByFault (by rcases hs with hs | hs | hs <;> simp [hs])
  have hrest := h.noFault hn
  have hstate : l.state i = c.shared.state := h.state
  have hne : c.shared.state ≠ .empty := by
    rw [← hstate]
    rcases hs with hs | hs | hs <;> simp [hs]
  have hrank : PageState.read.rank ≤ c.shared.state.rank := by
    rw [← hstate]
    rcases hs with hs | hs | hs <;> rw [hs] <;> decide
  have hm := (((Moved.start h.reachable (hrest 0)).turn (.call nofun)).turn (.join hne)).turn
    (.awaited hrank)
  obtain ⟨s, n, c', hm', hsent, hpage⟩ := h.place hm hs
  refine ⟨c', h.byFault (fun j _ => hrest j) hm' hsent ?_ (background_takeOver l i) ?_⟩
  · exact ((samePages_recordAny _ _).aspect _).trans hpage
  · exact .inr ⟨mt (readByFault_cons_at a).2 hn, rfl⟩

omit [Guest W] in
theorem Shows.aspect_setState (h : Shows i ⟨l, fs⟩ c) (hp : c.shared.parked = none)
    (state : PageState) :
    (l.setState i state).aspect i = (state, c.shared.parked, Protocol.fills c.log) := by
  have hfills : l.fills i = Protocol.fills c.log := h.fills
  rw [aspect_setState_self, hp, hfills]

omit [Guest W] in
theorem Shows.claim (h : Shows i ⟨l, .at a ::ₘ fs⟩ c) (hx : Orderly ⟨l, .at a ::ₘ fs⟩)
    (hs : l.state i = .empty) :
    ∃ c', Shows i ⟨l.claim i, .reading i (l.transfer i) ::ₘ fs⟩ c' := by
  have hrest := h.noFault (hx.not_readByFault (by simp [hs]))
  have he : c.shared.state = .empty := h.state.symm.trans hs
  have hm := ((Moved.start h.reachable (hrest 0)).turn (.call nofun)).turn (.claim he)
  have hp := h.aspect_setState (h.reachable.sound.tidy.empty he).1 .reading
  have hr : ReadByFault i (.reading i (l.transfer i) ::ₘ fs) :=
    (readByFault_cons_reading _).2 (.inl rfl)
  exact ⟨_, h.byFault (fun j _ => hrest j) hm rfl hp rfl (.inl ⟨hr, rfl⟩)⟩

theorem Shows.land {t : Transfer} {got : Bytes} {stop : Transfer.Stop}
    (h : Shows i ⟨l, .reading i t ::ₘ fs⟩ c) (hn : ¬ ReadByFault i fs) :
    ∃ c', Shows i ⟨l.land i got stop, fs⟩ c' := by
  obtain ⟨k, hk, hrest⟩ := h.readByFault ((readByFault_cons_reading t).2 (.inl rfl))
  have hfits := h.reachable.sound.fits (.fault k)
  rw [hk] at hfits
  obtain ⟨-, hnone, -⟩ := hfits
  have hm := Moved.start h.reachable hk
  have hb := background_land l i got stop
  unfold Load.land at hb ⊢
  split at hb
  · obtain ⟨c', hm'⟩ := hm.giveUp
    have hp := h.aspect_setState hnone .error
    exact ⟨c', h.byFault hrest hm' rfl hp hb (.inr ⟨hn, rfl⟩)⟩
  · rename_i contents _
    obtain ⟨c', hm'⟩ := hm.fillOwn contents (l.fill i contents).1.isNone
    have hfills : l.fills i = Protocol.fills c.log := h.fills
    have hp := ((samePages_recordAny _ (l.fill i contents).1).aspect i).trans
      (aspect_fill_self l i contents)
    rw [hfills, ← hnone] at hp
    exact ⟨c', h.byFault hrest hm' rfl hp hb (.inr ⟨hn, rfl⟩)⟩

omit [Guest W] in
theorem Shows.readerClaim {q : List Request} (h : Shows i ⟨l, fs⟩ c) (hr : l.reader = .waiting)
    (hs : l.state i = .empty) :
    ∃ c', Shows i ⟨{ l.claim i with requests := q, reader := .reading i (l.transfer i) }, fs⟩
      c' := by
  have hpoint : c.point .reader = .resting := h.reader .resting (by simp [hr, readerPoint?])
  have he : c.shared.state = .empty := h.state.symm.trans hs
  have hm := ((Moved.start h.reachable hpoint).turn (.call nofun)).turn (.claim he)
  have hp := h.aspect_setState (h.reachable.sound.tidy.empty he).1 .reading
  exact ⟨_, h.byReader hm hp (by simp [readerPoint?]) rfl h.sent⟩

omit [Guest W] in
theorem Shows.readerLand {t : Transfer} {got : Bytes} {stop : Transfer.Stop}
    (h : Shows i ⟨l, fs⟩ c) (hr : l.reader = .reading i t) :
    ∃ c', Shows i ⟨l.landRead i got stop, fs⟩ c' := by
  have hpoint : c.point .reader = .reading := h.reader .reading (by simp [hr, readerPoint?])
  have hfits := h.reachable.sound.fits .reader
  rw [hpoint] at hfits
  obtain ⟨-, hnone, -⟩ := hfits
  have hm := Moved.start h.reachable hpoint
  unfold landRead
  split
  · rename_i contents _
    have hm' := ((hm.turn (.read contents)).turn .put).turn .publish
    refine ⟨_, h.byReader hm' ?_ (by simp [readerPoint?]) rfl h.sent⟩
    have hfills : l.fills i = Protocol.fills c.log := h.fills
    simp only [aspect, Load.state, Load.parked, park, Table.get_set, ↓reduceIte]
    rw [← hfills]
    rfl
  · have hm' := (hm.turn .readFailed).turn .fail
    have hp := h.aspect_setState hnone .error
    exact ⟨_, h.byReader hm' hp (by simp [readerPoint?]) rfl h.sent⟩

omit [Guest W] in
theorem Shows.deliver (h : Shows i ⟨l, fs⟩ c) (hr : l.reader = .offering (.loaded i)) :
    ∃ c', Shows i ⟨{ l with results := l.results ++ [.loaded i], reader := .waiting }, fs⟩ c' := by
  have hpoint : c.point .reader = .sending := h.reader .sending (by simp [hr, readerPoint?])
  have hm := (Moved.start h.reachable hpoint).turn .send
  exact ⟨_, h.byReader hm h.page (by simp [readerPoint?]) rfl fun _ => rfl⟩

theorem Shows.receive {rs : List Result} (h : Shows i ⟨l, fs⟩ c)
    (hq : l.results = .loaded i :: rs) :
    ∃ c', Shows i ⟨({ l with results := rs }.receive (.loaded i)).2, fs⟩ c' := by
  have hsent : c.shared.sent = true := h.sent (by simp [hq])
  have hreader := reader_receive { l with results := rs } (.loaded i)
  have hresults : .loaded i ∈ ({ l with results := rs }.receive (.loaded i)).2.results →
      .loaded i ∈ l.results := fun hm => hq ▸ .tail _ (results_receive _ _ hm)
  have hpage := (samePages_receive { l with results := rs } i).aspect i
  by_cases hs : l.state i = .read ∨ l.state i = .filled ∨ l.state i = .error
  · have h' : Shows i ⟨{ l with results := rs }, fs⟩ c :=
      h.stay rfl (fun _ hp => hp) .rfl fun hm => hq ▸ .tail _ hm
    have hm := (Moved.start h.reachable h.idle).turn (.receive hsent)
    obtain ⟨s, n, c', hm', hs', hp⟩ := h'.place hm hs
    exact ⟨c', h.byIdle hm' hs' (hpage.trans hp) hreader rfl hresults⟩
  · -- a page that somebody is still busy with stays as it is
    have hplace : ({ l with results := rs }.placeParked i).2 = { l with results := rs } := by
      have hstate : ({ l with results := rs } : Load W).state i = l.state i := rfl
      unfold placeParked
      split
      · exact absurd (.inl (hstate ▸ ‹_›)) hs
      · rfl
      · rfl
    rw [hplace] at hpage
    exact ⟨c, h.stay hpage (fun _ hp => hreader ▸ hp) .rfl hresults⟩

theorem Shows.move (h : Shows i x c) (hx : Orderly x) (hm : Move E x y) : ∃ c', Shows i y c' := by
  have hat : ∀ (a : Nat) (fs : Multiset Service), ReadByFault i fs ↔
      ReadByFault i (.at a ::ₘ fs) := fun a _ => (readByFault_cons_at a).symm
  cases hm with
  | arrive => exact ⟨c, h.ofBackground rfl rfl (hat _ _).symm⟩
  | unmapped => exact ⟨c, h.ofBackground rfl rfl (hat _ _)⟩
  | @takeOver l fs a j hl hs =>
    by_cases hj : j = i
    · subst hj
      exact h.takeOver hx hs
    · refine ⟨c, h.ofBackground ?_ (background_takeOver l j) (hat _ _)⟩
      exact ((samePages_recordAny _ _).aspect i).trans (aspect_placeParked_of_ne l hj)
  | @claim l fs a j hl hs =>
    by_cases hj : j = i
    · subst hj
      exact h.claim hx hs
    · refine ⟨c, h.ofBackground (aspect_setState_of_ne hj .reading) rfl ?_⟩
      simp [readByFault_cons_at, readByFault_cons_reading, Ne.symm hj]
  | read hc =>
    refine ⟨c, h.ofBackground rfl rfl ?_⟩
    simp only [readByFault_cons_reading]
  | @land l fs j t got stop cs s he =>
    by_cases hj : j = i
    · subst hj
      exact (h.note cs s).land hx.not_readByFault_of_cons
    · refine ⟨c, h.ofBackground (aspect_land_of_ne _ hj got stop)
        (background_land (l.note cs s) j got stop) ?_⟩
      simp [readByFault_cons_reading, Ne.symm hj]
  | skip | look | ask | askEnd | source => exact ⟨c, h.stay rfl (fun _ hp => hp) .rfl id⟩
  | ended => exact ⟨c, h.stay rfl (fun _ hp => hp) .rfl id⟩
  | gone | interrupt => exact ⟨c, h.stay rfl (fun _ hp => hp) .rfl nofun⟩
  | @readerClaim l fs j q hr hq hs =>
    by_cases hj : j = i
    · subst hj
      exact h.readerClaim hr hs
    · refine ⟨c, h.stay (aspect_setState_of_ne hj .reading) ?_ .rfl id⟩
      simp [hr, readerPoint?, hj]
  | echo hr hq =>
    refine ⟨c, h.stay rfl ?_ .rfl id⟩
    simp [hr, readerPoint?]
  | quit | die => exact ⟨c, h.stay rfl nofun .rfl id⟩
  | readerRead hr hc =>
    refine ⟨c, h.stay rfl ?_ .rfl id⟩
    simp [hr, readerPoint?]
  | @readerLand l fs j t got stop cs s hr he =>
    by_cases hj : j = i
    · subst hj
      exact (h.note cs s).readerLand hr
    · refine ⟨c, h.stay (aspect_landRead_of_ne _ hj got stop) ?_ .rfl ?_⟩
      · unfold landRead
        split <;> simp [hr, readerPoint?, hj]
      · unfold landRead
        split <;> exact id
  | @deliver l fs r hr hc hroom =>
    by_cases hi : r = .loaded i
    · subst hi
      exact h.deliver hr
    · refine ⟨c, h.stay rfl ?_ .rfl ?_⟩
      · by_cases ha : r = .allLoaded <;> simp [hr, ha, hi, readerPoint?]
      · simp [Ne.symm hi]
  | @receive l fs cursor r rs hc hr =>
    cases r with
    | loaded j =>
      by_cases hj : j = i
      · subst hj
        exact h.receive hr
      · have hreader := reader_receive { l with results := rs } (.loaded j)
        refine ⟨c, h.stay ?_ (fun _ hp => hreader ▸ hp) .rfl
          fun hm => hr ▸ .tail _ (results_receive _ _ hm)⟩
        exact ((samePages_receive _ j).aspect i).trans
          (aspect_placeParked_of_ne { l with results := rs } hj)
    | failed | allLoaded => exact ⟨c, h.stay rfl (fun _ hp => hp) .rfl nofun⟩

variable {loader : Loader W} {failure : Option LoadError} {m : Load W}

omit [Guest W] in
theorem Fresh.shows (h : l.Fresh) (hi : i ∈ l.index.stored) : Shows i ⟨l, 0⟩ {} where
  reachable := .start
  page := by
    simp only [aspect, h.empty_of_stored hi, h.parked, fills, h.placed]
    rfl
  idle := rfl
  reader p hp := by
    rcases h.reader with hr | hr <;> rw [hr] at hp
    · cases hp
    · exact Option.some.inj hp
  readByFault := by
    rintro ⟨t, ht⟩
    simp at ht
  noFault _ _ := rfl
  sent hr := by simp [h.results] at hr

/--
Lazy loads keep to the protocol: whatever happens around one, for every page that has to be read
the actors of the protocol could have taken steps that lead to what the load shows of the page.
-/
theorem keeps_protocol (hm : loader.StartsLazily failure m) (hs : Steps E ⟨m, 0⟩ x)
    (hi : i ∈ m.index.stored) : ∃ c, Shows i x c := by
  obtain ⟨hf, -⟩ := hm.fresh
  have hkeep := hs.keep (P := fun z => Orderly z ∧ ∃ c, Shows i z c)
    (fun _ _ hmove ⟨ho, c, hc⟩ => ⟨ho.move hmove, hc.move ho hmove⟩)
    ⟨hf.orderly, {}, hf.shows hi⟩
  exact hkeep.2

end

end Load
end RamRestore
