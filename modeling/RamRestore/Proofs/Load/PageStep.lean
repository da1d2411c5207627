import RamRestore.Proofs.Load.Move

/-! # What a move does to the pages

Of all moves only a few touch a page: a transfer begins, goes on, is given up or ends, and
what it brought is parked or handed to the guest. What holds of pages, of the guest and of
the transfers on their way is proved of these.
-/

namespace RamRestore

def Reader.transfer? : Reader → Option (Nat × Transfer)
  | .reading i t => some (i, t)
  | _ => none

namespace Load

def Service.transfer? : Service → Option (Nat × Transfer)
  | .reading i t => some (i, t)
  | .at _ => none

variable {W : Type}

def Session.transfers (x : Session W) : Multiset (Nat × Transfer) :=
  x.load.reader.transfer?.toList + x.faults.filterMap Service.transfer?

/-- All of a load that is about its pages. -/
structure Pages (W : Type) where
  index : Index
  slots : Table Slot
  guest : W
  moves : Array (Nat × PageState)
  begun : Array Nat
  placed : Array Placement

def pages (l : Load W) : Pages W := ⟨l.index, l.slots, l.guest, l.moves, l.begun, l.placed⟩

/-- All of a load that is about background work. -/
structure Background where
  capacity : Nat
  cursor : Option Cursor
  requests : List Request
  results : List Result
  reader : Reader
  complete : Bool

def background (l : Load W) : Background :=
  ⟨l.capacity, l.cursor, l.requests, l.results, l.reader, l.complete⟩

/-- All of a load that is about its source: the source itself, and the reads so far. -/
def inflow (l : Load W) : Source × Array ReadCall := (l.source, l.calls)

/-- Two loads that do not differ in anything about their pages. -/
def SamePages (l m : Load W) : Prop := m.pages = l.pages

section

variable {k l m : Load W}

theorem SamePages.refl (l : Load W) : SamePages l l := rfl

theorem SamePages.trans (h : SamePages k l) (h' : SamePages l m) : SamePages k m := Eq.trans h' h

theorem SamePages.index (h : SamePages l m) : m.index = l.index := congrArg Pages.index h

theorem SamePages.slots (h : SamePages l m) : m.slots = l.slots := congrArg Pages.slots h

theorem SamePages.guest (h : SamePages l m) : m.guest = l.guest := congrArg Pages.guest h

theorem SamePages.moves (h : SamePages l m) : m.moves = l.moves := congrArg Pages.moves h

theorem SamePages.begun (h : SamePages l m) : m.begun = l.begun := congrArg Pages.begun h

theorem SamePages.placed (h : SamePages l m) : m.placed = l.placed := congrArg Pages.placed h

theorem SamePages.state (h : SamePages l m) (i : Nat) : m.state i = l.state i := by
  simp only [Load.state, h.slots]

theorem SamePages.parked (h : SamePages l m) (i : Nat) : m.parked i = l.parked i := by
  simp only [Load.parked, h.slots]

theorem SamePages.setState (h : SamePages l m) (i : Nat) (s : PageState) :
    SamePages (l.setState i s) (m.setState i s) := by
  simp only [SamePages, pages, Load.setState, h.index, h.slots, h.guest, h.moves, h.begun,
    h.placed]

theorem SamePages.park (h : SamePages l m) (i : Nat) (c : Bytes) :
    SamePages (l.park i c) (m.park i c) := by
  simp only [SamePages, pages, Load.park, h.index, h.slots, h.guest, h.moves, h.begun, h.placed]

end

theorem state_handOver (l : Load W) (i j : Nat) (accepted : Bool) (guest : W) :
    (l.handOver i accepted guest).state j = l.state j := rfl

theorem parked_handOver (l : Load W) (i j : Nat) (accepted : Bool) (guest : W) :
    (l.handOver i accepted guest).parked j = l.parked j := rfl

variable [Guest W]

theorem fill_eq (l : Load W) (i : Nat) (c : Bytes) :
    l.fill i c =
      let answer := Guest.place l.guest (l.index.address i) c
      (answer.1.map (.fill (l.index.address i)),
        ((l.setState i .filling).handOver i answer.1.isNone answer.2).setState i
          (if answer.1.isNone then .filled else .error)) := by
  unfold fill place
  dsimp only [setState]
  split <;> simp [*]

theorem state_fill (l : Load W) (i j : Nat) (c : Bytes) :
    (l.fill i c).2.state j =
      if i = j then (if (l.fill i c).1.isNone then .filled else .error) else l.state j := by
  simp only [fill_eq, state_setState, state_handOver, Option.isNone_map]
  split <;> rfl

theorem parked_fill (l : Load W) (i j : Nat) (c : Bytes) :
    (l.fill i c).2.parked j = if i = j then none else l.parked j := by
  simp only [fill_eq, parked_setState, parked_handOver]
  split <;> rfl

theorem index_fill (l : Load W) (i : Nat) (c : Bytes) : (l.fill i c).2.index = l.index := by
  rw [fill_eq]
  rfl

theorem guest_fill (l : Load W) (i : Nat) (c : Bytes) :
    (l.fill i c).2.guest = (Guest.place l.guest (l.index.address i) c).2 := by
  rw [fill_eq]
  rfl

theorem moves_fill (l : Load W) (i : Nat) (c : Bytes) :
    (l.fill i c).2.moves = (l.moves.push (i, .filling)).push
      (i, if (l.fill i c).1.isNone then .filled else .error) := by
  rw [fill_eq]
  simp only [Option.isNone_map]
  rfl

theorem placed_fill (l : Load W) (i : Nat) (c : Bytes) :
    (l.fill i c).2.placed =
      l.placed.push ⟨i, l.index.address i, (l.fill i c).1.isNone⟩ := by
  rw [fill_eq]
  simp only [Option.isNone_map]
  rfl

theorem SamePages.fill {l m : Load W} (h : SamePages l m) (i : Nat) (c : Bytes) :
    SamePages (l.fill i c).2 (m.fill i c).2 := by
  simp only [SamePages, pages, fill_eq, Load.setState, handOver, h.index, h.slots, h.guest,
    h.moves, h.begun, h.placed]

/-- What one move does to the pages and to the transfers on their way. -/
inductive PageStep (x y : Session W) : Prop
  | stay (hp : SamePages x.load y.load) (ht : y.transfers = x.transfers)
  | claim (i : Nat) (hl : (∃ a, x.load.index.locate a = some i) ∨ .page i ∈ x.load.requests)
      (hs : x.load.state i = .empty) (hp : SamePages (x.load.claim i) y.load)
      (ht : y.transfers = (i, x.load.transfer i) ::ₘ x.transfers)
  | advance (i : Nat) (t t' : Transfer) (c : ReadCall) (ts : Multiset (Nat × Transfer))
      (hx : x.transfers = (i, t) ::ₘ ts) (h : t.call x.load.source = (c, .going t'))
      (hp : SamePages x.load y.load) (ht : y.transfers = (i, t') ::ₘ ts)
  /-- The reader dies in the middle of a page. -/
  | abandon (i : Nat) (t : Transfer) (hx : x.transfers = (i, t) ::ₘ y.transfers)
      (hp : SamePages x.load y.load)
  | park (i : Nat) (t : Transfer) (got c : Bytes) (stop : Transfer.Stop) (cs : List ReadCall)
      (s : Source) (hx : x.transfers = (i, t) ::ₘ y.transfers)
      (he : t.Ends x.load.source got stop cs s) (hc : x.load.contents i got stop = .ok c)
      (hp : SamePages (x.load.park i c) y.load)
  | fail (i : Nat) (t : Transfer) (got : Bytes) (cause : LoadError) (stop : Transfer.Stop)
      (cs : List ReadCall) (s : Source) (hx : x.transfers = (i, t) ::ₘ y.transfers)
      (he : t.Ends x.load.source got stop cs s)
      (hc : x.load.contents i got stop = .error cause)
      (hp : SamePages (x.load.setState i .error) y.load)
  | fill (i : Nat) (t : Transfer) (got c : Bytes) (stop : Transfer.Stop) (cs : List ReadCall)
      (s : Source) (hx : x.transfers = (i, t) ::ₘ y.transfers)
      (he : t.Ends x.load.source got stop cs s) (hc : x.load.contents i got stop = .ok c)
      (hp : SamePages (x.load.fill i c).2 y.load)
  | fillParked (i : Nat) (c : Bytes) (hs : x.load.state i = .read)
      (hc : x.load.parked i = some c) (hp : SamePages (x.load.fill i c).2 y.load)
      (ht : y.transfers = x.transfers)
  /-- A page that was read has no contents parked. -/
  | lose (i : Nat) (hs : x.load.state i = .read) (hc : x.load.parked i = none)
      (hp : SamePages (x.load.setState i .error) y.load) (ht : y.transfers = x.transfers)

section

variable {l l' m : Load W} {fs : Multiset Service} {i : Nat}

omit [Guest W] in
theorem transfers_congr (h : m.background = l.background) (fs : Multiset Service) :
    Session.transfers ⟨m, fs⟩ = Session.transfers ⟨l, fs⟩ := by
  have hr : m.reader = l.reader := congrArg Background.reader h
  simp only [Session.transfers, hr]

omit [Guest W] in
@[simp] theorem transfers_cons_at (l : Load W) (a : Nat) (fs : Multiset Service) :
    Session.transfers ⟨l, .at a ::ₘ fs⟩ = Session.transfers ⟨l, fs⟩ := by
  have h : (Service.at a).transfer? = none := rfl
  simp only [Session.transfers, Multiset.filterMap_cons_none _ _ h]

omit [Guest W] in
@[simp] theorem transfers_cons_reading (l : Load W) (i : Nat) (t : Transfer)
    (fs : Multiset Service) :
    Session.transfers ⟨l, .reading i t ::ₘ fs⟩ = (i, t) ::ₘ Session.transfers ⟨l, fs⟩ := by
  have h : (Service.reading i t).transfer? = some (i, t) := rfl
  simp only [Session.transfers, Multiset.filterMap_cons_some _ _ _ h, Multiset.add_cons]

omit [Guest W] in
theorem mem_transfers {x : Session W} {t : Transfer} :
    (i, t) ∈ x.transfers ↔ x.load.reader = .reading i t ∨ .reading i t ∈ x.faults := by
  have hreader : (i, t) ∈ x.load.reader.transfer?.toList ↔ x.load.reader = .reading i t := by
    cases x.load.reader with
    | reading j u => simp [Reader.transfer?, eq_comm]
    | _ => simp [Reader.transfer?]
  simp only [Session.transfers, Multiset.mem_add, Multiset.mem_coe, hreader,
    Multiset.mem_filterMap]
  refine or_congr_right ⟨?_, fun h => ⟨_, h, rfl⟩⟩
  rintro ⟨f, hf, ht⟩
  cases f with
  | «at» a => cases ht
  | reading j u =>
    cases ht
    exact hf

omit [Guest W] in
theorem transfers_of_reading {t : Transfer} (hr : l.reader = .reading i t)
    (hm : m.reader.transfer? = none) (fs : Multiset Service) :
    Session.transfers ⟨l, fs⟩ = (i, t) ::ₘ Session.transfers ⟨m, fs⟩ := by
  simp only [Session.transfers, hr, hm]
  simp [Reader.transfer?]

omit [Guest W] in
theorem samePages_recordAny (l : Load W) (e : Option LoadError) : SamePages l (l.recordAny e) := by
  cases e <;> exact rfl

omit [Guest W] in
theorem background_recordAny (l : Load W) (e : Option LoadError) :
    (l.recordAny e).background = l.background := by
  cases e <;> rfl

theorem background_fill (l : Load W) (i : Nat) (c : Bytes) :
    (l.fill i c).2.background = l.background := by
  rw [fill_eq]
  rfl

/-- What neither filling page `i` nor giving it up changes, placing it does not change. -/
theorem placeParked_keeps {α : Type} (f : Load W → α) (hf : ∀ c, f (l.fill i c).2 = f l)
    (hs : f (l.setState i .error) = f l) : f (l.placeParked i).2 = f l := by
  unfold placeParked
  split
  · split
    · exact hf _
    · exact hs
  · rfl
  · rfl

theorem background_placeParked (l : Load W) (i : Nat) :
    (l.placeParked i).2.background = l.background :=
  placeParked_keeps background (background_fill l i) rfl

theorem background_land (l : Load W) (i : Nat) (got : Bytes) (stop : Transfer.Stop) :
    (l.land i got stop).background = l.background := by
  unfold land
  split
  · rfl
  · rw [background_recordAny, background_fill]

theorem failure_fill (l : Load W) (i : Nat) (c : Bytes) : (l.fill i c).2.failure = l.failure := by
  rw [fill_eq]
  rfl

theorem failure_placeParked (l : Load W) (i : Nat) : (l.placeParked i).2.failure = l.failure :=
  placeParked_keeps failure (failure_fill l i) rfl

theorem index_placeParked (l : Load W) (i : Nat) : (l.placeParked i).2.index = l.index :=
  placeParked_keeps index (index_fill l i) rfl

theorem state_placeParked (h : l.placeParked i = (none, l')) (j : Nat) :
    l'.state j = if i = j then .filled else l.state j := by
  unfold placeParked at h
  split at h
  · split at h
    · rename_i c _
      have hs := state_fill l i j c
      rwa [h] at hs
    · simp at h
  · rename_i hs
    cases h
    split
    · rename_i hij
      rw [← hij, hs]
    · rfl
  · simp at h

theorem background_takeOver (l : Load W) (i : Nat) : (l.takeOver i).background = l.background :=
  (background_recordAny _ _).trans (background_placeParked l i)

theorem receive_placed (h : (l.placeParked i).1 = none) :
    l.receive (.loaded i) = (.runAgain, (l.placeParked i).2) := by
  unfold receive
  dsimp only
  rw [Prod.ext (y := (none, (l.placeParked i).2)) h rfl]

theorem receive_unplaced {cause : LoadError} (h : (l.placeParked i).1 = some cause) :
    l.receive (.loaded i) = (l.placeParked i).2.failBackground cause := by
  unfold receive
  dsimp only
  rw [Prod.ext (y := (some cause, (l.placeParked i).2)) h rfl]

theorem samePages_receive (l : Load W) (i : Nat) :
    SamePages (l.placeParked i).2 (l.receive (.loaded i)).2 := by
  cases hp : (l.placeParked i).1 with
  | none =>
    rw [receive_placed hp]
    exact .refl _
  | some cause =>
    rw [receive_unplaced hp]
    rfl

omit [Guest W] in
theorem background_interrupt_congr (h : m.background = l.background) :
    m.interrupt.background = l.interrupt.background :=
  congrArg (fun b : Background => (⟨b.capacity, none, b.requests, [], b.reader, true⟩ : Background))
    h

/-- What the idle callback receives either leaves background work as it is or ends it. -/
theorem background_receive (l : Load W) (r : Result) :
    (l.receive r).2.background = l.background ∨
      (l.receive r).2.background = l.interrupt.background := by
  cases r with
  | loaded i =>
    have hb := background_placeParked l i
    cases hp : (l.placeParked i).1 with
    | none =>
      rw [receive_placed hp]
      exact .inl hb
    | some cause =>
      rw [receive_unplaced hp]
      exact .inr (background_interrupt_congr hb)
  | failed | allLoaded => exact .inr rfl

theorem reader_receive (l : Load W) (r : Result) : (l.receive r).2.reader = l.reader := by
  obtain hb | hb := background_receive l r <;> exact congrArg Background.reader hb

theorem requests_receive (l : Load W) (r : Result) : (l.receive r).2.requests = l.requests := by
  obtain hb | hb := background_receive l r <;> exact congrArg Background.requests hb

theorem results_receive (l : Load W) (r : Result) : (l.receive r).2.results ⊆ l.results := by
  obtain hb | hb := background_receive l r
  · rw [show (l.receive r).2.results = l.results from congrArg Background.results hb]
    exact List.Subset.refl _
  · rw [show (l.receive r).2.results = [] from congrArg Background.results hb]
    exact List.nil_subset _

theorem PageStep.of_placeParked {x y : Session W} (hl : SamePages x.load l)
    (hp : SamePages (l.placeParked i).2 y.load) (ht : y.transfers = x.transfers) :
    PageStep x y := by
  unfold placeParked at hp
  split at hp
  · rename_i hs
    rw [hl.state] at hs
    split at hp
    · rename_i c hc
      rw [hl.parked] at hc
      exact .fillParked i c hs hc ((hl.fill i c).trans hp) ht
    · rename_i hc
      rw [hl.parked] at hc
      exact .lose i hs hc ((hl.setState i .error).trans hp) ht
  · exact .stay (hl.trans hp) ht
  · exact .stay (hl.trans hp) ht

theorem PageStep.of_land {t : Transfer} {got : Bytes} {stop : Transfer.Stop}
    {cs : List ReadCall} {s : Source} (he : t.Ends l.source got stop cs s) :
    PageStep ⟨l, .reading i t ::ₘ fs⟩ ⟨(l.note cs s).land i got stop, fs⟩ := by
  have ht := transfers_congr (background_land (l.note cs s) i got stop) fs
  have hx : Session.transfers ⟨l, .reading i t ::ₘ fs⟩ =
      (i, t) ::ₘ Session.transfers ⟨(l.note cs s).land i got stop, fs⟩ := by
    rw [transfers_cons_reading, ht]
    rfl
  have hn : SamePages l (l.note cs s) := rfl
  have hcontents : (l.note cs s).contents = l.contents := contents_congr rfl
  unfold land at hx ⊢
  split at hx
  · rename_i cause hc
    rw [hcontents] at hc
    exact .fail i t got cause stop cs s hx he hc rfl
  · rename_i c hc
    rw [hcontents] at hc
    exact .fill i t got c stop cs s hx he hc ((hn.fill i c).trans (samePages_recordAny _ _))

theorem PageStep.of_landRead {t : Transfer} {got : Bytes} {stop : Transfer.Stop}
    {cs : List ReadCall} {s : Source} (hr : l.reader = .reading i t)
    (he : t.Ends l.source got stop cs s) :
    PageStep ⟨l, fs⟩ ⟨(l.note cs s).landRead i got stop, fs⟩ := by
  have hcontents : (l.note cs s).contents = l.contents := contents_congr rfl
  unfold landRead
  split
  · rename_i c hc
    rw [hcontents] at hc
    exact .park i t got c stop cs s (transfers_of_reading hr rfl fs) he hc
      rfl
  · rename_i cause hc
    rw [hcontents] at hc
    exact .fail i t got cause stop cs s (transfers_of_reading hr rfl fs) he hc
      rfl

theorem PageStep.of_receive {rs : List Result} (r : Result) :
    PageStep ⟨l, fs⟩ ⟨({ l with results := rs }.receive r).2, fs⟩ := by
  have hl : SamePages l { l with results := rs } := rfl
  cases r with
  | loaded i =>
    have hr := reader_receive { l with results := rs } (.loaded i)
    exact .of_placeParked hl (samePages_receive _ i) (by simp only [Session.transfers, hr])
  | failed cause => exact .stay rfl rfl
  | allLoaded => exact .stay rfl rfl

theorem Move.pageStep {E : Surroundings} {x y : Session W} (h : Move E x y) : PageStep x y := by
  cases h with
  | arrive => exact .stay (.refl _) (transfers_cons_at ..)
  | unmapped => exact .stay rfl (transfers_cons_at ..).symm
  | @takeOver l fs a i =>
    refine .of_placeParked (.refl _) (samePages_recordAny _ (l.placeParked i).1) ?_
    rw [transfers_cons_at]
    exact transfers_congr (background_takeOver l i) fs
  | @claim l fs a i hl hs =>
    refine .claim i (.inl ⟨a, hl⟩) hs (.refl _) ?_
    rw [transfers_cons_reading, transfers_cons_at]
    rfl
  | @read l fs i t t' c h =>
    refine .advance i t t' c _ (transfers_cons_reading ..) h rfl ?_
    rw [transfers_cons_reading]
    rfl
  | land he => exact .of_land he
  | skip hr => exact .stay rfl rfl
  | @readerClaim l fs i q hr hq hs =>
    refine .claim i (.inr (by simp [hq])) hs rfl ?_
    simp [Session.transfers, hr, Reader.transfer?]
  | echo hr =>
    refine .stay rfl ?_
    simp [Session.transfers, hr, Reader.transfer?]
  | quit hc hr =>
    refine .stay rfl ?_
    rcases hr with ⟨hr, -⟩ | ⟨r, hr⟩ <;> simp [Session.transfers, hr, Reader.transfer?]
  | die hr => exact .abandon _ _ (transfers_of_reading hr rfl _) rfl
  | @readerRead l fs i t t' c hr h =>
    refine .advance i t t' c (fs.filterMap Service.transfer?) ?_ h rfl ?_
    · simp [Session.transfers, hr, Reader.transfer?]
    · simp [Session.transfers, Reader.transfer?]
  | readerLand hr he => exact .of_landRead hr he
  | @deliver l fs r hr =>
    refine .stay rfl ?_
    by_cases ha : r = .allLoaded <;> simp [Session.transfers, hr, ha, Reader.transfer?]
  | ended => exact .stay rfl rfl
  | receive => exact .of_receive _
  | gone => exact .stay rfl rfl
  | look => exact .stay rfl rfl
  | ask => exact .stay rfl rfl
  | askEnd => exact .stay rfl rfl
  | interrupt => exact .stay rfl rfl
  | source => exact .stay rfl rfl

/-- What holds of a transfer when it begins, and goes on to hold, holds of all that are on their
way. -/
theorem PageStep.transfers_keep {x y : Session W} {P : Nat × Transfer → Prop} (h : PageStep x y)
    (hbegin : ∀ i, ((∃ a, x.load.index.locate a = some i) ∨ .page i ∈ x.load.requests) →
      x.load.state i = .empty → P (i, x.load.transfer i))
    (hgo : ∀ i t t' c, P (i, t) → t.call x.load.source = (c, .going t') → P (i, t'))
    (hx : ∀ p ∈ x.transfers, P p) : ∀ p ∈ y.transfers, P p := by
  have hended : ∀ {q}, x.transfers = q ::ₘ y.transfers → ∀ p ∈ y.transfers, P p :=
    fun hq p hp => hx p (hq ▸ Multiset.mem_cons_of_mem hp)
  cases h with
  | stay _ ht | fillParked _ _ _ _ _ ht | lose _ _ _ _ ht => exact ht ▸ hx
  | claim i hl he _ ht =>
    intro p hp
    rw [ht, Multiset.mem_cons] at hp
    rcases hp with rfl | hp
    · exact hbegin i hl he
    · exact hx p hp
  | advance i t t' c ts hts hc _ ht =>
    intro p hp
    rw [ht, Multiset.mem_cons] at hp
    rcases hp with rfl | hp
    · exact hgo i t t' c (hx _ (hts ▸ Multiset.mem_cons_self _ _)) hc
    · exact hx p (hts ▸ Multiset.mem_cons_of_mem hp)
  | abandon _ _ hq | park _ _ _ _ _ _ _ hq | fail _ _ _ _ _ _ _ hq | fill _ _ _ _ _ _ _ hq =>
    exact hended hq

theorem PageStep.parked_cases {x y : Session W} {c : Bytes} (h : PageStep x y)
    (hy : y.load.parked i = some c) :
    (x.load.parked i = some c ∧ y.load.state i = x.load.state i) ∨
      y.load.state i = .read ∧ ∃ t got stop cs s, (i, t) ∈ x.transfers ∧
        t.Ends x.load.source got stop cs s ∧ x.load.contents i got stop = .ok c := by
  have hset : ∀ {m : Load W} {j : Nat} {s : PageState}, SamePages m y.load →
      (∀ i, m.state i = if j = i then s else x.load.state i) →
      (∀ i, m.parked i = if j = i then none else x.load.parked i) →
      x.load.parked i = some c ∧ y.load.state i = x.load.state i := by
    intro m j s hp hs hn
    rw [hp.parked, hn] at hy
    split at hy
    · cases hy
    · rename_i hij
      exact ⟨hy, by rw [hp.state, hs, if_neg hij]⟩
  cases h with
  | stay hp | advance _ _ _ _ _ _ _ hp | abandon _ _ _ hp =>
    exact .inl ⟨hp.parked i ▸ hy, hp.state i⟩
  | claim j _ _ hp => exact .inl (hset hp (state_claim x.load j) (parked_claim x.load j))
  | fail j _ _ _ _ _ _ _ _ _ hp | lose j _ _ hp =>
    exact .inl (hset hp (state_setState x.load j · .error) (parked_setState x.load j · .error))
  | fill j _ _ c' _ _ _ _ _ _ hp | fillParked j c' _ _ hp =>
    exact .inl (hset hp (state_fill x.load j · c') (parked_fill x.load j · c'))
  | park j t got c' stop cs s hts he hc hp =>
    rw [hp.parked, parked_park] at hy
    rw [hp.state, state_park]
    split at hy
    · rename_i hij
      subst hij
      cases hy
      refine .inr ⟨if_pos rfl, t, got, stop, cs, s, ?_, he, hc⟩
      rw [hts]
      exact Multiset.mem_cons_self _ _
    · rename_i hij
      exact .inl ⟨hy, if_neg hij⟩

theorem inflow_fill (l : Load W) (i : Nat) (c : Bytes) : (l.fill i c).2.inflow = l.inflow := by
  rw [fill_eq]
  rfl

omit [Guest W] in
theorem inflow_recordAny (l : Load W) (e : Option LoadError) :
    (l.recordAny e).inflow = l.inflow := by
  cases e <;> rfl

theorem inflow_placeParked (l : Load W) (i : Nat) : (l.placeParked i).2.inflow = l.inflow :=
  placeParked_keeps inflow (inflow_fill l i) rfl

theorem inflow_land (l : Load W) (i : Nat) (got : Bytes) (stop : Transfer.Stop) :
    (l.land i got stop).inflow = l.inflow := by
  unfold land
  split
  · rfl
  · rw [inflow_recordAny, inflow_fill]

omit [Guest W] in
theorem inflow_landRead (l : Load W) (i : Nat) (got : Bytes) (stop : Transfer.Stop) :
    (l.landRead i got stop).inflow = l.inflow := by
  unfold landRead
  split <;> rfl

theorem inflow_receive (l : Load W) (r : Result) : (l.receive r).2.inflow = l.inflow := by
  cases r with
  | loaded i =>
    have h := inflow_placeParked l i
    cases hp : (l.placeParked i).1 with
    | none => rwa [receive_placed hp]
    | some cause =>
      rw [receive_unplaced hp]
      exact h
  | failed => rfl
  | allLoaded => rfl

theorem sameAnswers_of_ends {t : Transfer} {s s' : Source} {got : Bytes} {stop : Transfer.Stop}
    {cs : List ReadCall} (h : t.Ends s got stop cs s') : Source.SameAnswers s s' := by
  cases h with
  | full => exact .refl s
  | stopped => exact Source.sameAnswers_after s _

/-- The reads of a move, and the source after it. -/
theorem Move.inflow {E : Surroundings} {x y : Session W} (h : Move E x y) :
    (∃ cs s, y.load.inflow = (x.load.note cs s).inflow ∧ Source.SameAnswers x.load.source s) ∨
      y.load.calls = x.load.calls ∧ E.source x.load.source y.load.source := by
  have hsame : y.load.inflow = x.load.inflow →
      ∃ cs s, y.load.inflow = (x.load.note cs s).inflow ∧
        Source.SameAnswers x.load.source s := by
    intro hi
    refine ⟨[], x.load.source, ?_, .refl _⟩
    rw [hi, note_nil]
  cases h with
  | takeOver => exact .inl (hsame ((inflow_recordAny _ _).trans (inflow_placeParked _ _)))
  | read | readerRead => exact .inl ⟨_, _, rfl, Source.sameAnswers_after _ _⟩
  | land he => exact .inl ⟨_, _, inflow_land .., sameAnswers_of_ends he⟩
  | readerLand _ he => exact .inl ⟨_, _, inflow_landRead .., sameAnswers_of_ends he⟩
  | die => exact .inl ⟨_, _, rfl, .refl _⟩
  | receive => exact .inl (hsame (inflow_receive _ _))
  | source h => exact .inr ⟨rfl, h⟩
  | _ => exact .inl (hsame rfl)

theorem Move.index {E : Surroundings} {x y : Session W} (h : Move E x y) :
    y.load.index = x.load.index := by
  cases h.pageStep with
  | stay hp | claim _ _ _ hp | advance _ _ _ _ _ _ _ hp | abandon _ _ _ hp
  | park _ _ _ _ _ _ _ _ _ _ hp | fail _ _ _ _ _ _ _ _ _ _ hp | lose _ _ _ hp =>
    exact hp.index
  | fill _ _ _ _ _ _ _ _ _ _ hp | fillParked _ _ _ _ hp =>
    rw [hp.index, index_fill]

theorem Moves.index {E : Surroundings} {x y : Session W} (h : Moves E x y) :
    y.load.index = x.load.index :=
  h.keep (P := fun z => z.load.index = x.load.index) (fun _ _ hm hx => hm.index.trans hx) rfl

theorem Steps.index {E : Surroundings} {x y : Session W} (h : Steps E x y) :
    y.load.index = x.load.index := h.moves.index

end

end Load
end RamRestore
