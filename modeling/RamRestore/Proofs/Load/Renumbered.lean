import RamRestore.Proofs.Index.Renumbered
import RamRestore.Proofs.Load.Alike
import RamRestore.Proofs.Load.Listening

/-! # Loads of renumbered indexes

A load pays no heed to how its index numbers the blocks: with another index of the same pages it
does the same. For this, whatever the load and its faults name has to be a page of the index, since
what is no page belongs to whichever block comes first.
-/

namespace RamRestore.Load

variable {W : Type}

/-! ## Pages that are named -/

/-- Requests, transfers and results only name pages of the index. -/
structure Known (s : Session W) : Prop where
  orderly : Orderly s
  loaded : ∀ i, .loaded i ∈ s.load.pending → i < s.load.index.pages.size

section

variable {s : Session W} {l : Load W} {fs : Multiset Service} {i : Nat} {t : Transfer}

theorem Orderly.lt_of_transfer (h : Orderly s) (ht : (i, t) ∈ s.transfers) :
    i < s.load.index.pages.size := by
  have hr := h.reading (i, t) ht
  exact (Index.mem_stored.1 (h.stored_of_state (i := i) (by simp [hr]) (by simp [hr]))).1

variable [Guest W] {E : Surroundings} {x y : Session W}

omit [Guest W] in
theorem mem_pending_of_unoffered {m : Load W} {r : Result} (h : r ∈ m.pending)
    (hm : m.reader.offered = []) (hr : m.results = l.results) : r ∈ l.pending := by
  rw [pending, hm, List.append_nil, hr] at h
  exact List.mem_append_left _ h

theorem mem_pending_of_receive {r r' : Result} (h : r' ∈ (l.receive r).2.pending) :
    r' ∈ l.pending := by
  rw [pending, reader_receive] at h
  exact (List.mem_append.1 h).elim
    (fun hm => List.mem_append_left _ (results_receive l r hm)) (List.mem_append_right _)

omit [Guest W] in
theorem mem_pending_of_landRead {got : Bytes} {stop : Transfer.Stop} {j : Nat}
    (h : .loaded j ∈ (l.landRead i got stop).pending) : .loaded j ∈ l.results ∨ j = i := by
  unfold landRead at h
  split at h
  · rcases List.mem_append.1 h with h | h
    · exact .inl h
    · exact .inr (Result.loaded.inj (List.mem_singleton.1 h))
  · rcases List.mem_append.1 h with h | h
    · exact .inl h
    · cases List.mem_singleton.1 h

/-- Only pages that were being read are reported. -/
theorem Move.mem_loaded (ho : Orderly x) (h : Move E x y) {j : Nat}
    (hj : .loaded j ∈ y.load.pending) :
    .loaded j ∈ x.load.pending ∨ j < x.load.index.pages.size := by
  cases h with
  | @takeOver l _ _ i => exact .inl (pending_congr (background_takeOver l i) ▸ hj)
  | @land l _ i t got stop cs s =>
    exact .inl (pending_congr (background_land (l.note cs s) i got stop) ▸ hj)
  | readerClaim => exact .inl (mem_pending_of_unoffered hj rfl rfl)
  | echo hr => exact .inl (by simpa [pending, hr] using hj)
  | quit => exact .inl (mem_pending_of_unoffered hj rfl rfl)
  | die => exact .inl (mem_pending_of_unoffered hj rfl rfl)
  | readerRead => exact .inl (mem_pending_of_unoffered hj rfl rfl)
  | readerLand hr =>
    rcases mem_pending_of_landRead hj with hj | rfl
    · exact .inl (List.mem_append_left _ hj)
    · exact .inr (ho.lt_of_transfer (mem_transfers.2 (.inl hr)))
  | deliver hr =>
    refine .inl ?_
    simp only [pending, hr] at hj ⊢
    split at hj <;> simpa using hj
  | receive hc hr =>
    have hj := mem_pending_of_receive hj
    simp only [pending, hr] at hj ⊢
    exact .inl (.tail _ hj)
  | gone => exact .inl (List.mem_append_right _ hj)
  | interrupt => exact .inl (List.mem_append_right _ hj)
  | _ => exact .inl hj

theorem Known.move (hx : Known x) (h : Move E x y) : Known y where
  orderly := hx.orderly.move h
  loaded j hj := h.index ▸ (h.mem_loaded hx.orderly hj).elim (hx.loaded j) id

omit [Guest W] in
theorem Known.lt_of_reader (h : Known ⟨l, fs⟩) (hr : l.reader = .reading i t) :
    i < l.index.pages.size :=
  h.orderly.lt_of_transfer (mem_transfers.2 (.inl hr))

omit [Guest W] in
theorem Known.lt_of_fault (h : Known ⟨l, fs⟩) (hf : .reading i t ∈ fs) :
    i < l.index.pages.size :=
  h.orderly.lt_of_transfer (mem_transfers.2 (.inr hf))

theorem Known.steps (hx : Known x) (h : Steps E x y) : Known y :=
  h.keep (fun _ _ hm hx => hx.move hm) hx

end

/-! ## The same with other numbers -/

def onIndex (l : Load W) (x : Index) : Load W := { l with index := x }

section

variable {l : Load W} {x : Index} {i : Nat}

/-- What does the same with another index leaves the index as it is. -/
theorem index_of_onIndex {α : Type} {f : Load W → α × Load W}
    (hf : f (l.onIndex l.index) = ((f l).1, (f l).2.onIndex l.index)) :
    (f l).2.index = l.index :=
  congrArg (fun y => y.2.index) hf

theorem recordAny_onIndex (l : Load W) (x : Index) (failure : Option LoadError) :
    (l.onIndex x).recordAny failure = (l.recordAny failure).onIndex x := by
  cases failure <;> rfl

variable (h : l.index.Renumbered x)

include h

theorem transfer_onIndex (i : Nat) : (l.onIndex x).transfer i = l.transfer i := by
  simp only [transfer, onIndex, h.position, h.size]

theorem beginTransfer_onIndex (i : Nat) : (l.onIndex x).beginTransfer i =
    ((l.beginTransfer i).1, (l.beginTransfer i).2.onIndex x) :=
  Prod.ext (transfer_onIndex h i) rfl

theorem readFailure?_onIndex (hi : i < l.index.pages.size) :
    (l.onIndex x).readFailure? i = l.readFailure? i := by
  funext got stop
  cases stop <;> simp only [readFailure?, onIndex, h.address hi, h.position, h.size]

theorem contents_onIndex (hi : i < l.index.pages.size) :
    (l.onIndex x).contents i = l.contents i := by
  funext got stop
  simp only [contents, decode, readFailure?_onIndex h hi]
  simp only [onIndex, h.compressed, h.address hi, h.pageSize hi]

theorem nextEmpty_onIndex (i : Nat) : (l.onIndex x).nextEmpty i = l.nextEmpty i := by
  have hpages : (l.onIndex x).index.pages.size = l.index.pages.size := h.pages
  have hstate : (l.onIndex x).state = l.state := rfl
  fun_induction nextEmpty l i with
  | case1 i hi he =>
    rw [nextEmpty]
    simp only [hpages, hstate, hi, he, ↓reduceDIte, ↓reduceIte]
  | case2 i hi he ih =>
    rw [nextEmpty]
    simp only [hpages, hstate, hi, he, ih, ↓reduceDIte, ↓reduceIte]
  | case3 i hi =>
    rw [nextEmpty]
    simp only [hpages, hi, ↓reduceDIte]

theorem queueReads_onIndex (c : Cursor) (n : Nat) : (l.onIndex x).queueReads c n =
    ((l.queueReads c n).1, (l.queueReads c n).2.onIndex x) := by
  have hpages : (l.onIndex x).index.pages.size = l.index.pages.size := h.pages
  have hcan : (l.onIndex x).canRequest = l.canRequest := rfl
  induction n generalizing l c with
  | zero => rfl
  | succ n ih =>
    unfold queueReads
    simp only [nextEmpty_onIndex h, hpages, hcan]
    split
    · split <;> rfl
    · split
      · exact ih (l := l.request _ _) h _ h.pages rfl
      · rfl

variable [Guest W]

theorem fill_onIndex (hi : i < l.index.pages.size) (contents : Bytes) :
    (l.onIndex x).fill i contents =
      ((l.fill i contents).1, (l.fill i contents).2.onIndex x) := by
  rcases hp : Guest.place l.guest (l.index.address i) contents with ⟨_ | cause, guest⟩ <;>
    simp only [fill, place, handOver, onIndex, setState, h.address hi, hp]

theorem placeParked_onIndex (hi : i < l.index.pages.size) :
    (l.onIndex x).placeParked i =
      ((l.placeParked i).1, (l.placeParked i).2.onIndex x) := by
  have haddress : (l.onIndex x).index.address i = l.index.address i := h.address hi
  have hstate : (l.onIndex x).state i = l.state i := rfl
  have hparked : (l.onIndex x).parked i = l.parked i := rfl
  unfold placeParked
  rw [hstate, hparked, haddress]
  split
  · split
    · exact fill_onIndex h hi _
    · rfl
  · rfl
  · rfl

theorem takeOver_onIndex (hi : i < l.index.pages.size) :
    (l.onIndex x).takeOver i = (l.takeOver i).onIndex x := by
  simp only [takeOver, placeParked_onIndex h hi, recordAny_onIndex]

theorem land_onIndex (hi : i < l.index.pages.size) (got : Bytes) (stop : Transfer.Stop) :
    (l.onIndex x).land i got stop = (l.land i got stop).onIndex x := by
  unfold land
  rw [contents_onIndex h hi]
  split
  · rfl
  · simp only [fill_onIndex h hi, recordAny_onIndex]

theorem receive_onIndex {r : Result} (hr : ∀ i, r = .loaded i → i < l.index.pages.size) :
    (l.onIndex x).receive r = ((l.receive r).1, (l.receive r).2.onIndex x) := by
  cases r with
  | loaded i =>
    rcases hp : l.placeParked i with ⟨_ | cause, l'⟩
    · simp only [receive, placeParked_onIndex h (hr i rfl), hp]
    · simp only [receive, placeParked_onIndex h (hr i rfl), hp]
      rfl
  | failed cause => rfl
  | allLoaded => rfl

theorem idle_onIndex (hr : ∀ i, .loaded i ∈ l.results → i < l.index.pages.size) :
    (l.onIndex x).idle = (l.idle.1, l.idle.2.onIndex x) := by
  have hcursor : (l.onIndex x).cursor = l.cursor := rfl
  have hresults : (l.onIndex x).results = l.results := rfl
  have hreader : (l.onIndex x).reader = l.reader := rfl
  cases hc : l.cursor with
  | none =>
    simp only [idle, hcursor, hc]
    rfl
  | some c =>
    cases hq : l.results with
    | cons r results =>
      simp only [idle, hcursor, hc, hresults, hq]
      refine receive_onIndex (l := { l with results, cursor := some c }) h fun i he => hr i ?_
      rw [hq, he]
      exact List.mem_cons_self
    | nil =>
      cases hd : l.reader with
      | ended =>
        simp only [idle, hcursor, hc, hresults, hq, hreader, hd]
        rfl
      | _ =>
        simp only [idle, hcursor, hc, hresults, hq, hreader, hd]
        exact queueReads_onIndex h ..

def Encounter.onIndex (x : Index) : Encounter W → Encounter W
  | .settled l => .settled (l.onIndex x)
  | .busy => .busy
  | .claimed i l => .claimed i (l.onIndex x)

theorem encounter_onIndex (hw : l.index.WellFormed) (a : Nat) :
    (l.onIndex x).encounter a = (l.encounter a).onIndex x := by
  have hlocate : (l.onIndex x).index.locate a = l.index.locate a := h.locate a
  have hstate : (l.onIndex x).state = l.state := rfl
  unfold encounter
  rw [hlocate, hstate]
  split
  · rfl
  · rename_i i hl
    split
    · rfl
    · rfl
    · rfl
    · simp only [takeOver_onIndex h (Index.locate_lt hw hl), Encounter.onIndex]

theorem startBackground_onIndex (threads : Threads) : (l.onIndex x).startBackground threads =
    ((l.startBackground threads).1, (l.startBackground threads).2.onIndex x) := by
  rcases hr : registerAll l.guest l.index.ranges with ⟨_ | cause, guest⟩
  · rcases ht : threads.refusesReader with _ | cause
    · rcases ha : Guest.arm guest with cause | guest' <;>
        simp only [startBackground, onIndex, h.ranges, hr, ht, ha]
    · simp only [startBackground, onIndex, h.ranges, hr, ht]
  · simp only [startBackground, onIndex, h.ranges, hr]

theorem unpackInPlace_onIndex (hi : i < l.index.pages.size) (data : Bytes) :
    (l.onIndex x).unpackInPlace i data =
      ((l.unpackInPlace i data).1, (l.unpackInPlace i data).2.onIndex x) := by
  unfold unpackInPlace
  simp only [onIndex, setState, write, spoil, h.address hi, h.pageSize hi]
  split <;> rfl

theorem landInPlace_onIndex (hi : i < l.index.pages.size) (got : Bytes) (stop : Transfer.Stop) :
    (l.onIndex x).landInPlace i got stop =
      ((l.landInPlace i got stop).1, (l.landInPlace i got stop).2.onIndex x) := by
  have hwrite : (l.onIndex x).write i got = (l.write i got).onIndex x := by
    simp only [write, onIndex, h.address hi]
  have hx : ∀ k : Load W, k.index = l.index →
      (k.onIndex x).index.compressed = l.index.compressed := fun _ _ => h.compressed
  unfold landInPlace
  rw [hx l rfl]
  cases hc : l.index.compressed with
  | true =>
    simp only [↓reduceIte, readFailure?_onIndex h hi, hx l rfl, hc]
    split <;> rfl
  | false =>
    have hw : (l.write i got).index.compressed = false := hc
    simp only [Bool.false_eq_true, ↓reduceIte, hwrite,
      readFailure?_onIndex (l := l.write i got) h hi, hx (l.write i got) rfl, hc, hw]
    split <;> rfl

omit [Guest W] in
theorem fetch_onIndex (i : Nat) : (l.onIndex x).fetch i =
    ((l.fetch i).1, (l.fetch i).2.1, (l.fetch i).2.2.onIndex x) := by
  simp only [fetch, beginTransfer_onIndex h]
  rfl

theorem readInPlace_onIndex (hi : i < l.index.pages.size) : (l.onIndex x).readInPlace i =
    ((l.readInPlace i).1, (l.readInPlace i).2.onIndex x) := by
  by_cases he : l.state i = .empty
  · have hf := fetch_onIndex (l := l.setState i .reading) h i
    rw [readInPlace_eq_landInPlace (l := l.onIndex x) he hf, readInPlace_eq_landInPlace he rfl]
    exact landInPlace_onIndex (l := ((l.setState i .reading).fetch i).2.2) h hi _ _
  · rw [readInPlace_of_not_empty he, readInPlace_of_not_empty (l := l.onIndex x) he]

omit [Guest W] in
theorem failPage_onIndex (hi : i < l.index.pages.size) (cause : LoadError) :
    (l.onIndex x).failPage i cause =
      ((l.failPage i cause).1, (l.failPage i cause).2.onIndex x) := by
  simp only [failPage, onIndex, h.address hi]
  rfl

theorem loadInline_onIndex {is : List Nat} (his : ∀ i ∈ is, i < l.index.pages.size) :
    (l.onIndex x).loadInline is = ((l.loadInline is).1, (l.loadInline is).2.onIndex x) := by
  induction is generalizing l with
  | nil => rfl
  | cons i is ih =>
    have hi := his i List.mem_cons_self
    have his := fun j hj => his j (List.mem_cons_of_mem i hj)
    have hfailure : (l.onIndex x).failure = l.failure := rfl
    have hread : (l.readInPlace i).2.index = l.index :=
      index_of_onIndex (f := (·.readInPlace i)) (readInPlace_onIndex (.refl _) hi)
    unfold loadInline
    rw [hfailure, readInPlace_onIndex h hi]
    generalize l.readInPlace i = y at hread ⊢
    obtain ⟨r, l'⟩ := y
    dsimp only at hread
    rw [← hread] at h hi his
    split
    · rfl
    · cases r with
      | settled => exact ih h his
      | failed cause => exact failPage_onIndex h hi cause
      | packed data =>
        have hunpack : (l'.unpackInPlace i data).2.index = l'.index :=
          index_of_onIndex (f := (·.unpackInPlace i data)) (unpackInPlace_onIndex (.refl _) hi data)
        simp only [unpackInPlace_onIndex h hi]
        generalize l'.unpackInPlace i data = z at hunpack ⊢
        obtain ⟨failure, k⟩ := z
        dsimp only at hunpack
        rw [← hunpack] at h hi his
        cases failure with
        | none => exact ih h his
        | some cause => exact failPage_onIndex h hi cause

omit [Guest W] in
theorem conclude_onIndex (returned : Option LoadError) : (l.onIndex x).conclude returned =
    ((l.conclude returned).1, (l.conclude returned).2.onIndex x) := by
  have hfirst : (l.onIndex x).firstFailed? = l.firstFailed? := by
    have hpages : (l.onIndex x).index.pages.size = l.index.pages.size := h.pages
    have hstate : (l.onIndex x).state = l.state := rfl
    rw [firstFailed?, hpages, hstate, ← firstFailed?]
  unfold conclude
  rw [hfirst]
  cases hf : l.firstFailed? with
  | none => rfl
  | some i =>
    have hi : i < l.index.pages.size := List.mem_range.1 (List.mem_of_find?_eq_some hf)
    simp only [Option.map_some, onIndex, h.address hi]
    rfl

theorem loadEagerly_onIndex {config : Config} {threads : Threads}
    (hp : l.workers? config threads = none) : (l.onIndex x).loadEagerly config threads =
      ((l.loadEagerly config threads).1, (l.loadEagerly config threads).2.onIndex x) := by
  have hp' : (l.onIndex x).workers? config threads = none := by
    rw [← hp, workers?, workers?, ← h.compressed]
    rfl
  have horder : (l.onIndex x).index.readOrder = l.index.readOrder := h.readOrder
  have his : ∀ i ∈ l.index.readOrder, i < l.index.pages.size := fun i hi =>
    (Index.mem_stored.1 (l.index.readOrder_inFileOrder.mem_iff.1 hi)).1
  have hindex : (l.loadInline l.index.readOrder).2.index = l.index :=
    index_of_onIndex (f := (·.loadInline l.index.readOrder)) (loadInline_onIndex (.refl _) his)
  unfold loadEagerly
  simp only [hp, hp', horder, loadInline_onIndex h his]
  refine conclude_onIndex ?_ _
  rwa [hindex]

/-! ### Faults -/

theorem readOnce_onIndex (hi : i < l.index.pages.size) (t : Transfer) :
    (l.onIndex x).readOnce i t = ((l.readOnce i t).1, (l.readOnce i t).2.onIndex x) := by
  have hsource : (l.onIndex x).source = l.source := rfl
  unfold readOnce
  rw [hsource]
  split
  · simp only [land_onIndex h hi]
  · split
    · exact congrArg (Prod.mk none) (land_onIndex (l := l.note _ _) h hi _ _)
    · rfl

theorem readFault_onIndex (hi : i < l.index.pages.size) (t : Transfer) :
    (l.onIndex x).readFault i t = ((l.readFault i t).1, (l.readFault i t).2.onIndex x) := by
  have hsource : (l.onIndex x).source = l.source := rfl
  fun_induction readFault l i t with
  | case1 l t hheld =>
    rw [readFault, hsource, if_pos hheld]
  | case2 l t hheld l' hr =>
    have hr' := readOnce_onIndex h hi t
    rw [hr] at hr'
    rw [readFault, hsource, if_neg hheld]
    split
    · rename_i hk
      cases hr'.symm.trans hk
      rfl
    · rename_i hk
      cases hr'.symm.trans hk
  | case3 l t hheld t' l' hr ih =>
    have hr' := readOnce_onIndex h hi t
    rw [hr] at hr'
    rw [readFault, hsource, if_neg hheld]
    split
    · rename_i hk
      cases hr'.symm.trans hk
    · rename_i hk
      cases hr'.symm.trans hk
      obtain ⟨c, -, rfl⟩ := readOnce_going hr
      exact ih h hi rfl

theorem attend_onIndex (hw : l.index.WellFormed) {f : Service}
    (hf : ∀ i t, f = .reading i t → i < l.index.pages.size) :
    (l.onIndex x).attend f = ((l.attend f).1, (l.attend f).2.onIndex x) := by
  cases f with
  | reading i t => exact readFault_onIndex h (hf i t rfl) t
  | «at» a =>
    simp only [Load.attend, encounter_onIndex h hw]
    cases he : l.encounter a with
    | settled l' => rfl
    | busy => rfl
    | claimed i l' =>
      obtain ⟨-, -, rfl⟩ := encounter_claimed he
      simp only [Encounter.onIndex, beginTransfer_onIndex (l := l.setState i .reading) h]

/-! ### The background reader -/

omit [Guest W] in
theorem landRead_onIndex (hi : i < l.index.pages.size) (got : Bytes) (stop : Transfer.Stop) :
    (l.onIndex x).landRead i got stop = (l.landRead i got stop).onIndex x := by
  unfold landRead
  rw [contents_onIndex h hi]
  split <;> rfl

omit [Guest W] in
theorem readOn?_onIndex (hi : i < l.index.pages.size) (t : Transfer) :
    (l.onIndex x).readOn? i t = (l.readOn? i t).map (·.onIndex x) := by
  have hsource : (l.onIndex x).source = l.source := rfl
  unfold readOn?
  rw [hsource]
  split
  · rfl
  · split
    · rfl
    · split
      · rfl
      · exact congrArg some (landRead_onIndex (l := l.note _ _) h hi _ _)

omit [Guest W] in
theorem beginRead_onIndex (i : Nat) : (l.onIndex x).beginRead i = (l.beginRead i).onIndex x := by
  have hstate : (l.onIndex x).state = l.state := rfl
  have hset : (l.onIndex x).setState i .reading = (l.setState i .reading).onIndex x := rfl
  unfold beginRead
  rw [hstate, hset, beginTransfer_onIndex (l := l.setState i .reading) h]
  split <;> rfl

omit [Guest W] in
theorem readerStep?_onIndex (hr : ∀ i t, l.reader = .reading i t → i < l.index.pages.size) :
    (l.onIndex x).readerStep? = l.readerStep?.map (·.onIndex x) := by
  have hreader : (l.onIndex x).reader = l.reader := rfl
  have hrequests : (l.onIndex x).requests = l.requests := rfl
  have hcursor : (l.onIndex x).cursor = l.cursor := rfl
  have hresults : (l.onIndex x).results = l.results := rfl
  have hcapacity : (l.onIndex x).capacity = l.capacity := rfl
  unfold readerStep?
  rw [hreader, hrequests, hcursor, hresults, hcapacity]
  split
  · rfl
  · split
    · rename_i requests _
      exact congrArg some (beginRead_onIndex (l := { l with requests }) h _)
    · rfl
    · split <;> rfl
  · exact readOn?_onIndex h (hr _ _ ‹_›) _
  · split
    · rfl
    · split <;> rfl

variable {l' : Load W} {fs : Multiset Service}

theorem renumbered_readerStep? (hw : Known ⟨l, fs⟩) (hl : l.readerStep? = some l') :
    (l.onIndex x).readerStep? = some (l'.onIndex x) ∧ l'.index.Renumbered x ∧ Known ⟨l', fs⟩ := by
  have hm : Move .quiet ⟨l, fs⟩ ⟨l', fs⟩ := readerStep?_move hl
  have hindex : l'.index = l.index := hm.index
  refine ⟨?_, hindex ▸ h, hw.move hm⟩
  rw [readerStep?_onIndex h fun i t hr => hw.lt_of_reader hr, hl, Option.map_some]

omit [Guest W] in
theorem unmoved_readerStep? (hw : Known ⟨l, fs⟩) (hl : l.readerStep? = none) :
    (l.onIndex x).readerStep? = none := by
  rw [readerStep?_onIndex h fun i t hr => hw.lt_of_reader hr, hl, Option.map_none]

theorem settle_onIndex (hw : Known ⟨l, fs⟩) : (l.onIndex x).settle = l.settle.onIndex x := by
  fun_induction settle l with
  | case1 l hl => rw [settle.eq_1 (l.onIndex x), unmoved_readerStep? h hw hl]
  | case2 l l' hl ih =>
    obtain ⟨hl', h', hw'⟩ := renumbered_readerStep? h hw hl
    rw [settle.eq_1 (l.onIndex x), hl']
    exact ih h' hw'

theorem readOn_onIndex (hw : Known ⟨l, fs⟩) : (l.onIndex x).readOn = l.readOn.onIndex x := by
  have hreader : (l.onIndex x).reader = l.reader := rfl
  fun_induction readOn l with
  | case1 l i t hr l' hl ih =>
    obtain ⟨hl', h', hw'⟩ := renumbered_readerStep? h hw hl
    rw [readOn.eq_1 (l.onIndex x), hreader, hr, hl']
    exact ih h' hw' rfl
  | case2 l i t hr hl =>
    rw [readOn.eq_1 (l.onIndex x), hreader, hr, unmoved_readerStep? h hw hl]
  | case3 l hn => exact readOn_of_not_reading (l := l.onIndex x) hn

theorem readerTurn_onIndex (hw : Known ⟨l, fs⟩) :
    (l.onIndex x).readerTurn = l.readerTurn.onIndex x := by
  have hreader : (l.onIndex x).reader = l.reader := rfl
  unfold readerTurn
  rw [hreader]
  split
  · exact readOn_onIndex h hw
  · cases hl : l.readerStep? with
    | none =>
      rw [unmoved_readerStep? h hw hl]
      rfl
    | some l' =>
      rw [(renumbered_readerStep? h hw hl).1]
      rfl

end

end RamRestore.Load
