import RamRestore.Load.Background
import RamRestore.Load.Fault
import RamRestore.Load.Idle
import RamRestore.Proofs.Load.InPlace
import RamRestore.Proofs.Steady

/-! # Loads from sources of the same bytes

Two loads are alike if they only differ in their sources, which are steady and have the same bytes,
and in the reads they have made. What the source is not needed for they do in the same way; and what
comes of the transfers that they make is the same, however many reads each of them takes.
-/

namespace RamRestore.Load

variable {W : Type}

/-- The load with another source, and with other reads behind it. -/
def onSource (l : Load W) (s : Source) (cs : Array ReadCall) : Load W :=
  { l with source := s, calls := cs }

/-- Loads of the same bytes that are the same but for their sources and the reads behind them. -/
inductive Alike (m : Medium) (l : Load W) : Load W → Prop
  | onSource (h : l.source.Steady m) {s : Source} (hs : s.Steady m) (cs : Array ReadCall) :
      Alike m l (l.onSource s cs)

inductive Concur (m : Medium) {α : Type} : α × Load W → α × Load W → Prop
  | mk (a : α) {l k : Load W} (h : Alike m l k) : Concur m (a, l) (a, k)

section

variable {l k : Load W} {m : Medium} {i : Nat} {s s' : Source}

theorem Alike.symm (h : Alike m l k) : Alike m k l := by
  cases h with
  | onSource h hs cs => exact .onSource (l := l.onSource _ cs) hs h l.calls

theorem Alike.left (h : Alike m l k) : l.source.Steady m := by
  cases h
  assumption

theorem alike_ofIndex (hs : s.Steady m) (hs' : s'.Steady m) (index : Index) (guest : W)
    (capacity : Nat) :
    (ofIndex index s guest capacity).Alike m (.ofIndex index s' guest capacity) :=
  .onSource hs hs' #[]

theorem Alike.right (h : Alike m l k) : k.source.Steady m := h.symm.left

theorem Alike.index (h : Alike m l k) : k.index = l.index := by
  cases h
  rfl

theorem Alike.state (h : Alike m l k) : k.state = l.state := by
  cases h
  rfl

theorem Alike.guest (h : Alike m l k) : k.guest = l.guest := by
  cases h
  rfl

theorem Alike.failure (h : Alike m l k) : k.failure = l.failure := by
  cases h
  rfl

/-- What pays no heed to sources and reads does the same to loads that are alike. -/
theorem Alike.act (h : Alike m l k) {α : Type} {f : Load W → α × Load W}
    (hf : ∀ l s cs, f (l.onSource s cs) = ((f l).1, (f l).2.onSource s cs)) :
    Concur m (f l) (f k) := by
  cases h with
  | onSource h hs cs =>
    rw [hf]
    refine .mk (f l).1 (.onSource ?_ hs cs)
    have hl : (f l).2 = (f l).2.onSource l.source l.calls :=
      congrArg Prod.snd (hf l l.source l.calls)
    rw [hl]
    exact h

theorem Alike.map (h : Alike m l k) {f : Load W → Load W}
    (hf : ∀ l s cs, f (l.onSource s cs) = (f l).onSource s cs) : Alike m (f l) (f k) := by
  have hc := h.act (f := fun l => ((), f l)) fun l s cs => congrArg (Prod.mk ()) (hf l s cs)
  cases hc
  assumption

theorem Concur.exists_of_eq {α : Type} {a : α} {x y : α × Load W} (h : Concur m x y)
    (hx : x = (a, l)) : ∃ k, y = (a, k) ∧ Alike m l k := by
  obtain ⟨_, ha⟩ := h
  cases hx
  exact ⟨_, rfl, ha⟩

theorem Alike.note (h : Alike m l k) (hs : s.Steady m) (hs' : s'.Steady m) (cs ds : List ReadCall) :
    Alike m (l.note cs s) (k.note ds s') := by
  cases h with
  | onSource _ _ ds₀ => exact .onSource (l := l.note cs s) hs hs' (ds₀ ++ ds)

end

/-! ## What pays no heed to sources -/

section

variable (l : Load W) (s : Source) (cs : Array ReadCall) (i : Nat)

theorem contents_onSource : (l.onSource s cs).contents = l.contents := contents_congr rfl

theorem nextEmpty_onSource : (l.onSource s cs).nextEmpty i = l.nextEmpty i := by
  have hindex : (l.onSource s cs).index = l.index := rfl
  have hstate : (l.onSource s cs).state = l.state := rfl
  fun_induction nextEmpty l i with
  | case1 i hi he =>
    rw [nextEmpty]
    simp only [hindex, hstate, hi, he, ↓reduceDIte, ↓reduceIte]
  | case2 i hi he ih =>
    rw [nextEmpty]
    simp only [hindex, hstate, hi, he, ih, ↓reduceDIte, ↓reduceIte]
  | case3 i hi =>
    rw [nextEmpty]
    simp only [hindex, hi, ↓reduceDIte]

theorem landRead_onSource (got : Bytes) (stop : Transfer.Stop) :
    (l.onSource s cs).landRead i got stop = (l.landRead i got stop).onSource s cs := by
  unfold landRead
  rw [contents_onSource]
  split <;> rfl

theorem recordAny_onSource (failure : Option LoadError) :
    (l.onSource s cs).recordAny failure = (l.recordAny failure).onSource s cs := by
  cases failure <;> rfl

theorem queueReads_onSource (c : Cursor) (n : Nat) :
    (l.onSource s cs).queueReads c n =
      ((l.queueReads c n).1, (l.queueReads c n).2.onSource s cs) := by
  have hindex : (l.onSource s cs).index = l.index := rfl
  have hcan : (l.onSource s cs).canRequest = l.canRequest := rfl
  induction n generalizing l c with
  | zero => rfl
  | succ n ih =>
    unfold queueReads
    simp only [nextEmpty_onSource, hindex, hcan]
    split
    · split <;> rfl
    · split
      · exact ih (l.request _ _) _ rfl rfl
      · rfl

variable [Guest W]

theorem fill_onSource (contents : Bytes) :
    (l.onSource s cs).fill i contents =
      ((l.fill i contents).1, (l.fill i contents).2.onSource s cs) := by
  rcases hp : Guest.place l.guest (l.index.address i) contents with ⟨_ | cause, guest⟩ <;>
    simp only [fill, place, onSource, setState, hp] <;> rfl

theorem placeParked_onSource :
    (l.onSource s cs).placeParked i = ((l.placeParked i).1, (l.placeParked i).2.onSource s cs) := by
  have hstate : (l.onSource s cs).state i = l.state i := rfl
  have hparked : (l.onSource s cs).parked i = l.parked i := rfl
  unfold placeParked
  rw [hstate, hparked]
  split
  · split
    · exact fill_onSource ..
    · rfl
  · rfl
  · rfl

theorem takeOver_onSource : (l.onSource s cs).takeOver i = (l.takeOver i).onSource s cs := by
  simp only [takeOver, placeParked_onSource, recordAny_onSource]

theorem land_onSource (got : Bytes) (stop : Transfer.Stop) :
    (l.onSource s cs).land i got stop = (l.land i got stop).onSource s cs := by
  unfold land
  rw [contents_onSource]
  split
  · rfl
  · simp only [fill_onSource, recordAny_onSource]

theorem receive_onSource (r : Result) :
    (l.onSource s cs).receive r = ((l.receive r).1, (l.receive r).2.onSource s cs) := by
  cases r with
  | loaded i =>
    rcases hp : l.placeParked i with ⟨_ | cause, l'⟩
    · simp only [receive, placeParked_onSource, hp]
    · simp only [receive, placeParked_onSource, hp]
      rfl
  | failed cause => rfl
  | allLoaded => rfl

theorem idle_onSource : (l.onSource s cs).idle = (l.idle.1, l.idle.2.onSource s cs) := by
  have hcursor : (l.onSource s cs).cursor = l.cursor := rfl
  have hresults : (l.onSource s cs).results = l.results := rfl
  have hreader : (l.onSource s cs).reader = l.reader := rfl
  cases hc : l.cursor with
  | none =>
    simp only [idle, hcursor, hc]
    rfl
  | some c =>
    cases hr : l.results with
    | cons r results =>
      simp only [idle, hcursor, hc, hresults, hr]
      exact receive_onSource { l with results, cursor := some c } s cs r
    | nil =>
      cases hd : l.reader with
      | ended =>
        simp only [idle, hcursor, hc, hresults, hr, hreader, hd]
        rfl
      | _ =>
        simp only [idle, hcursor, hc, hresults, hr, hreader, hd]
        exact queueReads_onSource ..

def Encounter.onSource (s : Source) (cs : Array ReadCall) : Encounter W → Encounter W
  | .settled l => .settled (l.onSource s cs)
  | .busy => .busy
  | .claimed i l => .claimed i (l.onSource s cs)

theorem encounter_onSource (a : Nat) :
    (l.onSource s cs).encounter a = (l.encounter a).onSource s cs := by
  have hindex : (l.onSource s cs).index = l.index := rfl
  have hstate : (l.onSource s cs).state = l.state := rfl
  unfold encounter
  rw [hindex, hstate]
  split
  · rfl
  · split
    · rfl
    · rfl
    · rfl
    · simp only [takeOver_onSource, Encounter.onSource]

theorem startBackground_onSource (threads : Threads) : (l.onSource s cs).startBackground threads =
    ((l.startBackground threads).1, (l.startBackground threads).2.onSource s cs) := by
  rcases hr : registerAll l.guest l.index.ranges with ⟨_ | cause, guest⟩
  · rcases ht : threads.refusesReader with _ | cause
    · rcases ha : Guest.arm guest with cause | guest' <;>
        simp only [startBackground, onSource, hr, ht, ha]
    · simp only [startBackground, onSource, hr, ht]
  · simp only [startBackground, onSource, hr]

theorem unpackInPlace_onSource (data : Bytes) : (l.onSource s cs).unpackInPlace i data =
    ((l.unpackInPlace i data).1, (l.unpackInPlace i data).2.onSource s cs) := by
  unfold unpackInPlace
  dsimp only
  have hindex : ((l.onSource s cs).setState i .filling).index = (l.setState i .filling).index := rfl
  rw [hindex]
  split <;> rfl

end

/-! ## What comes of transfers -/

section

variable {l k : Load W} {m : Medium} {i : Nat} {t : Transfer}

theorem run_of_steady {s : Source} (h : s.Steady m) (t : Transfer) :
    (t.run s).got = (t.ending m).1 ∧ (t.run s).stop = (t.ending m).2 := by
  rw [← Transfer.result_of_steady h, ← Transfer.run_eq_result]
  exact ⟨rfl, rfl⟩

theorem fetch_of_steady (h : l.source.Steady m) (i : Nat) :
    ∃ cs s, s.Steady m ∧ l.fetch i = (((l.transfer i).ending m).1, ((l.transfer i).ending m).2,
      (l.beginTransfer i).2.note cs s) := by
  obtain ⟨hgot, hstop⟩ := run_of_steady h (l.transfer i)
  refine ⟨((l.transfer i).run l.source).calls, _, h.run (l.transfer i), ?_⟩
  rw [← hgot, ← hstop]
  rfl

theorem Alike.fetch (h : Alike m l k) (i : Nat) :
    ∃ got stop l' k', l.fetch i = (got, stop, l') ∧ k.fetch i = (got, stop, k') ∧
      Alike m l' k' := by
  obtain ⟨cs, s, hs, hl⟩ := fetch_of_steady h.left i
  obtain ⟨ds, s', hs', hk⟩ := fetch_of_steady h.right i
  have hb : Alike m (l.beginTransfer i).2 (k.beginTransfer i).2 :=
    h.map (f := fun l => (l.beginTransfer i).2) fun _ _ _ => rfl
  rw [transfer_congr h.index] at hk
  exact ⟨_, _, _, _, hl, hk, hb.note hs hs' cs ds⟩

variable [Guest W]

def landInPlace (l : Load W) (i : Nat) (got : Bytes) (stop : Transfer.Stop) : InPlace × Load W :=
  let l := if l.index.compressed then l else l.write i got
  match l.readFailure? i got stop with
  | some cause => (.failed cause, l.setState i .error)
  | none =>
    if l.index.compressed then (.packed got, l.setState i .read)
    else (.settled, l.setState i .filled)

theorem readInPlace_eq_landInPlace (he : l.state i = .empty) {l' : Load W} {got : Bytes}
    {stop : Transfer.Stop} (hf : (l.setState i .reading).fetch i = (got, stop, l')) :
    l.readInPlace i = l'.landInPlace i got stop := by
  rw [readInPlace, if_neg (not_not.2 he), hf]
  rfl

theorem landInPlace_onSource (l : Load W) (s : Source) (cs : Array ReadCall) (i : Nat) (got : Bytes)
    (stop : Transfer.Stop) : (l.onSource s cs).landInPlace i got stop =
      ((l.landInPlace i got stop).1, (l.landInPlace i got stop).2.onSource s cs) := by
  have hindex : (l.onSource s cs).index = l.index := rfl
  have hwrite (k : Load W) : (k.write i got).index = k.index := rfl
  cases hc : l.index.compressed <;> cases stop <;>
    (simp only [landInPlace, readFailure?, hindex, hwrite, hc, Bool.false_eq_true, ↓reduceIte]; rfl)

theorem Alike.readInPlace (h : Alike m l k) (i : Nat) :
    Concur m (l.readInPlace i) (k.readInPlace i) := by
  by_cases he : l.state i = .empty
  · have hset := h.map (f := (·.setState i .reading)) fun _ _ _ => rfl
    obtain ⟨got, stop, l', k', hl, hk, ha⟩ := hset.fetch i
    rw [readInPlace_eq_landInPlace he hl, readInPlace_eq_landInPlace (h.state ▸ he) hk]
    exact ha.act (f := (·.landInPlace i got stop)) fun l s cs =>
      landInPlace_onSource l s cs i got stop
  · rw [readInPlace_of_not_empty he, readInPlace_of_not_empty (h.state ▸ he)]
    exact .mk _ h

theorem Alike.unpackInPlace (h : Alike m l k) (i : Nat) (data : Bytes) :
    Concur m (l.unpackInPlace i data) (k.unpackInPlace i data) :=
  h.act (f := (·.unpackInPlace i data)) fun l s cs => unpackInPlace_onSource l s cs i data

theorem Alike.loadInline (h : Alike m l k) (is : List Nat) :
    Concur m (l.loadInline is) (k.loadInline is) := by
  induction is generalizing l k with
  | nil => exact .mk _ h
  | cons i is ih =>
    have hr := h.readInPlace i
    unfold Load.loadInline
    rw [h.failure]
    generalize l.readInPlace i = x, k.readInPlace i = y at hr ⊢
    split
    · exact .mk _ h
    · obtain @⟨r, l', k', ha⟩ := hr
      cases r with
      | settled => exact ih ha
      | failed cause => exact ha.act (f := (·.failPage i cause)) fun _ _ _ => rfl
      | packed data =>
        have hu := ha.unpackInPlace i data
        dsimp only
        generalize l'.unpackInPlace i data = x, k'.unpackInPlace i data = y at hu ⊢
        obtain ⟨failure, hb⟩ := hu
        cases failure with
        | none => exact ih hb
        | some cause => exact hb.act (f := (·.failPage i cause)) fun _ _ _ => rfl

/-- Reading for a pool and unpacking in it keep loads alike. -/
theorem unpacking_keeps : (unpacking (W := W)).Keeps (Alike m) where
  feed f l k h := by
    cases f with
    | looking ahead =>
      cases ahead with
      | nil => exact .stop none h
      | cons i is =>
        simp only [unpacking, feedUnpacking, h.failure]
        split
        · exact .stop none h
        · exact .next _ h
    | reading i is =>
      have hr := h.readInPlace i
      simp only [unpacking, feedUnpacking]
      generalize l.readInPlace i = x, k.readInPlace i = y at hr ⊢
      obtain ⟨r, ha⟩ := hr
      cases r with
      | settled => exact .next _ ha
      | packed data => exact .job _ _ ha
      | failed cause => exact .next _ ha
    | failing i cause =>
      simp only [unpacking, feedUnpacking, h.index]
      exact .stop _ (h.map (f := (·.record cause)) fun _ _ _ => rfl)
  work job l k h := by
    obtain ⟨i, data⟩ := job
    have hu := h.unpackInPlace i data
    simp only [unpacking]
    generalize l.unpackInPlace i data = x, k.unpackInPlace i data = y at hu ⊢
    obtain ⟨failure, ha⟩ := hu
    exact ha.map (f := (·.recordAny failure)) fun l s cs => recordAny_onSource l s cs failure

omit [Guest W] in
theorem Alike.pool (h : Alike m l k) (order : List Nat) (workers : Nat) :
    (l.pool order workers).Matches (Alike m) (k.pool order workers) := by
  cases h with
  | onSource h hs cs => exact .shared (x := l.pool order workers) (.onSource h hs cs)

theorem Alike.loadPooled (h : Alike m l k) (order : List Nat) (workers : Nat) :
    Concur m (l.loadPooled order workers) (k.loadPooled order workers) := by
  have hr := (h.pool order workers).run unpacking_keeps
  unfold Load.loadPooled
  generalize (l.pool order workers).run unpacking = x, (k.pool order workers).run unpacking = y
    at hr ⊢
  obtain ⟨hs⟩ := hr
  dsimp only
  split <;> exact .mk _ hs

omit [Guest W] in
theorem Alike.conclude (h : Alike m l k) (returned : Option LoadError) :
    Concur m (l.conclude returned) (k.conclude returned) :=
  h.act (f := (·.conclude returned)) fun _ _ _ => rfl

omit [Guest W] in
theorem Alike.workers? (h : Alike m l k) (config : Config) (threads : Threads) :
    k.workers? config threads = l.workers? config threads := by
  rw [Load.workers?, Load.workers?, h.index]

theorem Alike.loadEagerly (h : Alike m l k) (config : Config) (threads : Threads) :
    Concur m (l.loadEagerly config threads) (k.loadEagerly config threads) := by
  unfold Load.loadEagerly
  rw [h.workers?, h.index]
  cases l.workers? config threads with
  | none =>
    have hr := h.loadInline l.index.readOrder
    dsimp only
    generalize l.loadInline _ = x, k.loadInline _ = y at hr ⊢
    obtain ⟨returned, ha⟩ := hr
    exact ha.conclude returned
  | some workers =>
    cases hp : threads.refusesPool workers with
    | some cause =>
      simp only [hp]
      exact .mk _ h
    | none =>
      have hr := h.loadPooled l.index.readOrder workers
      simp only [hp]
      generalize l.loadPooled _ _ = x, k.loadPooled _ _ = y at hr ⊢
      obtain ⟨returned, ha⟩ := hr
      exact ha.conclude returned

theorem Alike.readsAll (h : Alike m l k) {order : List Nat} {workers : Option Nat}
    {returned : Option LoadError} {l' : Load W} (hr : l.ReadsAll order workers returned l') :
    ∃ k', k.ReadsAll order workers returned k' ∧ Alike m l' k' := by
  cases hr with
  | inline hl =>
    obtain ⟨k', hk, ha⟩ := (h.loadInline order).exists_of_eq hl
    exact ⟨k', .inline hk, ha⟩
  | @pooled _ workers x hl ho =>
    obtain ⟨y, hy, hm⟩ := (h.pool order workers).steps unpacking_keeps hl
    obtain ⟨ha⟩ := hm
    exact ⟨_, .pooled hy ⟨ho.phase, ho.waiting, ho.running⟩, ha⟩

theorem Alike.loadsEagerly (h : Alike m l k) {config : Config} {threads : Threads}
    {failure : Option LoadError} {l' : Load W} (he : l.LoadsEagerly config threads failure l') :
    ∃ k', k.LoadsEagerly config threads failure k' ∧ Alike m l' k' := by
  obtain ⟨order, ho, hw, returned, l₁, hr, hc⟩ := he
  have hworkers := h.workers? config threads
  obtain ⟨k₁, hk, ha⟩ := h.readsAll hr
  obtain ⟨k', hk', ha'⟩ := (ha.conclude returned).exists_of_eq hc
  refine ⟨k', ⟨order, h.index ▸ ho, ?_, returned, k₁, hworkers ▸ hk, hk'⟩, ha'⟩
  rintro cause ⟨workers, hk, hcause⟩
  exact hw cause ⟨workers, hworkers ▸ hk, hcause⟩

end

/-! ## Faults -/

section

variable [Guest W] {l k : Load W} {m : Medium} {i : Nat} {t : Transfer}

/-- However many reads a fault makes for its page, what comes of them hangs on the bytes alone. -/
theorem readFault_of_steady (h : l.source.Steady m) (i : Nat) (t : Transfer) :
    ∃ cs s, s.Steady m ∧
      l.readFault i t = (none, (l.note cs s).land i (t.ending m).1 (t.ending m).2) := by
  fun_induction readFault l i t with
  | case1 l t hheld =>
    rw [h.heldFaults] at hheld
    exact absurd hheld.2 Bool.false_ne_true
  | case2 l t _ l' hr =>
    unfold readOnce at hr
    split at hr
    · rename_i hfull
      cases hr
      refine ⟨[], l.source, h, ?_⟩
      rw [note_nil, Transfer.ending, if_pos hfull]
    · rename_i hn
      split at hr
      · rename_i c got stop hc
        cases hr
        refine ⟨[c], _, h.after t.offset, ?_⟩
        rw [← Transfer.result_of_steady h, Transfer.result_stopped (Nat.lt_of_not_le hn) hc]
      · cases hr
  | case3 l t _ t' l' hr ih =>
    obtain ⟨c, hc, rfl⟩ := readOnce_going hr
    obtain ⟨cs, s, hs, he⟩ := ih (h.after t.offset)
    refine ⟨c :: cs, s, hs, ?_⟩
    rw [he, note_note, List.singleton_append, ← Transfer.result_of_steady h,
      ← Transfer.result_of_steady h, Transfer.result_going hc]

theorem Alike.readFault (h : Alike m l k) (i : Nat) (t : Transfer) :
    Concur m (l.readFault i t) (k.readFault i t) := by
  obtain ⟨cs, s, hs, hl⟩ := readFault_of_steady h.left i t
  obtain ⟨ds, s', hs', hk⟩ := readFault_of_steady h.right i t
  rw [hl, hk]
  refine .mk _ ((h.note hs hs' cs ds).map (f := (·.land i _ _)) fun l s cs => ?_)
  exact land_onSource l s cs i _ _

/-- One step of a fault: it finds its page, or makes all reads for it. -/
def attend (l : Load W) : Service → Option Service × Load W
  | .at a =>
    match l.encounter a with
    | .settled l => (none, l)
    | .busy => (some (.at a), l)
    | .claimed i l =>
      let (t, l) := l.beginTransfer i
      (some (.reading i t), l)
  | .reading i t => l.readFault i t

/-- A fault that is served in one go makes two such steps at most. -/
theorem serve_eq_attend (l : Load W) (f : Service) : l.serve f = l.attend f ∨
    ∃ i t l', l.attend f = (some (.reading i t), l') ∧ l.serve f = l'.attend (.reading i t) := by
  cases f with
  | reading i t => exact .inl rfl
  | «at» a =>
    simp only [serve, attend]
    cases l.encounter a with
    | settled l' => exact .inl rfl
    | busy => exact .inl rfl
    | claimed i l' => exact .inr ⟨i, _, _, rfl, rfl⟩

theorem Alike.attend (h : Alike m l k) (f : Service) : Concur m (l.attend f) (k.attend f) := by
  cases f with
  | reading i t => exact h.readFault i t
  | «at» a =>
    refine h.act (f := (·.attend (.at a))) fun l s cs => ?_
    simp only [Load.attend, encounter_onSource]
    cases l.encounter a <;> rfl

theorem Alike.idle (h : Alike m l k) : Concur m l.idle k.idle :=
  h.act fun l s cs => idle_onSource l s cs

end

/-! ## The background reader -/

section

variable {l k : Load W} {m : Medium} {i : Nat} {t : Transfer}

def readOn (l : Load W) : Load W :=
  match l.reader with
  | .reading _ _ =>
    match _h : l.readerStep? with
    | some l' => l'.readOn
    | none => l
  | _ => l
termination_by l.readerWork
decreasing_by exact readerStep?_work _h

/-- One turn of the reader, for which all reads of a page are one step. -/
def readerTurn (l : Load W) : Load W :=
  match l.reader with
  | .reading _ _ => l.readOn
  | _ => l.readerStep?.getD l

theorem readOn_of_not_reading (h : ∀ i t, l.reader ≠ .reading i t) : l.readOn = l := by
  unfold readOn
  split
  · exact absurd ‹_› (h _ _)
  · rfl

theorem landRead_reader (l : Load W) (r : Reader) (i : Nat) (got : Bytes) (stop : Transfer.Stop) :
    ({ l with reader := r }).landRead i got stop = l.landRead i got stop := by
  have hc : ({ l with reader := r } : Load W).contents = l.contents := contents_congr rfl
  unfold landRead
  rw [hc]
  split <;> rfl

theorem landRead_offers (l : Load W) (i : Nat) (got : Bytes) (stop : Transfer.Stop) :
    ∃ r, (l.landRead i got stop).reader = .offering r ∧
      (l.landRead i got stop).requests = l.requests := by
  unfold landRead
  split <;> exact ⟨_, rfl, rfl⟩

theorem readOn_of_steady (h : l.source.Steady m) (hr : l.reader = .reading i t) :
    ∃ cs s, s.Steady m ∧
      l.readOn = (l.note cs s).landRead i (t.closing m).1 (t.closing m).2 := by
  fun_induction readOn l generalizing t with
  | case1 l j u hj l' hs ih =>
    obtain ⟨rfl, rfl⟩ : j = i ∧ u = t := by simpa [hj] using hr
    simp only [readerStep?, hr, readOn?, h.held, h.lethal, List.contains_nil, Bool.false_eq_true,
      ↓reduceIte] at hs
    split at hs
    · rename_i c t' hc
      cases hs
      obtain ⟨cs, s, hs, he⟩ := ih (h.after _) rfl
      refine ⟨c :: cs, s, hs, ?_⟩
      rw [he, Transfer.closing_going h hc]
      refine (landRead_reader ((l.note [c] (l.source.after u.offset)).note cs s) _ j _ _).trans ?_
      rw [note_note, List.singleton_append]
    · rename_i c got stop hc
      cases hs
      refine ⟨[c], _, h.after u.offset, ?_⟩
      rw [Transfer.closing_stopped h hc]
      obtain ⟨r, hoffers, -⟩ := landRead_offers (l.note [c] (l.source.after u.offset)) j got stop
      exact readOn_of_not_reading fun _ _ => by rw [hoffers]; exact nofun
  | case2 l j u hj hn =>
    simp only [readerStep?, hr, readOn?, h.held, h.lethal, List.contains_nil, Bool.false_eq_true,
      ↓reduceIte] at hn
    split at hn <;> cases hn
  | case3 l hn => exact absurd hr (hn _ _)

theorem Alike.reader (h : Alike m l k) : k.reader = l.reader := by
  cases h
  rfl

theorem Alike.readOn (h : Alike m l k) : Alike m l.readOn k.readOn := by
  by_cases hr : ∃ i t, l.reader = .reading i t
  · obtain ⟨i, t, hr⟩ := hr
    obtain ⟨cs, s, hs, hl⟩ := readOn_of_steady h.left hr
    obtain ⟨ds, s', hs', hk⟩ := readOn_of_steady h.right (h.reader.trans hr)
    rw [hl, hk]
    exact (h.note hs hs' cs ds).map (f := (·.landRead i _ _)) fun l s cs =>
      landRead_onSource l s cs i _ _
  · have hn : ∀ i t, l.reader ≠ .reading i t := fun i t he => hr ⟨i, t, he⟩
    rw [readOn_of_not_reading hn, readOn_of_not_reading (h.reader ▸ hn)]
    exact h

theorem beginRead_onSource (l : Load W) (s : Source) (cs : Array ReadCall) (i : Nat) :
    (l.onSource s cs).beginRead i = (l.beginRead i).onSource s cs := by
  have hstate : (l.onSource s cs).state = l.state := rfl
  unfold beginRead
  rw [hstate]
  split <;> rfl

theorem readerStep?_onSource (l : Load W) (s : Source) (cs : Array ReadCall)
    (hn : ∀ i t, l.reader ≠ .reading i t) :
    (l.onSource s cs).readerStep? = l.readerStep?.map (·.onSource s cs) := by
  have hreader : (l.onSource s cs).reader = l.reader := rfl
  have hrequests : (l.onSource s cs).requests = l.requests := rfl
  have hcursor : (l.onSource s cs).cursor = l.cursor := rfl
  have hresults : (l.onSource s cs).results = l.results := rfl
  have hcapacity : (l.onSource s cs).capacity = l.capacity := rfl
  unfold readerStep?
  rw [hreader, hrequests, hcursor, hresults, hcapacity]
  split
  · rfl
  · split
    · rename_i requests _
      exact congrArg some (beginRead_onSource { l with requests } s cs _)
    · rfl
    · split <;> rfl
  · exact absurd ‹_› (hn _ _)
  · split
    · rfl
    · split <;> rfl

theorem Alike.readerStep? (h : Alike m l k) (hn : ∀ i t, l.reader ≠ .reading i t) :
    Option.Rel (Alike m) l.readerStep? k.readerStep? := by
  obtain @⟨h, s, hs, cs⟩ := h
  rw [readerStep?_onSource l s cs hn]
  cases hl : l.readerStep? with
  | none => exact .none
  | some l' =>
    have hself := readerStep?_onSource l l.source l.calls hn
    rw [hl] at hself
    have hl' : l' = l'.onSource l.source l.calls := Option.some.inj (hl.symm.trans hself)
    refine .some (.onSource ?_ hs cs)
    rw [hl']
    exact h

theorem Alike.readerTurn (h : Alike m l k) : Alike m l.readerTurn k.readerTurn := by
  unfold Load.readerTurn
  rw [h.reader]
  split
  · exact h.readOn
  · rename_i hn
    have hs := h.readerStep? fun i t => hn i t
    generalize l.readerStep? = x, k.readerStep? = y at hs ⊢
    cases hs with
    | some ha => exact ha
    | none => exact h

theorem settle_readOn (l : Load W) : l.readOn.settle = l.settle := by
  fun_induction Load.readOn l with
  | case1 l i t hr l' hs ih =>
    rw [ih, settle.eq_1 l, hs]
  | case2 => rfl
  | case3 => rfl

theorem readOn_work (h : l.source.Steady m) (hr : l.reader = .reading i t) :
    WorkLt l.readOn.readerWork l.readerWork := by
  obtain ⟨cs, s, -, he⟩ := readOn_of_steady h hr
  obtain ⟨r, hoffers, hrequests⟩ :=
    landRead_offers (l.note cs s) i (t.closing m).1 (t.closing m).2
  rw [he, readerWork, hoffers, hrequests, readerWork, hr]
  exact .right _ (.left _ _ (Nat.lt_succ_self 2))

theorem Alike.settle {l k : Load W} (h : Alike m l k) : Alike m l.settle k.settle := by
  by_cases hr : ∃ i t, l.reader = .reading i t
  · -- one load may take more reads for the page than the other, so all of them are one step
    rw [← settle_readOn l, ← settle_readOn k]
    exact h.readOn.settle
  · have hs := h.readerStep? fun i t he => hr ⟨i, t, he⟩
    cases hl : l.readerStep? with
    | none =>
      have hk : k.readerStep? = none := by
        rw [hl] at hs
        generalize k.readerStep? = y at hs ⊢
        cases hs
        rfl
      rw [settle.eq_1 l, hl, settle.eq_1 k, hk]
      exact h
    | some l' =>
      obtain ⟨k', hk, ha⟩ := Pool.exists_of_rel hs hl
      rw [settle.eq_1 l, hl, settle.eq_1 k, hk]
      exact ha.settle
termination_by l.readerWork
decreasing_by
  · obtain ⟨i, t, hr⟩ := hr
    exact readOn_work h.left hr
  · exact readerStep?_work hl

end

end RamRestore.Load
