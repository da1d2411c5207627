import RamRestore.Proofs.Load.PageStep

/-! # While the idle callback listens

As long as the idle callback listens, every page behind its cursor is accounted for: it is
filled, asked for, being read by somebody, or the reader has a result about it that is not
received yet. The end marker is the last of all requests and results, so nothing is left
to be received when it arrives.
-/

namespace RamRestore

namespace Reader

/-- What the reader has taken and not handed on: whether it is the end marker. -/
def marks : Reader → List Bool
  | .reading _ _ => [false]
  | .offering r => [decide (r = .allLoaded)]
  | _ => []

@[simp] theorem marks_reading (i : Nat) (t : Transfer) : (reading i t).marks = [false] := rfl

@[simp] theorem marks_offering (r : Result) :
    (offering r).marks = [decide (r = .allLoaded)] := rfl

@[simp] theorem marks_waiting : waiting.marks = [] := rfl

@[simp] theorem marks_ended : ended.marks = [] := rfl

def offered : Reader → List Result
  | .offering r => [r]
  | _ => []

@[simp] theorem offered_reading (i : Nat) (t : Transfer) : (reading i t).offered = [] := rfl

@[simp] theorem offered_offering (r : Result) : (offering r).offered = [r] := rfl

@[simp] theorem offered_waiting : waiting.offered = [] := rfl

@[simp] theorem offered_ended : ended.offered = [] := rfl

end Reader

namespace Load

variable {W : Type}

/-- All results and requests on their way, next result first: which of them is the end marker. -/
def line (l : Load W) : List Bool :=
  l.results.map (fun r => decide (r = .allLoaded)) ++ l.reader.marks ++
    l.requests.map (fun r => decide (r = .finish))

/-- The results that were not received yet. -/
def pending (l : Load W) : List Result := l.results ++ l.reader.offered

theorem line_congr {l m : Load W} (h : m.background = l.background) : m.line = l.line := by
  have hreader : m.reader = l.reader := congrArg Background.reader h
  have hresults : m.results = l.results := congrArg Background.results h
  have hrequests : m.requests = l.requests := congrArg Background.requests h
  simp only [line, hreader, hresults, hrequests]

theorem pending_congr {l m : Load W} (h : m.background = l.background) : m.pending = l.pending := by
  have hreader : m.reader = l.reader := congrArg Background.reader h
  have hresults : m.results = l.results := congrArg Background.results h
  rw [pending, pending, hreader, hresults]

/-- What holds while the idle callback listens. -/
structure Listening (x : Session W) (c : Cursor) : Prop where
  incomplete : x.load.complete = false
  next_le : c.next ≤ x.load.index.pages.size
  finished : c.finished → c.next = x.load.index.pages.size
  /-- Nothing comes behind the end marker. -/
  line : x.load.line.Pairwise fun b _ => b = false
  marked : true ∈ x.load.line → c.finished
  last : .allLoaded ∈ x.load.results → x.load.reader = .ended
  empty : ∀ i < c.next, x.load.state i = .empty → .page i ∈ x.load.requests
  /-- A page is being read by a fault or by the reader, or was when the reader died. -/
  reading : ∀ i, x.load.state i = .reading → (∃ t, .reading i t ∈ x.faults) ∨
    (∃ t, x.load.reader = .reading i t) ∨
    x.load.reader = .ended ∧ .allLoaded ∉ x.load.results
  read : ∀ i, x.load.state i = .read → .loaded i ∈ x.load.pending
  filling : ∀ i, x.load.state i ≠ .filling
  error : ∀ i, x.load.state i = .error → ∃ cause, .failed cause ∈ x.load.pending

structure Finished (x : Session W) : Prop where
  reader : x.load.reader = .ended
  pages : ∀ i < x.load.index.pages.size, x.load.state i = .filled ∨ ∃ t, .reading i t ∈ x.faults

section

variable {x y : Session W} {c : Cursor}

/-- While the idle callback listens and nothing is added to the line. -/
theorem Listening.of_sublist (hx : Listening x c) (hi : y.load.index = x.load.index)
    (hcomplete : y.load.complete = x.load.complete) (hl : y.load.line.Sublist x.load.line)
    (last : .allLoaded ∈ y.load.results → y.load.reader = .ended)
    (empty : ∀ i < c.next, y.load.state i = .empty → .page i ∈ y.load.requests)
    (reading : ∀ i, y.load.state i = .reading → (∃ t, .reading i t ∈ y.faults) ∨
      (∃ t, y.load.reader = .reading i t) ∨
      y.load.reader = .ended ∧ .allLoaded ∉ y.load.results)
    (read : ∀ i, y.load.state i = .read → .loaded i ∈ y.load.pending)
    (filling : ∀ i, y.load.state i ≠ .filling)
    (error : ∀ i, y.load.state i = .error → ∃ cause, .failed cause ∈ y.load.pending) :
    Listening y c where
  incomplete := hcomplete.trans hx.incomplete
  next_le := hi ▸ hx.next_le
  finished := hi ▸ hx.finished
  line := hx.line.sublist hl
  marked h := hx.marked (hl.subset h)
  last := last
  empty := empty
  reading := reading
  read := read
  filling := filling
  error := error

end

section

variable {l l' : Load W} {fs : Multiset Service} {i : Nat} {t t' : Transfer} {c : Cursor}
  {q : List Request} {r : Result} {rs : List Result}

theorem Listening.not_last {x : Session W} (h : Listening x c) (hr : x.load.reader ≠ .ended) :
    .allLoaded ∉ x.load.results := fun ha => hr (h.last ha)

/-- A page that is being read while the reader has none is being read by a fault. -/
theorem Listening.read_by_fault (h : Listening ⟨l, fs⟩ c) (hr : l.reader.transfer? = none)
    (hn : l.reader ≠ .ended) (hs : l.state i = .reading) : ∃ t, .reading i t ∈ fs := by
  rcases h.reading i hs with h | ⟨t, h⟩ | ⟨h, -⟩
  · exact h
  · change l.reader = .reading i t at h
    simp [h, Reader.transfer?] at hr
  · exact absurd h hn

theorem Listening.skip (h : Listening ⟨l, fs⟩ c) (hr : l.reader = .waiting)
    (hq : l.requests = .page i :: q) (hs : l.state i ≠ .empty) :
    Listening ⟨{ l with requests := q }, fs⟩ c := by
  refine h.of_sublist rfl rfl ?_ h.last (fun j hj he => ?_) h.reading h.read h.filling h.error
  · simp [Load.line, hr, hq]
  · have := h.empty j hj he
    simp only [hq, List.mem_cons, Request.page.injEq] at this
    rcases this with rfl | this
    · exact absurd he hs
    · exact this

theorem Listening.readerClaim (h : Listening ⟨l, fs⟩ c) (hr : l.reader = .waiting)
    (hq : l.requests = .page i :: q) :
    Listening ⟨{ l.claim i with requests := q, reader := .reading i t }, fs⟩ c := by
  have hn : .allLoaded ∉ l.results := h.not_last (by simp [hr])
  have hstate : ∀ j, ({ l.claim i with requests := q, reader := .reading i t } : Load W).state j =
      if i = j then .reading else l.state j := state_claim l i
  refine h.of_sublist rfl rfl ?_ (absurd · hn) (fun j hj he => ?_) (fun j hj => ?_)
    (fun j hj => ?_) (fun j => ?_) (fun j hj => ?_)
  · simp [Load.line, hr, hq, claim, beginTransfer, setState]
  · rw [hstate] at he
    split at he
    · simp at he
    · rename_i hij
      have := h.empty j hj he
      simp only [hq, List.mem_cons, Request.page.injEq] at this
      exact this.resolve_left (Ne.symm hij)
  · rw [hstate] at hj
    split at hj
    · rename_i hij
      exact .inr (.inl ⟨t, by rw [hij]⟩)
    · exact .inl (h.read_by_fault (by simp [hr, Reader.transfer?]) (by simp [hr]) hj)
  · rw [hstate] at hj
    split at hj
    · simp at hj
    · simpa [pending, hr, claim, beginTransfer, setState] using h.read j hj
  · rw [hstate]
    split
    · simp
    · exact h.filling j
  · rw [hstate] at hj
    split at hj
    · simp at hj
    · simpa [pending, hr, claim, beginTransfer, setState] using h.error j hj

theorem Listening.echo (h : Listening ⟨l, fs⟩ c) (hr : l.reader = .waiting)
    (hq : l.requests = .finish :: q) :
    Listening ⟨{ l with requests := q, reader := .offering .allLoaded }, fs⟩ c := by
  have hn : .allLoaded ∉ l.results := h.not_last (by simp [hr])
  refine h.of_sublist rfl rfl ?_ (absurd · hn) (fun j hj he => ?_) (fun j hj => ?_)
    (fun j hj => ?_) h.filling (fun j hj => ?_)
  · simp [Load.line, hr, hq]
  · simpa [hq] using h.empty j hj he
  · exact .inl (h.read_by_fault (by simp [hr, Reader.transfer?]) (by simp [hr]) hj)
  · simpa [pending, hr] using h.read j hj
  · simpa [pending, hr] using h.error j hj

theorem Listening.offer {m : Load W} {s : PageState} (h : Listening ⟨l, fs⟩ c)
    (hr : l.reader = .reading i t) (hi : m.index = l.index)
    (hb : m.background = { l.background with reader := .offering r })
    (hstate : ∀ j, m.state j = if i = j then s else l.state j)
    (hs : s = .read ∧ r = .loaded i ∨ s = .error ∧ ∃ cause, r = .failed cause) :
    Listening ⟨m, fs⟩ c := by
  have hn : .allLoaded ∉ l.results := h.not_last (by simp [hr])
  have hresults : m.results = l.results := congrArg Background.results hb
  have hrequests : m.requests = l.requests := congrArg Background.requests hb
  have hreader : m.reader = .offering r := congrArg Background.reader hb
  have hpending : ∀ r', r' ∈ l.pending → r' ∈ m.pending := by
    simp only [pending, hr, hresults, hreader, Reader.offered_reading, List.append_nil]
    exact fun r' => List.mem_append_left _
  have hend : r ≠ .allLoaded := by
    rcases hs with ⟨-, rfl⟩ | ⟨-, cause, rfl⟩ <;> simp
  have hsettled : s ≠ .empty ∧ s ≠ .reading ∧ s ≠ .filling := by
    rcases hs with ⟨rfl, -⟩ | ⟨rfl, -⟩ <;> simp
  refine h.of_sublist hi (congrArg Background.complete hb) ?_ ?_ (fun j hj he => ?_)
    (fun j hj => ?_) (fun j hj => ?_) (fun j => ?_) (fun j hj => ?_)
  · simp [Load.line, hr, hresults, hrequests, hreader, hend]
  · rw [hresults]
    exact (absurd · hn)
  · rw [hstate] at he
    rw [hrequests]
    split at he
    · exact absurd he hsettled.1
    · exact h.empty j hj he
  · rw [hstate] at hj
    split at hj
    · exact absurd hj hsettled.2.1
    · rename_i hij
      rcases h.reading j hj with h' | ⟨t₁, h'⟩ | ⟨h', -⟩
      · exact .inl h'
      · simp only [hr, Reader.reading.injEq] at h'
        exact absurd h'.1 hij
      · simp [hr] at h'
  · rw [hstate] at hj
    split at hj
    · rename_i hij
      rcases hs with ⟨-, rfl⟩ | ⟨rfl, -⟩
      · simp [pending, hreader, hij]
      · simp at hj
    · exact hpending _ (h.read j hj)
  · rw [hstate]
    split
    · exact hsettled.2.2
    · exact h.filling j
  · rw [hstate] at hj
    split at hj
    · rcases hs with ⟨rfl, -⟩ | ⟨-, cause, rfl⟩
      · simp at hj
      · exact ⟨cause, by simp [pending, hreader]⟩
    · obtain ⟨cause, hc⟩ := h.error j hj
      exact ⟨cause, hpending _ hc⟩

theorem Listening.landRead (h : Listening ⟨l, fs⟩ c) (hr : l.reader = .reading i t)
    (got : Bytes) (stop : Transfer.Stop) (cs : List ReadCall) (s : Source) :
    Listening ⟨(l.note cs s).landRead i got stop, fs⟩ c := by
  unfold Load.landRead
  split
  · rename_i contents _
    exact h.offer hr rfl rfl (fun j => state_park (l.note cs s) i j contents) (.inl ⟨rfl, rfl⟩)
  · rename_i cause _
    exact h.offer hr rfl rfl (fun j => state_setState (l.note cs s) i j .error)
      (.inr ⟨rfl, cause, rfl⟩)

theorem Listening.die (h : Listening ⟨l, fs⟩ c) (hr : l.reader = .reading i t)
    (cs : List ReadCall) (s : Source) :
    Listening ⟨{ l.note cs s with reader := .ended }, fs⟩ c := by
  have hn : .allLoaded ∉ l.results := h.not_last (by simp [hr])
  refine h.of_sublist rfl rfl ?_ (fun _ => rfl) h.empty (fun j hj => ?_) (fun j hj => ?_)
    h.filling (fun j hj => ?_)
  · simp [Load.line, hr, note]
  · rcases h.reading j hj with h' | _
    · exact .inl h'
    · exact .inr (.inr ⟨rfl, hn⟩)
  · simpa [pending, hr, note] using h.read j hj
  · simpa [pending, hr, note] using h.error j hj

theorem Listening.readerRead (h : Listening ⟨l, fs⟩ c) (hr : l.reader = .reading i t)
    (cs : List ReadCall) (s : Source) :
    Listening ⟨{ l.note cs s with reader := .reading i t' }, fs⟩ c := by
  have hn : .allLoaded ∉ l.results := h.not_last (by simp [hr])
  refine h.of_sublist rfl rfl ?_ (absurd · hn) h.empty (fun j hj => ?_) (fun j hj => ?_)
    h.filling (fun j hj => ?_)
  · simp [Load.line, hr, note]
  · rcases h.reading j hj with h' | ⟨t₁, h'⟩ | ⟨h', -⟩
    · exact .inl h'
    · simp only [hr, Reader.reading.injEq] at h'
      exact .inr (.inl ⟨t', by rw [h'.1]⟩)
    · simp [hr] at h'
  · simpa [pending, hr, note] using h.read j hj
  · simpa [pending, hr, note] using h.error j hj

theorem Listening.deliver (h : Listening ⟨l, fs⟩ c) (hr : l.reader = .offering r) :
    Listening ⟨{ l with
      results := l.results ++ [r]
      reader := if r = .allLoaded then .ended else .waiting }, fs⟩ c := by
  have hn : .allLoaded ∉ l.results := h.not_last (by simp [hr])
  have hmarks : (if r = .allLoaded then Reader.ended else .waiting).marks = [] := by
    split <;> rfl
  have hoffered : (if r = .allLoaded then Reader.ended else .waiting).offered = [] := by
    split <;> rfl
  refine h.of_sublist rfl rfl ?_ (fun ha => ?_) h.empty (fun j hj => ?_) (fun j hj => ?_)
    h.filling (fun j hj => ?_)
  · simp [Load.line, hr, hmarks]
  · simp only [List.mem_append, List.mem_singleton] at ha
    rcases ha with ha | rfl
    · exact absurd ha hn
    · rfl
  · exact .inl (h.read_by_fault (by simp [hr, Reader.transfer?]) (by simp [hr]) hj)
  · simpa [pending, hr, hoffered] using h.read j hj
  · simpa [pending, hr, hoffered] using h.error j hj

theorem Listening.look {next : Nat} (h : Listening ⟨l, fs⟩ c) (hle : next ≤ l.index.pages.size)
    (hge : c.next ≤ l.index.pages.size → c.next ≤ next)
    (hs : ∀ i, c.next ≤ i → i < next → l.state i ≠ .empty) :
    Listening ⟨{ l with cursor := some { c with next } }, fs⟩ { c with next } where
  incomplete := h.incomplete
  next_le := hle
  finished hf := Nat.le_antisymm hle (h.finished hf ▸ hge h.next_le)
  line := h.line
  marked := h.marked
  last := h.last
  empty j hj he := by
    rcases Nat.lt_or_ge j c.next with hlt | hge
    · exact h.empty j hlt he
    · exact absurd he (hs j hge hj)
  reading := h.reading
  read := h.read
  filling := h.filling
  error := h.error

theorem Listening.request (h : Listening ⟨l, fs⟩ c) (hf : c.finished = false) {r : Request}
    {c' : Cursor} (hle : c'.next ≤ l.index.pages.size)
    (hc : c'.finished → c'.next = l.index.pages.size) (hr : r = .finish → c'.finished)
    (he : ∀ j, c.next ≤ j → j < c'.next → r = .page j) :
    Listening ⟨l.request r c', fs⟩ c' := by
  have hn : true ∉ l.line := fun ht => by simpa [hf] using h.marked ht
  have hline : (l.request r c').line = l.line ++ [decide (r = .finish)] := by
    simp [Load.line, Load.request]
  refine ⟨h.incomplete, hle, hc, ?_, fun ht => ?_, h.last, fun j hj hs => ?_, h.reading, h.read,
    h.filling, h.error⟩
  · rw [hline, List.pairwise_append]
    refine ⟨h.line, List.pairwise_singleton .., fun b hb _ _ => ?_⟩
    cases b with
    | false => rfl
    | true => exact absurd hb hn
  · rw [hline, List.mem_append, List.mem_singleton] at ht
    rcases ht with ht | ht
    · exact absurd ht hn
    · exact hr (of_decide_eq_true ht.symm)
  · simp only [Load.request, List.mem_append, List.mem_singleton]
    rcases Nat.lt_or_ge j c.next with hlt | hge
    · exact .inl (h.empty j hlt hs)
    · exact .inr (he j hge hj).symm

theorem Listening.finish (h : Listening ⟨l, fs⟩ c) (hr : l.results = .allLoaded :: rs) :
    Finished ⟨l, fs⟩ := by
  have hline := h.line
  simp only [Load.line, hr, List.map_cons, decide_true, List.cons_append, List.pairwise_cons,
    Bool.true_eq_false, imp_false] at hline
  have hnil := List.eq_nil_iff_forall_not_mem.2 hline.1
  simp only [List.append_eq_nil_iff, List.map_eq_nil_iff] at hnil
  obtain ⟨⟨rfl, -⟩, hq⟩ := hnil
  have hlast : l.reader = .ended := h.last (by simp [hr])
  have hnext := h.finished (h.marked (by simp [Load.line, hr]))
  refine ⟨hlast, fun i hi => ?_⟩
  cases hs : l.state i with
  | empty =>
    have := h.empty i (hnext ▸ hi) hs
    simp [hq] at this
  | reading =>
    rcases h.reading i hs with h' | ⟨_, h'⟩ | ⟨-, h'⟩
    · exact .inr h'
    · simp [hlast] at h'
    · simp [hr] at h'
  | read =>
    have := h.read i hs
    simp [pending, hr, hlast] at this
  | filling => exact absurd hs (h.filling i)
  | filled => exact .inl rfl
  | error =>
    have := h.error i hs
    simp [pending, hr, hlast] at this

variable [Guest W]

/-- A result about a page leaves that page filled, or ends with a failure. -/
theorem Listening.receive (h : Listening ⟨l, fs⟩ c) (hr : l.results = .loaded i :: rs)
    (hp : { l with results := rs }.placeParked i = (none, l')) : Listening ⟨l', fs⟩ c := by
  have hb : l'.background = { l.background with results := rs } := by
    have := background_placeParked { l with results := rs } i
    rwa [hp] at this
  have hresults : l'.results = rs := congrArg Background.results hb
  have hrequests : l'.requests = l.requests := congrArg Background.requests hb
  have hreader : l'.reader = l.reader := congrArg Background.reader hb
  have hindex : l'.index = l.index := by
    have := index_placeParked { l with results := rs } i
    rwa [hp] at this
  have hstate : ∀ j, l'.state j = if i = j then .filled else l.state j :=
    fun j => state_placeParked hp j
  refine h.of_sublist hindex (congrArg Background.complete hb) ?_ (fun ha => ?_)
    (fun j hj he => ?_) (fun j hj => ?_) (fun j hj => ?_) (fun j => ?_) (fun j hj => ?_)
  · simp [Load.line, hr, hresults, hrequests, hreader]
  · rw [hresults] at ha
    rw [hreader]
    exact h.last (by simp [hr, ha])
  · rw [hstate] at he
    rw [hrequests]
    split at he
    · simp at he
    · exact h.empty j hj he
  · rw [hstate] at hj
    rw [hreader, hresults]
    split at hj
    · simp at hj
    · rcases h.reading j hj with h' | h' | ⟨h', hn⟩
      · exact .inl h'
      · exact .inr (.inl h')
      · exact .inr (.inr ⟨h', fun ha => hn (by simp [hr, ha])⟩)
  · rw [hstate] at hj
    split at hj
    · simp at hj
    · rename_i hij
      have := h.read j hj
      simp only [pending, hr, List.cons_append, List.mem_cons, Result.loaded.injEq] at this
      simpa only [pending, hresults, hreader] using this.resolve_left (Ne.symm hij)
  · rw [hstate]
    split
    · simp
    · exact h.filling j
  · rw [hstate] at hj
    split at hj
    · simp at hj
    · obtain ⟨cause, this⟩ := h.error j hj
      simp only [pending, hr, List.cons_append, List.mem_cons, reduceCtorEq, false_or] at this
      exact ⟨cause, by simpa only [pending, hresults, hreader] using this⟩

end

end Load
end RamRestore
