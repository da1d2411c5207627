import RamRestore.Proofs.Load.Completion

/-! # Background loading ends

Each request comes back at most once as a result, so a page costs the idle callback at most two
calls, and so does the end marker. As long as the reader is not kept from running, no call is
wasted: the line between the two never stops while there is something in it.
-/

namespace RamRestore

/-- The requests that were made so far, if every page up to the cursor was asked for. -/
def Cursor.made (c : Cursor) : Nat := c.next + if c.finished then 1 else 0

/-- The requests that are still to be made, the end marker included. -/
def Cursor.ahead (c : Cursor) (pages : Nat) : Nat := pages - c.next + if c.finished then 0 else 1

namespace Load

variable {W : Type}

/-- What there is to do: every request not made yet takes one call to make and one to receive. -/
def toDo (l : Load W) (c : Cursor) : Nat := 2 * c.ahead l.index.pages.size + l.line.length

structure Paced (l : Load W) (c : Cursor) : Prop where
  room : 0 < l.capacity
  next_le : c.next ≤ l.index.pages.size
  asked : l.line.length ≤ c.made
  /-- The end marker is on its way, or the reader is gone. -/
  marked : c.finished → true ∈ l.line ∨ l.reader = .ended

def Paces (l : Load W) : Prop := ∀ c, l.cursor = some c → Paced l c

section

variable {l m : Load W} {c : Cursor}

theorem Paced.toDo_le (h : Paced l c) : l.toDo c + c.made ≤ 2 * l.index.pages.size + 2 := by
  have hle := h.next_le
  have hasked := h.asked
  simp only [Cursor.made] at hasked
  simp only [toDo, Cursor.ahead, Cursor.made]
  split <;> simp_all <;> omega

theorem Paces.congr (h : Paces l) (hi : m.index = l.index) (hb : m.background = l.background) :
    Paces m := by
  intro c hc
  have hreader : m.reader = l.reader := congrArg Background.reader hb
  obtain ⟨hroom, hle, hasked, hmarked⟩ := h c ((congrArg Background.cursor hb).symm.trans hc)
  constructor
  · exact hroom.trans_eq (congrArg Background.capacity hb).symm
  · rwa [hi]
  · rwa [line_congr hb]
  · rwa [line_congr hb, hreader]

theorem Paces.of_over (h : l.cursor = none) : Paces l := fun c hc => by cases h.symm.trans hc

theorem Paced.look {next : Nat} (h : Paced l c) (hge : c.next ≤ next)
    (hle : next ≤ l.index.pages.size) :
    Paced { l with cursor := some { c with next } } { c with next } where
  room := h.room
  next_le := hle
  asked := h.asked.trans (Nat.add_le_add_right hge _)
  marked := h.marked

theorem line_request (l : Load W) (r : Request) (c : Cursor) :
    (l.request r c).line = l.line ++ [decide (r = .finish)] := by
  simp [line, request]

theorem Paced.request {r : Request} {c' : Cursor} (h : Paced l c)
    (hle : c'.next ≤ l.index.pages.size) (hmade : c.made < c'.made)
    (hf : c'.finished → c.finished ∨ r = .finish) : Paced (l.request r c') c' where
  room := h.room
  next_le := hle
  asked := by
    rw [line_request, List.length_append]
    exact (Nat.succ_le_succ h.asked).trans hmade
  marked hc' := by
    rw [line_request, List.mem_append]
    rcases hf hc' with hc | rfl
    · exact (h.marked hc).imp .inl id
    · exact .inl (.inr (by simp))

end

/-! ## The reader -/

section

variable {k l l' : Load W} {c : Cursor}

/-- What the reader does to the line: it takes nothing from it but what it answers. -/
structure Relays (l l' : Load W) : Prop where
  index : l'.index = l.index
  capacity : l'.capacity = l.capacity
  cursor : l'.cursor = l.cursor
  held : l'.source.held = l.source.held
  line : l'.line.length ≤ l.line.length
  marked : true ∈ l.line → true ∈ l'.line ∨ l'.reader = .ended
  ended : l.reader = .ended → l'.reader = .ended

theorem Relays.refl (l : Load W) : Relays l l := ⟨rfl, rfl, rfl, rfl, Nat.le_refl _, .inl, id⟩

theorem Relays.trans (h : Relays k l) (h' : Relays l l') : Relays k l' where
  index := h'.index.trans h.index
  capacity := h'.capacity.trans h.capacity
  cursor := h'.cursor.trans h.cursor
  held := h'.held.trans h.held
  line := h'.line.trans h.line
  marked ht := by
    rcases h.marked ht with ht | he
    · exact h'.marked ht
    · exact .inr (h'.ended he)
  ended he := h'.ended (h.ended he)

theorem Relays.of_line (hi : l'.index = l.index) (hcapacity : l'.capacity = l.capacity)
    (hc : l'.cursor = l.cursor) (hheld : l'.source.held = l.source.held)
    (hl : l'.line = l.line) (hr : l.reader ≠ .ended) : Relays l l' where
  index := hi
  capacity := hcapacity
  cursor := hc
  held := hheld
  line := by rw [hl]
  marked h := .inl (hl ▸ h)
  ended h := absurd h hr

theorem Relays.ending (hi : l'.index = l.index) (hcapacity : l'.capacity = l.capacity)
    (hc : l'.cursor = l.cursor) (hheld : l'.source.held = l.source.held)
    (hresults : l'.results = l.results) (hrequests : l'.requests = l.requests)
    (hr : l'.reader = .ended) : Relays l l' where
  index := hi
  capacity := hcapacity
  cursor := hc
  held := hheld
  line := by simp [Load.line, hresults, hrequests, hr]
  marked _ := .inr hr
  ended _ := hr

theorem relays_landRead {i : Nat} {t : Transfer} (hr : l.reader = .reading i t) (got : Bytes)
    (stop : Transfer.Stop) (cs : List ReadCall) :
    Relays l ((l.note cs (l.source.after t.offset)).landRead i got stop) := by
  unfold landRead
  split <;>
    exact .of_line rfl rfl rfl rfl (by simp [Load.line, hr, park, setState, note]) (by simp [hr])

theorem relays_readOn? {i : Nat} {t : Transfer} (hr : l.reader = .reading i t)
    (h : l.readOn? i t = some l') : Relays l l' := by
  unfold readOn? at h
  split at h
  · cases h
  · split at h
    · cases h
      exact .ending rfl rfl rfl rfl rfl rfl rfl
    · split at h
      · cases h
        exact .of_line rfl rfl rfl rfl (by simp [Load.line, hr, note]) (by simp [hr])
      · cases h
        exact relays_landRead hr _ _ _

theorem relays_beginRead {i : Nat} {q : List Request} (hr : l.reader = .waiting)
    (hq : l.requests = .page i :: q) : Relays l ({ l with requests := q }.beginRead i) := by
  unfold beginRead
  split
  · exact .of_line rfl rfl rfl rfl (by simp [Load.line, hr, hq, beginTransfer, setState])
      (by simp [hr])
  · refine ⟨rfl, rfl, rfl, rfl, ?_, fun h => .inl ?_, fun he => by simp [hr] at he⟩
    · simp [Load.line, hr, hq]
    · simpa [Load.line, hr, hq] using h

theorem relays_readerStep? (h : l.readerStep? = some l') : Relays l l' := by
  unfold readerStep? at h
  split at h
  · cases h
  · rename_i hr
    split at h
    · rename_i hq
      cases h
      exact relays_beginRead hr hq
    · rename_i hq
      cases h
      exact .of_line rfl rfl rfl rfl (by simp [Load.line, hr, hq]) (by simp [hr])
    · split at h
      · cases h
      · cases h
        exact .ending rfl rfl rfl rfl rfl rfl rfl
  · rename_i hr
    exact relays_readOn? hr h
  · rename_i r hr
    split at h
    · cases h
      exact .ending rfl rfl rfl rfl rfl rfl rfl
    · split at h
      · cases h
        have hmarks : (if r = .allLoaded then Reader.ended else .waiting).marks = [] := by
          split <;> rfl
        exact .of_line rfl rfl rfl rfl (by simp [Load.line, hr, hmarks]) (by simp [hr])
      · cases h

theorem relays_settle (l : Load W) : Relays l l.settle := by
  fun_induction settle l with
  | case1 => exact .refl _
  | case2 l l' h ih => exact (relays_readerStep? h).trans ih

theorem readerStep?_settle (l : Load W) : l.settle.readerStep? = none := by
  fun_induction settle l with
  | case1 l h => exact h
  | case2 l l' h ih => exact ih

theorem Relays.toDo_le (h : Relays l l') (c : Cursor) : l'.toDo c ≤ l.toDo c := by
  unfold toDo
  rw [h.index]
  exact Nat.add_le_add_left h.line _

theorem Relays.paced (h : Relays l l') (hp : Paced l c) : Paced l' c where
  room := hp.room.trans_eq h.capacity.symm
  next_le := hp.next_le.trans_eq (by rw [h.index])
  asked := h.line.trans hp.asked
  marked hf := by
    rcases hp.marked hf with ht | he
    · exact h.marked ht
    · exact .inr (h.ended he)

theorem Relays.paces (h : Relays l l') (hp : Paces l) : Paces l' :=
  fun c hc => h.paced (hp c (h.cursor.symm.trans hc))

/-- A reader that no read holds up is gone, has nothing to do, or has nowhere to put its result. -/
theorem readerStep?_none (h : l.readerStep? = none) (hheld : l.source.held = [])
    (hc : l.cursor = some c) :
    l.reader = .ended ∨ (l.reader = .waiting ∧ l.requests = []) ∨
      l.capacity ≤ l.results.length := by
  unfold readerStep? at h
  split at h
  · exact .inl ‹_›
  · split at h
    · cases h
    · cases h
    · exact .inr (.inl ⟨‹_›, ‹_›⟩)
  · unfold readOn? at h
    simp only [hheld, List.contains_nil, Bool.false_eq_true, ↓reduceIte] at h
    split at h
    · cases h
    · split at h <;> cases h
  · simp only [hc, Option.isNone_some, Bool.false_eq_true, ↓reduceIte] at h
    split at h
    · cases h
    · exact .inr (.inr (Nat.le_of_not_lt ‹_›))

end

/-! ## The idle callback -/

section

variable {l l' : Load W} {c c' : Cursor} {n : Nat}

/-- A call of the idle callback has found, or brought about, that background loading is over. -/
def Over (r : IdleResult × Load W) : Prop := r.1 = .allDone ∧ r.2.cursor = none

structure Advances (l : Load W) (c : Cursor) (l' : Load W) (c' : Cursor) : Prop where
  cursor : l'.cursor = some c'
  paced : Paced l' c'
  toDo : l'.toDo c' ≤ l.toDo c

theorem Advances.look {next : Nat} (h : Paced l c) (hge : c.next ≤ next)
    (hle : next ≤ l.index.pages.size) :
    Advances l c { l with cursor := some { c with next } } { c with next } where
  cursor := rfl
  paced := h.look hge hle
  toDo := by
    have hahead : Cursor.ahead { c with next } l.index.pages.size ≤ c.ahead l.index.pages.size :=
      Nat.add_le_add_right (Nat.sub_le_sub_left hge _) _
    exact Nat.add_le_add_right (Nat.mul_le_mul_left 2 hahead) _

theorem toDo_request {r : Request} (hmade : 2 * c'.ahead l.index.pages.size + 1 <
    2 * c.ahead l.index.pages.size) : (l.request r c').toDo c' < l.toDo c := by
  simp only [toDo, line_request, List.length_append, List.length_singleton]
  change 2 * c'.ahead l.index.pages.size + _ < _
  omega

theorem toDo_askPage {k : Nat} (h : c.next ≤ k) (hk : k < l.index.pages.size) :
    (l.request (.page k) { c with next := k + 1 }).toDo { c with next := k + 1 } < l.toDo c := by
  apply toDo_request
  simp only [Cursor.ahead]
  omega

theorem Paced.askPage {k : Nat} (hp : Paced l c) (h : c.next ≤ k) (hk : k < l.index.pages.size) :
    Paced (l.request (.page k) { c with next := k + 1 }) { c with next := k + 1 } := by
  refine hp.request hk ?_ fun hf => .inl hf
  simp only [Cursor.made]
  omega

theorem toDo_askEnd (hf : c.finished = false) :
    (l.request .finish { next := l.index.pages.size, finished := true }).toDo
      { next := l.index.pages.size, finished := true } < l.toDo c := by
  apply toDo_request
  simp only [Cursor.ahead, hf]
  simp
  omega

theorem Paced.askEnd (hp : Paced l c) (hf : c.finished = false) :
    Paced (l.request .finish { next := l.index.pages.size, finished := true })
      { next := l.index.pages.size, finished := true } := by
  apply hp.request (Nat.le_refl _)
  · have := hp.next_le
    simp only [Cursor.made, hf]
    simp
    omega
  · exact fun _ => .inr rfl

theorem queueReads_advances (n : Nat) (hc : l.cursor = some c) (hp : Paced l c) :
    ∃ c', Advances l c (l.queueReads c n).2 c' := by
  induction n generalizing l c with
  | zero => exact ⟨c, hc, hp, Nat.le_refl _⟩
  | succ n ih =>
    obtain ⟨hle, hge, -, -⟩ := l.nextEmpty_spec c.next
    have hlook := Advances.look hp (hge hp.next_le) hle
    unfold queueReads
    dsimp only
    split
    · rename_i hn
      split
      · rename_i hr
        simp only [Bool.and_eq_true, Bool.not_eq_true'] at hr
        rw [hn]
        exact ⟨_, rfl, hp.askEnd hr.1, (toDo_askEnd hr.1).le⟩
      · exact ⟨_, hlook⟩
    · rename_i hn
      have hk := Nat.lt_of_le_of_ne hle hn
      split
      · obtain ⟨c', hcursor, hpaced, htoDo⟩ := ih rfl (hp.askPage (hge hp.next_le) hk)
        exact ⟨c', hcursor, hpaced, htoDo.trans (toDo_askPage (hge hp.next_le) hk).le⟩
      · exact ⟨_, hlook⟩

theorem queueReads_lt (hn : 0 < n) (hp : Paced l c) (hf : c.finished = false)
    (hr : l.canRequest = true) :
    ∃ c', Advances l c (l.queueReads c n).2 c' ∧ (l.queueReads c n).2.toDo c' < l.toDo c := by
  obtain ⟨n, rfl⟩ := Nat.exists_eq_add_one_of_ne_zero hn.ne'
  obtain ⟨hle, hge, -, -⟩ := l.nextEmpty_spec c.next
  unfold queueReads
  simp only [hf, hr, Bool.not_false, Bool.and_self, ↓reduceIte]
  split
  · rename_i hn
    rw [hn]
    have hlt := toDo_askEnd (l := l) hf
    exact ⟨_, ⟨rfl, hp.askEnd hf, hlt.le⟩, hlt⟩
  · rename_i hn
    have hk := Nat.lt_of_le_of_ne hle hn
    have hask := hp.askPage (hge hp.next_le) hk
    have hlt := toDo_askPage (hge hp.next_le) hk
    rw [hf] at hask hlt
    obtain ⟨c', hcursor, hpaced, htoDo⟩ := queueReads_advances n rfl hask
    exact ⟨c', ⟨hcursor, hpaced, (htoDo.trans_lt hlt).le⟩, htoDo.trans_lt hlt⟩

variable [Guest W]

theorem receive_advances {r : Result} {rs : List Result} (hc : l.cursor = some c)
    (hp : Paced l c) (hr : l.results = r :: rs) :
    Over ({ l with results := rs }.receive r) ∨
      ∃ c', Advances l c ({ l with results := rs }.receive r).2 c' ∧
        ({ l with results := rs }.receive r).2.toDo c' < l.toDo c := by
  cases r with
  | failed => exact .inl ⟨rfl, rfl⟩
  | allLoaded => exact .inl ⟨rfl, rfl⟩
  | loaded i =>
    cases hplaced : ({ l with results := rs }.placeParked i).1 with
    | some =>
      rw [receive_unplaced hplaced]
      exact .inl ⟨rfl, rfl⟩
    | none =>
      rw [receive_placed hplaced]
      have hb := background_placeParked { l with results := rs } i
      have hi := index_placeParked { l with results := rs } i
      generalize ({ l with results := rs }.placeParked i).2 = l' at hb hi ⊢
      have hline : l.line = false :: l'.line := by
        rw [line_congr hb]
        simp [line, hr]
      have hreader : l'.reader = l.reader := congrArg Background.reader hb
      have hlength : l.line.length = l'.line.length + 1 := congrArg List.length hline
      have hlt : l'.toDo c < l.toDo c := by
        simp only [toDo, hlength, show l'.index = l.index from hi]
        omega
      refine .inr
        ⟨c, ⟨(congrArg Background.cursor hb).trans hc, ⟨?_, ?_, ?_, fun hf => ?_⟩, ?_⟩, ?_⟩
      · exact hp.room.trans_eq (congrArg Background.capacity hb).symm
      · exact hi ▸ hp.next_le
      · exact (Nat.le_of_lt (hlength ▸ Nat.lt_succ_self _)).trans hp.asked
      · rw [hreader]
        simpa [hline] using hp.marked hf
      · exact hlt.le
      · exact hlt

omit [Guest W] in
theorem canRequest_of_lt (hr : l.reader ≠ .ended) (hlt : l.requests.length < l.capacity) :
    l.canRequest = true := by
  unfold canRequest
  cases h : l.reader <;> simp_all

/-- A call is wasted: the idle callback finds no result, and no request to make. -/
def Stalls (l : Load W) (c : Cursor) : Prop :=
  l.results = [] ∧ l.reader ≠ .ended ∧ (c.finished = true ∨ l.capacity ≤ l.requests.length)

/-- Every call of the idle callback ends background loading or keeps the line moving. -/
theorem idle_advances (hc : l.cursor = some c) (hp : Paced l c) :
    Over l.idle ∨ ∃ c', Advances l c l.idle.2 c' ∧ (l.idle.2.toDo c' < l.toDo c ∨ Stalls l c) := by
  unfold idle
  split
  · rename_i hn
    cases hc.symm.trans hn
  · rename_i c₁ hc₁
    obtain rfl := Option.some.inj (hc.symm.trans hc₁)
    split
    · rename_i r rs _ hr
      rcases receive_advances hc hp hr with h | ⟨c', h, hlt⟩
      · exact .inl h
      · exact .inr ⟨c', h, .inl hlt⟩
    · exact .inl ⟨rfl, rfl⟩
    · rename_i hr hne
      by_cases hw : c.finished = true ∨ l.capacity ≤ l.requests.length
      · obtain ⟨c', h⟩ := queueReads_advances l.capacity hc hp
        exact .inr ⟨c', h, .inr ⟨hr, hne, hw⟩⟩
      · obtain ⟨hf, hlt⟩ := not_or.1 hw
        have hcan := canRequest_of_lt hne (Nat.lt_of_not_le hlt)
        obtain ⟨c', h, hlt⟩ := queueReads_lt hp.room hp (Bool.eq_false_of_not_eq_true hf) hcan
        exact .inr ⟨c', h, .inl hlt⟩

omit [Guest W] in
/-- Once the reader has run as far as it can, no call is wasted. -/
theorem Paced.not_stalls (hp : Paced l c) (hc : l.cursor = some c)
    (hs : l.readerStep? = none) (hheld : l.source.held = []) : ¬ Stalls l c := by
  rintro ⟨hr, hne, hw⟩
  rcases readerStep?_none hs hheld hc with he | ⟨hwait, hq⟩ | hfull
  · exact hne he
  · rcases hw with hf | hfull
    · rcases hp.marked hf with ht | he
      · simp [line, hr, hwait, hq] at ht
      · exact hne he
    · exact absurd hp.room (Nat.not_lt_of_le (by simpa [hq] using hfull))
  · exact absurd hp.room (Nat.not_lt_of_le (by simpa [hr] using hfull))

omit [Guest W] in
/-- Something was asked for if a call is wasted. -/
theorem Paced.made_pos (hp : Paced l c) (hw : Stalls l c) : 0 < c.made := by
  obtain ⟨-, -, hf | hfull⟩ := hw
  · simp [Cursor.made, hf]
  · have hline : l.requests.length ≤ l.line.length := by
      simp only [line, List.length_append, List.length_map]
      exact Nat.le_add_left _ _
    exact hp.room.trans_le (hfull.trans (hline.trans hp.asked))

theorem source_idle (l : Load W) : l.idle.2.source = l.source := by
  unfold idle
  split
  · rfl
  · split
    · exact congrArg Prod.fst (inflow_receive _ _)
    · rfl
    · exact queueReads_keeps source (fun _ _ _ => rfl) l _ _

end

/-! ## Runs -/

section

variable [Guest W] {E : Surroundings} {l : Load W} {c : Cursor} {x y : Session W} {n : Nat}

theorem background_of_encounter {l' : Load W} {a : Nat} (h : l.encounter a = .settled l') :
    l'.background = l.background := by
  unfold encounter at h
  split at h
  · cases h
    rfl
  · split at h
    · cases h
    · cases h
    · cases h
    · cases h
      exact background_takeOver _ _

theorem Paces.step (h : Paces x.load) (hs : Step E x y) : Paces y.load := by
  have hi : y.load.index = x.load.index := Steps.index (.single hs)
  cases hs with
  | fault => exact h
  | settle he => exact h.congr hi (background_of_encounter he)
  | claim he =>
    obtain ⟨-, -, rfl⟩ := encounter_claimed he
    exact h.congr hi rfl
  | read hr =>
    obtain ⟨_, -, rfl⟩ := readOnce_going hr
    exact h.congr hi rfl
  | land hr =>
    obtain ⟨_, _, _, _, -, rfl⟩ := readOnce_none_ends hr
    exact h.congr hi (background_land ..)
  | @idle l =>
    cases hc : l.cursor with
    | none =>
      refine .of_over ?_
      simp only [Load.idle, hc]
      exact hc
    | some c =>
      rcases idle_advances hc (h c hc) with ⟨-, hover⟩ | ⟨c', ha, -⟩
      · exact .of_over hover
      · intro c₁ hc₁
        obtain rfl := Option.some.inj (ha.cursor.symm.trans hc₁)
        exact ha.paced
  | reader hr => exact (relays_readerStep? hr).paces h
  | interrupt => exact .of_over rfl
  | source => exact h.congr hi rfl

theorem Paces.steps (h : Paces x.load) (hs : Steps E x y) : Paces y.load := by
  induction hs with
  | refl => exact h
  | tail _ hs ih => exact ih.step hs

theorem capacity_of_startsLazily {l : Loader W} {m : Load W} {failure : Option LoadError}
    (h : l.StartsLazily failure m) : m.capacity = l.config.capacity := by
  obtain ⟨m₀, ho, hs⟩ := h.startBackground
  have hm₀ : m₀.capacity = l.config.capacity := by
    unfold Loader.opened? at ho
    split at ho
    · dsimp only at ho
      split at ho
      · cases ho
      · cases ho
        rfl
    · cases ho
  obtain ⟨guest, ⟨-, rfl⟩ | ⟨reader, -, rfl⟩⟩ := startBackground_cases hs <;> exact hm₀

theorem paces_start {l : Loader W} {m : Load W} (h : l.StartsLazily none m) : Paces m := by
  intro c hc
  obtain ⟨hcursor, hreader⟩ := h.waiting
  obtain rfl := Option.some.inj (hcursor.symm.trans hc)
  obtain ⟨hfresh, -⟩ := h.fresh
  constructor
  · rw [capacity_of_startsLazily h]
    exact Nat.le_max_left _ _
  · exact Nat.zero_le _
  · simp [line, hfresh.results, hfresh.requests, hreader]
  · intro hf
    cases hf

theorem drive_succ (h : l.idle.1 = .allDone ∨
    (l.idle.2.settle.drive n).1.getLast? = some .allDone) :
    (l.drive (n + 1)).1.getLast? = some .allDone := by
  unfold drive idleSettled
  dsimp only
  split
  · rfl
  · rename_i r l' hne he
    cases he
    rw [List.getLast?_cons, h.resolve_left hne]
    rfl

/-- A settled load needs at most one call more than there is to do. -/
theorem drive_of_settled (hc : l.cursor = some c) (hp : Paced l c) (hs : l.readerStep? = none)
    (hheld : l.source.held = []) (hn : l.toDo c < n) :
    (l.drive n).1.getLast? = some .allDone := by
  induction n generalizing l c with
  | zero => exact absurd hn (Nat.not_lt_zero _)
  | succ n ih =>
    apply drive_succ
    rcases idle_advances hc hp with ⟨h, -⟩ | ⟨c', h, hw⟩
    · exact .inl h
    · have hlt := hw.resolve_right (hp.not_stalls hc hs hheld)
      have hr := relays_settle l.idle.2
      refine .inr (ih (hr.cursor.trans h.cursor) (hr.paced h.paced) (readerStep?_settle _) ?_ ?_)
      · rw [hr.held, source_idle, hheld]
      · exact (hr.toDo_le c').trans_lt (hlt.trans_le (Nat.le_of_lt_succ hn))

/--
Background loading always ends: as long as no read of the reader is held up and the reader runs
after each call, the idle callback answers that all is done within two calls for each page and
three more.
-/
theorem allDone_of_enough_calls {l : Loader W} {m : Load W} (hm : l.StartsLazily none m)
    (hr : Steps E ⟨m, 0⟩ x) (hheld : x.load.source.held = []) :
    (x.load.drive (2 * m.index.pages.size + 3)).1.getLast? = some .allDone := by
  rw [← hr.index]
  apply drive_succ
  cases hc : x.load.cursor with
  | none =>
    simp only [Load.idle, hc]
    exact .inl rfl
  | some c =>
    have hp := (paces_start hm).steps hr c hc
    rcases idle_advances hc hp with ⟨h, -⟩ | ⟨c', h, hw⟩
    · exact .inl h
    · have hr := relays_settle x.load.idle.2
      refine .inr (drive_of_settled (hr.cursor.trans h.cursor) (hr.paced h.paced)
        (readerStep?_settle _) ?_ ?_)
      · rw [hr.held, source_idle, hheld]
      · have hle := hr.toDo_le c'
        have htoDo := h.toDo
        have hall := hp.toDo_le
        -- a first call can only be wasted where something was asked for
        rcases hw with hlt | hstall
        · omega
        · have := hp.made_pos hstall
          omega

theorem allDone_of_enough_calls_sample :
    (Loader.sampleLoad.idle.2.drive
      (2 * Loader.sampleLoad.index.pages.size + 3)).1.getLast? = some .allDone :=
  allDone_of_enough_calls (E := .quiet) (x := ⟨Loader.sampleLoad.idle.2, 0⟩)
    Loader.sample_startsLazily (.single .idle) (by decide +kernel)

end

end Load
end RamRestore
