import RamRestore.Proofs.Index.Locate
import RamRestore.Proofs.Load.Held
import RamRestore.Proofs.Load.Manned

/-! # Faults are served

While a fault is served, the background reader may go on, and nobody else. The fault returns
unless the reader is killed in the middle of its page, and then the page holds what it is to
hold, or it failed and so did the load.
-/

namespace RamRestore

/-- What a source is after one read at most. -/
def Source.Follows (s s' : Source) : Prop := s' = s ∨ ∃ offset, s' = s.after offset

theorem Source.Follows.interruptions_le {s s' : Source} (h : s.Follows s') (offset : Nat) :
    s'.interruptions.get offset ≤ s.interruptions.get offset := by
  rcases h with rfl | ⟨o, rfl⟩
  · exact Nat.le_refl _
  · simp only [after, Table.get_set]
    split
    · rename_i ho
      rw [ho]
      exact Nat.sub_le _ _
    · exact Nat.le_refl _

namespace Load

variable {W : Type} [Guest W]

/-- A step of a fault, or of the reader while the fault is not served. -/
inductive Attend : Option Service × Load W → Option Service × Load W → Prop
  | reader {l l' : Load W} {f : Service} (h : l.readerStep? = some l') :
      Attend (some f, l) (some f, l')
  | settle {l l' : Load W} {a : Nat} (h : l.encounter a = .settled l') :
      Attend (some (.at a), l) (none, l')
  | claim {l l' : Load W} {a i : Nat} (h : l.encounter a = .claimed i l') :
      Attend (some (.at a), l)
        (some (.reading i (l'.beginTransfer i).1), (l'.beginTransfer i).2)
  | read {l l' : Load W} {i : Nat} {t t' : Transfer} (h : l.readOnce i t = (some t', l')) :
      Attend (some (.reading i t), l) (some (.reading i t'), l')
  | land {l l' : Load W} {i : Nat} {t : Transfer} (h : l.readOnce i t = (none, l')) :
      Attend (some (.reading i t), l) (none, l')

abbrev Attends : Option Service × Load W → Option Service × Load W → Prop :=
  Relation.ReflTransGen Attend

/-- A load beside faults that wait, and the one that is served. -/
def beside (fs : Multiset Service) (y : Option Service × Load W) : Session W :=
  ⟨y.2, y.1.toList + fs⟩

section

variable {E : Surroundings} {y z : Option Service × Load W} {fs : Multiset Service}

theorem Attend.step (h : Attend y z) (fs : Multiset Service) :
    Step E (beside fs y) (beside fs z) := by
  cases h with
  | reader h => exact .reader h
  | settle h => simpa [beside] using Step.settle h
  | claim h => exact .claim h
  | read h => exact .read h
  | land h => simpa [beside] using Step.land h

theorem Attends.steps (h : Attends y z) (fs : Multiset Service) :
    Steps E (beside fs y) (beside fs z) := by
  induction h with
  | refl => exact .refl
  | tail _ hs ih => exact ih.tail (hs.step fs)

theorem attends_readFault (l : Load W) (i : Nat) (t : Transfer) :
    Attends (some (.reading i t), l) (l.readFault i t) := by
  fun_induction readFault l i t with
  | case1 => exact .refl
  | case2 l t _ l' h => exact .single (.land h)
  | case3 l t _ t' l' h ih => exact .head (.read h) ih

theorem attends_serve (l : Load W) (f : Service) : Attends (some f, l) (l.serve f) := by
  cases f with
  | «at» a =>
    unfold serve
    cases h : l.encounter a with
    | settled l' =>
      simp only [h]
      exact .single (.settle h)
    | busy =>
      simp only [h]
      exact .refl
    | claimed i l' =>
      simp only [h]
      exact .head (.claim h) (attends_readFault _ i _)
  | reading i t => exact attends_readFault l i t

end

section

variable {l l' : Load W} {i : Nat} {t : Transfer}

omit [Guest W] in
theorem readerStep?_keeps (h : l.readerStep? = some l') :
    l'.guest = l.guest ∧ Source.Follows l.source l'.source := by
  have hland : ∀ k : Load W, ∀ i got stop, (k.landRead i got stop).guest = k.guest ∧
      (k.landRead i got stop).source = k.source := by
    intro k i got stop
    unfold landRead
    split <;> exact ⟨rfl, rfl⟩
  unfold readerStep? at h
  split at h
  · cases h
  · split at h
    · cases h
      unfold beginRead
      split <;> exact ⟨rfl, .inl rfl⟩
    · cases h
      exact ⟨rfl, .inl rfl⟩
    · split at h
      · cases h
      · cases h
        exact ⟨rfl, .inl rfl⟩
  · unfold readOn? at h
    split at h
    · cases h
    · split at h
      · cases h
        exact ⟨rfl, .inl rfl⟩
      · split at h
        · cases h
          exact ⟨rfl, .inr ⟨_, rfl⟩⟩
        · cases h
          rename_i c got stop _
          obtain ⟨hg, hs⟩ := hland (l.note [c] _) _ got stop
          exact ⟨hg, .inr ⟨_, hs⟩⟩
  · split at h
    · cases h
      exact ⟨rfl, .inl rfl⟩
    · split at h
      · cases h
        exact ⟨rfl, .inl rfl⟩
      · cases h

end

def serviceWork (s : Source) : Option Service → Nat × Nat × Nat
  | none => (0, 0, 0)
  | some (.reading _ t) => (1, t.size - t.got.size, s.interruptions.get t.offset)
  | some (.at _) => (2, 0, 0)

def attendWork (y : Option Service × Load W) : (Nat × Nat × Nat) × Nat × Nat × Nat × Nat :=
  (serviceWork y.2.source y.1, y.2.readerWork)

abbrev AttendLt : (Nat × Nat × Nat) × Nat × Nat × Nat × Nat →
    (Nat × Nat × Nat) × Nat × Nat × Nat × Nat → Prop :=
  Prod.Lex (Prod.Lex (· < ·) (Prod.Lex (· < ·) (· < ·))) WorkLt

theorem Attend.work {y z : Option Service × Load W} (h : Attend y z) :
    AttendLt (attendWork z) (attendWork y) := by
  cases h with
  | @reader l l' f h =>
    have hw := readerStep?_work h
    cases f with
    | «at» a => exact .right _ hw
    | reading i t =>
      have hle := (readerStep?_keeps h).2.interruptions_le t.offset
      rcases Nat.lt_or_eq_of_le hle with hlt | heq
      · -- the reader met an interruption that the fault would have met
        exact .left _ _ (.right _ (.right _ hlt))
      · simp only [attendWork, serviceWork, heq]
        exact .right _ hw
  | settle h => exact .left _ _ (.left _ _ (by decide))
  | claim h => exact .left _ _ (.left _ _ (by decide))
  | land h => exact .left _ _ (.left _ _ (by decide))
  | @read l l' i t t' h =>
    obtain ⟨c, hc, rfl⟩ := readOnce_going h
    refine .left _ _ (.right _ ?_)
    obtain ⟨hs, ⟨h₁, h₂⟩ | ⟨rfl, h₂⟩⟩ := Transfer.call_going hc
    · exact .left _ _ (by omega)
    · refine .right _ ?_
      simp only [note, Source.after, Table.get_set_self]
      omega

/-- Nothing goes on for ever. -/
theorem attend_wellFounded : WellFounded fun z y : Option Service × Load W => Attend y z := by
  have hnat : WellFounded fun m n : Nat => m < n := Nat.lt_wfRel.wf
  have hwork : WellFounded WorkLt :=
    (Prod.lex ⟨_, hnat⟩ (Prod.lex ⟨_, hnat⟩ (Prod.lex ⟨_, hnat⟩ ⟨_, hnat⟩))).wf
  have hservice := (Prod.lex ⟨_, hnat⟩ (Prod.lex ⟨_, hnat⟩ ⟨_, hnat⟩)).wf
  exact Subrelation.wf (fun h => h.work) (InvImage.wf attendWork
    (Prod.lex ⟨_, hservice⟩ ⟨_, hwork⟩).wf)

theorem Attend.follows {y z : Option Service × Load W} (h : Attend y z) :
    y.2.source.Follows z.2.source := by
  cases h with
  | reader h => exact (readerStep?_keeps h).2
  | @settle l l' a h =>
    obtain ⟨-, rfl⟩ | ⟨i, -, -, rfl⟩ := encounter_settled h
    · exact .inl rfl
    · exact .inl (congrArg Prod.fst ((inflow_recordAny _ _).trans (inflow_placeParked l i)))
  | claim h =>
    obtain ⟨-, -, rfl⟩ := encounter_claimed h
    exact .inl rfl
  | read h =>
    obtain ⟨c, -, rfl⟩ := readOnce_going h
    exact .inr ⟨_, rfl⟩
  | @land l l' i t h =>
    obtain ⟨got, stop, cs, s, he, rfl⟩ := readOnce_none_ends h
    have hs : ((l.note cs s).land i got stop).source = s := congrArg Prod.fst (inflow_land _ _ _ _)
    simp only [hs]
    cases he with
    | full => exact .inl rfl
    | stopped => exact .inr ⟨_, rfl⟩

variable [LawfulGuest W]

open LawfulGuest

/-- The two loads differ in one page at most, and nowhere else in memory. -/
structure OnlyPage (p : Option Nat) (l l' : Load W) : Prop where
  index : l'.index = l.index
  state : ∀ j, p ≠ some j → l'.state j = l.state j
  parked : ∀ j, p ≠ some j → l'.parked j = l.parked j
  memory : ∀ b, (∀ i, p = some i → ¬ l.index.Covers i b) → byte l'.guest b = byte l.guest b

/-- A fault has settled its page: it is filled, or it failed and so did the load. If there is no
such page, the load has failed. -/
def Answered (l : Load W) : Option Nat → Prop
  | none => l.failure.isSome
  | some i => l.state i = .filled ∨ l.state i = .error ∧ l.failure.isSome

section

variable {l l' m : Load W} {i : Nat} {p : Option Nat} {c : Bytes}

theorem OnlyPage.trans (h : OnlyPage p l l') (h' : OnlyPage p l' m) : OnlyPage p l m where
  index := h'.index.trans h.index
  state j hj := (h'.state j hj).trans (h.state j hj)
  parked j hj := (h'.parked j hj).trans (h.parked j hj)
  memory b hb := (h'.memory b (h.index ▸ hb)).trans (h.memory b hb)

theorem OnlyPage.of_samePages (h : SamePages l l') : OnlyPage p l l' where
  index := h.index
  state j _ := h.state j
  parked j _ := h.parked j
  memory b _ := by rw [h.guest]

theorem onlyPage_setState (s : PageState) : OnlyPage (some i) l (l.setState i s) where
  index := rfl
  state j hj := by rw [state_setState, if_neg (by simpa using hj)]
  parked j hj := by rw [parked_setState, if_neg (by simpa using hj)]
  memory _ _ := rfl

theorem onlyPage_claim : OnlyPage (some i) l (l.claim i) where
  index := rfl
  state j hj := by rw [state_claim, if_neg (by simpa using hj)]
  parked j hj := by rw [parked_claim, if_neg (by simpa using hj)]
  memory _ _ := rfl

theorem onlyPage_fill (hc : c.size = l.index.pageSize i) : OnlyPage (some i) l (l.fill i c).2 where
  index := index_fill l i c
  state j hj := by rw [state_fill, if_neg (by simpa using hj)]
  parked j hj := by rw [parked_fill, if_neg (by simpa using hj)]
  memory b hb := by
    rw [guest_fill]
    cases ha : Guest.place l.guest (l.index.address i) c with
    | mk answer guest =>
      cases answer with
      | none =>
        rw [byte_accept ha, if_neg]
        rintro ⟨hle, hlt⟩
        exact hb i rfl ⟨hle, by omega⟩
      | some cause => rw [byte_refuse ha]

omit [Guest W] [LawfulGuest W] in
theorem answered_error (l : Load W) (i : Nat) (cause : LoadError) :
    Answered ((l.setState i .error).record cause) (some i) :=
  .inr ⟨(state_setState l i i .error).trans (if_pos rfl), rfl⟩

omit [LawfulGuest W] in
theorem answered_fill (i : Nat) (c : Bytes) :
    Answered ((l.fill i c).2.recordAny (l.fill i c).1) (some i) := by
  have hs := state_fill l i i c
  rw [if_pos rfl] at hs
  cases hf : (l.fill i c).1 with
  | none =>
    rw [hf] at hs
    exact .inl hs
  | some cause =>
    rw [hf] at hs
    exact .inr ⟨hs, rfl⟩

omit [LawfulGuest W] in
/-- A fault that finds its page read or settled answers for it. -/
theorem answered_takeOver
    (hs : l.state i = .read ∨ l.state i = .filled ∨ l.state i = .error) :
    Answered (l.takeOver i) (some i) := by
  unfold takeOver placeParked
  rcases hs with hs | hs | hs
  · simp only [hs]
    cases hc : l.parked i with
    | none => exact answered_error l i _
    | some c => exact answered_fill i c
  · simp only [hs]
    exact .inl hs
  · simp only [hs]
    exact .inr ⟨hs, rfl⟩

theorem onlyPage_takeOver
    (hp : l.state i = .read → ∀ c, l.parked i = some c → c.size = l.index.pageSize i) :
    OnlyPage (some i) l (l.takeOver i) := by
  have hplace : OnlyPage (some i) l (l.placeParked i).2 := by
    unfold placeParked
    split
    · split
      · exact onlyPage_fill (hp ‹_› _ ‹_›)
      · exact onlyPage_setState .error
    · exact .of_samePages rfl
    · exact .of_samePages rfl
  exact hplace.trans (.of_samePages (samePages_recordAny _ _))

theorem land_effect {got : Bytes} {stop : Transfer.Stop}
    (hc : ∀ c, l.contents i got stop = .ok c → c.size = l.index.pageSize i) :
    OnlyPage (some i) l (l.land i got stop) ∧ Answered (l.land i got stop) (some i) := by
  unfold land
  split
  · exact ⟨(onlyPage_setState .error).trans (.of_samePages rfl), answered_error l i _⟩
  · rename_i c hok
    exact ⟨(onlyPage_fill (hc c hok)).trans (.of_samePages (samePages_recordAny _ _)),
      answered_fill i c⟩

end

def Service.page? (x : Index) : Service → Option Nat
  | .at a => x.locate a
  | .reading i _ => some i

section

variable {l : Load W} {f : Service} {z : Option Service × Load W} {fs : Multiset Service}
  {data : Bytes} {before : Nat → UInt8}

/-- What one step of a fault does, unless it is one of the reader. -/
theorem Attend.effect (ho : Orderly (beside fs (some f, l)))
    (hf : Faithful data before (beside fs (some f, l))) (h : Attend (some f, l) z) :
    z.1 = some f ∧ l.readerStep? = some z.2 ∨
      OnlyPage (f.page? l.index) l z.2 ∧
        match z.1 with
        | some f' => f'.page? z.2.index = f.page? l.index
        | none => Answered z.2 (f.page? l.index) := by
  have hsize : ∀ {i c}, l.state i ≠ .empty → l.state i ≠ .filled →
      l.index.content? data i = some c → c.size = l.index.pageSize i :=
    fun he hn hc => Index.size_content ho.wellFormed (ho.stored_of_state he hn) hc
  cases h with
  | reader h => exact .inl ⟨rfl, h⟩
  | settle h =>
    refine .inr ?_
    obtain ⟨hl, rfl⟩ | ⟨i, hl, hs, rfl⟩ := encounter_settled h
    · simp only [Service.page?, hl]
      exact ⟨.of_samePages rfl, rfl⟩
    · simp only [Service.page?, hl]
      exact ⟨onlyPage_takeOver fun hr c hc =>
        hsize (by simp [hr]) (by simp [hr]) (hf.parked i c hc), answered_takeOver hs⟩
  | claim h =>
    obtain ⟨hl, -, rfl⟩ := encounter_claimed h
    simp only [Service.page?, hl]
    exact .inr ⟨onlyPage_claim, trivial⟩
  | read h =>
    obtain ⟨c, -, rfl⟩ := readOnce_going h
    exact .inr ⟨.of_samePages rfl, rfl⟩
  | @land _ _ i t h =>
    obtain ⟨got, stop, cs, s, he, rfl⟩ := readOnce_none_ends h
    have hmem : (i, t) ∈ (beside fs (some (.reading i t), l)).transfers := by
      simp [beside]
    have hr : l.state i = .reading := ho.reading (i, t) hmem
    have hn : OnlyPage (some i) l (l.note cs s) := .of_samePages rfl
    have hc : ∀ c, (l.note cs s).contents i got stop = .ok c → c.size = l.index.pageSize i := by
      intro c hc
      have hcontents : (l.note cs s).contents = l.contents := contents_congr rfl
      rw [hcontents] at hc
      obtain ⟨rfl, hdecode⟩ := contents_ok hc
      have hpacked := (hf.brings (i, t) hmem).full hf.source he
      exact hsize (by simp [hr]) (by simp [hr]) (content_of_decode hpacked hdecode)
    obtain ⟨honly, hanswered⟩ := land_effect hc
    exact .inr ⟨hn.trans honly, hanswered⟩

/-- What holds all the time that a fault about page `p` is served, since load `l₀`. -/
structure Serving (data : Bytes) (before : Nat → UInt8) (fs : Multiset Service) (p : Option Nat)
    (l₀ : Load W) (y : Option Service × Load W) : Prop where
  orderly : Orderly (beside fs y)
  faithful : Faithful data before (beside fs y)
  manned : Manned (beside fs y)
  index : y.2.index = l₀.index
  held : y.2.source.held = l₀.source.held
  service : match y.1 with
    | some f => f.page? l₀.index = p
    | none => Answered y.2 p

variable {y : Option Service × Load W} {p : Option Nat} {l₀ : Load W}

theorem Serving.frame (h : Serving data before fs p l₀ y) (hs : Attend y z) :
    y.2.readerStep? = some z.2 ∧ z.2.guest = y.2.guest ∨ OnlyPage p y.2 z.2 := by
  obtain ⟨_ | f, l⟩ := y
  · cases hs
  · obtain ⟨-, hr⟩ | ⟨hp, -⟩ := hs.effect h.orderly h.faithful
    · exact .inl ⟨hr, (readerStep?_keeps hr).1⟩
    · have hpage : f.page? l.index = p := (congrArg f.page? h.index).trans h.service
      exact .inr (hpage ▸ hp)

theorem Serving.step (hb : RamBlock.Disjoint (l₀.index.blocks.map (·.ram)))
    (h : Serving data before fs p l₀ y) (hs : Attend y z) : Serving data before fs p l₀ z := by
  have hstep : Steps Surroundings.quiet (beside fs y) (beside fs z) := .single (hs.step fs)
  have hindex : z.2.index = y.2.index := hstep.index
  constructor
  · exact h.orderly.steps hstep
  · exact h.faithful.steps (E := .quiet) nofun h.orderly (h.index ▸ hb) hstep
  · exact h.manned.steps hstep
  · exact hindex.trans h.index
  · rw [← h.held]
    obtain he | ⟨offset, he⟩ := hs.follows <;> rw [he]
    rfl
  · obtain ⟨_ | f, l⟩ := y
    · cases hs
    · have hpage : f.page? l.index = p := (congrArg f.page? h.index).trans h.service
      obtain ⟨hz, -⟩ | ⟨-, hz⟩ := hs.effect h.orderly h.faithful
      · rw [hz]
        exact h.service
      · rw [hpage] at hz
        cases hf : z.1 with
        | none =>
          rw [hf] at hz
          exact hz
        | some f' =>
          rw [hf, hindex, h.index] at hz
          exact hz

theorem Serving.run (hb : RamBlock.Disjoint (l₀.index.blocks.map (·.ram)))
    (h : Serving data before fs p l₀ y) (hs : Attends y z) : Serving data before fs p l₀ z := by
  induction hs with
  | refl => exact h
  | tail _ hs ih => exact ih.step hb hs

omit [Guest W] [LawfulGuest W] in
theorem exists_readOn {i : Nat} {t : Transfer} (hh : l.source.held = []) :
    ∃ l', l.readOn? i t = some l' := by
  unfold readOn?
  rw [if_neg (by simp [hh])]
  split
  · exact ⟨_, rfl⟩
  · split <;> exact ⟨_, rfl⟩

omit [LawfulGuest W] in
theorem encounter_busy {a : Nat} (h : l.encounter a = .busy) :
    ∃ i, l.index.locate a = some i ∧ (l.state i = .reading ∨ l.state i = .filling) := by
  unfold encounter at h
  split at h
  · cases h
  · rename_i i hl
    refine ⟨i, hl, ?_⟩
    split at h
    · cases h
    · exact .inl ‹_›
    · exact .inr ‹_›
    · cases h

/-- A fault that cannot go on is about a page that the reader was killed in the middle of. -/
theorem Serving.progress (h : Serving data before fs p l₀ (some f, l))
    (hh : l₀.source.held = []) (hfs : ∀ i t, p = some i → .reading i t ∉ fs) :
    (∃ z, Attend (some f, l) z) ∨ ∃ i, p = some i ∧ l.state i = .reading ∧ Killed l := by
  cases f with
  | reading i t =>
    cases hr : l.readOnce i t with
    | mk t' l' =>
      cases t' with
      | none => exact .inl ⟨_, .land hr⟩
      | some t' => exact .inl ⟨_, .read hr⟩
  | «at» a =>
    cases he : l.encounter a with
    | settled l' => exact .inl ⟨_, .settle he⟩
    | claimed i l' => exact .inl ⟨_, .claim he⟩
    | busy =>
      obtain ⟨i, hl, hs⟩ := encounter_busy he
      have hr : l.state i = .reading := hs.resolve_right (h.manned.filling i)
      have hp : p = some i := by
        rw [← h.service, ← hl, ← h.index]
        rfl
      rcases h.manned.reading i hr with ⟨t, hmem⟩ | hk
      · have hmem' : (i, t) ∈ Session.transfers ⟨l, fs⟩ := by
          simpa [beside] using hmem
        rcases Multiset.mem_add.1 hmem' with hreader | hfault
        · -- the reader is at the page, and goes on
          cases hreading : l.reader with
          | reading j u =>
            obtain ⟨l', hon⟩ := exists_readOn (l := l) (i := j) (t := u) (h.held.trans hh)
            have hstep : l.readerStep? = some l' := by
              rw [readerStep?, hreading]
              exact hon
            exact .inl ⟨_, .reader hstep⟩
          | waiting | offering | ended => simp [hreading, Reader.transfer?] at hreader
        · obtain ⟨g, hg, hgi⟩ := (Multiset.mem_filterMap _ _).1 hfault
          cases g with
          | «at» b => cases hgi
          | reading j u =>
            cases hgi
            exact absurd hg (hfs i t hp)
      · exact .inr ⟨i, hp, hr, hk⟩

/-- A fault returns, or the reader is killed in the middle of its page. -/
theorem Serving.returns (hb : RamBlock.Disjoint (l₀.index.blocks.map (·.ram)))
    (hh : l₀.source.held = []) (hfs : ∀ i t, p = some i → .reading i t ∉ fs)
    (h : Serving data before fs p l₀ y) : ∃ z, Attends y z ∧
      (z.1 = none ∨ ∃ i, p = some i ∧ z.2.state i = .reading ∧ Killed z.2) := by
  induction attend_wellFounded.apply y with
  | intro y _ ih =>
    obtain ⟨_ | f, l⟩ := y
    · exact ⟨_, .refl, .inl rfl⟩
    · rcases h.progress hh hfs with ⟨z, hz⟩ | hk
      · obtain ⟨z', hs, hz'⟩ := ih z hz (h.step hb hz)
        exact ⟨z', .head hz hs, hz'⟩
      · exact ⟨_, .refl, .inr hk⟩

end

/-- Two loads differ in nothing but the page that has address `a`. -/
structure Spares (a : Nat) (l l' : Load W) : Prop where
  state : ∀ j, ¬ l.index.Covers j a → l'.state j = l.state j
  parked : ∀ j, ¬ l.index.Covers j a → l'.parked j = l.parked j
  memory : ∀ b, (∀ i < l.index.pages.size, l.index.Covers i a → ¬ l.index.Covers i b) →
    byte l'.guest b = byte l.guest b

theorem OnlyPage.spares {l l' : Load W} {a : Nat} (h : OnlyPage (l.index.locate a) l l')
    (hs : l.index.Separate) (hb : RamBlock.Disjoint (l.index.blocks.map (·.ram))) :
    Spares a l l' := by
  have hne : ∀ j, ¬ l.index.Covers j a → l.index.locate a ≠ some j :=
    fun j hj hl => hj ((Index.locate_eq_some_iff hs hb).1 hl).2
  constructor
  · exact fun j hj => h.state j (hne j hj)
  · exact fun j hj => h.parked j (hne j hj)
  · intro b hout
    refine h.memory b fun i hi => ?_
    obtain ⟨hlt, hc⟩ := (Index.locate_eq_some_iff hs hb).1 hi
    exact hout i hlt hc

theorem Faithful.holds {x : Session W} {data : Bytes} {before : Nat → UInt8} {i : Nat}
    {zeroChecker : Bytes → Bool} (h : Faithful data before x) (hw : x.load.index.WellFormed)
    (hb : RamBlock.Disjoint (x.load.index.blocks.map (·.ram)))
    (hzero : ∀ i < x.load.index.pages.size, (x.load.index.page i).isZero = true →
      x.load.index.Holds data zeroChecker before i)
    (hi : i < x.load.index.pages.size) (hs : x.load.state i = .filled) :
    x.load.index.Holds data zeroChecker (byte x.load.guest) i := by
  cases hz : (x.load.index.page i).isZero with
  | true =>
    refine (hzero i hi hz).congr fun k hk => h.restored.kept _ fun j hj hc => ?_
    exact absurd hc (Index.not_covers_zero hw hb hi hz hk hj)
  | false =>
    rw [Index.Holds, if_neg (by simp [hz])]
    exact h.restored.filled i (Index.mem_stored.2 ⟨hi, hz⟩) hs

end Load

namespace Loader

open Load LawfulGuest

variable {W : Type} [Guest W] [LawfulGuest W] {l : Loader W} {m m₀ : Load W}
  {failure : Option LoadError} {E : Surroundings} {x : Session W} {i : Nat}

theorem starts_faithful (hb : RamBlock.Disjoint l.blocks) (h : l.Starts failure m) :
    Faithful l.source.data (byte m.guest) ⟨m, 0⟩ ∧
      ∀ i < m.index.pages.size, (m.index.page i).isZero = true →
        m.index.Holds l.source.data l.zeroChecker (byte m.guest) i := by
  obtain ⟨m₀, ho, hw, hblocks, hindex⟩ := h.opened
  obtain ⟨hf, -⟩ := opened_fresh ho
  have hb' : RamBlock.Disjoint (m₀.index.blocks.map (·.ram)) := hblocks ▸ hb
  rcases h with h | ⟨m₁, ho₁, -, order, hi, -, returned, l', hr, hc⟩ | h
  · obtain ⟨m₁, ho₁, hs⟩ := h.startBackground
    obtain rfl := Option.some.inj (ho.symm.trans ho₁)
    refine ⟨h.source.data ▸ h.fresh.1.faithful, fun i hi hz => ?_⟩
    rw [byte_startBackground hs, hindex]
    exact holds_of_opened ho hb _ (hindex ▸ hi) (hindex ▸ hz)
  · obtain rfl := Option.some.inj (ho.symm.trans ho₁)
    obtain ⟨rest, hs, -⟩ := hr.sweeps
    obtain ⟨-, ht, hsteady⟩ := hf.steady_sweeps hb' hi hs
    rw [← (opened_source ho).data]
    cases hc
    have htransfers : Session.transfers ⟨l'.markComplete, 0⟩ = 0 := ht.transfers
    refine ⟨⟨hsteady.source, ?_, ?_, hsteady.filled, fun _ _ => rfl⟩, fun i hi hz => ?_⟩
    · simp [htransfers]
    · intro i c hc
      cases hc.symm.trans (hsteady.parked i)
    · -- what is read in order is none of the pages that are all zero
      rw [hindex] at hi hz ⊢
      refine (holds_of_opened ho hb _ hi hz).congr fun k hk => hsteady.kept _ fun j hj _ => ?_
      rw [show l'.index = m₀.index from hindex] at hj ⊢
      exact Index.not_covers_zero hw hb' hi hz hk hj
  · obtain rfl := Option.some.inj (ho.symm.trans h.opened)
    exact ⟨(opened_source ho).data ▸ hf.faithful, fun i hi hz => holds_of_opened ho hb _ hi hz⟩

/-- Page `i` holds what it is to hold, or it failed and so did the load. -/
def Resolves (l : Loader W) (k : Load W) (i : Nat) : Prop :=
  k.state i = .filled ∧ k.index.Holds l.source.data l.zeroChecker (byte k.guest) i ∨
    k.state i = .error ∧ k.failure.isSome

/-- How a fault at address `a` is served in a load, with the reader going on meanwhile. -/
structure AnswersFault (l : Loader W) (k : Load W) (a : Nat) : Prop where
  /-- When the fault returns, the page that has the address is settled. -/
  page : ∀ k', Attends (some (.at a), k) (none, k') →
    ∀ i < k.index.pages.size, k.index.Covers i a → l.Resolves k' i
  /-- When the fault returns and no page has the address, the load has failed. -/
  unmapped : ∀ k', Attends (some (.at a), k) (none, k') →
    (∀ i < k.index.pages.size, ¬ k.index.Covers i a) → k'.failure.isSome
  /-- The reader writes no memory, and the fault spares all pages that do not have the address. -/
  spares : ∀ y z, Attends (some (.at a), k) y → Attend y z →
    y.2.readerStep? = some z.2 ∧ z.2.guest = y.2.guest ∨ Spares a y.2 z.2
  /-- The fault does not go on for ever. -/
  ends : Acc (fun z y => Attend y z) (some (.at a), k)

/-- At any time a fault is served, whoever had its page before. It returns, as long as reads do,
unless the reader is killed in the middle of its page. -/
theorem fault_resolves_page (ha : RamBlock.Accepted l.blocks) (hb : RamBlock.Apart l.blocks)
    (hE : ∀ s s', E.source s s' → s'.data = s.data) (hm : l.Starts failure m)
    (hx : Steps E ⟨m, 0⟩ x) (a : Nat) :
    l.AnswersFault x.load a ∧
      (x.load.source.held = [] →
        (∀ i t, x.load.index.Covers i a → .reading i t ∉ x.faults) →
        ∀ y, Attends (some (.at a), x.load) y → ∃ z, Attends y z ∧ (z.1 = none ∨
          ∃ i, x.load.index.Covers i a ∧ z.2.state i = .reading ∧ Killed z.2)) := by
  obtain ⟨m₀, ho, hw, hblocks, hindex⟩ := hm.opened
  obtain ⟨hf, hzero⟩ := starts_faithful hb.disjoint hm
  have hxi : x.load.index = m.index := hx.index
  have hb' : RamBlock.Disjoint (m.index.blocks.map (·.ram)) := hindex ▸ hblocks ▸ hb.disjoint
  have hbx : RamBlock.Disjoint (x.load.index.blocks.map (·.ram)) := hxi ▸ hb'
  have hsep : x.load.index.Separate := by
    rw [hxi, hindex]
    exact Index.separate_of_read ha (opened_of_registering (registering_of_opened ho) ho).1
  -- the fault comes in
  let A : Surroundings := { Surroundings.quiet with fault := fun _ => True }
  have harrive : Steps A x (beside x.faults (some (.at a), x.load)) := .single (.fault trivial)
  have hox : Orderly x := (starts_sane hm).orderly.steps hx
  have hserving : Serving l.source.data (byte m.guest) x.faults (x.load.index.locate a) x.load
      (some (.at a), x.load) :=
    ⟨hox.steps harrive, (hf.steps hE (starts_sane hm).orderly hb' hx).steps (E := A) nofun hox hbx
      harrive, ((starts_manned hm).steps hx).steps harrive, rfl, rfl, rfl⟩
  have hlocate : ∀ {i}, x.load.index.locate a = some i ↔
      i < x.load.index.pages.size ∧ x.load.index.Covers i a :=
    Index.locate_eq_some_iff hsep hbx
  constructor
  · constructor
    · intro k' hk i hi hc
      have hk' := hserving.run hbx hk
      have hservice : Answered k' (x.load.index.locate a) := hk'.service
      rw [hlocate.2 ⟨hi, hc⟩] at hservice
      have hki : k'.index = x.load.index := hk'.index
      have hzero' : ∀ i < k'.index.pages.size, (k'.index.page i).isZero = true →
          k'.index.Holds l.source.data l.zeroChecker (byte m.guest) i := by
        rw [hki, hxi]
        exact hzero
      exact hservice.imp_left fun hs =>
        ⟨hs, hk'.faithful.holds hk'.orderly.wellFormed (hki ▸ hbx) hzero' (hki ▸ hi) hs⟩
    · intro k' hk hc
      have hservice : Answered k' (x.load.index.locate a) := (hserving.run hbx hk).service
      rwa [(Index.locate_eq_none_iff hsep hbx).2 hc] at hservice
    · intro y z hy hz
      have hy' := hserving.run hbx hy
      have hyi : y.2.index = x.load.index := hy'.index
      refine (hy'.frame hz).imp_right fun h => ?_
      rw [← hyi] at h
      exact h.spares (hyi ▸ hsep) (hyi ▸ hbx)
    · exact attend_wellFounded.apply _
  · intro hh hfs y hy
    obtain ⟨z, hz, hend⟩ := (hserving.run hbx hy).returns hbx hh
      fun i t hi => hfs i t (hlocate.1 hi).2
    exact ⟨z, hz, hend.imp_right fun ⟨i, hi, hr, hk⟩ => ⟨i, (hlocate.1 hi).2, hr, hk⟩⟩

theorem fault_resolves_page_sample : spoiltWord.failure = none ∧
    Attends (some (.at 0x1000000000), spoiltWord) (none, spoiltWord.takeOver 0) ∧
    spoiltSample.Resolves (spoiltWord.takeOver 0) 0 := by
  have hl : spoiltWord.index.locate 0x1000000000 = some 0 := by decide +kernel
  have hs : spoiltWord.state 0 = .error := by decide +kernel
  have he : spoiltWord.encounter 0x1000000000 = .settled (spoiltWord.takeOver 0) := by
    simp only [encounter, hl, hs]
  have hserved : Attends (some (.at 0x1000000000), spoiltWord) (none, spoiltWord.takeOver 0) :=
    .single (.settle he)
  have ha : RamBlock.Accepted spoiltSample.blocks := .snoc .nil (by decide +kernel)
  obtain ⟨h, -⟩ := fault_resolves_page (E := .quiet) ha ⟨by decide, by decide⟩ nofun
    spoiltSample_starts spoiltSample_steps 0x1000000000
  exact ⟨by decide +kernel, hserved, h.page _ hserved 0 (by decide +kernel)
    ⟨by decide +kernel, by decide +kernel⟩⟩

end Loader
end RamRestore
