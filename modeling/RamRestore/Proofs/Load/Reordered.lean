import RamRestore.Proofs.Load.Failures
import RamRestore.Proofs.Load.Pieces
import RamRestore.Proofs.Load.Renumbered

/-! # Blocks in another order

Whoever registers the same blocks in another order sees the same loader: the same answers, the same
guest, and the same reads in the same order.
-/

namespace RamRestore

/-! ## What happens at a host -/

namespace Load

variable {W : Type} [Guest W]

def Surroundings.hosted : Surroundings := ⟨fun _ => True, fun _ _ => False, True⟩

variable {E : Surroundings}

theorem steps_attend (l : Load W) (fs : Multiset Service) (f : Service) :
    Steps E ⟨l, f ::ₘ fs⟩ ⟨(l.attend f).2, (l.attend f).1.toList + fs⟩ := by
  cases f with
  | «at» a =>
    unfold attend
    cases h : l.encounter a with
    | settled l' =>
      simp only [h]
      simpa using .single (.settle h)
    | busy =>
      simp only [h]
      exact .refl
    | claimed i l' =>
      simp only [h]
      exact .single (.claim h)
  | reading i t => exact steps_readFault l fs i t

theorem steps_readOn (l : Load W) (fs : Multiset Service) :
    Steps E ⟨l, fs⟩ ⟨l.readOn, fs⟩ := by
  fun_induction readOn l with
  | case1 l i t hr l' hl ih => exact .head (.reader hl) ih
  | case2 => exact .refl
  | case3 => exact .refl

theorem steps_readerTurn (l : Load W) (fs : Multiset Service) :
    Steps E ⟨l, fs⟩ ⟨l.readerTurn, fs⟩ := by
  unfold readerTurn
  split
  · exact steps_readOn l fs
  · cases hl : l.readerStep? with
    | none => exact .refl
    | some l' => exact .single (.reader hl)

omit [Guest W] in
theorem Known.onGuest {l : Load W} {fs : Multiset Service} (h : Known ⟨l, fs⟩) (guest : W) :
    Known ⟨{ l with guest }, fs⟩ where
  orderly := ⟨h.orderly.wellFormed, h.orderly.requests, h.orderly.beyond, h.orderly.zero,
    h.orderly.reading, h.orderly.nodup⟩
  loaded := h.loaded

end Load

namespace Hosted

open Load

variable {W : Type} [Guest W] {x : Hosted W} {l : Load W}

theorem steps_attend (hp : x.loader.phase = .loading l) (n : Nat) :
    ∃ l', (x.attend n).loader.phase = .loading l' ∧
      Steps .hosted ⟨l, x.faults⟩ ⟨l', (x.attend n).faults⟩ := by
  unfold Hosted.attend
  cases hf : x.faults[n]? with
  | none => exact ⟨l, hp, .refl⟩
  | some f =>
    obtain ⟨hn, rfl⟩ := List.getElem?_eq_some_iff.1 hf
    have hfaults : (x.faults : Multiset Service) = x.faults[n] ::ₘ (x.faults.eraseIdx n) :=
      Multiset.coe_eq_coe.2 (List.getElem_cons_eraseIdx_perm hn).symm
    have hs := Load.steps_attend (E := .hosted) l (x.faults.eraseIdx n) x.faults[n]
    rw [← hfaults] at hs
    simp only [Hosted.onLoad, hp]
    refine ⟨_, rfl, ?_⟩
    cases hl : (l.attend x.faults[n]).1 with
    | none =>
      rw [hl] at hs
      simpa using hs
    | some f =>
      have hset : (x.faults.set n f : Multiset Service) = f ::ₘ (x.faults.eraseIdx n) :=
        Multiset.coe_eq_coe.2 (List.set_perm_cons_eraseIdx hn f)
      rw [hl] at hs
      dsimp only
      rw [hset]
      exact hs

/-- What happens at a host to a load is a run, or somebody else's work with the guest. -/
theorem steps_act (hp : x.loader.phase = .loading l) (e : Event W) :
    ∃ l', (x.act e).2.loader.phase = .loading l' ∧
      (Steps .hosted ⟨l, x.faults⟩ ⟨l', (x.act e).2.faults⟩ ∨
        ∃ guest, l' = { l with guest } ∧ (x.act e).2.faults = x.faults) := by
  have hstarted : x.loader.started = true := by rw [Loader.started, hp]
  cases e with
  | register b =>
    simp only [Hosted.act, Hosted.call, Loader.register, hstarted, ↓reduceIte]
    split <;> exact ⟨l, hp, .inl .refl⟩
  | start =>
    simp only [Hosted.act, Hosted.call, Loader.start, hp]
    split <;> exact ⟨l, hp, .inl .refl⟩
  | interrupt =>
    simp only [Hosted.act, Hosted.call, Loader.interrupt, Loader.onLoad, hp]
    split
    · exact ⟨l, hp, .inl .refl⟩
    · exact ⟨_, rfl, .inl (.single (.interrupt trivial))⟩
  | drop =>
    simp only [Hosted.act, Hosted.call, Loader.interrupt, Loader.onLoad, hp]
    split
    · exact ⟨l, hp, .inl .refl⟩
    · exact ⟨_, rfl, .inl (.single (.interrupt trivial))⟩
  | fault a =>
    refine ⟨l, hp, .inl ?_⟩
    have hfaults : ((x.faults ++ [.at a] : List Service) : Multiset Service) =
        .at a ::ₘ x.faults :=
      Multiset.coe_eq_coe.2 List.perm_append_comm
    simp only [Hosted.act, hfaults]
    exact .single (.fault trivial)
  | attend n =>
    obtain ⟨l', hl, hs⟩ := steps_attend hp n
    exact ⟨l', hl, .inl hs⟩
  | idle =>
    simp only [Hosted.act, Hosted.onLoad, hp]
    exact ⟨_, rfl, .inl (.single .idle)⟩
  | reader =>
    simp only [Hosted.act, Hosted.onLoad, hp]
    exact ⟨_, rfl, .inl (steps_readerTurn l _)⟩
  | settle =>
    simp only [Hosted.act, Hosted.onLoad, hp]
    exact ⟨_, rfl, .inl (steps_settle l _)⟩
  | guest f =>
    simp only [Hosted.act, Loader.withGuest, hp]
    exact ⟨_, rfl, .inr ⟨_, rfl, trivial⟩⟩

theorem rejected_act {source : Source} {guest : W} (hp : x.loader.phase = .rejected source guest)
    (e : Event W) : ∃ guest', (x.act e).2.loader.phase = .rejected source guest' := by
  have hstarted : x.loader.started = true := by rw [Loader.started, hp]
  cases e with
  | register b =>
    simp only [Hosted.act, Hosted.call, Loader.register, hstarted, ↓reduceIte]
    split <;> exact ⟨guest, hp⟩
  | start =>
    simp only [Hosted.act, Hosted.call, Loader.start, hp]
    split <;> exact ⟨guest, hp⟩
  | interrupt | drop =>
    simp only [Hosted.act, Hosted.call, Loader.interrupt, Loader.onLoad, hp]
    split <;> exact ⟨guest, hp⟩
  | fault a => exact ⟨guest, hp⟩
  | attend n =>
    simp only [Hosted.act, Hosted.attend]
    split
    · exact ⟨guest, hp⟩
    · simp only [Hosted.onLoad, hp]
      exact ⟨guest, rfl⟩
  | idle | reader | settle =>
    simp only [Hosted.act, Hosted.onLoad, hp]
    exact ⟨guest, rfl⟩
  | guest f =>
    simp only [Hosted.act, Loader.withGuest, hp]
    exact ⟨_, rfl⟩

end Hosted

/-! ## The same for other numbers -/

variable {W : Type}

/-- A loader of the blocks in another order, for which its index is another one. -/
def Loader.reorder (l : Loader W) (bs : List RamBlock) (k : Index) : Loader W :=
  { l with
    blocks := bs
    phase := match l.phase with
      | .loading load => .loading (load.onIndex k)
      | p => p }

namespace Hosted

open Load

def reorder (x : Hosted W) (bs : List RamBlock) (k : Index) : Hosted W :=
  { x with loader := x.loader.reorder bs k }

/-- A load that only names pages of its index, which is numbered in another way there. -/
structure Underway (x : Hosted W) (k : Index) : Prop where
  started : x.loader.started = true
  load : ∀ l, x.loader.phase = .loading l → l.index.Renumbered k ∧ Known ⟨l, x.faults⟩

variable {x : Hosted W} {bs : List RamBlock} {k : Index}

theorem pageState?_reorder {l : Loader W}
    (h : ∀ m, l.phase = .loading m → m.index.Renumbered k) :
    (l.reorder bs k).pageState? = l.pageState? := by
  obtain ⟨config, checker, offers, threads, blocks, phase, watched, checks⟩ := l
  cases phase with
  | registering source guest => rfl
  | rejected source guest => rfl
  | loading m =>
    funext a
    exact congrArg (fun o : Option Nat => o.bind fun i => some (m.state i)) ((h m rfl).locate a)

theorem Underway.view (h : x.Underway k) : (x.reorder bs k).view = x.view := by
  have hpages : (x.loader.reorder bs k).pageState? = x.loader.pageState? :=
    pageState?_reorder fun m hm => (h.load m hm).1
  unfold Hosted.view Hosted.reorder
  rw [hpages]
  obtain ⟨⟨config, checker, offers, threads, blocks, phase, watched, checks⟩, faults, dropped⟩ := x
  cases phase <;> rfl

theorem onLoad_reorder {α : Type} (bs : List RamBlock) (a : α) {f : Load W → α × Load W}
    (hf : ∀ l, x.loader.phase = .loading l →
      f (l.onIndex k) = ((f l).1, (f l).2.onIndex k)) :
    (x.reorder bs k).onLoad a f = ((x.onLoad a f).1, (x.onLoad a f).2.reorder bs k) := by
  obtain ⟨⟨config, checker, offers, threads, blocks, phase, watched, checks⟩, faults, dropped⟩ := x
  cases phase with
  | registering source guest => rfl
  | rejected source guest => rfl
  | loading l =>
    simp only [Hosted.onLoad, Hosted.reorder, Loader.reorder, hf l rfl]

theorem call_reorder {f : Loader W → Answer × Loader W}
    (hf : f (x.loader.reorder bs k) = ((f x.loader).1, (f x.loader).2.reorder bs k)) :
    (x.reorder bs k).call f = ((x.call f).1, (x.call f).2.reorder bs k) := by
  unfold Hosted.call
  simp only [Hosted.reorder, hf]
  split <;> rfl

theorem interrupt_reorder (l : Loader W) :
    (l.reorder bs k).interrupt = l.interrupt.reorder bs k := by
  obtain ⟨config, checker, offers, threads, blocks, phase, watched, checks⟩ := l
  cases phase <;> rfl

theorem started_reorder (l : Loader W) : (l.reorder bs k).started = l.started := by
  obtain ⟨config, checker, offers, threads, blocks, phase, watched, checks⟩ := l
  cases phase <;> rfl

variable [Guest W]

theorem start_of_started {l : Loader W} (h : l.started = true) :
    l.start = (some .alreadyStarted, l) := by
  cases hp : l.phase with
  | registering source guest =>
    rw [Loader.started, hp] at h
    cases h
  | rejected source guest => rw [Loader.start, hp]
  | loading m => rw [Loader.start, hp]

theorem Underway.act (h : x.Underway k) (e : Event W) : (x.act e).2.Underway k := by
  cases hp : x.loader.phase with
  | registering source guest =>
    have hs := h.started
    rw [Loader.started, hp] at hs
    cases hs
  | rejected source guest =>
    obtain ⟨guest', hp'⟩ := rejected_act hp e
    refine ⟨by rw [Loader.started, hp'], fun l hl => ?_⟩
    cases hp'.symm.trans hl
  | loading l =>
    obtain ⟨hk, hw⟩ := h.load l hp
    obtain ⟨l', hp', hl'⟩ := steps_act hp e
    refine ⟨by rw [Loader.started, hp'], fun m hm => ?_⟩
    cases hp'.symm.trans hm
    rcases hl' with hs | ⟨guest, rfl, hfaults⟩
    · exact ⟨hs.index ▸ hk, hw.steps hs⟩
    · exact ⟨hk, hfaults ▸ hw.onGuest guest⟩

theorem Underway.attend_reorder (h : x.Underway k) (n : Nat) :
    (x.reorder bs k).attend n = (x.attend n).reorder bs k := by
  have hfaults : (x.reorder bs k).faults = x.faults := rfl
  unfold Hosted.attend
  rw [hfaults]
  cases hf : x.faults[n]? with
  | none => rfl
  | some f =>
    have hload : ∀ l, x.loader.phase = .loading l →
        (l.onIndex k).attend f = ((l.attend f).1, (l.attend f).2.onIndex k) := by
      intro l hl
      obtain ⟨hk, hw⟩ := h.load l hl
      refine attend_onIndex hk hw.orderly.wellFormed fun i t he => ?_
      exact hw.lt_of_fault (Multiset.mem_coe.2 (List.mem_of_getElem? (he ▸ hf)))
    simp only [onLoad_reorder bs (some f) (f := (·.attend f)) hload]
    rfl

theorem Underway.act_reorder (h : x.Underway k) (e : Event W) :
    (x.reorder bs k).act e = ((x.act e).1, (x.act e).2.reorder bs k) := by
  cases e with
  | register b =>
    simp only [Hosted.act]
    refine call_reorder ?_
    simp only [Loader.register, started_reorder, h.started, ↓reduceIte]
  | start =>
    simp only [Hosted.act]
    refine call_reorder ?_
    rw [start_of_started h.started, start_of_started ((started_reorder _).trans h.started)]
  | interrupt =>
    simp only [Hosted.act]
    refine call_reorder ?_
    rw [interrupt_reorder]
  | drop =>
    simp only [Hosted.act]
    rw [call_reorder]
    · rfl
    · rw [interrupt_reorder]
  | fault a => rfl
  | attend n => exact congrArg (Prod.mk Answer.done) (h.attend_reorder n)
  | idle =>
    simp only [Hosted.act]
    refine onLoad_reorder bs _ fun l hl => ?_
    obtain ⟨hk, hw⟩ := h.load l hl
    rw [idle_onIndex hk fun i hi => hw.loaded i (List.mem_append_left _ hi)]
  | reader =>
    simp only [Hosted.act]
    refine onLoad_reorder bs _ fun l hl => ?_
    obtain ⟨hk, hw⟩ := h.load l hl
    rw [readerTurn_onIndex hk hw]
  | settle =>
    simp only [Hosted.act]
    refine onLoad_reorder bs _ fun l hl => ?_
    obtain ⟨hk, hw⟩ := h.load l hl
    rw [settle_onIndex hk hw]
  | guest f =>
    obtain ⟨⟨config, checker, offers, threads, blocks, phase, watched, checks⟩, faults, dropped⟩ :=
      x
    cases phase <;> rfl

end Hosted

/-! ## The start -/

namespace Loader

open Load

variable [Guest W] {l : Loader W} {m : Load W} {failure : Option LoadError} {bs : List RamBlock}
  {k : Index}

/-- A load that is read on one thread, unless it is lazy. -/
def Unpooled (l : Loader W) : Prop :=
  ∀ m₀, l.opened? = some m₀ →
    l.isLazy m₀.guest = true ∨ m₀.workers? l.config l.threads = none

theorem Starts.pending (h : l.Starts failure m) : m.pending = [] := by
  rcases h with h | ⟨m₀, ho, -, order, -, -, returned, l', hr, hc⟩ | h
  · exact h.fresh.1.pending
  · obtain ⟨rest, hs, -⟩ := hr.sweeps
    cases hc
    exact (pending_congr hs.background).trans (opened_fresh ho).1.pending
  · exact (opened_fresh h.opened).1.pending

theorem Starts.known (h : l.Starts failure m) : Known ⟨m, 0⟩ where
  orderly := (starts_sane h).orderly
  loaded i hi := by
    rw [h.pending] at hi
    cases hi

theorem begin_reorder {load : Load W} (hk : load.index.Renumbered k)
    (hp : l.isLazy load.guest = true ∨ load.workers? l.config l.threads = none) :
    ({ l with blocks := bs } : Loader W).begin (load.onIndex k) =
      ((l.begin load).1, (l.begin load).2.reorder bs k) := by
  have hlazy : ({ l with blocks := bs } : Loader W).isLazy (load.onIndex k).guest =
    l.isLazy load.guest := rfl
  unfold Loader.begin
  rw [hlazy]
  cases hl : l.isLazy load.guest with
  | true =>
    simp only [↓reduceIte, startBackground_onIndex hk]
    rfl
  | false =>
    have hp := hp.resolve_left (hl ▸ Bool.false_ne_true)
    simp only [Bool.false_eq_true, ↓reduceIte, loadEagerly_onIndex hk hp]
    rfl

omit [Guest W] in
theorem ofIndex_renumbered {x : Index} (h : x.Renumbered k) (source : Source) (guest : W)
    (capacity : Nat) :
    Load.ofIndex k source guest capacity = (Load.ofIndex x source guest capacity).onIndex k := by
  simp only [Load.ofIndex, Load.onIndex, h.pages, h.isZero]

section

variable {source : Source} {guest : W} {x : Index}

theorem start_of_read (hl : l.phase = .registering source guest)
    (hx : (Index.read l.blocks source).outcome = .ok x) :
    l.start =
      let reading := Index.read l.blocks source
      let cleared := clear l.zeroChecker guest reading.cleared
      ({ l with zeroChecks := cleared.1 } : Loader W).begin
        (.ofIndex x reading.source cleared.2 l.config.capacity) := by
  rw [Loader.start, hl]
  dsimp only
  rw [hx]

theorem opened_of_read (hl : l.phase = .registering source guest)
    (hx : (Index.read l.blocks source).outcome = .ok x) :
    l.opened? = some (.ofIndex x (Index.read l.blocks source).source
      (clear l.zeroChecker guest (Index.read l.blocks source).cleared).2 l.config.capacity) := by
  rw [opened?, hl]
  dsimp only
  rw [hx]

theorem start_of_refused (hl : l.phase = .registering source guest) {cause : LoadError}
    (hx : (Index.read l.blocks source).outcome = .error cause) :
    l.start =
      let reading := Index.read l.blocks source
      let cleared := clear l.zeroChecker guest reading.cleared
      (some cause,
        { l with zeroChecks := cleared.1, phase := .rejected reading.source cleared.2 }) := by
  rw [Loader.start, hl]
  dsimp only
  rw [hx]

/-- A start for the same blocks in another order comes to the same. -/
theorem start_reorder (hl : l.phase = .registering source guest)
    (ha : RamBlock.Accepted l.blocks) (hd : RamBlock.Unshared l.blocks) (hp : l.blocks.Perm bs)
    (hu : l.Unpooled) :
    ∃ k, ({ l with blocks := bs } : Loader W).start = (l.start.1, l.start.2.reorder bs k) ∧
      l.start.2.started = true ∧
      ∀ m, l.start.2.phase = .loading m → m.index.Renumbered k ∧ Known ⟨m, 0⟩ := by
  obtain ⟨houtcome, hcleared, hsource⟩ := Index.read_perm ha hd hp source
  generalize hx : (Index.read l.blocks source).outcome = x at houtcome
  generalize hy : (Index.read bs source).outcome = y at houtcome
  cases houtcome with
  | error cause =>
    have hs := start_of_refused hl hx
    have hs' := start_of_refused (l := { l with blocks := bs }) hl hy
    dsimp only at hs hs'
    rw [hcleared, hsource] at hs'
    have hrejected : ∃ s g, l.start.2.phase = .rejected s g := ⟨_, _, by rw [hs]⟩
    obtain ⟨s, g, hrejected⟩ := hrejected
    -- no load, so that any index does
    refine ⟨⟨[], #[], ⟨0⟩⟩, ?_, by rw [started, hrejected], fun m hm => ?_⟩
    · rw [hs, hs']
      rfl
    · cases hrejected.symm.trans hm
  | @ok x k hk =>
    have ho := opened_of_read hl hx
    have hs := start_of_read hl hx
    have hs' := start_of_read (l := { l with blocks := bs }) hl hy
    dsimp only at hs hs'
    rw [hcleared, hsource, ofIndex_renumbered hk] at hs'
    refine ⟨k, ?_, ?_, fun m hm => ?_⟩
    · rw [hs, hs']
      exact begin_reorder (l := { l with
        zeroChecks := (clear l.zeroChecker guest (Index.read l.blocks source).cleared).1 })
        hk (hu _ ho)
    · rw [hs]
      rfl
    · have hstart := starts_start ho (m := m) (by rw [load?, hm])
      exact ⟨hstart.index ho ▸ hk, hstart.known⟩

end

end Loader

namespace Hosted

open Load

variable [Guest W] {x : Hosted W} {bs bs' : List RamBlock} {k : Index}

theorem play_append (x : Hosted W) (es fs : List (Event W)) :
    x.play (es ++ fs) = x.play es ++ (x.after es).play fs := by
  induction es generalizing x with
  | nil => rfl
  | cons e es ih =>
    simp only [List.cons_append, Hosted.play, ih]
    rfl

theorem after_append (x : Hosted W) (es fs : List (Event W)) :
    x.after (es ++ fs) = (x.after es).after fs := List.foldl_append

theorem Underway.play (h : x.Underway k) (es : List (Event W)) :
    (x.reorder bs k).play es = x.play es := by
  induction es generalizing x with
  | nil => rfl
  | cons e es ih =>
    have hx := h.act e
    simp only [Hosted.play, h.act_reorder, hx.view, ih hx]

theorem Underway.after (h : x.Underway k) (es : List (Event W)) :
    (x.reorder bs k).after es = (x.after es).reorder bs k := by
  induction es generalizing x with
  | nil => rfl
  | cons e es ih =>
    simp only [Hosted.after, List.foldl_cons, h.act_reorder]
    exact ih (h.act e)

def registered (x : Hosted W) (bs : List RamBlock) : Hosted W :=
  { x with loader := { x.loader with blocks := x.loader.blocks ++ bs } }

theorem play_register (ha : RamBlock.Accepted (x.loader.blocks ++ bs))
    (hs : x.loader.started = false) (hd : x.dropped = false) :
    x.play (bs.map .register) = List.replicate bs.length (.done, x.view) ∧
      x.after (bs.map .register) = x.registered bs := by
  induction bs generalizing x with
  | nil => exact ⟨rfl, by simp [Hosted.after, registered]⟩
  | cons b bs ih =>
    have hact : x.act (.register b) = (.done, x.registered [b]) := by
      simp [Hosted.act, Hosted.call, hd, Loader.register, hs, ha.refusal rfl, registered]
    have hb : (x.registered [b]).loader.blocks ++ bs = x.loader.blocks ++ b :: bs := by
      simp [registered]
    obtain ⟨hplay, hafter⟩ := ih (x := x.registered [b]) (hb ▸ ha) hs hd
    constructor
    · rw [List.map_cons, Hosted.play, hact]
      exact congrArg (_ :: ·) hplay
    · rw [List.map_cons, Hosted.after, List.foldl_cons, hact]
      refine hafter.trans ?_
      rw [registered, hb]
      rfl

def starting (bs : List RamBlock) : List (Event W) := bs.map .register ++ [.start]

theorem play_starting (ha : RamBlock.Accepted (x.loader.blocks ++ bs))
    (hs : x.loader.started = false) (hd : x.dropped = false) :
    let y := x.registered bs
    x.play (starting bs) = List.replicate bs.length (.done, x.view) ++
        [(.started y.loader.start.1, { y with loader := y.loader.start.2 }.view)] ∧
      x.after (starting bs) = { y with loader := y.loader.start.2 } := by
  intro y
  obtain ⟨hplay, hafter⟩ := play_register ha hs hd
  have hact : y.act .start =
      (.started y.loader.start.1, { y with loader := y.loader.start.2 }) := by
    have hd : y.dropped = false := hd
    simp [Hosted.act, Hosted.call, hd]
  constructor
  · rw [starting, play_append, hplay, hafter]
    simp only [Hosted.play]
    rw [hact]
  · rw [starting, after_append, hafter]
    exact congrArg Prod.snd hact

/-- All that a load has done to its source and to its pages: every read, the page of every transfer
and every change of the state of a page. -/
def deeds (x : Hosted W) : Option (Array ReadCall × Array Nat × Array (Nat × PageState)) :=
  x.loader.load?.map fun l => (l.calls, l.begun, l.moves)

omit [Guest W] in
theorem deeds_reorder (x : Hosted W) (bs : List RamBlock) (k : Index) :
    (x.reorder bs k).deeds = x.deeds := by
  obtain ⟨⟨config, checker, offers, threads, blocks, phase, watched, checks⟩, faults, dropped⟩ := x
  cases phase <;> rfl

/--
The order in which blocks are registered does not matter. Whatever the source is, registering them
in another order is answered in the same way; the start comes to the same result; and whatever
happens then, a load that is lazy or read on one thread is seen to do the same: the guest, the state
of the page at each address, the zero checks and the recorded failure are the same, and the pages
are read and filled in the same order.
-/
theorem play_eq_of_perm (ha : RamBlock.Accepted bs) (hd : RamBlock.Unshared bs) (hp : bs.Perm bs')
    (config : Config) (zeroChecker : Bytes → Bool) (offersWatch : Bool) (source : Source)
    (guest : W) (threads : Threads)
    (hu : ((ofSource config zeroChecker offersWatch source guest threads).after
      (bs.map .register)).loader.Unpooled) (es : List (Event W)) :
    let x := ofSource config zeroChecker offersWatch source guest threads
    x.play (starting bs' ++ es) = x.play (starting bs ++ es) ∧
      (x.after (starting bs' ++ es)).deeds = (x.after (starting bs ++ es)).deeds := by
  intro x
  obtain ⟨-, hregistered⟩ := play_register (x := x) ha rfl rfl
  obtain ⟨hplay, hafter⟩ := play_starting (x := x) ha rfl rfl
  obtain ⟨hplay', hafter'⟩ := play_starting (x := x) (ha.perm hp) rfl rfl
  rw [hregistered] at hu
  obtain ⟨k, hstart, hstarted, hload⟩ :=
    Loader.start_reorder (l := (x.registered bs).loader) rfl ha hd hp hu
  replace hstart : (x.registered bs').loader.start =
      ((x.registered bs).loader.start.1, (x.registered bs).loader.start.2.reorder bs' k) := hstart
  -- the two hosts where the load is under way, which differ in nothing but the numbers
  let y : Hosted W := { x.registered bs with loader := (x.registered bs).loader.start.2 }
  have hy : y.Underway k := ⟨hstarted, hload⟩
  have hy' : { x.registered bs' with loader := (x.registered bs).loader.start.2.reorder bs' k } =
      y.reorder bs' k := rfl
  simp only [hstart, hy'] at hplay' hafter'
  constructor
  · rw [play_append, play_append, hplay, hplay', hafter, hafter', hp.length_eq, hy.view, hy.play]
  · rw [after_append, after_append, hafter, hafter', hy.after, deeds_reorder]

def pair : Bytes :=
  (Index.bytesOf 8 12 ++ [1, 2, 3, 4] ++ Index.encode ⟨0⟩ 0
    [⟨⟨"b", 32, 2, 2⟩, [.stored 2 8], by decide⟩,
      ⟨⟨"a", 16, 4, 2⟩, [.zero, .stored 2 10], by decide⟩]).toArray

def pairHost : Hosted PlainWatch :=
  ofSource { decompressThreads := some 0 } (fun _ => false) true (.ofBytes pair)
    { memory := .filled 5 }

def pairEvents : List (Event PlainWatch) :=
  [.fault 18, .attend 0, .idle, .reader, .attend 0, .settle, .idle, .settle, .idle]

theorem play_eq_of_perm_sample :
    let a : RamBlock := ⟨"a", 16, 4, 2⟩
    let b : RamBlock := ⟨"b", 32, 2, 2⟩
    let events (bs : List RamBlock) := starting bs ++ pairEvents
    pairHost.play (events [b, a]) = pairHost.play (events [a, b]) ∧
      (pairHost.after (events [b, a])).deeds = (pairHost.after (events [a, b])).deeds ∧
      (pairHost.play ((events [a, b]).take 7)).map (·.1) =
        [.done, .done, .started none, .done, .done, .idled .wait, .done] ∧
      (pairHost.after ((events [a, b]).take 7)).deeds.map (·.2.1) = some #[2, 0] := by
  intro a b
  have hone : RamBlock.Accepted [a] := .snoc .nil (by decide +kernel)
  have ha : RamBlock.Accepted [a, b] := hone.snoc (by decide +kernel)
  have hd : RamBlock.Apart [a, b] := ⟨by decide, by decide⟩
  have hu : (pairHost.after ([a, b].map .register)).loader.Unpooled := by
    rw [(play_register (x := pairHost) ha rfl rfl).2]
    exact fun _ _ => .inr (Load.workers?_eq_none (.inr rfl))
  obtain ⟨hplay, hdeeds⟩ := play_eq_of_perm ha hd.disjoint.disjoint (.swap b a [])
    { decompressThreads := some 0 } (fun _ => false) true (.ofBytes pair)
    ({ memory := .filled 5 } : PlainWatch) {} hu pairEvents
  exact ⟨hplay, hdeeds, by decide +kernel, by decide +kernel⟩

end Hosted
end RamRestore
