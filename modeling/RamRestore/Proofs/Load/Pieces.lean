import RamRestore.Index.Encoder
import RamRestore.Proofs.Load.Alike
import RamRestore.Proofs.Load.Start

/-! # Reads in pieces

Whoever hosts a loader registers blocks, starts the load, calls its callbacks and watches the guest.
Nothing of what it sees in this tells in what pieces the source gave its bytes, or how often a read
had to be made again.
-/

namespace RamRestore

variable {W : Type}

inductive Phase.Alike (m : Medium) : Phase W → Phase W → Prop
  | registering {s s' : Source} (h : s.Steady m) (h' : s'.Steady m) (guest : W) :
      Alike m (.registering s guest) (.registering s' guest)
  | rejected {s s' : Source} (h : s.Steady m) (h' : s'.Steady m) (guest : W) :
      Alike m (.rejected s guest) (.rejected s' guest)
  | loading {l k : Load W} (h : l.Alike m k) : Alike m (.loading l) (.loading k)

inductive Loader.Alike (m : Medium) (l : Loader W) : Loader W → Prop
  | phase {p : Phase W} (h : l.phase.Alike m p) : Alike m l { l with phase := p }

namespace Loader

variable {m : Medium} {l k : Loader W}

theorem Alike.onLoad (h : l.Alike m k) {f : Load W → Load W}
    (hf : ∀ {a b : Load W}, a.Alike m b → (f a).Alike m (f b)) :
    (l.onLoad f).Alike m (k.onLoad f) := by
  obtain ⟨h⟩ := h
  unfold Loader.onLoad
  cases l with | mk config zeroChecker offersWatch threads blocks phase watched zeroChecks =>
  cases h with
  | registering h h' guest => exact .phase (.registering h h' guest)
  | rejected h h' guest => exact .phase (.rejected h h' guest)
  | loading h => exact .phase (.loading (hf h))

theorem Alike.started (h : l.Alike m k) : k.started = l.started := by
  obtain ⟨h⟩ := h
  cases l with | mk config zeroChecker offersWatch threads blocks phase watched zeroChecks =>
  cases h <;> rfl

theorem Alike.register (h : l.Alike m k) (b : RamBlock) :
    (∃ cause, l.register b = .error cause ∧ k.register b = .error cause) ∨
      ∃ l' k', l.register b = .ok l' ∧ k.register b = .ok k' ∧ l'.Alike m k' := by
  have hstarted := h.started
  obtain ⟨h⟩ := h
  unfold Loader.register
  rw [hstarted]
  split
  · exact .inl ⟨_, rfl, rfl⟩
  · dsimp only
    split
    · exact .inl ⟨_, rfl, rfl⟩
    · exact .inr ⟨_, _, rfl, rfl, .phase (l := { l with blocks := l.blocks ++ [b] }) h⟩

theorem Alike.interrupt (h : l.Alike m k) : l.interrupt.Alike m k.interrupt :=
  h.onLoad fun ha => ha.map fun _ _ _ => rfl

theorem Alike.withGuest (h : l.Alike m k) (guest : W) :
    (l.withGuest guest).Alike m (k.withGuest guest) := by
  obtain ⟨h⟩ := h
  cases l with | mk config zeroChecker offersWatch threads blocks phase watched zeroChecks =>
  cases h with
  | registering h h' _ => exact .phase (.registering h h' guest)
  | rejected h h' _ => exact .phase (.rejected h h' guest)
  | @loading a b h =>
    exact .phase (.loading (h.map (f := fun a => { a with guest }) fun _ _ _ => rfl))

theorem Alike.withLoad (h : l.Alike m k) {load load' : Load W} (hl : load.Alike m load') :
    Alike m { l with phase := .loading load } { k with phase := .loading load' } := by
  obtain ⟨-⟩ := h
  exact .phase (l := { l with phase := .loading load }) (.loading hl)

theorem Alike.guest (h : l.Alike m k) : k.guest = l.guest := by
  obtain ⟨h⟩ := h
  cases l with | mk config zeroChecker offersWatch threads blocks phase watched zeroChecks =>
  cases h with
  | registering => rfl
  | rejected => rfl
  | loading h => exact h.guest

variable [Guest W]

theorem begin_alike {load load' : Load W} {p : Phase W} (h : load.Alike m load') :
    (({ l with phase := p }).begin load').1 = (l.begin load).1 ∧
      (l.begin load).2.Alike m (({ l with phase := p }).begin load').2 := by
  have hlazy : ({ l with phase := p } : Loader W).isLazy load'.guest = l.isLazy load.guest := by
    rw [h.guest]
    rfl
  have hwants : ({ l with phase := p } : Loader W).wantsWatch load'.guest =
      l.wantsWatch load.guest := by
    rw [h.guest]
    rfl
  unfold Loader.begin
  rw [hlazy, hwants]
  cases l.isLazy load.guest with
  | true =>
    have hb := h.act (f := (·.startBackground l.threads)) fun load s cs =>
      load.startBackground_onSource s cs l.threads
    simp only [↓reduceIte]
    generalize load.startBackground l.threads = x, load'.startBackground l.threads = y at hb ⊢
    obtain ⟨failure, hb⟩ := hb
    exact ⟨rfl, .phase (l := { l with phase := .loading _, watched := _ }) (.loading hb)⟩
  | false =>
    have hb := h.loadEagerly l.config l.threads
    simp only [Bool.false_eq_true, ↓reduceIte]
    generalize load.loadEagerly l.config l.threads = x, load'.loadEagerly l.config l.threads = y
      at hb ⊢
    obtain ⟨failure, hb⟩ := hb
    exact ⟨rfl, .phase (l := { l with phase := .loading _, watched := _ }) (.loading hb)⟩

theorem Alike.start (h : l.Alike m k) :
    k.start.1 = l.start.1 ∧ l.start.2.Alike m k.start.2 := by
  obtain ⟨h⟩ := h
  cases l with | mk config zeroChecker offersWatch threads blocks phase watched zeroChecks =>
  cases h with
  | @registering s s' h h' guest =>
    obtain ⟨hoc, hcleared, hs⟩ := Index.read_steady h h' blocks
    obtain ⟨-, -, hs'⟩ := Index.read_steady h' h blocks
    simp only [Loader.start, hoc, hcleared]
    generalize clear zeroChecker guest (Index.read blocks s).cleared = x
    obtain ⟨checks, cleared⟩ := x
    cases (Index.read blocks s).outcome with
    | error cause => exact ⟨rfl, .phase (.rejected hs hs' cleared)⟩
    | ok index =>
      have ha := Load.alike_ofIndex hs hs' index cleared config.capacity
      exact begin_alike
        (l := ⟨config, zeroChecker, offersWatch, threads, blocks, _, watched, checks⟩) ha
  | rejected h h' guest => exact ⟨rfl, .phase (.rejected h h' guest)⟩
  | loading h => exact ⟨rfl, .phase (.loading h)⟩

theorem Alike.isLazy (h : l.Alike m k) : k.isLazy = l.isLazy := by
  obtain ⟨h⟩ := h
  rfl

theorem Alike.opened (h : l.Alike m k) {load : Load W} (hl : l.opened? = some load) :
    ∃ load', k.opened? = some load' ∧ load.Alike m load' := by
  obtain ⟨h⟩ := h
  cases l with | mk config zeroChecker offersWatch threads blocks phase watched zeroChecks =>
  cases h with
  | @registering s s' h h' guest =>
    obtain ⟨hoc, hcleared, hs⟩ := Index.read_steady h h' blocks
    obtain ⟨-, -, hs'⟩ := Index.read_steady h' h blocks
    simp only [opened?, hoc, hcleared] at hl ⊢
    split at hl
    · cases hl
    · cases hl
      exact ⟨_, rfl, Load.alike_ofIndex hs hs' _ _ _⟩
  | rejected => cases hl
  | loading => cases hl

theorem Alike.startsEagerly (h : l.Alike m k) {failure : Option LoadError} {load : Load W}
    (hl : l.StartsEagerly failure load) :
    ∃ load', k.StartsEagerly failure load' ∧ load.Alike m load' := by
  obtain ⟨load₀, ho, hlazy, he⟩ := hl
  obtain ⟨load₁, ho', ha⟩ := h.opened ho
  obtain ⟨load', he', ha'⟩ := ha.loadsEagerly he
  have hlazy' : k.isLazy load₁.guest = false := by
    rw [h.isLazy, ha.guest]
    exact hlazy
  obtain ⟨h⟩ := h
  exact ⟨load', ⟨load₁, ho', hlazy', he'⟩, ha'⟩

end Loader

/-! ## Hosts -/

/-- A loader at its host. -/
structure Hosted (W : Type) where
  loader : Loader W
  /-- The faults that have begun and are not served yet. -/
  faults : List Load.Service := []
  /-- The loader was dropped; its callbacks are still there. -/
  dropped : Bool := false

namespace Hosted

/-- What a host does, or lets happen. -/
inductive Event (W : Type) where
  | register (b : RamBlock)
  | start
  | interrupt
  | drop
  /-- A fault at an address begins. -/
  | fault (a : Nat)
  /-- The fault with this number finds its page, or reads it. -/
  | attend (n : Nat)
  | idle
  /-- The reader takes a turn. -/
  | reader
  /-- The reader goes on until it blocks. -/
  | settle
  /-- Somebody else works with the guest. -/
  | guest (f : W → W)

inductive Answer where
  | done
  /-- There is no loader any more. -/
  | dropped
  | refused (cause : LoadError)
  | started (failure : Option LoadError)
  | idled (result : IdleResult)
  deriving DecidableEq, Repr

/-- What a host can look at. -/
structure View (W : Type) where
  started : Bool
  complete : Bool
  error? : Option LoadError
  pageState? : Nat → Option PageState
  zeroChecks : List ZeroCheck
  watched : Bool
  /-- The guest, with its memory and the ranges it watches. -/
  guest : W
  /-- Every page handed to the guest so far. -/
  placed : Array Placement
  faults : List Load.Service

def view (x : Hosted W) : View W where
  started := x.loader.started
  complete := x.loader.isComplete
  error? := x.loader.error?
  pageState? := x.loader.pageState?
  zeroChecks := x.loader.zeroChecks
  watched := x.loader.watched
  guest := x.loader.guest
  placed := (x.loader.load?.map (·.placed)).getD #[]
  faults := x.faults

def onLoad {α : Type} (x : Hosted W) (a : α) (f : Load W → α × Load W) : α × Hosted W :=
  match x.loader.phase with
  | .loading load =>
    let (a, load) := f load
    (a, { x with loader := { x.loader with phase := .loading load } })
  | _ => (a, x)

def call (x : Hosted W) (f : Loader W → Answer × Loader W) : Answer × Hosted W :=
  if x.dropped then (.dropped, x)
  else
    let (answer, loader) := f x.loader
    (answer, { x with loader })

section

variable [Guest W]

def attend (x : Hosted W) (n : Nat) : Hosted W :=
  match x.faults[n]? with
  | none => x
  | some f =>
    let (left, x) := x.onLoad (some f) (·.attend f)
    { x with faults := match left with
        | some f => x.faults.set n f
        | none => x.faults.eraseIdx n }

def act (x : Hosted W) : Event W → Answer × Hosted W
  | .register b => x.call fun l =>
    match l.register b with
    | .ok l => (.done, l)
    | .error cause => (.refused cause, l)
  | .start => x.call fun l =>
    let (failure, l) := l.start
    (.started failure, l)
  | .interrupt => x.call fun l => (.done, l.interrupt)
  | .drop =>
    let (answer, x) := x.call fun l => (.done, l.interrupt)
    (answer, { x with dropped := true })
  | .fault a => (.done, { x with faults := x.faults ++ [.at a] })
  | .attend n => (.done, x.attend n)
  | .idle => x.onLoad (.idled .allDone) fun l => (.idled l.idle.1, l.idle.2)
  | .reader => x.onLoad .done fun l => (.done, l.readerTurn)
  | .settle => x.onLoad .done fun l => (.done, l.settle)
  | .guest f => (.done, { x with loader := x.loader.withGuest (f x.loader.guest) })

/-- What a host is told and can look at after each of the events. -/
def play (x : Hosted W) : List (Event W) → List (Answer × View W)
  | [] => []
  | e :: es =>
    let (answer, x) := x.act e
    (answer, x.view) :: x.play es

def after (x : Hosted W) (es : List (Event W)) : Hosted W := es.foldl (fun x e => (x.act e).2) x

def startedWith (x : Hosted W) (load : Load W) : Hosted W :=
  { x with loader := { x.loader.start.2 with phase := .loading load } }

end

inductive Alike (m : Medium) (x : Hosted W) : Hosted W → Prop
  | loader {l : Loader W} (h : x.loader.Alike m l) : Alike m x { x with loader := l }

variable {m : Medium} {x y : Hosted W}

theorem Alike.toLoader (h : x.Alike m y) : x.loader.Alike m y.loader := by
  obtain ⟨h⟩ := h
  exact h

theorem Alike.view (h : x.Alike m y) : y.view = x.view := by
  obtain ⟨⟨h⟩⟩ := h
  cases x with | mk loader faults dropped =>
  cases loader with | mk config zeroChecker offersWatch blocks phase watched zeroChecks =>
  cases h with
  | registering => rfl
  | rejected => rfl
  | loading h =>
    cases h
    rfl

theorem Alike.onLoad {α : Type} (h : x.Alike m y) (a : α) {f : Load W → α × Load W}
    (hf : ∀ {l k : Load W}, l.Alike m k → Load.Concur m (f l) (f k)) :
    (y.onLoad a f).1 = (x.onLoad a f).1 ∧ (x.onLoad a f).2.Alike m (y.onLoad a f).2 := by
  obtain ⟨⟨h⟩⟩ := h
  cases x with | mk loader faults dropped =>
  cases loader with | mk config zeroChecker offersWatch blocks phase watched zeroChecks =>
  cases h with
  | registering h h' guest => exact ⟨rfl, .loader (.phase (.registering h h' guest))⟩
  | rejected h h' guest => exact ⟨rfl, .loader (.phase (.rejected h h' guest))⟩
  | @loading l k h =>
    have hc := hf h
    simp only [Hosted.onLoad]
    generalize f l = u, f k = v at hc ⊢
    obtain ⟨a, ha⟩ := hc
    exact ⟨rfl, .loader (x := ⟨⟨_, _, _, _, _, .loading _, _, _⟩, _, _⟩) (.phase (.loading ha))⟩

theorem Alike.call (h : x.Alike m y) {f : Loader W → Answer × Loader W}
    (hf : ∀ {l k : Loader W}, l.Alike m k → (f k).1 = (f l).1 ∧ (f l).2.Alike m (f k).2) :
    (y.call f).1 = (x.call f).1 ∧ (x.call f).2.Alike m (y.call f).2 := by
  obtain ⟨h⟩ := h
  obtain ⟨ha, hl⟩ := hf h
  unfold Hosted.call
  dsimp only
  split
  · exact ⟨rfl, .loader h⟩
  · exact ⟨ha, .loader (x := { x with loader := (f x.loader).2 }) hl⟩

theorem Alike.faults (h : x.Alike m y) : y.faults = x.faults := by
  cases h
  rfl

theorem Alike.drop (h : x.Alike m y) :
    Alike m { x with dropped := true } { y with dropped := true } := by
  obtain ⟨h⟩ := h
  exact .loader (x := { x with dropped := true }) h

theorem Alike.withFaults (h : x.Alike m y) (fs : List Load.Service) :
    Alike m { x with faults := fs } { y with faults := fs } := by
  obtain ⟨h⟩ := h
  exact .loader (x := { x with faults := fs }) h

variable [Guest W]

theorem Alike.attend (h : x.Alike m y) (n : Nat) : (x.attend n).Alike m (y.attend n) := by
  unfold Hosted.attend
  rw [h.faults]
  split
  · exact h
  · rename_i f _
    obtain ⟨hleft, ha⟩ := h.onLoad (some f) fun hl => hl.attend f
    simp only [hleft, ha.faults]
    exact ha.withFaults _

theorem Alike.act (h : x.Alike m y) (e : Event W) :
    (y.act e).1 = (x.act e).1 ∧ (x.act e).2.Alike m (y.act e).2 := by
  cases e with
  | register b =>
    refine h.call fun {l k} hl => ?_
    rcases hl.register b with ⟨cause, hr, hr'⟩ | ⟨l', k', hr, hr', ha⟩
    · simp only [hr, hr', true_and]
      exact hl
    · simp only [hr, hr', true_and]
      exact ha
  | start =>
    refine h.call fun {l k} hl => ?_
    obtain ⟨hf, hl⟩ := hl.start
    exact ⟨congrArg Answer.started hf, hl⟩
  | interrupt => exact h.call fun hl => ⟨rfl, hl.interrupt⟩
  | drop =>
    obtain ⟨ha, hx⟩ := h.call (f := fun l => (.done, l.interrupt)) fun hl => ⟨rfl, hl.interrupt⟩
    exact ⟨ha, hx.drop⟩
  | fault a =>
    refine ⟨rfl, ?_⟩
    simp only [Hosted.act, h.faults]
    exact h.withFaults _
  | attend n => exact ⟨rfl, h.attend n⟩
  | idle =>
    refine h.onLoad _ fun {l k} hl => ?_
    have hi := hl.idle
    generalize l.idle = u, k.idle = v at hi ⊢
    obtain ⟨result, ha⟩ := hi
    exact .mk _ ha
  | reader => exact h.onLoad _ fun ha => .mk _ ha.readerTurn
  | settle => exact h.onLoad _ fun ha => .mk _ ha.settle
  | guest f =>
    obtain ⟨h⟩ := h
    refine ⟨rfl, .loader (x := { x with loader := x.loader.withGuest (f x.loader.guest) }) ?_⟩
    rw [← h.guest]
    exact h.withGuest _

theorem Alike.play (h : x.Alike m y) (es : List (Event W)) : y.play es = x.play es := by
  induction es generalizing x y with
  | nil => rfl
  | cons e es ih =>
    obtain ⟨ha, hx⟩ := h.act e
    simp only [Hosted.play]
    rw [ha, hx.view, ih hx]

theorem Alike.after (h : x.Alike m y) (es : List (Event W)) :
    (x.after es).Alike m (y.after es) := by
  induction es generalizing x y with
  | nil => exact h
  | cons e es ih => exact ih (h.act e).2

theorem Alike.startedWith (h : x.Alike m y) {load load' : Load W} (hl : load.Alike m load') :
    (x.startedWith load).Alike m (y.startedWith load') := by
  obtain ⟨h⟩ := h
  exact .loader (x := x.startedWith load) (h.start.2.withLoad hl)

variable {s s' : Source}

def ofSource (config : Config) (zeroChecker : Bytes → Bool) (offersWatch : Bool) (source : Source)
    (guest : W) (threads : Threads := {}) : Hosted W where
  loader := .ofSource config zeroChecker offersWatch source guest threads

/--
Two hosts with sources of the same bytes do the same things. Whatever the pieces are in which the
sources give their bytes, and however often they interrupt, the hosts are told and see the same
after every step. If a pool may unpack pages in another order, it may do so for both, and they still
see the same.
-/
theorem play_eq_of_steady (hs : s.Steady m) (hs' : s'.Steady m) (config : Config)
    (zeroChecker : Bytes → Bool) (offersWatch : Bool) (guest : W) (threads : Threads)
    (es : List (Event W)) :
    let x := ofSource config zeroChecker offersWatch s guest threads
    let y := ofSource config zeroChecker offersWatch s' guest threads
    y.play es = x.play es ∧
      ∀ failure load, (x.after es).loader.StartsEagerly failure load →
        ∃ load', (y.after es).loader.StartsEagerly failure load' ∧
          ((y.after es).startedWith load').view = ((x.after es).startedWith load).view ∧
          ((y.after es).startedWith load').play = ((x.after es).startedWith load).play := by
  intro x y
  have h : x.Alike m y := .loader (.phase (.registering hs hs' guest))
  refine ⟨h.play es, fun failure load hl => ?_⟩
  have ha := h.after es
  obtain ⟨load', hl', hload⟩ := ha.toLoader.startsEagerly hl
  have hx := ha.startedWith hload
  exact ⟨load', hl', hx.view, funext fun fs => hx.play fs⟩

/-- A snapshot whose file ends inside its second page. -/
def endless : Bytes :=
  (Index.bytesOf 8 11 ++ [1, 2, 3] ++ Index.encode ⟨0⟩ 0
    [⟨⟨"a", 16, 4, 2⟩, [.stored 2 8, .stored 2 32], by decide⟩]).toArray

def endlessAt (source : Source) : Hosted PlainWatch :=
  ofSource {} (fun _ => false) true source { memory := .filled 5 }

/-- A fault claims the second page, the idle callback asks for the first one, and both are read. -/
def endlessEvents : List (Event PlainWatch) :=
  [.register ⟨"a", 16, 4, 2⟩, .start, .fault 18, .attend 0, .idle, .attend 0, .settle, .idle]

theorem play_eq_of_steady_endless :
    (endlessAt (.inPieces endless 1 (.const 2))).play endlessEvents =
        (endlessAt (.ofBytes endless)).play endlessEvents ∧
      ((endlessAt (.inPieces endless 1 (.const 2))).play (endlessEvents.take 5)).map (·.1) =
        [.done, .started none, .done, .done, .idled .wait] := by
  have h := fun es => (play_eq_of_steady (Source.steady_ofBytes endless)
    (Source.steady_inPieces endless Nat.one_pos (.const 2)) {} (fun _ => false) true
    ({ memory := .filled 5 } : PlainWatch) {} es).1
  refine ⟨h _, ?_⟩
  rw [endlessAt, h]
  decide +kernel

end Hosted
end RamRestore
