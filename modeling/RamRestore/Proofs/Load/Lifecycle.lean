import Mathlib.Data.List.Chain
import RamRestore.Proofs.Load.Once
import RamRestore.Proofs.Protocol

/-! # The life of a page

From the state in which the index leaves it a page goes a path along few moves, whoever acts on
it and whatever fails. No move leads out of `filled` or `error`, and none leads back to `empty`.
-/

namespace RamRestore

namespace PageState

/-- The moves of a page from one state to another. -/
inductive Next : PageState → PageState → Prop
  | claim : Next .empty .reading
  | park : Next .reading .read
  /-- A fault goes on with the page that it has read. -/
  | keep : Next .reading .filling
  /-- The page was read in place. -/
  | land : Next .reading .filled
  | fail : Next .reading .error
  | seize : Next .read .filling
  | fill : Next .filling .filled
  | refuse : Next .filling .error

variable {s t : PageState}

theorem Next.not_terminal (h : Next s t) : s.isTerminal = false := by cases h <;> rfl

theorem Next.ne_empty (h : Next s t) : t ≠ .empty := by cases h <;> nofun

theorem eq_nil_of_isChain {path : List PageState} (h : (s :: path).IsChain Next)
    (hs : s.isTerminal = true) : path = [] := by
  cases path with
  | nil => rfl
  | cons t path =>
    have hn := (List.isChain_cons_cons.1 h).1.not_terminal
    simp [hs] at hn

theorem ne_empty_of_isChain {path : List PageState} (h : (s :: path).IsChain Next)
    (ht : t ∈ path) : t ≠ .empty := by
  induction path generalizing s with
  | nil => cases ht
  | cons u path ih =>
    obtain ⟨hn, h⟩ := List.isChain_cons_cons.1 h
    rcases List.mem_cons.1 ht with rfl | ht
    · exact hn.ne_empty
    · exact ih h ht

theorem last_of_prefix {p q : List PageState} (hq : q.IsChain Next) (hpq : p <+: q)
    (hs : p.getLast? = some s) (ht : q.getLast? = some t) :
    (s.isTerminal = true → t = s) ∧ (t = .empty → s = .empty) := by
  obtain ⟨rest, rfl⟩ := hpq
  obtain ⟨front, rfl⟩ := List.getLast?_eq_some_iff.1 hs
  rw [List.append_assoc, List.singleton_append] at hq ht
  have hc : (s :: rest).IsChain Next := hq.right_of_append
  rw [List.getLast?_append_of_ne_nil _ (List.cons_ne_nil _ _)] at ht
  cases rest with
  | nil =>
    cases ht
    exact ⟨fun _ => rfl, id⟩
  | cons u rest =>
    constructor
    · intro hterm
      cases eq_nil_of_isChain hc hterm
    · intro he
      rw [List.getLast?_cons_cons] at ht
      exact absurd he (ne_empty_of_isChain hc (List.mem_of_getLast? ht))

end PageState

open PageState (Next)

namespace Load

variable {W : Type}

def visited (l : Load W) (i : Nat) : List PageState :=
  (l.moves.toList.filter (·.1 = i)).map (·.2)

/-- The states of page `i` so far, from the one in which the index left it. -/
def path (l : Load W) (i : Nat) : List PageState :=
  (if (l.index.page i).isZero then .filled else .empty) :: l.visited i

def Traced (l : Load W) : Prop :=
  ∀ i < l.index.pages.size, (l.path i).IsChain Next ∧ (l.path i).getLast? = some (l.state i)

def Shelved (l : Load W) : Prop := ∀ i, l.state i = .read → l.parked i ≠ none

section

variable {k l m : Load W} {i j : Nat} {s s' : PageState}

theorem path_congr (hi : m.index = l.index) (hm : m.moves = l.moves) : m.path j = l.path j := by
  simp only [path, visited, hi, hm]

theorem path_push (hi : m.index = l.index) (hm : m.moves = l.moves.push (i, s)) (j : Nat) :
    m.path j = if i = j then l.path j ++ [s] else l.path j := by
  simp only [path, visited, hi, hm, Array.toList_push, List.filter_append, List.map_append]
  by_cases hij : i = j <;> simp [hij]

theorem prefix_push {α : Type} (xs : Array α) (a : α) : xs.toList <+: (xs.push a).toList := by
  simp

theorem path_prefix_of_moves (hi : m.index = l.index) (hm : l.moves.toList <+: m.moves.toList)
    (j : Nat) : l.path j <+: m.path j := by
  simp only [path, visited, hi]
  exact List.cons_prefix_cons.2 ⟨rfl, (hm.filter _).map _⟩

theorem Traced.congr (h : Traced l) (hi : m.index = l.index) (hs : ∀ j, m.state j = l.state j)
    (hm : m.moves = l.moves) : Traced m := by
  intro j hj
  rw [path_congr hi hm, hs]
  exact h j (hi ▸ hj)

theorem Traced.samePages (h : Traced l) (hp : SamePages l m) : Traced m :=
  h.congr hp.index hp.state hp.moves

theorem Traced.push (h : Traced l) (hi : m.index = l.index) (hm : m.moves = l.moves.push (i, s))
    (hs : ∀ j, m.state j = if i = j then s else l.state j) (hn : Next (l.state i) s) :
    Traced m := by
  intro j hj
  obtain ⟨hc, hl⟩ := h j (hi ▸ hj)
  rw [path_push hi hm, hs]
  split
  · rename_i hij
    subst hij
    refine ⟨List.isChain_append.2 ⟨hc, .singleton s, ?_⟩, List.getLast?_concat⟩
    intro t ht u hu
    rw [hl] at ht
    cases ht
    cases hu
    exact hn
  · exact ⟨hc, hl⟩

theorem Traced.setState (h : Traced l) (hn : Next (l.state i) s) : Traced (l.setState i s) :=
  h.push rfl rfl (state_setState l i · s) hn

theorem Traced.claim (h : Traced l) (he : l.state i = .empty) : Traced (l.claim i) :=
  h.push rfl rfl (state_claim l i) (he ▸ .claim)

theorem Traced.park (h : Traced l) (hr : l.state i = .reading) (c : Bytes) : Traced (l.park i c) :=
  h.push rfl rfl (state_park l i · c) (hr ▸ .park)

theorem Fresh.traced (h : l.Fresh) : Traced l := by
  intro i hi
  simp only [path, visited, h.moves, h.state, hi, true_and]
  exact ⟨.singleton _, rfl⟩

theorem Fresh.shelved (h : l.Fresh) : Shelved l := by
  intro i hs
  rcases h.empty_or_filled i with he | he <;> simp [he] at hs

theorem Shelved.update (h : Shelved l) (hs : m.state i = .read → m.parked i ≠ none)
    (hj : ∀ j, i ≠ j → m.state j = l.state j ∧ m.parked j = l.parked j) : Shelved m := by
  intro j hr
  by_cases hij : i = j
  · subst hij
    exact hs hr
  · obtain ⟨hstate, hparked⟩ := hj j hij
    rw [hparked]
    exact h j (hstate ▸ hr)

theorem Shelved.samePages (h : Shelved l) (hp : SamePages l m) : Shelved m :=
  fun i hs => hp.parked i ▸ h i (hp.state i ▸ hs)

theorem Shelved.setState (h : Shelved l) (hs : s ≠ .read) : Shelved (l.setState i s) := by
  refine h.update (i := i) (fun hr => ?_) fun j hij => ?_
  · rw [state_setState, if_pos rfl] at hr
    exact absurd hr hs
  · rw [state_setState, if_neg hij, parked_setState, if_neg hij]
    exact ⟨rfl, rfl⟩

theorem Shelved.park (h : Shelved l) (c : Bytes) : Shelved (l.park i c) := by
  refine h.update (i := i) (fun _ => ?_) fun j hij => ?_
  · simp [parked_park]
  · rw [state_park, if_neg hij, parked_park, if_neg hij]
    exact ⟨rfl, rfl⟩

end

variable [Guest W]

section

variable {E : Surroundings} {l m : Load W} {x y : Session W} {i : Nat}

theorem Traced.fill (h : Traced l) (hn : Next (l.state i) .filling) (c : Bytes) :
    Traced (l.fill i c).2 := by
  have hf : Traced (l.setState i .filling) := h.setState hn
  have hi : (l.setState i .filling).state i = .filling := by
    rw [state_setState, if_pos rfl]
  refine hf.push (index_fill l i c) (moves_fill l i c) (fun j => ?_) ?_
  · rw [state_fill, state_setState]
    split <;> rfl
  · rw [hi]
    split
    · exact .fill
    · exact .refuse

theorem Shelved.fill (h : Shelved l) (c : Bytes) : Shelved (l.fill i c).2 := by
  refine h.update (i := i) (fun hr => ?_) fun j hij => ?_
  · rw [state_fill, if_pos rfl] at hr
    split at hr <;> cases hr
  · rw [state_fill, if_neg hij, parked_fill, if_neg hij]
    exact ⟨rfl, rfl⟩

theorem Shelved.move (h : Shelved x.load) (hm : Move E x y) : Shelved y.load := by
  cases hm.pageStep with
  | stay hp | advance _ _ _ _ _ _ _ hp | abandon _ _ _ hp => exact h.samePages hp
  | claim i _ _ hp =>
    have hc : Shelved (x.load.setState i .reading) := h.setState nofun
    exact Shelved.samePages (l := x.load.claim i) hc hp
  | park _ _ _ c _ _ _ _ _ _ hp => exact (h.park c).samePages hp
  | fail _ _ _ _ _ _ _ _ _ _ hp | lose _ _ _ hp =>
    exact (h.setState (s := .error) nofun).samePages hp
  | fill _ _ _ c _ _ _ _ _ _ hp => exact (h.fill c).samePages hp
  | fillParked _ c _ _ hp => exact (h.fill c).samePages hp

/-- Who moves a page on has it, or claims it where it is. -/
theorem Traced.move (hx : Orderly x) (hk : Shelved x.load) (h : Traced x.load)
    (hm : Move E x y) : Traced y.load := by
  cases hm.pageStep with
  | stay hp | advance _ _ _ _ _ _ _ hp | abandon _ _ _ hp => exact h.samePages hp
  | claim i _ he hp => exact (h.claim he).samePages hp
  | park i t _ c _ _ _ ht _ _ hp =>
    exact (h.park (hx.reading (i, t) (by simp [ht])) c).samePages hp
  | fail i t _ _ _ _ _ ht _ _ hp =>
    have hr : x.load.state i = .reading := hx.reading (i, t) (by simp [ht])
    exact (h.setState (hr ▸ .fail)).samePages hp
  | fill i t _ c _ _ _ ht _ _ hp =>
    have hr : x.load.state i = .reading := hx.reading (i, t) (by simp [ht])
    exact (h.fill (hr ▸ .keep) c).samePages hp
  | fillParked i c hs _ hp => exact (h.fill (hs ▸ .seize) c).samePages hp
  | lose i hs hc => exact absurd hc (hk i hs)

structure Sane (x : Session W) : Prop where
  orderly : Orderly x
  traced : Traced x.load
  shelved : Shelved x.load

theorem Sane.run (h : Sane x) (hs : Moves E x y) : Sane y :=
  hs.keep (fun _ _ hm hz => ⟨hz.orderly.move hm, hz.traced.move hz.orderly hz.shelved hm,
    hz.shelved.move hm⟩) h

theorem Move.moves_prefix (hm : Move E x y) : x.load.moves.toList <+: y.load.moves.toList := by
  cases hm.pageStep with
  | stay hp | advance _ _ _ _ _ _ _ hp | abandon _ _ _ hp => exact hp.moves ▸ List.prefix_rfl
  | claim _ _ _ hp | park _ _ _ _ _ _ _ _ _ _ hp | fail _ _ _ _ _ _ _ _ _ _ hp
  | lose _ _ _ hp =>
    rw [hp.moves]
    exact prefix_push _ _
  | fill _ _ _ _ _ _ _ _ _ _ hp | fillParked _ _ _ _ hp =>
    rw [hp.moves, moves_fill]
    exact (prefix_push _ _).trans (prefix_push _ _)

theorem Steps.path_prefix (h : Steps E x y) (i : Nat) : x.load.path i <+: y.load.path i :=
  path_prefix_of_moves h.index (h.keep (P := fun z => x.load.moves.toList <+: z.load.moves.toList)
    (fun _ _ hm hz => hz.trans hm.moves_prefix) List.prefix_rfl) i

end

/-! ### Eager loads -/

def Sweep.Shelved (x : Sweep W) : Prop :=
  ∀ i, x.load.state i = .read → ∃ data, (i, data) ∈ x.packed

section

variable {x y : Sweep W}

/-- What an eager step does to one page: it reads the page and is through with it, or leaves it
packed, or it unpacks it. -/
structure SweepMove (x y : Sweep W) (i : Nat) (s t : PageState) : Prop where
  first : Next (x.load.state i) s
  second : Next s t
  index : y.load.index = x.load.index
  moves : y.load.moves = (x.load.moves.push (i, s)).push (i, t)
  state : ∀ j, y.load.state j = if i = j then t else x.load.state j
  packed : t = .read → ∃ data, (i, data) ∈ y.packed
  kept : ∀ p ∈ x.packed, p.1 ≠ i → p ∈ y.packed
  failure : t ≠ .error → y.load.failure = x.load.failure
  failed : t = .error → y.load.failure ≠ none

theorem SweepStep.moved (hx : Tidy x) (h : SweepStep x y) :
    (SamePages x.load y.load ∧ y.packed = x.packed ∧ y.load.failure = x.load.failure) ∨
      ∃ i s t, SweepMove x y i s t := by
  have hread : ∀ {i data}, x.packed = (i, data) ::ₘ y.packed → x.load.state i = .read :=
    fun hk => hx.read _ (by rw [hk]; exact Multiset.mem_cons_self _ _)
  have hkept : ∀ {i data}, x.packed = (i, data) ::ₘ y.packed →
      ∀ p ∈ x.packed, p.1 ≠ i → p ∈ y.packed := by
    intro i data hk p hp hne
    rw [hk, Multiset.mem_cons] at hp
    rcases hp with rfl | hp
    · exact absurd rfl hne
    · exact hp
  cases h.effect with
  | pass _ _ _ hp hk hf => exact .inl ⟨hp, hk, hf⟩
  | fail i _ _ _ guest _ he _ _ hp hk hf =>
    exact .inr ⟨i, .reading, .error, he ▸ .claim, .fail, hp.index, hp.moves,
      fun j => (hp.state j).trans (state_claim_setState x.load i j guest .error), nofun,
      fun p hp _ => hk ▸ hp, fun hne => absurd rfl hne, fun _ => hf⟩
  | pack i data _ he _ _ hp hk hf =>
    exact .inr ⟨i, .reading, .read, he ▸ .claim, .park, hp.index, hp.moves,
      fun j => (hp.state j).trans (state_claim_setState x.load i j x.load.guest .read),
      fun _ => ⟨data, hk ▸ Multiset.mem_cons_self _ _⟩,
      fun p hp _ => hk ▸ Multiset.mem_cons_of_mem hp, fun _ => hf, nofun⟩
  | fill i data _ he _ _ hp hk hf =>
    exact .inr ⟨i, .reading, .filled, he ▸ .claim, .land, hp.index, hp.moves,
      fun j => (hp.state j).trans (state_claim_setState x.load i j _ .filled), nofun,
      fun p hp _ => hk ▸ hp, fun _ => hf, nofun⟩
  | unpack i data _ _ hk _ hp hf =>
    exact .inr ⟨i, .filling, .filled, hread hk ▸ .seize, .fill, hp.index, hp.moves,
      fun j => (hp.state j).trans (state_setState_setState x.load i j .filling _ .filled), nofun,
      hkept hk, fun _ => hf, nofun⟩
  | corrupt i data _ _ hk _ hp hf =>
    exact .inr ⟨i, .filling, .error, hread hk ▸ .seize, .refuse, hp.index, hp.moves,
      fun j => (hp.state j).trans (state_setState_setState x.load i j .filling _ .error), nofun,
      hkept hk, fun hne => absurd rfl hne, fun _ => hf⟩

theorem Traced.sweep (hx : Tidy x) (h : Traced x.load) (hs : SweepStep x y) : Traced y.load := by
  rcases hs.moved hx with ⟨hp, -⟩ | ⟨i, s, t, hm⟩
  · exact h.samePages hp
  · have h₁ : Traced (x.load.setState i s) := h.setState hm.first
    refine h₁.push hm.index hm.moves (fun j => ?_) ?_
    · rw [hm.state, state_setState]
      split <;> rfl
    · rw [state_setState, if_pos rfl]
      exact hm.second

theorem Sweep.Shelved.step (hx : Tidy x) (h : x.Shelved) (hs : SweepStep x y) : y.Shelved := by
  rcases hs.moved hx with ⟨hp, hk, -⟩ | ⟨i, s, t, hm⟩
  · intro i hr
    rw [hk]
    exact h i (hp.state i ▸ hr)
  · intro j hr
    rw [hm.state] at hr
    split at hr
    · rename_i hij
      subst hij
      exact hm.packed hr
    · rename_i hij
      obtain ⟨data, hp⟩ := h j hr
      exact ⟨data, hm.kept _ hp (Ne.symm hij)⟩

theorem SweepStep.moves_prefix (hx : Tidy x) (hs : SweepStep x y) :
    x.load.moves.toList <+: y.load.moves.toList := by
  rcases hs.moved hx with ⟨hp, -⟩ | ⟨i, s, t, hm⟩
  · exact hp.moves ▸ List.prefix_rfl
  · rw [hm.moves]
    exact (prefix_push _ _).trans (prefix_push _ _)

theorem Sweeps.path_prefix (hx : Tidy x) (h : Sweeps x y) (i : Nat) :
    x.load.path i <+: y.load.path i :=
  path_prefix_of_moves h.index
    (h.keep (P := fun z => Tidy z ∧ x.load.moves.toList <+: z.load.moves.toList)
      (fun _ _ hs ⟨ht, hz⟩ => ⟨ht.step hs, hz.trans (hs.moves_prefix ht)⟩)
      ⟨hx, List.prefix_rfl⟩).2 i

end

end Load

namespace Loader

open Load

variable {W : Type} [Guest W]

/-- The sessions of a loader: once it has read its index, at any time in an eager load whichever
way it is carried out, and at any time after the start. -/
inductive Attains (l : Loader W) (E : Surroundings) : Session W → Prop
  | opened {m₀ : Load W} (ho : l.opened? = some m₀) : Attains l E ⟨m₀, 0⟩
  | «eager» {m₀ : Load W} {order : List Nat} {x : Sweep W} (ho : l.opened? = some m₀)
      (hl : l.isLazy m₀.guest = false) (hi : m₀.index.InFileOrder order)
      (hs : Sweeps ⟨m₀, order, 0⟩ x) : Attains l E ⟨x.load, 0⟩
  | started {failure : Option LoadError} {m : Load W} {x : Session W} (hm : l.Starts failure m)
      (hs : Steps E ⟨m, 0⟩ x) : Attains l E x

/-- Of two sessions of a loader the second one comes later. -/
inductive Leads (l : Loader W) (E : Surroundings) : Session W → Session W → Prop
  | opened {m₀ : Load W} {y : Session W} (ho : l.opened? = some m₀) (hy : l.Attains E y) :
      Leads l E ⟨m₀, 0⟩ y
  | «eager» {m₀ : Load W} {order : List Nat} {x y : Sweep W} (ho : l.opened? = some m₀)
      (hl : l.isLazy m₀.guest = false) (hi : m₀.index.InFileOrder order)
      (hx : Sweeps ⟨m₀, order, 0⟩ x) (hy : Sweeps x y) : Leads l E ⟨x.load, 0⟩ ⟨y.load, 0⟩
  /-- The eager load is over. -/
  | concluded {m₀ l' : Load W} {order rest : List Nat} {x : Sweep W} {y : Session W}
      {returned : Option LoadError} (ho : l.opened? = some m₀) (hl : l.isLazy m₀.guest = false)
      (hi : m₀.index.InFileOrder order) (hx : Sweeps ⟨m₀, order, 0⟩ x)
      (hw : ∀ cause, ¬ m₀.LacksPool l.config l.threads cause) (hl' : Sweeps x ⟨l', rest, 0⟩)
      (hr : m₀.ReadsAll order (m₀.workers? l.config l.threads) returned l')
      (hy : Steps E ⟨(l'.conclude returned).2, 0⟩ y) : Leads l E ⟨x.load, 0⟩ y
  | started {failure : Option LoadError} {m : Load W} {x y : Session W} (hm : l.Starts failure m)
      (hx : Steps E ⟨m, 0⟩ x) (hy : Steps E x y) : Leads l E x y

variable {l : Loader W} {E : Surroundings} {m m₀ : Load W} {x y : Session W} {i : Nat}
  {failure : Option LoadError}

/-- The loads that the workers of a pool share are among them, but for a failure that the reading
thread has not recorded yet. -/
theorem attains_pool {order : List Nat} {workers : Nat} {p : UnpackPool W}
    (ho : l.opened? = some m₀) (hl : l.isLazy m₀.guest = false) (hi : m₀.index.InFileOrder order)
    (hp : (m₀.pool order workers).Steps unpacking p) (recorded : LoadError) :
    l.Attains E ⟨anticipate recorded p.shared p.phase, 0⟩ := by
  obtain ⟨rest, hs, -⟩ := (sweptTo_pool m₀ order workers).steps hp
  exact .eager ho hl hi (hs recorded)

theorem Leads.attains (h : l.Leads E x y) : l.Attains E x ∧ l.Attains E y := by
  cases h with
  | opened ho hy => exact ⟨.opened ho, hy⟩
  | «eager» ho hl hi hx hy => exact ⟨.eager ho hl hi hx, .eager ho hl hi (hx.trans hy)⟩
  | concluded ho hl hi hx hw _ hr hy =>
    exact ⟨.eager ho hl hi hx,
      .started (.inr (.inl ⟨_, ho, hl, _, hi, hw, _, _, hr, rfl⟩)) hy⟩
  | started hm hx hy => exact ⟨.started hm hx, .started hm (hx.trans hy)⟩

theorem sweeps_sane {order : List Nat} {x : Sweep W} (ho : l.opened? = some m₀)
    (hi : m₀.index.InFileOrder order) (hs : Sweeps ⟨m₀, order, 0⟩ x) :
    Tidy x ∧ Traced x.load ∧ x.Shelved := by
  obtain ⟨hf, -⟩ := opened_fresh ho
  refine hs.keep (P := fun z => Tidy z ∧ Traced z.load ∧ z.Shelved)
    (fun _ _ h ⟨ht, hp, hk⟩ => ⟨ht.step h, hp.sweep ht h, hk.step ht h⟩)
    ⟨hf.tidy hi, hf.traced, fun i hr => ?_⟩
  rcases hf.empty_or_filled i with he | he <;> simp [he] at hr

theorem starts_sane (h : l.Starts failure m) : Sane ⟨m, 0⟩ := by
  refine ⟨(starts_tally h).1, ?_, ?_⟩
  · rcases h with h | ⟨m₀, ho, -, order, hi, -, returned, l', hr, hc⟩ | h
    · exact h.fresh.1.traced
    · obtain ⟨rest, hs, -⟩ := hr.sweeps
      cases hc
      exact (sweeps_sane ho hi hs).2.1.congr rfl (fun _ => rfl) rfl
    · exact (opened_fresh h.opened).1.traced
  · rcases h with h | ⟨m₀, ho, -, order, hi, -, returned, l', hr, hc⟩ | h
    · exact h.fresh.1.shelved
    · -- an eager load leaves nothing packed
      obtain ⟨rest, hs, -⟩ := hr.sweeps
      cases hc
      intro i hread
      obtain ⟨data, hp⟩ := (sweeps_sane ho hi hs).2.2 i hread
      cases hp
    · exact (opened_fresh h.opened).1.shelved

theorem Attains.traced (h : l.Attains E x) : Orderly x ∧ Traced x.load := by
  cases h with
  | opened ho =>
    obtain ⟨hf, -⟩ := opened_fresh ho
    exact ⟨hf.orderly, hf.traced⟩
  | «eager» ho hl hi hs =>
    obtain ⟨ht, hp, -⟩ := sweeps_sane ho hi hs
    exact ⟨ht.orderly, hp⟩
  | started hm hs =>
    have hx := (starts_sane hm).run hs.moves
    exact ⟨hx.orderly, hx.traced⟩

theorem Attains.index (h : l.Attains E x) (ho : l.opened? = some m₀) :
    x.load.index = m₀.index := by
  cases h with
  | opened ho' => rw [Option.some.inj (ho.symm.trans ho')]
  | «eager» ho' hl hi hs => rw [Option.some.inj (ho.symm.trans ho'), hs.index]
  | started hm hs => rw [hs.index, hm.index ho]

theorem Leads.index (h : l.Leads E x y) : y.load.index = x.load.index := by
  cases h with
  | opened ho hy => exact hy.index ho
  | «eager» _ _ _ _ hy => exact hy.index
  | concluded _ _ _ _ _ hl' _ hy => exact hy.index.trans hl'.index
  | started _ _ hy => exact hy.index

theorem Leads.path_prefix (h : l.Leads E x y) (i : Nat) : x.load.path i <+: y.load.path i := by
  cases h with
  | opened ho hy =>
    obtain ⟨hf, -⟩ := opened_fresh ho
    refine path_prefix_of_moves (hy.index ho) ?_ i
    simp [hf.moves]
  | «eager» ho hl hi hx hy => exact hy.path_prefix (sweeps_sane ho hi hx).1 i
  | concluded ho hl hi hx hw hl' hr hy =>
    exact (hl'.path_prefix (sweeps_sane ho hi hx).1 i).trans (hy.path_prefix i)
  | started hm hx hy => exact hy.path_prefix i

end Loader

namespace Protocol

variable {a : Actor} {act : Option Act} {c c' : Scene}

/-- However the steps of all actors mix, each of them moves the page on or leaves it where it is. -/
theorem Sound.next (h : Sound c) (hs : Step a act c c') :
    c'.shared.state = c.shared.state ∨ Next c.shared.state c'.shared.state := by
  obtain ⟨ht⟩ := hs
  have hf := h.fits a
  generalize c.point a = p at ht hf
  generalize hc : c.shared = s at ht hf
  cases ht with
  | claim he => exact .inr (he ▸ .claim)
  | publish => exact .inr (hf.1 ▸ .park)
  | fail | failOwn => exact .inr (hf.1 ▸ .fail)
  | announce => exact .inr (hf.1 ▸ .keep)
  | seize hr => exact .inr (hr ▸ .seize)
  | lose => exact hf.elim
  | @store _ _ accepted =>
    cases accepted with
    | true => exact .inr (hf.1 ▸ .fill)
    | false => exact .inr (hf.1 ▸ .refuse)
  | _ => exact .inl rfl

end Protocol

namespace Loader

open Load

variable {W : Type} [Guest W] {l : Loader W} {E : Surroundings} {x : Session W} {i : Nat}

/--
Pages move along their lifecycle and no other way. At any time of any load a page has got to its
state along a path of moves, which later only gets longer: filled and failed pages stay so, and
none becomes empty again. A page that is all zero is filled from the start and stays so. The
steps in which reader, idle callback and faults share a page are such moves as well.
-/
theorem page_path (hx : l.Attains E x) (hi : i < x.load.index.pages.size) :
    (x.load.path i).IsChain Next ∧ (x.load.path i).getLast? = some (x.load.state i) ∧
      ((x.load.index.page i).isZero → x.load.path i = [.filled]) ∧
      (∀ y, l.Leads E x y → x.load.path i <+: y.load.path i ∧
        ((x.load.state i).isTerminal → y.load.state i = x.load.state i) ∧
        (y.load.state i = .empty → x.load.state i = .empty)) ∧
      ∀ a act c c', Protocol.Reachable c → Protocol.Step a act c c' →
        c'.shared.state = c.shared.state ∨ Next c.shared.state c'.shared.state := by
  obtain ⟨hc, hlast⟩ := hx.traced.2 i hi
  refine ⟨hc, hlast, fun hz => ?_, fun y hy => ?_, fun _ _ _ _ hr hs => hr.sound.next hs⟩
  · unfold path at hc ⊢
    rw [if_pos hz] at hc ⊢
    rw [PageState.eq_nil_of_isChain hc rfl]
  · have hpath := hy.path_prefix i
    have hindex : y.load.index = x.load.index := hy.index
    obtain ⟨hcy, hlasty⟩ := hy.attains.2.traced.2 i (hindex ▸ hi)
    exact ⟨hpath, PageState.last_of_prefix hcy hpath hlast hlasty⟩

theorem page_path_sample :
    sampleEnd.path 0 = [.empty, .reading, .read, .filling, .filled] ∧
      (sampleEnd.path 0).IsChain Next ∧ sampleEnd.path 1 = [.filled] := by
  have hx : sample.Attains .quiet ⟨sampleEnd, 0⟩ := .started (.inl sample_startsLazily) sample_steps
  obtain ⟨hc, -⟩ := page_path (i := 0) hx (by decide +kernel)
  obtain ⟨-, -, hz, -⟩ := page_path (i := 1) hx (by decide +kernel)
  exact ⟨by decide +kernel, hc, hz (by decide +kernel)⟩

end Loader
end RamRestore
