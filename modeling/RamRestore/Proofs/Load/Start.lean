import RamRestore.Loader
import RamRestore.PlainWatch
import RamRestore.Proofs.Load.InPlace

/-! # How a load starts

A loader that can read its index starts a lazy load or an eager one. Before either, nobody
has touched a page: those that are all zero count as filled, and the others are empty.
-/

namespace RamRestore

namespace Load

variable {W : Type}

/-- Nobody has touched a page of this load, and nothing is on its way. -/
structure Fresh (l : Load W) : Prop where
  wellFormed : l.index.WellFormed
  state : ∀ i, l.state i =
    if i < l.index.pages.size ∧ (l.index.page i).isZero then .filled else .empty
  parked : ∀ i, l.parked i = none
  moves : l.moves = #[]
  begun : l.begun = #[]
  placed : l.placed = #[]
  calls : l.calls = #[]
  failure : l.failure = none
  complete : l.complete = false
  requests : l.requests = []
  results : l.results = []
  reader : l.reader = .ended ∨ l.reader = .waiting

theorem fresh_ofIndex {index : Index} (h : index.WellFormed) (source : Source) (guest : W)
    (capacity : Nat) : (ofIndex index source guest capacity).Fresh where
  wellFormed := h
  state := state_ofIndex index source guest capacity
  parked := parked_ofIndex index source guest capacity
  moves := rfl
  begun := rfl
  placed := rfl
  calls := rfl
  failure := rfl
  complete := rfl
  requests := rfl
  results := rfl
  reader := .inl rfl

section

variable {l m : Load W} {i : Nat}

theorem Fresh.empty_of_stored (h : l.Fresh) (hi : i ∈ l.index.stored) : l.state i = .empty := by
  obtain ⟨-, hz⟩ := Index.mem_stored.1 hi
  rw [h.state, if_neg (by simp [hz])]

theorem Fresh.stored_of_empty (h : l.Fresh) (hi : i < l.index.pages.size)
    (he : l.state i = .empty) : i ∈ l.index.stored := by
  refine Index.mem_stored.2 ⟨hi, ?_⟩
  cases hz : (l.index.page i).isZero with
  | false => rfl
  | true => simp [h.state, hi, hz] at he

theorem Fresh.empty_or_filled (h : l.Fresh) (i : Nat) :
    l.state i = .empty ∨ l.state i = .filled := by
  rw [h.state]
  split
  · exact .inr rfl
  · exact .inl rfl

theorem Fresh.transfers (h : l.Fresh) : Session.transfers ⟨l, 0⟩ = 0 := by
  rcases h.reader with hr | hr <;> simp [Session.transfers, hr, Reader.transfer?]

theorem Fresh.orderly (h : l.Fresh) : Orderly ⟨l, 0⟩ where
  wellFormed := h.wellFormed
  requests i hi := by simp [h.requests] at hi
  beyond i hi := by
    rw [h.state, if_neg]
    rintro ⟨hlt, -⟩
    exact absurd hlt (Nat.not_lt_of_le hi)
  zero i hi hz := by rw [h.state, if_pos ⟨hi, hz⟩]
  reading p hp := by simp [h.transfers] at hp
  nodup := by simp [h.transfers]

theorem Fresh.tidy (h : l.Fresh) {order : List Nat} (ho : l.index.InFileOrder order) :
    Tidy ⟨l, order, 0⟩ where
  orderly := h.orderly
  transfers := h.transfers
  ahead _ := ho.mem_iff.1
  read p hp := by simp at hp
  nodup := by simp

end

variable [Guest W] {l m : Load W} {threads : Threads} {failure : Option LoadError}

/-- Starting background work changes the guest and, unless a range is refused, sets the queues
up. Where that is all, the start has failed. -/
theorem startBackground_cases (h : l.startBackground threads = (failure, m)) :
    ∃ guest, (failure ≠ none ∧ m = { l with guest }) ∨
      ∃ reader, (reader = .waiting ∨ failure ≠ none ∧ reader = l.reader) ∧
        m = { l with guest, cursor := some {}, reader } := by
  unfold startBackground at h
  split at h
  · rename_i cause guest _
    cases h
    exact ⟨guest, .inl ⟨Option.some_ne_none _, rfl⟩⟩
  · rename_i guest _
    dsimp only at h
    split at h
    · cases h
      exact ⟨guest, .inr ⟨_, .inr ⟨Option.some_ne_none _, rfl⟩, rfl⟩⟩
    · split at h <;> cases h
      · exact ⟨_, .inr ⟨_, .inl rfl, rfl⟩⟩
      · exact ⟨_, .inr ⟨_, .inl rfl, rfl⟩⟩

theorem Fresh.startBackground (hl : l.Fresh) (h : l.startBackground threads = (failure, m)) :
    m.Fresh := by
  obtain ⟨guest, ⟨-, rfl⟩ | ⟨reader, hr, rfl⟩⟩ := startBackground_cases h
  · exact ⟨hl.wellFormed, hl.state, hl.parked, hl.moves, hl.begun, hl.placed, hl.calls,
      hl.failure, hl.complete, hl.requests, hl.results, hl.reader⟩
  · refine ⟨hl.wellFormed, hl.state, hl.parked, hl.moves, hl.begun, hl.placed, hl.calls,
      hl.failure, hl.complete, hl.requests, hl.results, ?_⟩
    rcases hr with rfl | ⟨-, rfl⟩
    · exact .inr rfl
    · exact hl.reader

end Load

namespace Loader

variable {W : Type} [Guest W]

/-- The load of which a start has only read the index. -/
def opened? (l : Loader W) : Option (Load W) :=
  match l.phase with
  | .registering source guest =>
    let reading := Index.read l.blocks source
    match reading.outcome with
    | .error _ => none
    | .ok index =>
      some (.ofIndex index reading.source (clear l.zeroChecker guest reading.cleared).2
        l.config.capacity)
  | _ => none

/-- The start goes on lazily, with this result and this load. -/
structure StartsLazily (l : Loader W) (failure : Option LoadError) (m : Load W) : Prop where
  isLazy : ∃ m₀, l.opened? = some m₀ ∧ l.isLazy m₀.guest = true
  start : l.start.1 = failure
  load : l.start.2.load? = some m

/-- The start may read every page with this result and this load, in some order of workers and of
pages at one position. -/
def StartsEagerly (l : Loader W) (failure : Option LoadError) (m : Load W) : Prop :=
  ∃ m₀, l.opened? = some m₀ ∧ l.isLazy m₀.guest = false ∧
    m₀.LoadsEagerly l.config l.threads failure m

/-- The start would read every page, but is refused its workers. -/
structure StartsWithoutPool (l : Loader W) (failure : Option LoadError) (m : Load W) : Prop where
  opened : l.opened? = some m
  isEager : l.isLazy m.guest = false
  refused : ∃ cause, failure = some (.io cause) ∧ m.LacksPool l.config l.threads cause

/-- The start may come to this result and this load. -/
def Starts (l : Loader W) (failure : Option LoadError) (m : Load W) : Prop :=
  l.StartsLazily failure m ∨ l.StartsEagerly failure m ∨ l.StartsWithoutPool failure m

variable {l : Loader W} {m m₀ : Load W} {failure : Option LoadError}

theorem start_of_opened (h : l.opened? = some m₀) :
    ∃ checks, l.start = ({ l with zeroChecks := checks }).begin m₀ := by
  unfold opened? at h
  unfold start
  split at h
  · rename_i source guest hp
    dsimp only at h
    split at h
    · cases h
    · rename_i index hr
      cases h
      exact ⟨_, by simp only [hp, hr]; rfl⟩
  · cases h

theorem start_of_unread {source : Source} {guest : W} (hp : l.phase = .registering source guest)
    (ho : l.opened? = none) :
    ∃ cause, (Index.read l.blocks source).outcome = .error cause ∧ l.start.1 = some cause := by
  simp only [opened?, hp] at ho
  split at ho
  · rename_i cause hr
    exact ⟨cause, hr, by simp only [start, hp, hr]⟩
  · cases ho

theorem opened_fresh (h : l.opened? = some m₀) :
    m₀.Fresh ∧ m₀.index.blocks.map (·.ram) = l.blocks := by
  unfold opened? at h
  split at h
  · dsimp only at h
    split at h
    · cases h
    · rename_i index hr
      cases h
      obtain ⟨hb, hw⟩ := Index.read_ok hr
      exact ⟨Load.fresh_ofIndex hw _ _ _, hb⟩
  · cases h

theorem opened_source (h : l.opened? = some m₀) : Source.SameAnswers l.source m₀.source := by
  unfold opened? at h
  split at h
  · rename_i source guest hp
    dsimp only at h
    split at h
    · cases h
    · cases h
      have hs : l.source = source := by
        unfold Loader.source
        rw [hp]
      rw [hs]
      exact Index.sameAnswers_read l.blocks source
  · cases h

theorem StartsLazily.startBackground (h : l.StartsLazily failure m) :
    ∃ m₀, l.opened? = some m₀ ∧ m₀.startBackground l.threads = (failure, m) := by
  obtain ⟨⟨m₀, ho, hl⟩, hf, hm⟩ := h
  obtain ⟨checks, hs⟩ := start_of_opened ho
  have hl' : ({ l with zeroChecks := checks } : Loader W).isLazy m₀.guest = true := hl
  simp only [hs, begin, hl', ↓reduceIte, load?, Option.some.injEq] at hf hm
  exact ⟨m₀, ho, Prod.ext hf hm⟩

theorem StartsLazily.fresh (h : l.StartsLazily failure m) :
    m.Fresh ∧ m.index.blocks.map (·.ram) = l.blocks := by
  obtain ⟨m₀, ho, hs⟩ := h.startBackground
  obtain ⟨hf, hb⟩ := opened_fresh ho
  refine ⟨hf.startBackground hs, ?_⟩
  obtain ⟨guest, ⟨-, rfl⟩ | ⟨reader, -, rfl⟩⟩ := Load.startBackground_cases hs <;> exact hb

theorem StartsLazily.source (h : l.StartsLazily failure m) :
    Source.SameAnswers l.source m.source := by
  obtain ⟨m₀, ho, hs⟩ := h.startBackground
  have hsource := opened_source ho
  obtain ⟨guest, ⟨-, rfl⟩ | ⟨reader, -, rfl⟩⟩ := Load.startBackground_cases hs <;> exact hsource

theorem StartsLazily.waiting (h : l.StartsLazily none m) :
    m.cursor = some {} ∧ m.reader = .waiting := by
  obtain ⟨m₀, -, hs⟩ := h.startBackground
  obtain ⟨guest, ⟨hn, -⟩ | ⟨reader, rfl | ⟨hn, -⟩, rfl⟩⟩ := Load.startBackground_cases hs
  · exact absurd rfl hn
  · exact ⟨rfl, rfl⟩
  · exact absurd rfl hn

omit [Guest W] in
theorem phase_of_load (h : l.load? = some m) : l.phase = .loading m := by
  unfold load? at h
  split at h
  · cases h
    assumption
  · cases h

theorem exists_load_of_opened (ho : l.opened? = some m₀) : ∃ m, l.start.2.load? = some m := by
  obtain ⟨checks, hs⟩ := start_of_opened ho
  rw [hs]
  exact ⟨_, rfl⟩

theorem start_of_eager (ho : l.opened? = some m₀) (hl : l.isLazy m₀.guest = false) :
    l.start.1 = (m₀.loadEagerly l.config l.threads).1 ∧
      l.start.2.load? = some (m₀.loadEagerly l.config l.threads).2 := by
  obtain ⟨checks, hs⟩ := start_of_opened ho
  have hl' : ({ l with zeroChecks := checks } : Loader W).isLazy m₀.guest = false := hl
  simp only [hs, begin, hl', Bool.false_eq_true, ↓reduceIte, load?, and_self]

/-- Unless its workers are refused, an eager start reads the pages in one of the orders that are
possible. -/
theorem loadsInOrder_start (ho : l.opened? = some m₀) (hl : l.isLazy m₀.guest = false)
    (hw : ∀ cause, ¬ m₀.LacksPool l.config l.threads cause) (hm : l.start.2.load? = some m) :
    m₀.LoadsInOrder l.config l.threads m₀.index.readOrder l.start.1 m := by
  obtain ⟨hf, hload⟩ := start_of_eager ho hl
  cases hm.symm.trans hload
  rw [hf]
  exact Load.loadEagerly_loadsInOrder hw

/-- An eager start that is refused its workers goes no further than to open the load. -/
theorem startsWithoutPool_start (ho : l.opened? = some m₀) (hl : l.isLazy m₀.guest = false)
    (hw : ∃ cause, m₀.LacksPool l.config l.threads cause) (hm : l.start.2.load? = some m) :
    l.StartsWithoutPool l.start.1 m := by
  obtain ⟨cause, hw⟩ := hw
  obtain ⟨hf, hload⟩ := start_of_eager ho hl
  rw [Load.loadEagerly_of_lacksPool hw] at hf hload
  cases hm.symm.trans hload
  exact ⟨ho, hl, cause, hf, hw⟩

/-- A start that has read the index is lazy or eager, or is refused its workers. -/
theorem starts_start (ho : l.opened? = some m₀) (hm : l.start.2.load? = some m) :
    l.Starts l.start.1 m := by
  cases hl : l.isLazy m₀.guest with
  | true => exact .inl ⟨⟨m₀, ho, hl⟩, rfl, hm⟩
  | false =>
    by_cases hw : ∃ cause, m₀.LacksPool l.config l.threads cause
    · exact .inr (.inr (startsWithoutPool_start ho hl hw hm))
    · rw [not_exists] at hw
      exact .inr (.inl ⟨m₀, ho, hl, _, loadsInOrder_start ho hl hw hm⟩)

theorem Starts.index (h : l.Starts failure m) (ho : l.opened? = some m₀) : m.index = m₀.index := by
  rcases h with h | ⟨m₁, ho', -, order, -, -, returned, l', hr, hc⟩ | h
  · obtain ⟨m₁, ho', hs⟩ := h.startBackground
    obtain rfl := Option.some.inj (ho.symm.trans ho')
    obtain ⟨guest, ⟨-, rfl⟩ | ⟨reader, -, rfl⟩⟩ := Load.startBackground_cases hs <;> rfl
  · obtain rfl := Option.some.inj (ho.symm.trans ho')
    obtain ⟨rest, hs, -⟩ := hr.sweeps
    cases hc
    exact hs.index
  · rw [Option.some.inj (ho.symm.trans h.opened)]

theorem Starts.opened (h : l.Starts failure m) : ∃ m₀, l.opened? = some m₀ ∧
    m₀.index.WellFormed ∧ m₀.index.blocks.map (·.ram) = l.blocks ∧ m.index = m₀.index := by
  have hopened : ∃ m₀, l.opened? = some m₀ := by
    rcases h with ⟨⟨m₀, ho, -⟩, -⟩ | ⟨m₀, ho, -⟩ | ⟨ho, -⟩ <;> exact ⟨_, ho⟩
  obtain ⟨m₀, ho⟩ := hopened
  obtain ⟨hf, hblocks⟩ := opened_fresh ho
  exact ⟨m₀, ho, hf.wellFormed, hblocks, h.index ho⟩

/-- A loader of two pages of one byte each, of which the second one is all zero. -/
def sample : Loader PlainWatch :=
  { Loader.ofSource {} (fun _ => false) true
      (.ofBytes #[0, 0, 0, 0, 0, 0, 0, 9, 7, 0, 0, 0, 1, 0, 0, 0, 0, 0, 0, 0, 2, 1, 97, 0, 0, 0, 2,
        1, 0, 0])
      { memory := .filled 5 } with
    blocks := [⟨"a", 16, 2, 1⟩] }

def unwatchedSample : Loader PlainWatch := { sample with offersWatch := false }

def sampleLoad : Load PlainWatch := sample.start.2.load?.get (by decide +kernel)

/-- The reader reads the page, and the idle callback places it and hears that there are no more. -/
def sampleEnd : Load PlainWatch := ((sampleLoad.idle.2.readerSteps 6).idle.2).idle.2

theorem sample_startsLazily : sample.StartsLazily none sampleLoad where
  isLazy := ⟨sample.opened?.get (by decide +kernel), (Option.some_get _).symm, by decide +kernel⟩
  start := by decide +kernel
  load := (Option.some_get _).symm

theorem sample_steps {E : Load.Surroundings} : Load.Steps E ⟨sampleLoad, 0⟩ ⟨sampleEnd, 0⟩ :=
  .head .idle ((Load.steps_readerSteps _ 0 6).trans (.head .idle (.single .idle)))

end Loader
end RamRestore
