import Mathlib.Data.Multiset.AddSub
import RamRestore.Load.Eager
import RamRestore.Proofs.Index.FileOrder
import RamRestore.Proofs.Pool

/-! # Eager loads in steps

However an eager load is carried out, it reads one page after the other in place and unpacks
what it has read, at once or later and in any order. Unless a page fails it gets to all of
them.
-/

namespace RamRestore.Load

/-- An eager load on its way: the pages ahead, and those that were read and are still packed. -/
structure Sweep (W : Type) where
  load : Load W
  ahead : List Nat
  packed : Multiset (Nat × Bytes)

variable {W : Type} [Guest W]

inductive SweepStep : Sweep W → Sweep W → Prop
  | settled {l l' : Load W} {i : Nat} {is : List Nat} {ps : Multiset (Nat × Bytes)}
      (h : l.readInPlace i = (.settled, l')) : SweepStep ⟨l, i :: is, ps⟩ ⟨l', is, ps⟩
  | packed {l l' : Load W} {i : Nat} {is : List Nat} {ps : Multiset (Nat × Bytes)} {data : Bytes}
      (h : l.readInPlace i = (.packed data, l')) :
      SweepStep ⟨l, i :: is, ps⟩ ⟨l', is, (i, data) ::ₘ ps⟩
  /-- A page that cannot be read makes the load fail. Somebody else may be first to record why. -/
  | failed {l l' : Load W} {i : Nat} {is : List Nat} {ps : Multiset (Nat × Bytes)}
      {cause recorded : LoadError} (h : l.readInPlace i = (.failed cause, l')) :
      SweepStep ⟨l, i :: is, ps⟩ ⟨l'.record recorded, is, ps⟩
  | unpack {l l' : Load W} {i : Nat} {is : List Nat} {ps : Multiset (Nat × Bytes)} {data : Bytes}
      {failure : Option LoadError} (h : l.unpackInPlace i data = (failure, l')) :
      SweepStep ⟨l, is, (i, data) ::ₘ ps⟩ ⟨l'.recordAny failure, is, ps⟩

abbrev Sweeps : Sweep W → Sweep W → Prop := Relation.ReflTransGen SweepStep

theorem Sweeps.keep {P : Sweep W → Prop} (hP : ∀ x y, SweepStep x y → P x → P y)
    {x y : Sweep W} (h : Sweeps x y) (hx : P x) : P y := by
  induction h with
  | refl => exact hx
  | tail _ hs ih => exact hP _ _ hs ih

/-- What reading every page in this order may come to, with these workers or without any; workers
act in any order. -/
inductive ReadsAll (l : Load W) (order : List Nat) : Option Nat → Option LoadError → Load W → Prop
  | inline {returned : Option LoadError} {l' : Load W} (h : l.loadInline order = (returned, l')) :
      ReadsAll l order none returned l'
  | pooled {returned : Option LoadError} {workers : Nat} {x : UnpackPool W}
      (h : (l.pool order workers).Steps unpacking x) (ho : x.Over returned) :
      ReadsAll l order (some workers) returned x.shared

/-- The workers that an eager load asks for are refused. -/
def LacksPool (l : Load W) (config : Config) (threads : Threads) (cause : IoError) : Prop :=
  ∃ workers, l.workers? config threads = some workers ∧ threads.refusesPool workers = some cause

/-- What an eager load may come to that reads the pages in this order and has its workers. -/
structure LoadsInOrder (l : Load W) (config : Config) (threads : Threads) (order : List Nat)
    (failure : Option LoadError) (m : Load W) : Prop where
  sorted : l.index.InFileOrder order
  workers : ∀ cause, ¬ l.LacksPool config threads cause
  reads : ∃ returned l', l.ReadsAll order (l.workers? config threads) returned l' ∧
    l'.conclude returned = (failure, m)

/-- What an eager load may come to that has its workers. Pages at one position are read in any
order. -/
def LoadsEagerly (l : Load W) (config : Config) (threads : Threads) (failure : Option LoadError)
    (m : Load W) : Prop :=
  ∃ order, l.LoadsInOrder config threads order failure m

omit [Guest W] in
theorem workers?_eq_none {l : Load W} {config : Config} {threads : Threads}
    (h : l.index.compressed = false ∨ config.decompressThreads = some 0) :
    l.workers? config threads = none := by
  unfold workers?
  rcases h with h | h
  · rw [h]
    rfl
  · have hnone : config.workers? threads = none := by
      rw [Config.workers?, h]
      rfl
    rw [hnone, ite_self]

omit [Guest W] in
theorem not_lacksPool_of_inline {l : Load W} {config : Config} {threads : Threads}
    (h : l.index.compressed = false ∨ config.decompressThreads = some 0) (cause : IoError) :
    ¬ l.LacksPool config threads cause := by
  rintro ⟨workers, hw, -⟩
  cases (workers?_eq_none h).symm.trans hw

section

variable {l l' : Load W} {is : List Nat} {returned : Option LoadError}

theorem loadInline_sweeps (h : l.loadInline is = (returned, l')) :
    ∃ rest, Sweeps ⟨l, is, 0⟩ ⟨l', rest, 0⟩ ∧
      (l'.failure = none → rest = [] ∧ returned = none) := by
  fun_induction loadInline l is with
  | case1 l =>
    cases h
    exact ⟨[], .refl, fun _ => ⟨rfl, rfl⟩⟩
  | case2 l i is hf =>
    cases h
    exact ⟨i :: is, .refl, fun hn => by simp [hn] at hf⟩
  | case3 l i is hf l₁ hr ih =>
    obtain ⟨rest, hs, hd⟩ := ih h
    exact ⟨rest, .head (.settled hr) hs, hd⟩
  | case4 l i is hf cause l₁ hr =>
    cases h
    exact ⟨is, .single (.failed hr), fun hn => by simp [record] at hn⟩
  | case5 l i is hf data l₁ hr l₂ hu ih =>
    obtain ⟨rest, hs, hd⟩ := ih h
    exact ⟨rest, .head (.packed hr) (.head (.unpack hu) hs), hd⟩
  | case6 l i is hf data l₁ hr cause l₂ hu =>
    cases h
    exact ⟨is, .head (.packed hr) (.single (.unpack hu)), fun hn => by simp [record] at hn⟩

def heldJobs : PoolPhase Feeding (Nat × Bytes) (Option LoadError) → Multiset (Nat × Bytes)
  | .holding j _ | .sleeping j _ => {j}
  | _ => 0

def FeedsAt (l : Load W) (rest : List Nat) :
    PoolPhase Feeding (Nat × Bytes) (Option LoadError) → Prop
  | .feeding (.looking is) => is = rest
  | .feeding (.reading i is) => i :: is = rest
  | .feeding (.failing _ _) => True
  | .holding _ f | .sleeping _ f => f = .looking rest
  | .stopped returned => l.failure = none → rest = [] ∧ returned = none

/-- The load of a pool, with this failure recorded where the reading thread is about to record
one. -/
def anticipate (recorded : LoadError) (l : Load W) :
    PoolPhase Feeding (Nat × Bytes) (Option LoadError) → Load W
  | .feeding (.failing _ _) => l.record recorded
  | _ => l

omit [Guest W] in
/-- Being woken up, the reading thread has come no further. -/
theorem wake_eq (phase : PoolPhase Feeding (Nat × Bytes) (Option LoadError)) :
    heldJobs phase.wake = heldJobs phase ∧
      (∀ recorded l, anticipate (W := W) recorded l phase.wake = anticipate recorded l phase) ∧
      ∀ l rest, FeedsAt (W := W) l rest phase.wake = FeedsAt l rest phase := by
  cases phase <;> exact ⟨rfl, fun _ _ => rfl, fun _ _ => rfl⟩

/-- An eager load has come as far as a pool. -/
def SweptTo (start : Sweep W) (x : UnpackPool W) : Prop :=
  ∃ rest, (∀ recorded, Sweeps start
      ⟨anticipate recorded x.shared x.phase, rest, heldJobs x.phase + ↑x.waiting + ↑x.running⟩) ∧
    FeedsAt x.shared rest x.phase

theorem failure_unpackInPlace (l : Load W) (i : Nat) (data : Bytes) :
    (l.unpackInPlace i data).2.failure = l.failure := by
  unfold unpackInPlace
  dsimp only
  split <;> rfl

theorem unpackInPlace_record (l : Load W) (recorded : LoadError) (i : Nat) (data : Bytes) :
    (l.record recorded).unpackInPlace i data =
      ((l.unpackInPlace i data).1, (l.unpackInPlace i data).2.record recorded) := by
  have hindex : ((l.record recorded).setState i .filling).index = (l.setState i .filling).index :=
    rfl
  unfold unpackInPlace
  dsimp only
  rw [hindex]
  split <;> rfl

omit [Guest W] in
theorem recordAny_record (l : Load W) (failure : Option LoadError) (recorded : LoadError) :
    (l.record (failure.getD recorded)).recordAny failure =
      (l.recordAny failure).record recorded := by
  cases failure with
  | none => rfl
  | some cause => rfl

inductive FeedCase (l : Load W) : Feeding → Feed Feeding (Nat × Bytes) (Load W) (Option LoadError) →
    Prop
  | done {is : List Nat} (h : is = [] ∨ l.failure ≠ none) : FeedCase l (.looking is) (.stop none l)
  | look {i : Nat} {is : List Nat} (h : l.failure = none) :
      FeedCase l (.looking (i :: is)) (.next (.reading i is) l)
  | settled {i : Nat} {is : List Nat} {l' : Load W} (h : l.readInPlace i = (.settled, l')) :
      FeedCase l (.reading i is) (.next (.looking is) l')
  | packed {i : Nat} {is : List Nat} {data : Bytes} {l' : Load W}
      (h : l.readInPlace i = (.packed data, l')) :
      FeedCase l (.reading i is) (.job (i, data) (.looking is) l')
  | failed {i : Nat} {is : List Nat} {cause : LoadError} {l' : Load W}
      (h : l.readInPlace i = (.failed cause, l')) :
      FeedCase l (.reading i is) (.next (.failing i cause) l')
  | record {i : Nat} {cause : LoadError} :
      FeedCase l (.failing i cause)
        (.stop (some (.pageFailed (l.index.address i))) (l.record cause))

theorem feedCase (f : Feeding) (l : Load W) : FeedCase l f (feedUnpacking f l) := by
  cases f with
  | looking is =>
    cases is with
    | nil => exact .done (.inl rfl)
    | cons i is =>
      rw [feedUnpacking]
      split
      · rename_i hf
        exact .done (.inr (Option.isSome_iff_ne_none.1 hf))
      · rename_i hf
        exact .look (Option.not_isSome_iff_eq_none.1 hf)
  | reading i is =>
    rw [feedUnpacking]
    split
    · exact .settled ‹_›
    · exact .packed ‹_›
    · exact .failed ‹_›
  | failing i cause => exact .record

variable {start : Sweep W} {x y : UnpackPool W}

theorem SweptTo.feed (hx : SweptTo start x) (h : x.feed? unpacking = some y) :
    SweptTo start y := by
  obtain ⟨rest, hs, hat⟩ := hx
  rcases Pool.feed?_cases h with ⟨f, hp, hy⟩ | ⟨j, f, hp, ⟨-, rfl⟩ | ⟨-, rfl⟩⟩
  · simp only [hp, heldJobs, Multiset.zero_add] at hs hat
    generalize hf : unpacking.feed f x.shared = r at hy
    have hc : FeedCase x.shared f (unpacking.feed f x.shared) := feedCase f x.shared
    rw [hf] at hc
    cases hc with
    | done hn =>
      obtain rfl := hy
      obtain rfl := hat
      exact ⟨_, by simpa [heldJobs, anticipate] using hs,
        fun hnone => ⟨hn.resolve_right (absurd hnone), rfl⟩⟩
    | look hn =>
      obtain rfl := hy
      exact ⟨rest, by simpa [heldJobs, anticipate] using hs, hat⟩
    | settled hr =>
      obtain rfl := hy
      obtain rfl := hat
      exact ⟨_, fun c => by simpa [heldJobs, anticipate] using (hs c).tail (.settled hr), rfl⟩
    | packed hr =>
      obtain rfl := hy
      obtain rfl := hat
      refine ⟨_, fun c => ?_, rfl⟩
      simpa [heldJobs, anticipate, Multiset.singleton_add] using (hs c).tail (.packed hr)
    | failed hr =>
      obtain rfl := hy
      obtain rfl := hat
      exact ⟨_, fun c => by simpa [heldJobs, anticipate] using (hs c).tail (.failed hr), trivial⟩
    | @record i cause =>
      obtain rfl := hy
      exact ⟨rest, fun _ => by simpa [heldJobs, anticipate] using hs cause,
        fun hn => by simp [record] at hn⟩
  · simp only [hp, FeedsAt, heldJobs] at hs hat
    subst hat
    have he : ({j} + ↑x.waiting + ↑x.running : Multiset (Nat × Bytes)) =
        0 + ↑(x.waiting ++ [j]) + ↑x.running := by
      rw [coe_append_singleton, Multiset.singleton_add, Multiset.zero_add]
    exact ⟨rest, he ▸ hs, rfl⟩
  · simp only [hp] at hs hat
    exact ⟨rest, hs, hat⟩

theorem SweptTo.hire {k : Nat} (hx : SweptTo start x) (h : x.start? k = some y) :
    SweptTo start y := by
  obtain ⟨rest, hs, hat⟩ := hx
  obtain ⟨j, -, hj, rfl⟩ := Pool.start?_eq_some h
  have he : heldJobs x.phase + ↑x.waiting + ↑x.running =
      heldJobs x.phase + ↑(x.waiting.eraseIdx k) + ↑(x.running ++ [j]) := by
    rw [coe_eq_cons_eraseIdx hj, coe_append_singleton, Multiset.add_cons, Multiset.add_cons,
      Multiset.cons_add]
  exact ⟨rest, he ▸ hs, hat⟩

theorem SweptTo.work {rest : List Nat} {ps : Multiset (Nat × Bytes)} {l : Load W}
    {phase : PoolPhase Feeding (Nat × Bytes) (Option LoadError)} {i : Nat} {data : Bytes}
    (hs : ∀ recorded, Sweeps start ⟨anticipate recorded l phase, rest, (i, data) ::ₘ ps⟩)
    (recorded : LoadError) :
    Sweeps start ⟨anticipate recorded
      ((l.unpackInPlace i data).2.recordAny (l.unpackInPlace i data).1) phase, rest, ps⟩ := by
  cases phase with
  | feeding f =>
    cases f with
    | failing i' cause =>
      have h := (hs ((l.unpackInPlace i data).1.getD recorded)).tail
        (.unpack (unpackInPlace_record l _ i data))
      rwa [recordAny_record] at h
    | looking | reading => exact (hs recorded).tail (.unpack rfl)
  | holding | sleeping | stopped => exact (hs recorded).tail (.unpack rfl)

theorem SweptTo.finish {k : Nat} (hx : SweptTo start x) (h : x.finish? unpacking k = some y) :
    SweptTo start y := by
  obtain ⟨rest, hs, hat⟩ := hx
  obtain ⟨⟨i, data⟩, hj, rfl⟩ := Pool.finish?_eq_some h
  rw [coe_eq_cons_eraseIdx hj, Multiset.add_cons] at hs
  have hf := failure_unpackInPlace x.shared i data
  obtain ⟨hheld, hanticipate, hfeeds⟩ := wake_eq (W := W) x.phase
  refine ⟨rest, fun recorded => ?_, ?_⟩
  · dsimp only
    rw [hanticipate, hheld]
    exact work hs recorded
  dsimp only [unpacking]
  rw [hfeeds]
  revert hat
  cases x.phase with
  | feeding f => cases f <;> exact id
  | holding | sleeping => exact id
  | stopped =>
    intro hat hn
    refine hat ?_
    rw [← hf]
    cases hu : (x.shared.unpackInPlace i data).1 with
    | none => simpa only [hu, recordAny] using hn
    | some cause => simp [hu, recordAny, record] at hn

theorem SweptTo.steps (hx : SweptTo start x) (h : Pool.Steps unpacking x y) :
    SweptTo start y := by
  induction h with
  | refl => exact hx
  | tail _ hs ih =>
    cases hs with
    | feed h => exact ih.feed h
    | start h => exact ih.hire h
    | finish h => exact ih.finish h

theorem sweptTo_pool (l : Load W) (order : List Nat) (workers : Nat) :
    SweptTo ⟨l, order, 0⟩ (l.pool order workers) :=
  ⟨_, fun _ => .refl, rfl⟩

/-- Reading every page is a sweep over them, and an incomplete one only where a page failed. -/
theorem ReadsAll.sweeps {order : List Nat} {workers : Option Nat}
    (h : l.ReadsAll order workers returned l') :
    ∃ rest, Sweeps ⟨l, order, 0⟩ ⟨l', rest, 0⟩ ∧
      (l'.failure = none → rest = [] ∧ returned = none) := by
  cases h with
  | inline h => exact loadInline_sweeps h
  | pooled h ho =>
    obtain ⟨rest, hs, hat⟩ := (sweptTo_pool l order _).steps h
    obtain ⟨hp, hw, hr⟩ := ho
    simp only [hp, hw, hr, heldJobs, FeedsAt, anticipate, Multiset.coe_nil,
      Multiset.add_zero] at hs hat
    exact ⟨rest, hs .alreadyStarted, hat⟩

end

theorem loadPooled_of_over {l : Load W} {order : List Nat} {workers : Nat}
    {returned : Option LoadError} (h : ((l.pool order workers).run unpacking).Over returned) :
    l.loadPooled order workers = (returned, ((l.pool order workers).run unpacking).shared) := by
  simp only [loadPooled, h.phase]

theorem loadEagerly_of_lacksPool {l : Load W} {config : Config} {threads : Threads}
    {cause : IoError} (h : l.LacksPool config threads cause) :
    l.loadEagerly config threads = (some (.io cause), l) := by
  obtain ⟨workers, hw, hr⟩ := h
  simp only [loadEagerly, hw, hr]

/-- The order in which a pool is run is one of those that it allows. -/
theorem loadEagerly_loadsInOrder {l : Load W} {config : Config} {threads : Threads}
    (h : ∀ cause, ¬ l.LacksPool config threads cause) :
    l.LoadsInOrder config threads l.index.readOrder (l.loadEagerly config threads).1
      (l.loadEagerly config threads).2 := by
  refine ⟨l.index.readOrder_inFileOrder, h, ?_⟩
  unfold loadEagerly
  cases hw : l.workers? config threads with
  | none => exact ⟨_, _, .inline rfl, rfl⟩
  | some workers =>
    have hr : threads.refusesPool workers = none := by
      cases hr : threads.refusesPool workers with
      | none => rfl
      | some cause => exact absurd ⟨workers, hw, hr⟩ (h cause)
    obtain ⟨returned, ho⟩ :=
      (Pool.sound_ofProgram workers l.capacity (.looking l.index.readOrder) l).run_over
        (p := unpacking)
    refine ⟨returned, _, .pooled (Pool.run_steps _) ho, ?_⟩
    have hl : l.loadPooled l.index.readOrder workers = _ := loadPooled_of_over ho
    simp only [hr, hl]

end RamRestore.Load
