/-! # A pool with a bounded backlog

One thread feeds jobs to workers. A job takes a place in the backlog before it is queued
and gives it back when it is finished. Where there is no place feeding falls asleep, until a
place is given back. Feeding and working act on a state they share, in any order that the
backlog allows.
-/

namespace RamRestore

/-- What the feeding thread does next. -/
inductive Feed (F J S R : Type) where
  | next (f : F) (s : S)
  | job (j : J) (f : F) (s : S)
  | stop (r : R) (s : S)

/-- The program of a pool: how to feed, how to work, and why feeding ends. -/
structure PoolProgram (F J S R : Type) where
  feed : F → S → Feed F J S R
  work : J → S → S
  /-- What feeding still has before it. -/
  rank : F → Nat
  rank_next {f f' : F} {s s' : S} : feed f s = .next f' s' → rank f' < rank f
  rank_job {f f' : F} {j : J} {s s' : S} : feed f s = .job j f' s' → rank f' < rank f

inductive PoolPhase (F J R : Type) where
  | feeding (f : F)
  /-- About to look for a place in the backlog. -/
  | holding (j : J) (f : F)
  /-- Waiting to be woken up, since there was no place. -/
  | sleeping (j : J) (f : F)
  | stopped (r : R)

namespace PoolPhase

variable {F J S R : Type}

def wake : PoolPhase F J R → PoolPhase F J R
  | .sleeping j f => .holding j f
  | phase => phase

def weight (p : PoolProgram F J S R) : PoolPhase F J R → Nat
  | .feeding f => 5 * p.rank f + 1
  | .holding _ f => 5 * p.rank f + 5
  | .sleeping _ f => 5 * p.rank f + 4
  | .stopped _ => 0

theorem weight_wake_le (p : PoolProgram F J S R) (phase : PoolPhase F J R) :
    phase.wake.weight p ≤ phase.weight p + 1 := by
  cases phase <;> simp only [wake, weight] <;> omega

end PoolPhase

structure Pool (F J S R : Type) where
  threads : Nat
  capacity : Nat
  /-- The places of the backlog that are taken. -/
  taken : Nat := 0
  phase : PoolPhase F J R
  waiting : List J := []
  running : List J := []
  shared : S

namespace Pool

variable {F J S R : Type} (p : PoolProgram F J S R)

/-- A step of the feeding thread, unless it has stopped or sleeps. -/
def feed? (x : Pool F J S R) : Option (Pool F J S R) :=
  match x.phase with
  | .feeding f =>
    match p.feed f x.shared with
    | .next f s => some { x with phase := .feeding f, shared := s }
    | .job j f s => some { x with phase := .holding j f, shared := s }
    | .stop r s => some { x with phase := .stopped r, shared := s }
  | .holding j f =>
    if x.taken < x.capacity then
      some { x with phase := .feeding f, taken := x.taken + 1, waiting := x.waiting ++ [j] }
    else some { x with phase := .sleeping j f }
  | .sleeping _ _ | .stopped _ => none

def start? (x : Pool F J S R) (k : Nat) : Option (Pool F J S R) :=
  if x.running.length < x.threads then
    match x.waiting[k]? with
    | some j => some { x with waiting := x.waiting.eraseIdx k, running := x.running ++ [j] }
    | none => none
  else none

/-- The worker of running job `k` does it, gives its place back and tells the feeding thread. -/
def finish? (x : Pool F J S R) (k : Nat) : Option (Pool F J S R) :=
  match x.running[k]? with
  | some j => some { x with
      phase := x.phase.wake
      running := x.running.eraseIdx k
      taken := x.taken - 1
      shared := p.work j x.shared }
  | none => none

/-- One step in the order in which feeding comes before working, and jobs are done as they were
queued. -/
def next? (x : Pool F J S R) : Option (Pool F J S R) :=
  (x.feed? p).or ((x.start? 0).or (x.finish? p 0))

def weight (x : Pool F J S R) : Nat :=
  x.phase.weight p + 3 * x.waiting.length + 2 * x.running.length

variable {p}

theorem feed?_cases {x y : Pool F J S R} (h : x.feed? p = some y) :
    (∃ f, x.phase = .feeding f ∧
      match p.feed f x.shared with
      | .next f s => y = { x with phase := .feeding f, shared := s }
      | .job j f s => y = { x with phase := .holding j f, shared := s }
      | .stop r s => y = { x with phase := .stopped r, shared := s }) ∨
    ∃ j f, x.phase = .holding j f ∧
      (x.taken < x.capacity ∧
          y = { x with phase := .feeding f, taken := x.taken + 1, waiting := x.waiting ++ [j] } ∨
        x.capacity ≤ x.taken ∧ y = { x with phase := .sleeping j f }) := by
  unfold feed? at h
  split at h
  · rename_i f hp
    refine .inl ⟨f, hp, ?_⟩
    split at h <;> cases h <;> simp only [*]
  · rename_i j f hp
    refine .inr ⟨j, f, hp, ?_⟩
    split at h <;> cases h
    · exact .inl ⟨‹_›, rfl⟩
    · exact .inr ⟨Nat.not_lt.1 ‹_›, rfl⟩
  · cases h
  · cases h

theorem start?_eq_some {x y : Pool F J S R} {k : Nat} (h : x.start? k = some y) :
    ∃ j, x.running.length < x.threads ∧ x.waiting[k]? = some j ∧
      y = { x with waiting := x.waiting.eraseIdx k, running := x.running ++ [j] } := by
  unfold start? at h
  split at h
  · split at h <;> cases h
    exact ⟨_, ‹_›, ‹_›, rfl⟩
  · cases h

theorem finish?_eq_some {x y : Pool F J S R} {k : Nat} (h : x.finish? p k = some y) :
    ∃ j, x.running[k]? = some j ∧ y = { x with
      phase := x.phase.wake
      running := x.running.eraseIdx k
      taken := x.taken - 1
      shared := p.work j x.shared } := by
  unfold finish? at h
  split at h <;> cases h
  exact ⟨_, ‹_›, rfl⟩

variable (p)

theorem finish?_weight {x y : Pool F J S R} {k : Nat} (h : x.finish? p k = some y) :
    y.weight p < x.weight p := by
  obtain ⟨j, hj, rfl⟩ := finish?_eq_some h
  obtain ⟨hk, -⟩ := List.getElem?_eq_some_iff.1 hj
  have hw := x.phase.weight_wake_le p
  simp only [weight, List.length_eraseIdx, hk, ↓reduceIte]
  omega

theorem start?_weight {x y : Pool F J S R} {k : Nat} (h : x.start? k = some y) :
    y.weight p < x.weight p := by
  obtain ⟨j, -, hj, rfl⟩ := start?_eq_some h
  obtain ⟨hk, -⟩ := List.getElem?_eq_some_iff.1 hj
  simp only [weight, List.length_eraseIdx, hk, ↓reduceIte, List.length_append, List.length_cons,
    List.length_nil]
  omega

theorem feed?_weight {x y : Pool F J S R} (h : x.feed? p = some y) :
    y.weight p < x.weight p := by
  rcases feed?_cases h with ⟨f, hf, hy⟩ | ⟨j, f, hf, ⟨-, rfl⟩ | ⟨-, rfl⟩⟩
  · split at hy
    · rename_i hp
      have hrank := p.rank_next hp
      subst hy
      simp only [weight, PoolPhase.weight, hf]
      omega
    · rename_i hp
      have hrank := p.rank_job hp
      subst hy
      simp only [weight, PoolPhase.weight, hf]
      omega
    · subst hy
      simp only [weight, PoolPhase.weight, hf]
      omega
  · simp only [weight, PoolPhase.weight, hf, List.length_append, List.length_cons, List.length_nil]
    omega
  · simp only [weight, PoolPhase.weight, hf]
    omega

theorem next?_weight {x y : Pool F J S R} (h : x.next? p = some y) :
    y.weight p < x.weight p := by
  simp only [next?, Option.or_eq_some_iff] at h
  rcases h with h | ⟨-, h | ⟨-, h⟩⟩
  · exact feed?_weight p h
  · exact start?_weight p h
  · exact finish?_weight p h

/-- Runs until no step is left. -/
def run (x : Pool F J S R) : Pool F J S R :=
  match _h : x.next? p with
  | none => x
  | some y => y.run
termination_by x.weight p
decreasing_by exact next?_weight p _h

/-- A pool before its first step. It has a worker and a place in the backlog at least. -/
def ofProgram (threads capacity : Nat) (f : F) (s : S) : Pool F J S R :=
  { threads := max 1 threads, capacity := max 1 capacity, phase := .feeding f, shared := s }

end Pool

/-- The program that feeds the jobs of a list, and keeps what each of them gave. -/
def PoolProgram.ofJobs {J R : Type} (work : J → R) :
    PoolProgram (List (Nat × J)) (Nat × J) (List (Nat × R)) Unit where
  feed
    | [], s => .stop () s
    | j :: js, s => .job j js s
  work := fun (k, j) s => (k, work j) :: s
  rank := List.length
  rank_next {f} := by cases f <;> simp
  rank_job {f f'} := by
    cases f with
    | nil => simp
    | cons j js =>
      intro _ s s' h
      cases h
      simp

/-- What each of the jobs gave, in the order of the jobs, once a pool has done them all. -/
def Pool.results {J R : Type} (threads capacity : Nat) (work : J → R) (jobs : List J) : List R :=
  let numbered := jobs.zipIdx.map fun (j, k) => (k, j)
  let done := ((Pool.ofProgram threads capacity numbered []).run (.ofJobs work)).shared
  (List.range jobs.length).filterMap fun k => done.lookup k

end RamRestore
