import Mathlib.Data.Multiset.MapFold
import RamRestore.Proofs.Pool
import RamRestore.Unpack

/-! # The backlog of a pool

A job has a place in the backlog from when it is queued until it is finished. Feeding that finds no
place sleeps, and whatever the workers do then, they come to give one back and wake it up. In the
end every job was done once.
-/

namespace RamRestore

namespace Pool

section

variable {F J S R : Type} {p : PoolProgram F J S R} {x y : Pool F J S R}

/-! ### Places -/

theorem Step.capacity (h : Step p x y) : y.capacity = x.capacity := by
  cases h.turn <;> rfl

theorem Step.taken_le (h : Step p x y) (hx : x.taken ≤ x.capacity) : y.taken ≤ y.capacity := by
  cases h.turn with
  | next | job | stop | sleep | start => exact hx
  | queue _ ht => exact ht
  | finish => exact (Nat.sub_le _ _).trans hx

theorem Sound.taken_finish {k : Nat} (hx : x.Sound) (h : x.finish? p k = some y) :
    y.taken + 1 = x.taken := by
  have hk := hx.taken
  obtain ⟨j, hj, rfl⟩ := finish?_eq_some h
  obtain ⟨hlt, -⟩ := List.getElem?_eq_some_iff.1 hj
  dsimp only
  omega

/-- A pool that has run for a while counts its backlog, which is within its capacity. -/
structure Bounded (capacity : Nat) (x : Pool F J S R) : Prop where
  sound : x.Sound
  capacity : x.capacity = capacity
  taken : x.taken ≤ x.capacity

theorem bounded_ofProgram (threads capacity : Nat) (f : F) (s : S) :
    (ofProgram threads capacity f s : Pool F J S R).Bounded (max 1 capacity) := by
  constructor
  · exact sound_ofProgram threads capacity f s
  · rfl
  · exact Nat.zero_le _

theorem Bounded.steps {capacity : Nat} (hx : x.Bounded capacity) (h : Steps p x y) :
    y.Bounded capacity := by
  induction h with
  | refl => exact hx
  | tail _ h ih =>
    constructor
    · exact ih.sound.step h
    · exact h.capacity.trans ih.capacity
    · exact h.taken_le ih.taken

/-! ### Release -/

theorem Sound.exists_step (hx : x.Sound) : (∃ y, Step p x y) ∨ ∃ returned, x.Over returned := by
  cases h : x.next? p with
  | none => exact .inr (hx.over h)
  | some y => exact .inl ⟨y, next?_step h⟩

/-- Whatever steps a pool takes, it comes to where `P` holds. -/
inductive Comes (p : PoolProgram F J S R) (P : Pool F J S R → Prop) : Pool F J S R → Prop
  | here {x : Pool F J S R} (h : P x) : Comes p P x
  | later {x y : Pool F J S R} (h : Step p x y) (all : ∀ y, Step p x y → Comes p P y) : Comes p P x

theorem Comes.mono {P Q : Pool F J S R → Prop} (h : Comes p P x) (hPQ : ∀ y, P y → Q y) :
    Comes p Q x := by
  induction h with
  | here h => exact .here (hPQ _ h)
  | later h _ ih => exact .later h ih

/-- A job waits for a place, whether or not feeding sleeps meanwhile. -/
def Waits (j : J) (f : F) (x : Pool F J S R) : Prop :=
  x.phase = .holding j f ∨ x.phase = .sleeping j f

structure Admits (j : J) (f : F) (x : Pool F J S R) : Prop where
  phase : x.phase = .holding j f
  taken : x.taken < x.capacity

variable {j : J} {f : F}

theorem Admits.feed? (h : x.Admits j f) :
    x.feed? p = some { x with
      phase := .feeding f, taken := x.taken + 1, waiting := x.waiting ++ [j] } := by
  unfold Pool.feed?
  rw [h.phase]
  exact if_pos h.taken

/-- While no place is left, a worker can go on. -/
theorem Sound.exists_work (hx : x.Sound) (hfull : x.capacity ≤ x.taken) :
    ∃ k y, x.start? k = some y ∨ x.finish? p k = some y := by
  obtain ⟨hthreads, hcapacity, htaken, -⟩ := hx
  cases hr : x.running with
  | cons j js =>
    have hfinish : (x.finish? p 0).isSome := by simp [finish?, hr]
    obtain ⟨y, hy⟩ := Option.isSome_iff_exists.1 hfinish
    exact ⟨0, y, .inr hy⟩
  | nil =>
    cases hw : x.waiting with
    | nil =>
      simp only [hr, hw, List.length_nil] at htaken
      omega
    | cons j js =>
      have hstart : (x.start? 0).isSome := by simp [start?, hr, hw, hthreads]
      obtain ⟨y, hy⟩ := Option.isSome_iff_exists.1 hstart
      exact ⟨0, y, .inl hy⟩

theorem Waits.step (hw : x.Waits j f) (hfull : x.capacity ≤ x.taken) (h : Step p x y) :
    y.Waits j f := by
  cases h.turn with
  | next hp | job hp | stop hp => rcases hw with hw | hw <;> cases hw.symm.trans hp
  | queue _ ht => exact absurd ht hfull.not_gt
  | sleep hp =>
    rcases hw with hw | hw
    · cases hw.symm.trans hp
      exact .inr rfl
    · cases hw.symm.trans hp
  | start => exact hw
  | finish =>
    refine .inl ?_
    rcases hw with hw | hw <;> simp only [hw, PoolPhase.wake]

/-- Feeding is woken up whenever a place is given back. -/
theorem wake_of_finish {k : Nat} (h : x.finish? p k = some y) (hp : x.phase = .sleeping j f) :
    y.phase = .holding j f := by
  obtain ⟨_, -, rfl⟩ := finish?_eq_some h
  simp only [hp, PoolPhase.wake]

/-- The workers come to give the waiting job its place, since they have less before them with each
step. -/
theorem Sound.comes_to_admit (hx : x.Sound) (hw : x.Waits j f) : Comes p (Admits j f) x := by
  induction hweight : x.weight p using Nat.strongRecOn generalizing x with
  | ind w ih =>
    subst hweight
    by_cases ht : x.taken < x.capacity
    · -- nobody sleeps while there is a place
      have hp : x.phase = .holding j f := hw.resolve_right fun hs => ht.not_ge (hx.full j f hs)
      exact .here ⟨hp, ht⟩
    · have hfull := Nat.not_lt.1 ht
      obtain ⟨k, y, hwork⟩ := hx.exists_work (p := p) hfull
      have hy : Step p x y := hwork.elim .start .finish
      apply Comes.later hy
      intro z hz
      exact ih _ hz.weight (hx.step hz) (hw.step hfull hz) rfl

end

/-! ### The jobs of a list -/

section

variable {J R : Type} {work : J → R}

abbrev JobPool (J R : Type) : Type := Pool (List (Nat × J)) (Nat × J) (List (Nat × R)) Unit

def numbered (jobs : List J) : List (Nat × J) := jobs.zipIdx.map Prod.swap

def ahead : PoolPhase (List (Nat × J)) (Nat × J) Unit → Multiset (Nat × J)
  | .feeding js => js
  | .holding j js | .sleeping j js => j ::ₘ js
  | .stopped _ => 0

def outstanding (work : J → R) (x : JobPool J R) : Multiset (Nat × R) :=
  (ahead x.phase + ↑x.waiting + ↑x.running).map (Prod.map id work)

theorem ahead_wake (phase : PoolPhase (List (Nat × J)) (Nat × J) Unit) :
    ahead phase.wake = ahead phase := by
  cases phase <;> rfl

variable {x y : JobPool J R}

/-- Each job is ahead, queued, running or done, and a step moves one of them. -/
theorem Step.outstanding (h : Step (.ofJobs work) x y) :
    y.outstanding work + ↑y.shared = x.outstanding work + ↑x.shared := by
  cases h.turn with
  | @next f _ _ _ hf =>
    cases f <;> cases hf
  | @job f _ _ _ hp hf =>
    cases f <;> cases hf
    simp only [Pool.outstanding, hp, ahead, Multiset.cons_coe]
  | @stop f _ _ hp hf =>
    cases f <;> cases hf
    simp only [Pool.outstanding, hp, ahead, Multiset.coe_nil]
  | queue hp =>
    simp only [Pool.outstanding, hp, ahead, coe_append_singleton, Multiset.cons_add,
      Multiset.add_cons]
  | sleep hp => simp only [Pool.outstanding, hp, ahead]
  | start _ hj =>
    simp only [Pool.outstanding, coe_eq_cons_eraseIdx hj, coe_append_singleton, Multiset.cons_add,
      Multiset.add_cons]
  | finish hj =>
    simp only [Pool.outstanding, ahead_wake, coe_eq_cons_eraseIdx hj, PoolProgram.ofJobs,
      ← Multiset.cons_coe, Multiset.add_cons, Multiset.cons_add, Multiset.map_cons]
    rfl

theorem Steps.outstanding (h : Steps (.ofJobs work) x y) :
    y.outstanding work + ↑y.shared = x.outstanding work + ↑x.shared := by
  induction h with
  | refl => rfl
  | tail _ h ih => exact h.outstanding.trans ih

theorem Over.outstanding {returned : Unit} (h : x.Over returned) : x.outstanding work = 0 := by
  simp only [Pool.outstanding, h.phase, h.waiting, h.running, ahead, Multiset.coe_nil,
    Multiset.add_zero, Multiset.map_zero]

/-! ### Results -/

variable {jobs : List J}

theorem keys_numbered : (numbered jobs).map Prod.fst = List.range jobs.length := by
  rw [numbered, List.map_map, List.range_eq_range']
  exact List.zipIdx_map_snd 0 jobs

theorem mem_numbered {k : Nat} {j : J} : (k, j) ∈ numbered jobs ↔ jobs[k]? = some j := by
  rw [← List.mk_mem_zipIdx_iff_getElem?, numbered, List.mem_map]
  constructor
  · rintro ⟨⟨j', k'⟩, h, he⟩
    cases he
    exact h
  · intro h
    exact ⟨(j, k), h, rfl⟩

theorem lookup_eq_some_of_mem {done : List (Nat × R)} (hd : (done.map Prod.fst).Nodup) {k : Nat}
    {r : R} (h : (k, r) ∈ done) : done.lookup k = some r := by
  induction done with
  | nil => cases h
  | cons a done ih =>
    obtain ⟨k', r'⟩ := a
    rw [List.map_cons, List.nodup_cons] at hd
    rw [List.lookup_cons]
    rcases List.mem_cons.1 h with he | hmem
    · cases he
      simp only [beq_self_eq_true]
    · have hne : k ≠ k' := by
        rintro rfl
        apply hd.1
        exact List.mem_map.2 ⟨(k, r), hmem, rfl⟩
      rw [beq_false_of_ne hne]
      exact ih hd.2 hmem

theorem filterMap_getElem?_range (rs : List R) :
    (List.range rs.length).filterMap (fun k => rs[k]?) = rs := by
  induction rs with
  | nil => rfl
  | cons r rs ih =>
    rw [List.length_cons, List.range_succ_eq_map, List.filterMap_cons, List.filterMap_map]
    exact congrArg (r :: ·) ih

theorem results_of_perm {done : List (Nat × R)}
    (h : done.Perm ((numbered jobs).map (Prod.map id work))) :
    (List.range jobs.length).filterMap (fun k => done.lookup k) = jobs.map work := by
  have hkeys : (done.map Prod.fst).Nodup := by
    have hsame : ((numbered jobs).map (Prod.map id work)).map Prod.fst =
        (numbered jobs).map Prod.fst := List.map_map
    rw [(h.map Prod.fst).nodup_iff, hsame, keys_numbered]
    exact List.nodup_range
  have hfound : ∀ k ∈ List.range jobs.length, done.lookup k = (jobs.map work)[k]? := by
    intro k hk
    have hj := List.getElem?_eq_getElem (List.mem_range.1 hk)
    rw [List.getElem?_map, hj, Option.map_some]
    apply lookup_eq_some_of_mem hkeys
    exact h.mem_iff.2 (List.mem_map.2 ⟨_, mem_numbered.2 hj, rfl⟩)
  have hlength : jobs.length = (jobs.map work).length := (List.length_map work).symm
  rw [List.filterMap_congr hfound, hlength]
  exact filterMap_getElem?_range _

theorem Steps.outstanding_ofProgram {threads capacity : Nat}
    (h : Steps (.ofJobs work) (ofProgram threads capacity (numbered jobs) []) x) :
    x.outstanding work + ↑x.shared = ↑((numbered jobs).map (Prod.map id work)) := by
  rw [h.outstanding]
  simp only [Pool.outstanding, ofProgram, ahead, Multiset.coe_nil, Multiset.add_zero,
    Multiset.map_coe]

theorem Over.perm {threads capacity : Nat} {returned : Unit}
    (h : Steps (.ofJobs work) (ofProgram threads capacity (numbered jobs) []) x)
    (ho : x.Over returned) : x.shared.Perm ((numbered jobs).map (Prod.map id work)) := by
  have hall := h.outstanding_ofProgram
  rw [ho.outstanding, Multiset.zero_add] at hall
  exact Multiset.coe_eq_coe.1 hall

theorem results_eq_map (threads capacity : Nat) (work : J → R) (jobs : List J) :
    results threads capacity work jobs = jobs.map work := by
  obtain ⟨_, ho⟩ := (sound_ofProgram threads capacity (numbered jobs)
    ([] : List (Nat × R))).run_over (p := .ofJobs work)
  exact results_of_perm (ho.perm (run_steps _))

/-- However a pool queues, starts and finishes the jobs of a list, they keep within its backlog, the
one that waits for a place comes to be queued, and when all is over each of them was done once, so
that what they give is what each of them gives on its own. Feeding only sleeps while no place is
left, and each job that is finished wakes it up. -/
theorem jobs_done_once_within_backlog (threads capacity : Nat) (work : J → R) (jobs : List J) :
    (∀ x : JobPool J R, Steps (.ofJobs work) (ofProgram threads capacity (numbered jobs) []) x →
      x.waiting.length + x.running.length ≤ max 1 capacity ∧
      x.taken = x.waiting.length + x.running.length ∧
      (∀ k y, x.finish? (.ofJobs work) k = some y → y.taken + 1 = x.taken) ∧
      (∀ j js, x.phase = .sleeping j js → max 1 capacity ≤ x.taken ∧
        ∀ k y, x.finish? (.ofJobs work) k = some y → y.phase = .holding j js) ∧
      (∀ j js, x.Waits j js →
        (max 1 capacity ≤ x.taken →
          ∃ k y, x.start? k = some y ∨ x.finish? (.ofJobs work) k = some y) ∧
        Comes (.ofJobs work)
          (fun y => y.phase = .holding j js ∧
            ∃ z, y.feed? (.ofJobs work) = some z ∧ z.waiting = y.waiting ++ [j]) x) ∧
      ((∃ y, Step (.ofJobs work) x y) ∨ ∃ returned, x.Over returned) ∧
      Settles (.ofJobs work) x ∧
      x.outstanding work + ↑x.shared = ↑((numbered jobs).map (Prod.map id work)) ∧
      ∀ returned, x.Over returned →
        x.shared.Perm ((numbered jobs).map (Prod.map id work)) ∧
        (List.range jobs.length).filterMap (fun k => x.shared.lookup k) = jobs.map work) ∧
    results threads capacity work jobs = jobs.map work := by
  constructor
  · intro x h
    obtain ⟨hsound, hcapacity, htaken⟩ := (bounded_ofProgram _ capacity _ _).steps h
    have hcount := hsound.taken
    constructor
    · omega
    constructor
    · exact hcount
    constructor
    · exact fun k y => hsound.taken_finish
    constructor
    · intro j js hp
      exact ⟨hcapacity ▸ hsound.full j js hp, fun k y hy => wake_of_finish hy hp⟩
    constructor
    · intro j js hw
      constructor
      · rw [← hcapacity]
        exact hsound.exists_work
      · apply (hsound.comes_to_admit hw).mono
        intro y hy
        exact ⟨hy.phase, _, hy.feed?, rfl⟩
    constructor
    · exact hsound.exists_step
    constructor
    · exact hsound.settles
    constructor
    · exact h.outstanding_ofProgram
    · intro returned ho
      exact ⟨ho.perm h, results_of_perm (ho.perm h)⟩
  · exact results_eq_map threads capacity work jobs

end

theorem two_pages_within_one_place :
    let jobs : List (List UInt8) := [[16, 97], [16, 98]]
    let full : JobPool (List UInt8) (Except UnpackError Bytes) :=
      { threads := 1, capacity := 1, taken := 1, phase := .sleeping (1, [16, 98]) [],
        waiting := [], running := [(0, [16, 97])], shared := [] }
    let freed : JobPool (List UInt8) (Except UnpackError Bytes) :=
      { full with
        phase := .holding (1, [16, 98]) [], taken := 0, running := [], shared := [(0, .ok #[97])] }
    Steps (.ofJobs (unpack 1)) (ofProgram 1 0 (numbered jobs) []) full ∧
    full.finish? (.ofJobs (unpack 1)) 0 = some freed ∧
    freed.taken + 1 = full.taken ∧
    freed.phase = .holding (1, [16, 98]) [] ∧
    max 1 0 ≤ full.taken ∧
    (∃ k y, full.start? k = some y ∨ full.finish? (.ofJobs (unpack 1)) k = some y) ∧
    Comes (.ofJobs (unpack 1))
      (fun y => y.phase = .holding (1, [16, 98]) [] ∧
        ∃ z, y.feed? (.ofJobs (unpack 1)) = some z ∧ z.waiting = y.waiting ++ [(1, [16, 98])])
      full ∧
    results 1 0 (unpack 1) jobs = [.ok #[97], .ok #[98]] := by
  intro jobs full freed
  obtain ⟨hsteps, hresults⟩ := jobs_done_once_within_backlog 1 0 (unpack 1) jobs
  have h : Steps (.ofJobs (unpack 1)) (ofProgram 1 0 (numbered jobs) []) full :=
    ((((Relation.ReflTransGen.single (.feed rfl)).tail (.feed rfl)).tail (.feed rfl)).tail
      (.feed rfl)).tail (.start (k := 0) rfl)
  have hfinish : full.finish? (.ofJobs (unpack 1)) 0 = some freed := by cbv
  obtain ⟨-, -, hgiven, hasleep, hwaits, -⟩ := hsteps full h
  obtain ⟨hfull, hwoken⟩ := hasleep (1, [16, 98]) [] rfl
  obtain ⟨hwork, hcomes⟩ := hwaits (1, [16, 98]) [] (.inr rfl)
  exact ⟨h, hfinish, hgiven 0 freed hfinish, hwoken 0 freed hfinish, hfull, hwork hfull, hcomes,
    hresults.trans (by cbv)⟩

end Pool

end RamRestore
