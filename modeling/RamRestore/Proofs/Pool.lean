import Mathlib.Data.Multiset.AddSub
import Mathlib.Logic.Relation
import RamRestore.Pool

/-! # Schedules of a pool

The feeding thread and the workers may take their steps in any order. A pool that runs until
no step is left has fed all it will feed and has done every job.
-/

namespace RamRestore

theorem coe_eq_cons_eraseIdx {α : Type} {as : List α} {k : Nat} {a : α} (h : as[k]? = some a) :
    (as : Multiset α) = a ::ₘ ↑(as.eraseIdx k) := by
  obtain ⟨hlt, rfl⟩ := List.getElem?_eq_some_iff.1 h
  exact Multiset.coe_eq_coe.2 (List.getElem_cons_eraseIdx_perm hlt).symm

theorem coe_append_singleton {α : Type} (as : List α) (a : α) :
    (↑(as ++ [a]) : Multiset α) = a ::ₘ ↑as :=
  Multiset.coe_eq_coe.2 (List.perm_append_singleton a as)

namespace Pool

variable {F J S R : Type} {p : PoolProgram F J S R}

inductive Step (p : PoolProgram F J S R) : Pool F J S R → Pool F J S R → Prop
  | feed {x y : Pool F J S R} (h : x.feed? p = some y) : Step p x y
  | start {x y : Pool F J S R} {k : Nat} (h : x.start? k = some y) : Step p x y
  | finish {x y : Pool F J S R} {k : Nat} (h : x.finish? p k = some y) : Step p x y

inductive Turn (p : PoolProgram F J S R) (x : Pool F J S R) : Pool F J S R → Prop
  | next {f f' : F} {s : S} (hp : x.phase = .feeding f) (hf : p.feed f x.shared = .next f' s) :
      Turn p x { x with phase := .feeding f', shared := s }
  | job {f f' : F} {j : J} {s : S} (hp : x.phase = .feeding f)
      (hf : p.feed f x.shared = .job j f' s) :
      Turn p x { x with phase := .holding j f', shared := s }
  | stop {f : F} {r : R} {s : S} (hp : x.phase = .feeding f) (hf : p.feed f x.shared = .stop r s) :
      Turn p x { x with phase := .stopped r, shared := s }
  | queue {j : J} {f : F} (hp : x.phase = .holding j f) (ht : x.taken < x.capacity) :
      Turn p x { x with phase := .feeding f, taken := x.taken + 1, waiting := x.waiting ++ [j] }
  | sleep {j : J} {f : F} (hp : x.phase = .holding j f) (ht : x.capacity ≤ x.taken) :
      Turn p x { x with phase := .sleeping j f }
  | start {k : Nat} {j : J} (hr : x.running.length < x.threads) (hj : x.waiting[k]? = some j) :
      Turn p x { x with waiting := x.waiting.eraseIdx k, running := x.running ++ [j] }
  | finish {k : Nat} {j : J} (hj : x.running[k]? = some j) :
      Turn p x { x with
        phase := x.phase.wake
        running := x.running.eraseIdx k
        taken := x.taken - 1
        shared := p.work j x.shared }

theorem Step.turn {x y : Pool F J S R} (h : Step p x y) : Turn p x y := by
  cases h with
  | feed h =>
    rcases feed?_cases h with ⟨f, hp, hy⟩ | ⟨j, f, hp, ⟨ht, rfl⟩ | ⟨ht, rfl⟩⟩
    · split at hy <;> subst hy
      · exact .next hp ‹_›
      · exact .job hp ‹_›
      · exact .stop hp ‹_›
    · exact .queue hp ht
    · exact .sleep hp ht
  | start h =>
    obtain ⟨j, hr, hj, rfl⟩ := start?_eq_some h
    exact .start hr hj
  | finish h =>
    obtain ⟨j, hj, rfl⟩ := finish?_eq_some h
    exact .finish hj

abbrev Steps (p : PoolProgram F J S R) : Pool F J S R → Pool F J S R → Prop :=
  Relation.ReflTransGen (Step p)

structure Over (x : Pool F J S R) (returned : R) : Prop where
  phase : x.phase = .stopped returned
  waiting : x.waiting = []
  running : x.running = []

def returned? (x : Pool F J S R) : Option R :=
  match x.phase with
  | .stopped returned => some returned
  | _ => none

theorem Over.returned? {x : Pool F J S R} {returned : R} (h : x.Over returned) :
    x.returned? = some returned := by
  simp only [Pool.returned?, h.phase]

/-- Somebody can work, a place of the backlog is taken by each job in it, and feeding only sleeps
while no place is left. -/
structure Sound (x : Pool F J S R) : Prop where
  threads : 0 < x.threads
  capacity : 0 < x.capacity
  taken : x.taken = x.waiting.length + x.running.length
  full : ∀ j f, x.phase = .sleeping j f → x.capacity ≤ x.taken

theorem sound_ofProgram (threads capacity : Nat) (f : F) (s : S) :
    (ofProgram threads capacity f s : Pool F J S R).Sound := by
  constructor
  · simp only [ofProgram]
    omega
  · simp only [ofProgram]
    omega
  · rfl
  · nofun

theorem wake_ne_sleeping (phase : PoolPhase F J R) (j : J) (f : F) :
    phase.wake ≠ .sleeping j f := by
  cases phase <;> nofun

theorem next?_step {x y : Pool F J S R} (h : x.next? p = some y) : Step p x y := by
  simp only [next?, Option.or_eq_some_iff] at h
  rcases h with h | ⟨-, h | ⟨-, h⟩⟩
  · exact .feed h
  · exact .start h
  · exact .finish h

theorem Sound.step {x y : Pool F J S R} (hx : x.Sound) (h : Step p x y) : y.Sound := by
  obtain ⟨ht, hc, hk, hf⟩ := hx
  cases h.turn with
  | next | job | stop => exact ⟨ht, hc, hk, nofun⟩
  | sleep _ hfull => exact ⟨ht, hc, hk, fun _ _ _ => hfull⟩
  | queue =>
    refine ⟨ht, hc, ?_, nofun⟩
    simp only [List.length_append, List.length_singleton]
    omega
  | start _ hj =>
    obtain ⟨hlt, -⟩ := List.getElem?_eq_some_iff.1 hj
    refine ⟨ht, hc, ?_, hf⟩
    simp only [List.length_eraseIdx, hlt, ↓reduceIte, List.length_append, List.length_singleton]
    omega
  | finish hj =>
    obtain ⟨hlt, -⟩ := List.getElem?_eq_some_iff.1 hj
    refine ⟨ht, hc, ?_, fun j f hp => absurd hp (wake_ne_sleeping _ j f)⟩
    simp only [List.length_eraseIdx, hlt, ↓reduceIte]
    omega

theorem Sound.over {x : Pool F J S R} (hx : x.Sound) (h : x.next? p = none) :
    ∃ returned, x.Over returned := by
  obtain ⟨ht, hc, hk, hfull⟩ := hx
  simp only [next?, Option.or_eq_none_iff] at h
  obtain ⟨hd, hs, hf⟩ := h
  have hr : x.running = [] := by
    unfold finish? at hf
    cases hr : x.running with
    | nil => rfl
    | cons j js => simp [hr] at hf
  have hw : x.waiting = [] := by
    unfold start? at hs
    cases hw : x.waiting with
    | nil => rfl
    | cons j js => simp [hw, hr, ht] at hs
  have hnone : x.taken = 0 := by simp only [hk, hw, hr, List.length_nil]
  unfold feed? at hd
  split at hd
  · split at hd <;> cases hd
  · split at hd <;> cases hd
  · -- nobody sleeps while every place is free
    have := hfull _ _ ‹_›
    omega
  · exact ⟨_, ‹_›, hw, hr⟩

theorem Step.weight {x y : Pool F J S R} (h : Step p x y) : y.weight p < x.weight p := by
  cases h with
  | feed h => exact feed?_weight p h
  | start h => exact start?_weight p h
  | finish h => exact finish?_weight p h

/-- Whatever steps a pool takes it comes to its end, and there everything is done. -/
inductive Settles (p : PoolProgram F J S R) : Pool F J S R → Prop
  | intro {x : Pool F J S R} (step : ∀ y, Step p x y → Settles p y)
      (last : (∀ y, ¬ Step p x y) → ∃ returned, x.Over returned) : Settles p x

theorem Sound.settles {x : Pool F J S R} (hx : x.Sound) : Settles p x := by
  induction hw : x.weight p using Nat.strongRecOn generalizing x with
  | ind w ih =>
    subst hw
    refine .intro (fun y h => ih _ h.weight (hx.step h) rfl) fun hn => ?_
    cases h : x.next? p with
    | none => exact hx.over h
    | some y => exact absurd (next?_step h) (hn y)

theorem run_steps (x : Pool F J S R) : Steps p x (x.run p) := by
  fun_induction run p x with
  | case1 => exact .refl
  | case2 x y h ih => exact .head (next?_step h) ih

theorem Sound.run_over {x : Pool F J S R} (hx : x.Sound) :
    ∃ returned, (x.run p).Over returned := by
  fun_induction run p x with
  | case1 x h => exact hx.over h
  | case2 x y h ih => exact ih (hx.step (next?_step h))

end Pool
end RamRestore

/-! ## Pools that share different states

Pools take the same steps, whatever they share, if feeding and working do the same to what they
share and keep it related.
-/

namespace RamRestore

variable {F J S R : Type} {p : PoolProgram F J S R} {rel : S → S → Prop}

/-- Two turns of a feeding thread only differ in the states that they leave, which are related. -/
inductive Feed.Matches (rel : S → S → Prop) : Feed F J S R → Feed F J S R → Prop
  | next (f : F) {s s' : S} (h : rel s s') : Matches rel (.next f s) (.next f s')
  | job (j : J) (f : F) {s s' : S} (h : rel s s') : Matches rel (.job j f s) (.job j f s')
  | stop (r : R) {s s' : S} (h : rel s s') : Matches rel (.stop r s) (.stop r s')

structure PoolProgram.Keeps (p : PoolProgram F J S R) (rel : S → S → Prop) : Prop where
  feed : ∀ (f : F) {s s' : S}, rel s s' → (p.feed f s).Matches rel (p.feed f s')
  work : ∀ (j : J) {s s' : S}, rel s s' → rel (p.work j s) (p.work j s')

namespace Pool

/-- Two pools only differ in the states that they share, which are related. -/
inductive Matches (rel : S → S → Prop) (x : Pool F J S R) : Pool F J S R → Prop
  | shared {s : S} (h : rel x.shared s) : Matches rel x { x with shared := s }

variable {x x' y : Pool F J S R}

theorem Matches.feed? (h : x.Matches rel y) (hp : p.Keeps rel) :
    Option.Rel (Matches rel) (x.feed? p) (y.feed? p) := by
  obtain @⟨s, hs⟩ := h
  unfold Pool.feed?
  dsimp only
  split
  · rename_i f hf
    have hm := hp.feed f hs
    generalize p.feed f x.shared = a, p.feed f s = b at hm ⊢
    cases hm with
    | next f h => exact .some (.shared h)
    | job j f h => exact .some (.shared h)
    | stop r h => exact .some (.shared h)
  · split <;> exact .some (.shared hs)
  · exact .none
  · exact .none

theorem Matches.start? (h : x.Matches rel y) (k : Nat) :
    Option.Rel (Matches rel) (x.start? k) (y.start? k) := by
  obtain ⟨hs⟩ := h
  unfold Pool.start?
  dsimp only
  split
  · split
    · exact .some (.shared hs)
    · exact .none
  · exact .none

theorem Matches.finish? (h : x.Matches rel y) (hp : p.Keeps rel) (k : Nat) :
    Option.Rel (Matches rel) (x.finish? p k) (y.finish? p k) := by
  obtain ⟨hs⟩ := h
  unfold Pool.finish?
  dsimp only
  split
  · exact .some (.shared (hp.work _ hs))
  · exact .none

theorem exists_of_rel {α : Type} {r : α → α → Prop} {a b : Option α} {c : α}
    (h : Option.Rel r a b) (ha : a = some c) : ∃ d, b = some d ∧ r c d := by
  subst ha
  cases h with
  | some h => exact ⟨_, rfl, h⟩

theorem Matches.step (h : x.Matches rel y) (hp : p.Keeps rel) (hs : Step p x x') :
    ∃ y', Step p y y' ∧ x'.Matches rel y' := by
  cases hs with
  | feed hs =>
    obtain ⟨y', hy, hm⟩ := exists_of_rel (h.feed? hp) hs
    exact ⟨y', .feed hy, hm⟩
  | start hs =>
    obtain ⟨y', hy, hm⟩ := exists_of_rel (h.start? _) hs
    exact ⟨y', .start hy, hm⟩
  | finish hs =>
    obtain ⟨y', hy, hm⟩ := exists_of_rel (h.finish? hp _) hs
    exact ⟨y', .finish hy, hm⟩

theorem Matches.steps (h : x.Matches rel y) (hp : p.Keeps rel) (hs : Steps p x x') :
    ∃ y', Steps p y y' ∧ x'.Matches rel y' := by
  induction hs with
  | refl => exact ⟨y, .refl, h⟩
  | tail _ hs ih =>
    obtain ⟨y₁, hy, hm⟩ := ih
    obtain ⟨y₂, hy', hm'⟩ := hm.step hp hs
    exact ⟨y₂, hy.tail hy', hm'⟩

theorem Matches.next? (h : x.Matches rel y) (hp : p.Keeps rel) :
    Option.Rel (Matches rel) (x.next? p) (y.next? p) := by
  have hf := h.feed? hp
  have hs := h.start? 0
  have hd := h.finish? hp 0
  unfold Pool.next?
  generalize x.feed? p = a, y.feed? p = b at hf ⊢
  generalize x.start? 0 = a', y.start? 0 = b' at hs ⊢
  cases hf with
  | some hf => exact .some hf
  | none =>
    cases hs with
    | some hs => exact .some hs
    | none => exact hd

theorem Matches.run (h : x.Matches rel y) (hp : p.Keeps rel) :
    (x.run p).Matches rel (y.run p) := by
  have hn := h.next? hp
  fun_induction Pool.run p x generalizing y with
  | case1 x hx =>
    rw [hx] at hn
    cases hy : y.next? p with
    | none => rwa [Pool.run, hy]
    | some y' =>
      rw [hy] at hn
      cases hn
  | case2 x x' hx ih =>
    obtain ⟨y', hy, hm⟩ := exists_of_rel hn hx
    rw [run.eq_1 p y, hy]
    exact ih hm (hm.next? hp)

end Pool
end RamRestore
