import RamRestore.Proofs.Index.Declared
import RamRestore.Proofs.Load.Fitting

/-! # Confinement

Whatever the bytes of a snapshot are, and however its load goes on, the guest is only asked to
read, write, watch and place memory of pages that the snapshot declares, and these lie in the
blocks that were registered.
-/

namespace RamRestore

open Index (Tiled DeclaredPage)

/-- A guest that calls lead to which only concern memory of such pages. -/
inductive Within {W : Type} [Guest W] (P : Nat → Nat → Prop) (w : W) : W → Prop
  | refl : Within P w w
  | read {v : W} {a n : Nat} (h : Within P w v) (hp : P a n) : Within P w (Guest.read v a n).2
  /-- Not all of the page has to be written. -/
  | write {v : W} {a n : Nat} {data : Bytes} (h : Within P w v) (hp : P a n)
      (hd : data.size ≤ n) : Within P w (Guest.write v a data)
  | spoil {v : W} {a n : Nat} {data : Bytes} (h : Within P w v) (hp : P a n) :
      Within P w (Guest.spoil v a n data)
  | register {v v' : W} {a n : Nat} (h : Within P w v) (hp : Tiled P a n)
      (hr : Guest.register v a n = .ok v') : Within P w v'
  | arm {v v' : W} (h : Within P w v) (ha : Guest.arm v = .ok v') : Within P w v'
  | place {v : W} {a : Nat} {data : Bytes} (h : Within P w v) (hp : P a data.size) :
      Within P w (Guest.place v a data).2

section

variable {W : Type} [Guest W] {P : Nat → Nat → Prop} {w v : W} {ranges : List (Nat × Nat)}

open LawfulGuest in
theorem Within.byte_eq [LawfulGuest W] (h : Within P w v) {b : Nat}
    (hb : ∀ a n, P a n → ¬ (a ≤ b ∧ b < a + n)) : byte v b = byte w b := by
  induction h with
  | refl => rfl
  | read _ _ ih => rw [byte_read, ih]
  | write _ hp hd ih => rw [(byte_write _ _ _).outside hd (hb _ _ hp), ih]
  | spoil _ hp ih => rw [byte_spoil _ _ (hb _ _ hp), ih]
  | register _ _ hr ih => rw [byte_register hr, ih]
  | arm _ ha ih => rw [byte_arm ha, ih]
  | @place v a data _ hp ih =>
    cases hplace : Guest.place v a data with
    | mk answer v' =>
      cases answer with
      | none => rw [(byte_accept hplace).outside le_rfl (hb _ _ hp), ih]
      | some cause => rw [byte_refuse hplace, ih]

theorem Within.clear {zeroChecker : Bytes → Bool} (h : Within P w v)
    (hr : ∀ r ∈ ranges, P r.1 r.2) : Within P w (Loader.clear zeroChecker v ranges).2 := by
  induction ranges generalizing v with
  | nil => exact h
  | cons r ranges ih =>
    obtain ⟨a, n⟩ := r
    have hp : P a n := hr (a, n) (by simp)
    have hread := h.read hp
    rw [Loader.clear]
    refine ih ?_ fun q hq => hr q (by simp [hq])
    split
    · exact hread
    · exact hread.write hp (by simp)

/-- The checker is only asked about memory that is to be cleared. -/
theorem mem_clear {zeroChecker : Bytes → Bool} {c : ZeroCheck}
    (h : c ∈ (Loader.clear zeroChecker v ranges).1) : (c.address, c.length) ∈ ranges := by
  induction ranges generalizing v with
  | nil => simp [Loader.clear] at h
  | cons r ranges ih =>
    rw [Loader.clear] at h
    rcases List.mem_cons.1 h with rfl | h
    · exact .head _
    · exact .tail _ (ih h)

namespace Load

theorem within_registerAll (h : Within P w v) (hr : ∀ r ∈ ranges, Tiled P r.1 r.2) :
    Within P w (registerAll v ranges).2 := by
  induction ranges generalizing v with
  | nil => exact h
  | cons r ranges ih =>
    rw [registerAll]
    split
    · rename_i v' hv
      exact ih (h.register (hr r (by simp)) hv) fun q hq => hr q (by simp [hq])
    · exact h

theorem mem_of_registerAll {cause : LoadError} {v' : W}
    (h : registerAll v ranges = (some cause, v')) :
    ∃ a n e, cause = .registerRange a n e ∧ (a, n) ∈ ranges := by
  induction ranges generalizing v with
  | nil => cases h
  | cons r ranges ih =>
    rw [registerAll] at h
    split at h
    · obtain ⟨a, n, e, he, hm⟩ := ih h
      exact ⟨a, n, e, he, .tail _ hm⟩
    · cases h
      exact ⟨_, _, _, rfl, .head _⟩

variable {l l' : Load W} {i : Nat}

theorem within_startBackground (threads : Threads) (h : Within P w l.guest)
    (hr : ∀ r ∈ l.index.ranges, Tiled P r.1 r.2) :
    Within P w (l.startBackground threads).2.guest := by
  have hreg := within_registerAll h hr
  unfold startBackground
  split
  · rename_i he
    rw [he] at hreg
    exact hreg
  · rename_i he
    rw [he] at hreg
    dsimp only
    split
    · exact hreg
    · split
      · rename_i ha
        exact hreg.arm ha
      · exact hreg

theorem mem_ranges_of_startBackground {threads : Threads} {a n : Nat} {cause : IoError}
    (h : (l.startBackground threads).1 = some (.registerRange a n cause)) :
    (a, n) ∈ l.index.ranges := by
  unfold startBackground at h
  split at h
  · rename_i he
    obtain ⟨a', n', e, rfl, hm⟩ := mem_of_registerAll he
    cases h
    exact hm
  · dsimp only at h
    split at h
    · cases h
    · split at h <;> cases h

def PagesIn (P : Nat → Nat → Prop) (x : Index) : Prop :=
  ∀ i < x.pages.size, P (x.address i) (x.pageSize i)

theorem PagesIn.of_stored {x : Index} (h : PagesIn P x) (hi : i ∈ x.stored) :
    P (x.address i) (x.pageSize i) :=
  h i (Index.mem_stored.1 hi).1

theorem within_readInPlace (h : Within P w l.guest) (hw : l.index.WellFormed)
    (hP : P (l.index.address i) (l.index.pageSize i)) (hi : i ∈ l.index.stored) :
    Within P w (l.readInPlace i).2.guest := by
  by_cases he : l.state i = .empty
  · have hgot : ((l.transfer i).run l.source).got.size ≤ (l.index.page i).size := by
      have hr := congrArg Prod.fst ((l.transfer i).run_eq_result l.source)
      dsimp only at hr
      rw [hr]
      exact Transfer.size_result_le (Nat.zero_le _)
    rw [readInPlace_of_empty he]
    dsimp only
    cases hz : l.index.compressed with
    | true => split <;> exact h
    | false =>
      have hwrite := h.write hP
        (Nat.le_trans hgot (Nat.le_of_eq (Index.size_eq_pageSize hw hi hz)))
      split <;> exact hwrite
  · rw [readInPlace_of_not_empty he]
    exact h

theorem within_unpackInPlace (h : Within P w l.guest)
    (hP : P (l.index.address i) (l.index.pageSize i)) (data : Bytes) :
    Within P w (l.unpackInPlace i data).2.guest := by
  unfold unpackInPlace
  dsimp only
  split
  · rename_i hu
    exact h.write hP (Nat.le_of_eq (Index.unpack_size hu))
  · exact h.spoil hP

structure SweepWithin (P : Nat → Nat → Prop) (w : W) (x : Sweep W) : Prop where
  wellFormed : x.load.index.WellFormed
  pages : PagesIn P x.load.index
  ahead : ∀ i ∈ x.ahead, i ∈ x.load.index.stored
  packed : ∀ p ∈ x.packed, p.1 ∈ x.load.index.stored
  guest : Within P w x.load.guest

theorem SweepWithin.step {x y : Sweep W} (h : SweepWithin P w x) (hs : SweepStep x y) :
    SweepWithin P w y := by
  have hindex := hs.index
  -- the guest after the step, and the pages that it is still to come to
  suffices hy : (∀ i ∈ y.ahead, i ∈ x.load.index.stored) ∧
      (∀ p ∈ y.packed, p.1 ∈ x.load.index.stored) ∧ Within P w y.load.guest by
    obtain ⟨ha, hk, hg⟩ := hy
    rw [← hindex] at ha hk
    exact ⟨hindex ▸ h.wellFormed, hindex ▸ h.pages, ha, hk, hg⟩
  cases hs with
  | @settled l l' i is ps hr | @failed l l' i is ps _ _ hr =>
    have hi : i ∈ l.index.stored := h.ahead i (by simp)
    have hg := within_readInPlace h.guest h.wellFormed (h.pages.of_stored hi) hi
    rw [hr] at hg
    exact ⟨fun j hj => h.ahead j (.tail _ hj), h.packed, hg⟩
  | @packed l l' i is ps data hr =>
    have hi : i ∈ l.index.stored := h.ahead i (by simp)
    have hg := within_readInPlace h.guest h.wellFormed (h.pages.of_stored hi) hi
    rw [hr] at hg
    refine ⟨fun j hj => h.ahead j (.tail _ hj), ?_, hg⟩
    intro p hp
    rcases Multiset.mem_cons.1 hp with rfl | hp
    · exact hi
    · exact h.packed p hp
  | @unpack l l' i is ps data failure hr =>
    have hi : i ∈ l.index.stored := h.packed (i, data) (by simp)
    have hg := within_unpackInPlace h.guest (h.pages.of_stored hi) data
    rw [hr] at hg
    refine ⟨h.ahead, fun p hp => h.packed p (Multiset.mem_cons_of_mem hp), ?_⟩
    cases failure <;> exact hg

theorem Fresh.sweepWithin (h : l.Fresh) (hP : PagesIn P l.index) (hg : Within P w l.guest)
    {order : List Nat} (ho : l.index.InFileOrder order) : SweepWithin P w ⟨l, order, 0⟩ where
  wellFormed := h.wellFormed
  pages := hP
  ahead _ := ho.mem_iff.1
  packed p hp := by simp at hp
  guest := hg

/-- A load on its way that keeps to pages of the index. What is on its way fits into them. -/
structure SessionWithin (P : Nat → Nat → Prop) (w : W) (x : Session W) : Prop where
  pages : PagesIn P x.load.index
  sized : ∀ p ∈ x.transfers, Sized x.load.index p
  parked : ∀ i c, x.load.parked i = some c → c.size = x.load.index.pageSize i
  guest : Within P w x.load.guest

variable {E : Surroundings} {x y : Session W}

theorem SessionWithin.move (h : SessionWithin P w x) (ho : Orderly x) (hm : Move E x y) :
    SessionWithin P w y := by
  have hx : Fitting x := ⟨h.sized, h.parked⟩
  have hy : Fitting y := hx.move ho hm
  refine ⟨hm.index ▸ h.pages, hy.sized, hy.parked, ?_⟩
  -- the guest only changes where a page is handed over
  have hfill : ∀ {i c}, i ∈ x.load.index.stored → c.size = x.load.index.pageSize i →
      SamePages (x.load.fill i c).2 y.load → Within P w y.load.guest := by
    intro i c hi hc hp
    rw [hp.guest, guest_fill]
    exact h.guest.place (hc ▸ h.pages.of_stored hi)
  cases hm.pageStep with
  | fill i t got c stop cs s hts he hc hp =>
    obtain ⟨hi, hsize⟩ := hx.contents ho (by simp [hts]) he hc
    exact hfill hi hsize hp
  | fillParked i c hs hc hp =>
    exact hfill (ho.stored_of_state (by simp [hs]) (by simp [hs])) (h.parked i c hc) hp
  | stay hp | claim _ _ _ hp | advance _ _ _ _ _ _ _ hp | abandon _ _ _ hp
  | park _ _ _ _ _ _ _ _ _ _ hp | fail _ _ _ _ _ _ _ _ _ _ hp | lose _ _ _ hp =>
    exact hp.guest ▸ h.guest

theorem SessionWithin.steps (h : SessionWithin P w x) (ho : Orderly x) (hs : Steps E x y) :
    SessionWithin P w y :=
  (hs.keep (P := fun z => Orderly z ∧ SessionWithin P w z)
    (fun _ _ hm ⟨ho, h⟩ => ⟨ho.move hm, h.move ho hm⟩) ⟨ho, h⟩).2

end Load
end

namespace Loader

variable {W : Type} [Guest W]

/-- The guests that a loader may leave behind: while or after it has cleared the pages that are all
zero, at any time in an eager load whichever way it is carried out, and at any time in a lazy load
or after it. -/
inductive Leaves (l : Loader W) (E : Load.Surroundings) : W → Prop
  | clearing (n : Nat) : Leaves l E
      (clear l.zeroChecker l.guest ((Index.read l.blocks l.source).cleared.take n)).2
  | started : Leaves l E l.start.2.guest
  | «eager» {m₀ : Load W} {x : Load.Sweep W} (ho : l.opened? = some m₀)
      (hl : l.isLazy m₀.guest = false) {order : List Nat} (hi : m₀.index.InFileOrder order)
      (hs : Load.Sweeps ⟨m₀, order, 0⟩ x) : Leaves l E x.load.guest
  | «lazy» {failure : Option LoadError} {m : Load W} {x : Load.Session W}
      (hm : l.StartsLazily failure m) (hs : Load.Steps E ⟨m, 0⟩ x) : Leaves l E x.load.guest

variable {l : Loader W} {m₀ m : Load W} {E : Load.Surroundings} {source : Source} {guest w : W}
  {failure : Option LoadError}

structure Ready (l : Loader W) (source : Source) (guest : W) : Prop where
  phase : l.phase = .registering source guest
  accepted : RamBlock.Accepted l.blocks
  inside : ∀ b ∈ l.blocks, b.start + b.size ≤ word64Count

theorem Ready.cleared (h : l.Ready source guest) (n : Nat) :
    Within (DeclaredPage l.blocks source) guest
      (clear l.zeroChecker guest ((Index.read l.blocks source).cleared.take n)).2 :=
  Within.refl.clear fun _ hr =>
    Index.declaredPage_of_cleared h.accepted h.inside (List.mem_of_mem_take hr)

theorem Ready.opened (h : l.Ready source guest) (ho : l.opened? = some m₀) :
    Load.PagesIn (DeclaredPage l.blocks source) m₀.index ∧
      Within (DeclaredPage l.blocks source) guest m₀.guest := by
  simp only [opened?, h.phase] at ho
  split at ho
  · cases ho
  · rename_i index hr
    cases ho
    refine ⟨fun i hi => Index.declaredPage_of_read h.accepted h.inside hr hi, ?_⟩
    have hc := h.cleared (Index.read l.blocks source).cleared.length
    rwa [List.take_length] at hc

theorem Ready.eager (h : l.Ready source guest) (ho : l.opened? = some m₀) {order : List Nat}
    (hi : m₀.index.InFileOrder order) {x : Load.Sweep W} (hs : Load.Sweeps ⟨m₀, order, 0⟩ x) :
    Within (DeclaredPage l.blocks source) guest x.load.guest := by
  obtain ⟨hP, hg⟩ := h.opened ho
  exact (hs.keep (P := Load.SweepWithin _ _) (fun _ _ hs hx => hx.step hs)
    ((opened_fresh ho).1.sweepWithin hP hg hi)).guest

theorem Ready.lazy (h : l.Ready source guest) (hm : l.StartsLazily failure m) {x : Load.Session W}
    (hs : Load.Steps E ⟨m, 0⟩ x) : Within (DeclaredPage l.blocks source) guest x.load.guest := by
  obtain ⟨m₀, ho, hstart⟩ := hm.startBackground
  obtain ⟨hP, hg⟩ := h.opened ho
  have hguest := Load.within_startBackground l.threads hg (Index.tiled_ranges hP)
  rw [hstart] at hguest
  have hindex : m.index = m₀.index := by
    obtain ⟨guest, ⟨-, rfl⟩ | ⟨reader, -, rfl⟩⟩ := Load.startBackground_cases hstart <;> rfl
  have hf := hm.fresh.1
  have hx : Load.SessionWithin (DeclaredPage l.blocks source) guest ⟨m, 0⟩ :=
    ⟨hindex ▸ hP, hf.fitting.sized, hf.fitting.parked, hguest⟩
  exact (hx.steps hf.orderly hs).guest

theorem Ready.started (h : l.Ready source guest) :
    Within (DeclaredPage l.blocks source) guest l.start.2.guest := by
  cases ho : l.opened? with
  | none =>
    -- the index could not be read
    have hc := h.cleared (Index.read l.blocks source).cleared.length
    rw [List.take_length] at hc
    simp only [opened?, h.phase] at ho
    simp only [start, h.phase]
    cases hr : (Index.read l.blocks source).outcome with
    | error cause => exact hc
    | ok index =>
      simp only [hr] at ho
      cases ho
  | some m₀ =>
    obtain ⟨m, hm⟩ := exists_load_of_opened ho
    have hguest : l.start.2.guest = m.guest := by
      simp only [Loader.guest, phase_of_load hm]
    rw [hguest]
    rcases starts_start ho hm with
      hlazy | ⟨m₀, ho, -, order, hi, -, returned, l', hr, hc⟩ | hwithout
    · exact h.lazy (E := .quiet) hlazy .refl
    · obtain ⟨rest, hs, -⟩ := hr.sweeps
      obtain rfl : l'.markComplete = m := congrArg Prod.snd hc
      exact h.eager ho hi hs
    · exact (h.opened hwithout.opened).2

theorem Ready.zeroChecks (h : l.Ready source guest) : l.start.2.zeroChecks =
    (clear l.zeroChecker guest (Index.read l.blocks source).cleared).1 := by
  simp only [start, h.phase]
  split
  · rfl
  · rfl

/-- A range that a lazy start is refused consists of pages that the snapshot declares. -/
theorem Ready.refused (h : l.Ready source guest) {a n : Nat} {cause : IoError}
    (hm : l.StartsLazily (some (.registerRange a n cause)) m) :
    Tiled (DeclaredPage l.blocks source) a n := by
  obtain ⟨m₀, ho, hstart⟩ := hm.startBackground
  have hmem := Load.mem_ranges_of_startBackground (congrArg Prod.fst hstart)
  exact Index.tiled_ranges (h.opened ho).1 _ hmem

theorem Ready.within (h : l.Ready source guest) (hw : l.Leaves E w) :
    Within (DeclaredPage l.blocks source) guest w := by
  cases hw with
  | clearing n =>
    have hs : l.source = source ∧ l.guest = guest := by
      simp [Loader.source, Loader.guest, h.phase]
    rw [hs.1, hs.2]
    exact h.cleared n
  | started => exact h.started
  | «eager» ho _ hi hs => exact h.eager ho hi hs
  | «lazy» hm hs => exact h.lazy hm hs

end Loader

section

variable {P : Nat → Nat → Prop} {w v : PlainWatch}

theorem Within.mem_ranges (h : Within P w v) {r : Nat × Nat} (hr : r ∈ v.ranges) :
    r ∈ w.ranges ∨ Tiled P r.1 r.2 := by
  induction h with
  | refl => exact .inl hr
  | read _ _ ih | write _ _ _ ih | spoil _ _ ih => exact ih hr
  | @register v v' a n _ hp hreg ih =>
    change v.register a n = .ok v' at hreg
    unfold PlainWatch.register at hreg
    split at hreg <;> cases hreg
    rcases Array.mem_push.1 hr with hr | rfl
    · exact ih hr
    · exact .inr hp
  | @arm v v' _ harm ih =>
    change v.arm = .ok v' at harm
    unfold PlainWatch.arm at harm
    split at harm <;> cases harm
    exact ih hr
  | @place v a data _ _ ih =>
    apply ih
    change r ∈ (v.place a data).2.ranges at hr
    unfold PlainWatch.place at hr
    split at hr <;> exact hr

theorem Within.mem_placements (h : Within P w v) {p : Nat × Nat × Bool} (hp : p ∈ v.placements) :
    p ∈ w.placements ∨ P p.1 p.2.1 := by
  induction h with
  | refl => exact .inl hp
  | read _ _ ih | write _ _ _ ih | spoil _ _ ih => exact ih hp
  | @register v v' a n _ _ hreg ih =>
    change v.register a n = .ok v' at hreg
    unfold PlainWatch.register at hreg
    split at hreg <;> cases hreg
    exact ih hp
  | @arm v v' _ harm ih =>
    change v.arm = .ok v' at harm
    unfold PlainWatch.arm at harm
    split at harm <;> cases harm
    exact ih hp
  | @place v a data _ hpage ih =>
    change p ∈ (v.place a data).2.placements at hp
    unfold PlainWatch.place at hp
    split at hp
    · rcases Array.mem_push.1 hp with hp | rfl
      · exact ih hp
      · exact .inr hpage
    · rcases Array.mem_push.1 hp with hp | rfl
      · exact ih hp
      · exact .inr hpage

end

namespace Loader

variable {config : Config} {zeroChecker : Bytes → Bool} {offersWatch : Bool}
  {blocks : List RamBlock} {source : Source} {guest : PlainWatch} {threads : Threads}
  {l : Loader PlainWatch}

theorem ready_of_registerAll (hin : ∀ b ∈ blocks, b.start + b.size ≤ word64Count)
    (hl : (ofSource config zeroChecker offersWatch source guest threads).registerAll blocks =
      .ok l) :
    l.Ready source guest ∧ l.blocks = blocks := by
  obtain ⟨hb, rfl⟩ := registerAll_ok .nil hl
  exact ⟨⟨rfl, hb, by simpa [ofSource] using hin⟩, by simp [ofSource]⟩

/--
No snapshot makes a loader reach beyond the memory that it was given. Every address and length
that it passes to the zero checker or hands over as a page is a page that the snapshot declares,
inside its block; the ranges that it registers, or is refused, consist of such pages; and at no
time has a byte changed that lies in none of them.
-/
theorem confined_to_declared_pages {E : Load.Surroundings}
    (hin : ∀ b ∈ blocks, b.start + b.size ≤ word64Count)
    (hl : (ofSource config zeroChecker offersWatch source guest threads).registerAll blocks =
      .ok l) :
    (∀ c ∈ l.start.2.zeroChecks, DeclaredPage blocks source c.address c.length) ∧
    (∀ a n cause m, l.StartsLazily (some (.registerRange a n cause)) m →
      Tiled (DeclaredPage blocks source) a n) ∧
    ∀ w, l.Leaves E w →
      (∀ a, w.memory.get a ≠ guest.memory.get a →
        ∃ start n, DeclaredPage blocks source start n ∧ start ≤ a ∧ a < start + n) ∧
      (∀ r ∈ w.ranges, r ∈ guest.ranges ∨ Tiled (DeclaredPage blocks source) r.1 r.2) ∧
      ∀ p ∈ w.placements, p ∈ guest.placements ∨ DeclaredPage blocks source p.1 p.2.1 := by
  obtain ⟨hr, rfl⟩ := ready_of_registerAll hin hl
  refine ⟨?_, ?_, ?_⟩
  · intro c hc
    rw [hr.zeroChecks] at hc
    exact Index.declaredPage_of_cleared hr.accepted hr.inside (mem_clear hc)
  · intro a n cause m hm
    exact hr.refused hm
  · intro w hw
    have h := hr.within hw
    refine ⟨?_, fun r => h.mem_ranges, fun p => h.mem_placements⟩
    intro a ha
    by_contra hn
    refine ha (h.byte_eq fun start n hp hc => hn ?_)
    exact ⟨start, n, hp, hc⟩

theorem confined_to_declared_pages_sample :
    (∀ c ∈ sample.start.2.zeroChecks, DeclaredPage sample.blocks sample.source c.address c.length) ∧
      sampleEnd.guest.memory.get 16 = 7 ∧
      ∃ start n, DeclaredPage sample.blocks sample.source start n ∧ start ≤ 16 ∧
        16 < start + n := by
  have hb : RamBlock.Accepted [⟨"a", 16, 2, 1⟩] := .snoc .nil (by decide +kernel)
  have hl : (ofSource sample.config sample.zeroChecker true sample.source
      { memory := .filled 5 }).registerAll [⟨"a", 16, 2, 1⟩] = .ok sample :=
    registerAll_of_accepted hb rfl
  obtain ⟨hchecks, -, hguests⟩ := confined_to_declared_pages (E := .quiet) (by decide) hl
  have hbyte : sampleEnd.guest.memory.get 16 = 7 := by decide +kernel
  refine ⟨hchecks, hbyte, ?_⟩
  apply (hguests _ (.lazy sample_startsLazily sample_steps)).1
  rw [hbyte, Memory.get_filled]
  decide

end Loader
end RamRestore
