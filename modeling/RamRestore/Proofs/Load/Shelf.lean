import RamRestore.Proofs.Load.Fitting
import RamRestore.Proofs.Load.Lifecycle
import RamRestore.Proofs.Load.Protocol

/-! # Parked contents

Contents are parked for a page exactly as long as it is read and nobody has claimed it for filling.
So whoever places a page that was read finds its contents, and none are left when it is through.
-/

namespace RamRestore

namespace Load

variable {W : Type}

/-- Contents are parked for the pages that are read, and only for these, and fill their page. -/
structure Shelf (x : Session W) : Prop extends Fitting x where
  shelved : Shelved x.load
  read : ∀ i c, x.load.parked i = some c → x.load.state i = .read

section

variable {l : Load W} {x : Session W} {i : Nat}

theorem Shelf.exists_parked (h : Shelf x) (hr : x.load.state i = .read) :
    ∃ c, x.load.parked i = some c :=
  Option.ne_none_iff_exists'.1 (h.shelved i hr)

theorem Shelf.parked_iff (h : Shelf x) : x.load.parked i ≠ none ↔ x.load.state i = .read := by
  constructor
  · intro hn
    obtain ⟨c, hc⟩ := Option.ne_none_iff_exists'.1 hn
    exact h.read i c hc
  · exact h.shelved i

theorem Fresh.shelf (h : l.Fresh) : Shelf ⟨l, 0⟩ where
  toFitting := h.fitting
  shelved := h.shelved
  read i c hc := by simp [h.parked] at hc

theorem Fresh.genuine (h : l.Fresh) : Genuine l.source.data ⟨l, 0⟩ where
  source := rfl
  brings p hp := by simp [h.transfers] at hp
  parked i c hc := by simp [h.parked] at hc

end

variable [Guest W] {E : Surroundings} {l : Load W} {x y : Session W} {data : Bytes} {i : Nat}

theorem Shelf.move (ho : Orderly x) (h : Shelf x) (hm : Move E x y) : Shelf y := by
  refine ⟨h.toFitting.move ho hm, h.shelved.move hm, fun i c hy => ?_⟩
  rcases hm.pageStep.parked_cases hy with ⟨hx, hs⟩ | ⟨hs, -⟩
  · exact hs.trans (h.read i c hx)
  · exact hs

theorem Shelf.steps (ho : Orderly x) (h : Shelf x) (hs : Steps E x y) : Orderly y ∧ Shelf y :=
  hs.keep (P := fun z => Orderly z ∧ Shelf z)
    (fun _ _ hm ⟨ho, h⟩ => ⟨ho.move hm, h.move ho hm⟩) ⟨ho, h⟩

theorem Genuine.steps (hE : ∀ s s', E.source s s' → s'.data = s.data) (ho : Orderly x)
    (h : Genuine data x) (hs : Steps E x y) : Genuine data y :=
  (hs.keep (P := fun z => Orderly z ∧ Genuine data z)
    (fun _ _ hm ⟨ho, h⟩ => ⟨ho.move hm, h.move hE ho hm⟩) ⟨ho, h⟩).2

theorem Shelf.placeParked (h : Shelf x) (hr : x.load.state i = .read) :
    ∃ c, x.load.parked i = some c ∧ x.load.placeParked i = x.load.fill i c := by
  obtain ⟨c, hc⟩ := h.exists_parked hr
  refine ⟨c, hc, ?_⟩
  simp only [Load.placeParked, hr, hc]

end Load

namespace Loader

open Load

variable {W : Type} [Guest W] {l : Loader W} {E : Surroundings} {m : Load W} {x : Session W}
  {failure : Option LoadError}

/--
Whatever happens during a lazy load, contents are parked for a page exactly while it is read. They
are the whole contents of the page, and whoever places the page finds them. The same holds in the
middle of the calls: in any order of the steps that these are made of, contents are there while the
page is read, or somebody has parked them and has still to say so, or has claimed the page for
filling and has still to take them, and nobody looks for them in vain.
-/
theorem parked_exactly_while_read (hm : l.StartsLazily failure m) (hs : Steps E ⟨m, 0⟩ x) :
    (∀ i, x.load.parked i ≠ none ↔ x.load.state i = .read) ∧
    (∀ i c, x.load.parked i = some c → c.size = m.index.pageSize i ∧
      ((∀ s s', E.source s s' → s'.data = s.data) →
        m.index.content? l.source.data i = some c)) ∧
    (∀ i, x.load.state i = .read →
      ∃ c, x.load.parked i = some c ∧ x.load.placeParked i = x.load.fill i c) ∧
    (∀ i ∈ m.index.stored, ∃ c, Shows i x c) ∧
    ∀ c, Protocol.Reachable c →
      (c.shared.parked ≠ none ↔
        c.shared.state = .read ∨ ∃ a, c.point a = .publishing ∨ c.point a = .taking) ∧
      ∀ a, c.point a ≠ .losing := by
  obtain ⟨hfresh, -⟩ := hm.fresh
  obtain ⟨-, h⟩ := hfresh.shelf.steps hfresh.orderly hs
  have hindex : x.load.index = m.index := hs.index
  constructor
  · exact fun i => h.parked_iff
  constructor
  · intro i c hc
    constructor
    · rw [← hindex]
      exact h.parked i c hc
    · intro hE
      have hg := hfresh.genuine.steps hE hfresh.orderly hs
      rw [← hindex, ← hm.source.data]
      exact hg.parked i c hc
  constructor
  · exact fun i => h.placeParked
  constructor
  · exact fun i => keeps_protocol hm hs
  · exact fun c hc => ⟨hc.parked_iff, hc.not_losing⟩

def sampleRead : Load PlainWatch := sampleLoad.idle.2.readerSteps 3

theorem sampleRead_steps {E : Surroundings} : Steps E ⟨sampleLoad, 0⟩ ⟨sampleRead, 0⟩ :=
  .head .idle (steps_readerSteps _ 0 3)

theorem parked_exactly_while_read_sample : sampleRead.state 0 = .read ∧
    ∃ c, sampleRead.parked 0 = some c ∧ sampleRead.placeParked 0 = sampleRead.fill 0 c ∧
      c.size = 1 ∧ sampleLoad.index.content? sample.source.data 0 = some c := by
  have hread : sampleRead.state 0 = .read := by decide +kernel
  obtain ⟨-, hcontents, hplaced, -, -⟩ :=
    parked_exactly_while_read sample_startsLazily (sampleRead_steps (E := .quiet))
  obtain ⟨c, hc, hfill⟩ := hplaced 0 hread
  obtain ⟨hsize, hgenuine⟩ := hcontents 0 c hc
  have hpage : sampleLoad.index.pageSize 0 = 1 := by decide +kernel
  exact ⟨hread, c, hc, hfill, hsize.trans hpage, hgenuine nofun⟩

end Loader
end RamRestore
