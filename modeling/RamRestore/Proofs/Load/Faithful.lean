import RamRestore.Proofs.Index.Contents
import RamRestore.Proofs.Load.Start

/-! # Contents of pages

Whatever a transfer has brought is data of the snapshot at the place of its page, so what is
parked and what is handed to the guest are the contents of the page. A page is filled as a
whole or not touched at all.
-/

namespace RamRestore

structure Transfer.Brings (t : Transfer) (x : Index) (data : Bytes) (i : Nat) : Prop where
  position : t.position = (x.page i).position
  size : t.size = (x.page i).size
  unfinished : t.got.size < t.size
  holds : t.Holds data

namespace Transfer.Brings

variable {t t' : Transfer} {x : Index} {data got : Bytes} {i : Nat} {s s' : Source}
  {c : ReadCall} {cs : List ReadCall}

theorem going (h : t.Brings x data i) (hs : s.data = data) (hc : t.call s = (c, .going t')) :
    t'.Brings x data i := by
  have hh : t'.Holds data := by
    subst hs
    exact h.holds.going hc
  rcases call_going_cases hc with rfl | ⟨b, -, -, hlt, rfl⟩
  · exact h
  · exact ⟨h.position, h.size, hlt, hh⟩

theorem full (h : t.Brings x data i) (hs : s.data = data) (he : t.Ends s got .full cs s') :
    x.packed? data i = some got := by
  cases he with
  | full hle => exact absurd h.unfinished (Nat.not_lt_of_le hle)
  | stopped hc =>
    subst hs
    obtain ⟨hsize, hgot⟩ := h.holds.full hc
    rw [h.size] at hsize hgot
    rw [h.position] at hgot
    exact Index.packed_eq_some hsize hgot

end Transfer.Brings

namespace Load

variable {W : Type}

section

variable {l : Load W} {i : Nat} {got c : Bytes} {stop : Transfer.Stop} {data : Bytes}

theorem brings_transfer (hi : i ∈ l.index.stored) : (l.transfer i).Brings l.index data i where
  position := rfl
  size := rfl
  unfinished := Index.size_pos_of_stored hi
  holds := ⟨Nat.zero_le _, by simp [transfer]⟩

theorem contents_ok (h : l.contents i got stop = .ok c) :
    stop = .full ∧ l.decode i got = .ok c := by
  cases stop with
  | full => exact ⟨rfl, h⟩
  | short => simp [contents, readFailure?] at h
  | failed cause => simp [contents, readFailure?] at h

theorem content_of_decode (hp : l.index.packed? data i = some got)
    (h : l.decode i got = .ok c) : l.index.content? data i = some c := by
  unfold decode at h
  unfold Index.content?
  rw [hp, Option.bind_some]
  split at h
  · rw [if_pos ‹_›]
    split at h
    · cases h
      simp only [*, Except.toOption]
    · cases h
  · rw [if_neg ‹_›]
    cases h
    rfl

end

/-- What is under way and what is parked comes from the snapshot. -/
structure Genuine (data : Bytes) (x : Session W) : Prop where
  source : x.load.source.data = data
  brings : ∀ p ∈ x.transfers, p.2.Brings x.load.index data p.1
  parked : ∀ i c, x.load.parked i = some c → x.load.index.content? data i = some c

theorem Genuine.content {data got c : Bytes} {x : Session W} {i : Nat} {t : Transfer}
    {stop : Transfer.Stop} {cs : List ReadCall} {s : Source} (h : Genuine data x)
    (ht : (i, t) ∈ x.transfers) (he : t.Ends x.load.source got stop cs s)
    (hc : x.load.contents i got stop = .ok c) : x.load.index.content? data i = some c := by
  obtain ⟨rfl, hdecode⟩ := contents_ok hc
  exact content_of_decode ((h.brings (i, t) ht).full h.source he) hdecode

theorem Genuine.move [Guest W] {data : Bytes} {E : Surroundings} {x y : Session W}
    (hE : ∀ s s', E.source s s' → s'.data = s.data) (ho : Orderly x) (h : Genuine data x)
    (hm : Move E x y) : Genuine data y := by
  constructor
  · rcases hm.inflow with ⟨cs, s, hi, hs⟩ | ⟨-, hs⟩
    · rw [show y.load.source = s from congrArg Prod.fst hi, hs.data]
      exact h.source
    · exact (hE _ _ hs).trans h.source
  · rw [hm.index]
    apply hm.pageStep.transfers_keep (P := fun p => p.2.Brings x.load.index data p.1)
    · exact fun i hl he => brings_transfer (ho.stored_of_claim hl he)
    · exact fun i t t' c ht hc => ht.going h.source hc
    · exact h.brings
  · intro i c hy
    rw [hm.index]
    rcases hm.pageStep.parked_cases hy with ⟨hx, -⟩ | ⟨-, t, got, stop, cs, s, ht, he, hc⟩
    · exact h.parked i c hx
    · exact h.content ht he hc

variable [Guest W] [LawfulGuest W]

open LawfulGuest

/-- What is under way, what is parked and what is in memory comes from the snapshot. -/
structure Faithful (data : Bytes) (before : Nat → UInt8) (x : Session W) : Prop where
  source : x.load.source.data = data
  brings : ∀ p ∈ x.transfers, p.2.Brings x.load.index data p.1
  parked : ∀ i c, x.load.parked i = some c → x.load.index.content? data i = some c
  restored : x.load.index.Restored data x.load.state before (byte x.load.guest)

section

variable {E : Surroundings} {x y : Session W} {data : Bytes} {before : Nat → UInt8} {i : Nat}
  {c : Bytes}

theorem Faithful.genuine (h : Faithful data before x) : Genuine data x :=
  ⟨h.source, h.brings, h.parked⟩

theorem Faithful.touch {s : PageState} (h : Faithful data before x) (hg : Genuine data y)
    (hi : y.load.index = x.load.index)
    (hs : ∀ j, y.load.state j = if i = j then s else x.load.state j)
    (hb : byte y.load.guest = byte x.load.guest) (hn : x.load.state i ≠ .filled)
    (hn' : s ≠ .filled) : Faithful data before y := by
  refine ⟨hg.source, hg.brings, hg.parked, ?_⟩
  rw [hi]
  refine h.restored.congr (fun j _ => ?_) hb
  rw [hs]
  split
  · rename_i hij
    subst hij
    simp [hn, hn']
  · rfl

theorem Faithful.samePages (h : Faithful data before x) (hg : Genuine data y)
    (hp : SamePages x.load y.load) : Faithful data before y := by
  refine ⟨hg.source, hg.brings, hg.parked, ?_⟩
  rw [hp.index, hp.guest]
  exact h.restored.congr (fun j _ => by rw [hp.state]) rfl

theorem Faithful.fill (h : Faithful data before x) (hw : x.load.index.WellFormed)
    (hb : RamBlock.Disjoint (x.load.index.blocks.map (·.ram))) (hi : i ∈ x.load.index.stored)
    (hn : x.load.state i ≠ .filled) (hc : x.load.index.content? data i = some c)
    (hg : Genuine data y) (hp : SamePages (x.load.fill i c).2 y.load) :
    Faithful data before y := by
  have hindex : y.load.index = x.load.index := hp.index.trans (index_fill ..)
  have hguest : y.load.guest = (Guest.place x.load.guest (x.load.index.address i) c).2 :=
    hp.guest.trans (guest_fill ..)
  have hstate : ∀ j, y.load.state j = if i = j then
      (if (x.load.fill i c).1.isNone then .filled else .error) else x.load.state j :=
    fun j => (hp.state j).trans (state_fill x.load i j c)
  have hnone : (x.load.fill i c).1.isNone =
      (Guest.place x.load.guest (x.load.index.address i) c).1.isNone := by
    rw [fill_eq]
    simp
  cases ha : Guest.place x.load.guest (x.load.index.address i) c with
  | mk answer guest =>
    rw [ha] at hnone hguest
    cases answer with
    | none =>
      have hfilled : y.load.state i = .filled := by
        rw [hstate, if_pos rfl, hnone]
        rfl
      refine ⟨hg.source, hg.brings, hg.parked, ?_⟩
      rw [hindex, hguest]
      exact h.restored.fill hw hb hi hc (fun j hj => (hstate j).trans (if_neg hj)) hfilled
        (byte_accept ha)
    | some cause =>
      refine h.touch hg hindex hstate ?_ hn (by simp [hnone])
      rw [hguest]
      exact byte_refuse ha

theorem Faithful.move (hE : ∀ s s', E.source s s' → s'.data = s.data) (ho : Orderly x)
    (hb : RamBlock.Disjoint (x.load.index.blocks.map (·.ram))) (h : Faithful data before x)
    (hm : Move E x y) : Faithful data before y := by
  have hg : Genuine data y := h.genuine.move hE ho hm
  cases hm.pageStep with
  | stay hp | advance _ _ _ _ _ _ _ hp | abandon _ _ _ hp => exact h.samePages hg hp
  | claim i hl he hp ht =>
    exact h.touch hg hp.index (fun j => (hp.state j).trans (state_claim x.load i j))
      (congrArg byte hp.guest) (by simp [he]) nofun
  | park i t got c stop cs s hts he hc hp =>
    have hr : x.load.state i = .reading := ho.reading (i, t) (by simp [hts])
    exact h.touch hg hp.index (fun j => (hp.state j).trans (state_park x.load i j c))
      (congrArg byte hp.guest) (by simp [hr]) nofun
  | fail i t got cause stop cs s hts he hc hp =>
    have hr : x.load.state i = .reading := ho.reading (i, t) (by simp [hts])
    exact h.touch hg hp.index (fun j => (hp.state j).trans (state_setState x.load i j .error))
      (congrArg byte hp.guest) (by simp [hr]) nofun
  | fill i t got c stop cs s hts he hc hp =>
    have ht : (i, t) ∈ x.transfers := by simp [hts]
    have hr : x.load.state i = .reading := ho.reading (i, t) ht
    exact h.fill ho.wellFormed hb (ho.stored_of_state (by simp [hr]) (by simp [hr])) (by simp [hr])
      (h.genuine.content ht he hc) hg hp
  | fillParked i c hs hc hp ht =>
    exact h.fill ho.wellFormed hb (ho.stored_of_state (by simp [hs]) (by simp [hs])) (by simp [hs])
      (h.parked i c hc) hg hp
  | lose i hs hc hp ht =>
    exact h.touch hg hp.index (fun j => (hp.state j).trans (state_setState x.load i j .error))
      (congrArg byte hp.guest) (by simp [hs]) nofun

theorem Faithful.steps (hE : ∀ s s', E.source s s' → s'.data = s.data) (ho : Orderly x)
    (hb : RamBlock.Disjoint (x.load.index.blocks.map (·.ram))) (h : Faithful data before x)
    (hs : Steps E x y) : Faithful data before y := by
  refine (hs.keep (P := fun z => z.load.index = x.load.index ∧ Orderly z ∧
    Faithful data before z) (fun z z' hm hz => ?_) ⟨rfl, ho, h⟩).2.2
  obtain ⟨hi, ho, h⟩ := hz
  exact ⟨hm.index.trans hi, ho.move hm, h.move hE ho (hi ▸ hb) hm⟩

theorem Fresh.faithful {l : Load W} (h : l.Fresh) :
    Faithful l.source.data (byte l.guest) ⟨l, 0⟩ where
  source := rfl
  brings p hp := by simp [h.transfers] at hp
  parked i c hc := by simp [h.parked] at hc
  restored := Index.restored_start fun i hi => by simp [h.empty_of_stored hi]

end

/--
A lazy load never shows a page that is half loaded: at any time a page that has to be read
holds its contents if it is filled, and otherwise what it held when the load started.
-/
theorem contents_or_untouched {E : Surroundings} {l : Loader W} {failure : Option LoadError}
    {m : Load W} {x : Session W} (hb : RamBlock.Apart l.blocks)
    (hE : ∀ s s', E.source s s' → s'.data = s.data) (hm : l.StartsLazily failure m)
    (hr : Steps E ⟨m, 0⟩ x) : ∀ i ∈ m.index.stored,
    if x.load.state i = .filled then
      ∃ c, m.index.content? l.source.data i = some c ∧ c.size = m.index.pageSize i ∧
        ∀ k < m.index.pageSize i, byte x.load.guest (m.index.address i + k) = c.getD k 0
    else
      ∀ k < m.index.pageSize i,
        byte x.load.guest (m.index.address i + k) = byte m.guest (m.index.address i + k) := by
  intro i hi
  obtain ⟨hf, hblocks⟩ := hm.fresh
  have hb' : RamBlock.Disjoint (m.index.blocks.map (·.ram)) := hblocks ▸ hb.disjoint
  have hx := hf.faithful.steps hE hf.orderly hb' hr
  have hrestored := hx.restored
  rw [hr.index] at hrestored
  split
  · rename_i hs
    obtain ⟨c, hc, hk⟩ := hrestored.filled i hi hs
    rw [hm.source.data] at hc
    exact ⟨c, hc, Index.size_content hf.wellFormed hi hc, hk⟩
  · rename_i hs
    exact fun k hk => hrestored.page_kept hf.wellFormed hb' hi hs hk

theorem contents_or_untouched_sample :
    ∃ c, Loader.sampleLoad.index.content? Loader.sample.source.data 0 = some c ∧
      byte Loader.sampleEnd.guest 16 = c.getD 0 0 := by
  have hb : RamBlock.Apart Loader.sample.blocks := ⟨by decide, by decide⟩
  have h := contents_or_untouched (E := .quiet) hb nofun Loader.sample_startsLazily
    Loader.sample_steps 0 (by decide +kernel)
  rw [if_pos (by decide +kernel)] at h
  obtain ⟨c, hc, -, hk⟩ := h
  have ha : Loader.sampleLoad.index.address 0 = 16 := by decide +kernel
  have hbyte := hk 0 (by decide +kernel)
  rw [ha] at hbyte
  exact ⟨c, hc, hbyte⟩

end Load
end RamRestore
