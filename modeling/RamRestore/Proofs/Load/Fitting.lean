import RamRestore.Proofs.Load.Faithful

/-! # Contents that fit

A transfer never brings more than its page has on disk, and what comes of it fills the page. So
contents that are parked fill their page.
-/

namespace RamRestore.Load

variable {W : Type} {l : Load W} {x : Session W} {i : Nat} {t t' : Transfer} {got c : Bytes}
  {stop : Transfer.Stop} {call : ReadCall} {cs : List ReadCall} {s s' : Source}

theorem size_decode (hw : l.index.WellFormed) (hi : i ∈ l.index.stored)
    (hs : got.size = (l.index.page i).size) (h : l.decode i got = .ok c) :
    c.size = l.index.pageSize i := by
  unfold decode at h
  split at h
  · split at h
    · rename_i hu
      cases h
      exact Index.unpack_size hu
    · cases h
  · rename_i hz
    cases h
    exact hs.trans (Index.size_eq_pageSize hw hi (by simpa using hz))

def Sized (x : Index) (p : Nat × Transfer) : Prop :=
  p.2.size = (x.page p.1).size ∧ p.2.got.size ≤ p.2.size

theorem Sized.going {x : Index} (h : Sized x (i, t)) (hc : t.call s = (call, .going t')) :
    Sized x (i, t') := by
  obtain ⟨hsize, ⟨-, hlt⟩ | ⟨rfl, -⟩⟩ := Transfer.call_going hc
  · exact ⟨hsize.trans h.1, Nat.le_of_lt hlt⟩
  · exact h

theorem Sized.contents (h : Sized l.index (i, t)) (hw : l.index.WellFormed)
    (hi : i ∈ l.index.stored) (he : t.Ends s got stop cs s') (hc : l.contents i got stop = .ok c) :
    c.size = l.index.pageSize i := by
  obtain ⟨rfl, hdecode⟩ := contents_ok hc
  refine size_decode hw hi ?_ hdecode
  rw [← h.1]
  cases he with
  | full hle => exact Nat.le_antisymm h.2 hle
  | stopped hcall => exact Transfer.size_of_full h.2 hcall

/-- What is on its way to a page is no more than it has, and what is parked for a page fills it. -/
structure Fitting (x : Session W) : Prop where
  sized : ∀ p ∈ x.transfers, Sized x.load.index p
  parked : ∀ i c, x.load.parked i = some c → c.size = x.load.index.pageSize i

theorem Fresh.fitting (h : l.Fresh) : Fitting ⟨l, 0⟩ where
  sized p hp := by simp [h.transfers] at hp
  parked i c hc := by simp [h.parked] at hc

theorem Fitting.contents (h : Fitting x) (ho : Orderly x) (ht : (i, t) ∈ x.transfers)
    (he : t.Ends x.load.source got stop cs s) (hc : x.load.contents i got stop = .ok c) :
    i ∈ x.load.index.stored ∧ c.size = x.load.index.pageSize i := by
  have hr : x.load.state i = .reading := ho.reading (i, t) ht
  have hi : i ∈ x.load.index.stored := ho.stored_of_state (by simp [hr]) (by simp [hr])
  exact ⟨hi, (h.sized (i, t) ht).contents ho.wellFormed hi he hc⟩

theorem Fitting.move [Guest W] {E : Surroundings} {y : Session W} (h : Fitting x) (ho : Orderly x)
    (hm : Move E x y) : Fitting y := by
  constructor
  · rw [hm.index]
    apply hm.pageStep.transfers_keep (P := Sized x.load.index)
    · exact fun i _ _ => ⟨rfl, Nat.zero_le _⟩
    · exact fun i t t' c ht hc => ht.going hc
    · exact h.sized
  · intro i c hy
    rw [hm.index]
    rcases hm.pageStep.parked_cases hy with ⟨hx, -⟩ | ⟨-, t, got, stop, cs, s, ht, he, hc⟩
    · exact h.parked i c hx
    · exact (h.contents ho ht he hc).2

end RamRestore.Load
