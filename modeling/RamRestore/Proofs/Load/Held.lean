import RamRestore.Proofs.Load.Zeroes

/-! # Memory under an eager load

However far an eager load has come, and also where it has failed, the pages that are filled hold
their contents. Memory of pages that it has not come to is as it was.
-/

namespace RamRestore.Load

variable {W : Type} [Guest W] [LawfulGuest W]

open LawfulGuest

structure Steady (data : Bytes) (before : Nat → UInt8) (x : Sweep W) : Prop where
  source : x.load.source.data = data
  packed : ∀ p ∈ x.packed, x.load.index.compressed = true ∧
    x.load.index.packed? data p.1 = some p.2
  parked : ∀ i, x.load.parked i = none
  filled : ∀ i ∈ x.load.index.stored, x.load.state i = .filled →
    ∃ c, x.load.index.content? data i = some c ∧
      ∀ k < x.load.index.pageSize i, byte x.load.guest (x.load.index.address i + k) = c.getD k 0
  kept : ∀ a, (∀ i ∈ x.load.index.stored, x.load.state i ≠ .empty → ¬ x.load.index.Covers i a) →
    byte x.load.guest a = before a

omit [Guest W] [LawfulGuest W] in
theorem parked_setState_of_none {l : Load W} (h : ∀ j, l.parked j = none) (i : Nat)
    (s : PageState) (j : Nat) : (l.setState i s).parked j = none := by
  rw [parked_setState]
  split
  · rfl
  · exact h j

section

variable {x y : Sweep W} {data : Bytes} {before : Nat → UInt8} {i : Nat}

/-- Reading the next page writes nothing outside of it. -/
theorem SweepStep.byte_readNext (ht : Tidy x) (hs : SweepStep x y)
    (ha : x.ahead = i :: y.ahead) {a : Nat} (hn : ¬ x.load.index.Covers i a) :
    byte y.load.guest a = byte x.load.guest a := by
  have hread : ∀ l' r, x.load.readInPlace i = (r, l') →
      byte l'.guest a = byte x.load.guest a := by
    intro l' r hr
    have hw := within_readInPlace (P := fun b n => x.load.index.address i = b ∧
      x.load.index.pageSize i = n) .refl ht.orderly.wellFormed ⟨rfl, rfl⟩
      (ht.ahead i (by simp [ha]))
    rw [hr] at hw
    apply hw.byte_eq
    rintro _ _ ⟨rfl, rfl⟩
    exact hn
  cases hs with
  | settled hr | packed hr =>
    cases ha
    exact hread _ _ hr
  | @failed l l' j is ps cause _ hr =>
    cases ha
    exact hread l' _ hr
  | unpack => exact absurd ha.symm (List.cons_ne_self _ _)

theorem Steady.update {s : PageState} (h : Steady data before x) (hw : x.load.index.WellFormed)
    (hb : RamBlock.Disjoint (x.load.index.blocks.map (·.ram))) (hi : i ∈ x.load.index.stored)
    (hx : Puts i s x y) (hne : s ≠ .empty)
    (hpacked : ∀ p ∈ y.packed, x.load.index.compressed = true ∧
      x.load.index.packed? data p.1 = some p.2)
    (hparked : ∀ j, y.load.parked j = none)
    (hout : ∀ a, ¬ x.load.index.Covers i a → byte y.load.guest a = byte x.load.guest a)
    (hself : s = .filled → ∃ c, x.load.index.content? data i = some c ∧
      ∀ k < x.load.index.pageSize i,
        byte y.load.guest (x.load.index.address i + k) = c.getD k 0) : Steady data before y where
  source := hx.step.sameAnswers.data.trans h.source
  packed := hx.step.index ▸ hpacked
  parked := hparked
  filled := by
    rw [hx.step.index]
    intro j hj hf
    by_cases hij : i = j
    · subst hij
      exact hself (hx.self.symm.trans hf)
    · obtain ⟨c, hc, hk⟩ := h.filled j hj (hx.others j hij ▸ hf)
      refine ⟨c, hc, fun k hlt => ?_⟩
      rw [hout, hk k hlt]
      intro hci
      exact hij (Index.covers_unique hw hb (Index.mem_stored.1 hi).1 (Index.mem_stored.1 hj).1 hci
        ⟨Nat.le_add_right _ _, Nat.add_lt_add_left hlt _⟩)
  kept := by
    rw [hx.step.index]
    intro a ha
    have hi' : ¬ x.load.index.Covers i a := ha i hi (hx.self ▸ hne)
    rw [hout a hi']
    refine h.kept a fun j hj hne' => ?_
    by_cases hij : i = j
    · exact hij ▸ hi'
    · exact ha j hj (hx.others j hij ▸ hne')

theorem Steady.write (h : Steady data before x) (hw : x.load.index.WellFormed)
    (hb : RamBlock.Disjoint (x.load.index.blocks.map (·.ram))) (hi : i ∈ x.load.index.stored)
    (hx : Puts i .filled x y) (hpacked : ∀ p ∈ y.packed, p ∈ x.packed)
    (hparked : ∀ j, y.load.parked j = none) {got c : Bytes}
    (hp : x.load.index.packed? data i = some got) (hc : x.load.decode i got = .ok c)
    (hg : y.load.guest = Guest.write x.load.guest (x.load.index.address i) c) :
    Steady data before y := by
  have hcontent := content_of_decode hp hc
  have hsize : c.size = x.load.index.pageSize i := Index.size_content hw hi hcontent
  have hcopied := byte_write x.load.guest (x.load.index.address i) c
  rw [← hg] at hcopied
  apply h.update hw hb hi hx nofun (fun p hp => h.packed p (hpacked p hp)) hparked
  · intro a ha
    rw [hcopied, if_neg]
    rintro ⟨hle, hlt⟩
    exact ha ⟨hle, by omega⟩
  · refine fun _ => ⟨c, hcontent, fun k hk => ?_⟩
    rw [hcopied, if_pos ⟨by omega, by omega⟩, Nat.add_sub_cancel_left]

theorem Steady.step (ht : Tidy x) (hb : RamBlock.Disjoint (x.load.index.blocks.map (·.ram)))
    (h : Steady data before x) (hs : SweepStep x y) : Steady data before y := by
  have hw := ht.orderly.wellFormed
  have hparked : ∀ i s s' j, ((x.load.setState i s).setState i s').parked j = none :=
    fun i s => parked_setState_of_none (parked_setState_of_none h.parked i s) i
  cases hs.effect with
  | pass i ha hne hp hk =>
    refine ⟨hs.sameAnswers.data.trans h.source, ?_, fun j => (hp.parked j).trans (h.parked j),
      ?_, ?_⟩
    · rw [hp.index, hk]
      exact h.packed
    · simp only [hp.index, hp.state, hp.guest]
      exact h.filled
    · simp only [hp.index, hp.state, hp.guest]
      exact h.kept
  | fail i got stop cause guest ha he hr hc hp hk =>
    have hx : Puts i .error x y := hs.puts_next ha he (fun p hp => hk ▸ hp)
      fun j => (hp.state j).trans (state_claim_setState x.load i j guest .error)
    apply h.update hw hb (ht.ahead i (by simp [ha])) hx nofun
    · rw [hk]
      exact h.packed
    · exact fun j => (hp.parked j).trans (hparked i _ _ j)
    · exact fun a hn => hs.byte_readNext ht ha hn
    · exact nofun
  | pack i d ha he hr hz hp hk =>
    have hi : i ∈ x.load.index.stored := ht.ahead i (by simp [ha])
    have hx : Puts i .read x y := hs.puts_next ha he (fun p hp => by simp [hk, hp])
      fun j => (hp.state j).trans (state_claim_setState x.load i j x.load.guest .read)
    have hpacked := packed_of_result hi hr
    rw [h.source] at hpacked
    apply h.update hw hb hi hx nofun
    · rw [hk]
      intro p hp'
      rcases Multiset.mem_cons.1 hp' with rfl | hp'
      · exact ⟨hz, hpacked⟩
      · exact h.packed p hp'
    · exact fun j => (hp.parked j).trans (hparked i _ _ j)
    · exact fun a _ => congrArg (byte · a) hp.guest
    · exact nofun
  | fill i d ha he hr hc hp hk =>
    have hi : i ∈ x.load.index.stored := ht.ahead i (by simp [ha])
    have hx : Puts i .filled x y := hs.puts_next ha he (fun p hp => hk ▸ hp)
      fun j => (hp.state j).trans (state_claim_setState x.load i j _ .filled)
    have hpacked := packed_of_result hi hr
    rw [h.source] at hpacked
    apply h.write hw hb hi hx (fun p hp => hk ▸ hp) _ hpacked (contents_ok hc).2 hp.guest
    exact fun j => (hp.parked j).trans (hparked i _ _ j)
  | unpack i d page ha hk hc hp =>
    obtain ⟨hz, hpacked⟩ := h.packed (i, d) (by simp [hk])
    have hdecode : x.load.decode i d = .ok page := by
      simp only [decode, hz, ↓reduceIte, hc]
    have hx : Puts i .filled x y := hs.puts_packed ht ha hk
      fun j => (hp.state j).trans (state_setState_setState x.load i j .filling _ .filled)
    apply h.write hw hb (ht.stored_of_packed (p := (i, d)) (by simp [hk])) hx
      (fun p hp => by simp [hk, hp]) _ hpacked hdecode hp.guest
    exact fun j => (hp.parked j).trans (hparked i _ _ j)
  | corrupt i d cause ha hk hc hp =>
    have hx : Puts i .error x y := hs.puts_packed ht ha hk
      fun j => (hp.state j).trans (state_setState_setState x.load i j .filling _ .error)
    apply h.update hw hb (ht.stored_of_packed (p := (i, d)) (by simp [hk])) hx nofun
    · exact fun p hp' => h.packed p (by simp [hk, hp'])
    · exact fun j => (hp.parked j).trans (hparked i _ _ j)
    · exact fun a ha => (congrArg (byte · a) hp.guest).trans (byte_spoil _ _ ha)
    · exact nofun

end

theorem Fresh.steady {l : Load W} (h : l.Fresh) (order : List Nat) :
    Steady l.source.data (byte l.guest) ⟨l, order, 0⟩ where
  source := rfl
  packed p hp := by simp at hp
  parked := h.parked
  filled i hi hf := by simp [h.empty_of_stored hi] at hf
  kept _ _ := rfl

theorem Fresh.steady_sweeps {l : Load W} {order : List Nat} {x : Sweep W} (h : l.Fresh)
    (hb : RamBlock.Disjoint (l.index.blocks.map (·.ram))) (ho : l.index.InFileOrder order)
    (hs : Sweeps ⟨l, order, 0⟩ x) :
    x.load.index = l.index ∧ Tidy x ∧ Steady l.source.data (byte l.guest) x :=
  hs.keep
    (P := fun z => z.load.index = l.index ∧ Tidy z ∧ Steady l.source.data (byte l.guest) z)
    (fun _ _ hstep ⟨hi, ht, hx⟩ => ⟨hstep.index.trans hi, ht.step hstep,
      hx.step ht (hi ▸ hb) hstep⟩) ⟨rfl, h.tidy ho, h.steady order⟩

end RamRestore.Load
