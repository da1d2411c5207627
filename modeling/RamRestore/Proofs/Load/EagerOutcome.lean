import RamRestore.Proofs.Load.Faithful
import RamRestore.Proofs.Load.Report

/-! # What eager loads come to

An eager load gets to every page unless one fails, and a page fails only for what reading it
comes to. Without a failure memory is restored completely.
-/

namespace RamRestore.Load

variable {W : Type}

theorem packed_of_result {l : Load W} {i : Nat} {got : Bytes} (hi : i ∈ l.index.stored)
    (hr : (l.transfer i).result l.source = (got, .full)) :
    l.index.packed? l.source.data i = some got := by
  have hb : (l.transfer i).Brings l.index l.source.data i := brings_transfer hi
  obtain ⟨hsize, hgot⟩ := hb.holds.result_full hr
  exact Index.packed_eq_some hsize hgot

variable [Guest W] [LawfulGuest W]

open LawfulGuest

structure Upright (yield : Nat → Except LoadError Bytes) (data : Bytes) (before : Nat → UInt8)
    (x : Sweep W) : Prop where
  agrees : x.load.yield = yield
  source : x.load.source.data = data
  packed : ∀ p ∈ x.packed, x.load.index.compressed = true ∧
    (x.load.transfer p.1).result x.load.source = (p.2, .full)
  done : ∀ i ∈ x.load.index.stored, i ∉ x.ahead → x.load.state i ≠ .empty
  settled : ∀ i, x.load.state i ≠ .reading ∧ x.load.state i ≠ .filling
  read : ∀ i, x.load.state i = .read → ∃ p ∈ x.packed, p.1 = i
  filled : ∀ i ∈ x.load.index.stored, x.load.state i = .filled → ∃ c, yield i = .ok c
  error : ∀ i, x.load.state i = .error → ∃ cause, yield i = .error cause
  failure : x.load.failure ≠ none ↔ ∃ i, x.load.state i = .error
  restored : x.load.failure = none →
    x.load.index.Restored data x.load.state before (byte x.load.guest)

section

variable {x y : Sweep W} {yield : Nat → Except LoadError Bytes} {data : Bytes}
  {before : Nat → UInt8} {i : Nat}

inductive Left (yield : Nat → Except LoadError Bytes) (y : Sweep W) (i : Nat) : Prop
  | read (hs : y.load.state i = .read) (hp : ∃ p ∈ y.packed, p.1 = i)
  | filled (hs : y.load.state i = .filled) (hc : ∃ c, yield i = .ok c)
  | error (hs : y.load.state i = .error) (hc : ∃ cause, yield i = .error cause)

omit [Guest W] [LawfulGuest W] in
theorem Left.settled (h : Left yield y i) :
    y.load.state i ≠ .empty ∧ y.load.state i ≠ .reading ∧ y.load.state i ≠ .filling := by
  cases h with
  | read hs | filled hs | error hs => simp [hs]

omit [Guest W] [LawfulGuest W] in
theorem Left.explained (h : Left yield y i) :
    (y.load.state i = .read → ∃ p ∈ y.packed, p.1 = i) ∧
    (y.load.state i = .filled → ∃ c, yield i = .ok c) ∧
    (y.load.state i = .error → ∃ cause, yield i = .error cause) := by
  cases h with
  | read hs hp =>
    rw [hs]
    exact ⟨fun _ => hp, nofun, nofun⟩
  | filled hs hc =>
    rw [hs]
    exact ⟨nofun, fun _ => hc, nofun⟩
  | error hs hc =>
    rw [hs]
    exact ⟨nofun, nofun, fun _ => hc⟩

theorem Upright.update {s : PageState} (h : Upright yield data before x) (hx : Puts i s x y)
    (hp : ∀ p ∈ y.packed, x.load.index.compressed = true ∧
      (x.load.transfer p.1).result x.load.source = (p.2, .full))
    (hl : Left yield y i) (hf : y.load.failure ≠ none ↔ x.load.failure ≠ none ∨ s = .error)
    (hr : y.load.failure = none →
      x.load.index.Restored data y.load.state before (byte y.load.guest)) :
    Upright yield data before y := by
  have hi := hx.step.index
  have hs := hx.step.sameAnswers
  obtain ⟨hread, hfilled, herror⟩ := hl.explained
  constructor
  · exact (yield_congr hi hs).trans h.agrees
  · exact hs.data.trans h.source
  · intro p hp'
    rw [hi, transfer_congr hi, Transfer.result_congr hs]
    exact hp p hp'
  · intro j hjs hja
    by_cases hij : i = j
    · exact hij ▸ hl.settled.1
    · rw [hx.others j hij]
      exact h.done j (hi ▸ hjs) ((hx.ahead j hja).resolve_left (Ne.symm hij))
  · intro j
    by_cases hij : i = j
    · exact hij ▸ hl.settled.2
    · rw [hx.others j hij]
      exact h.settled j
  · intro j hj
    by_cases hij : i = j
    · subst hij
      exact hread hj
    · obtain ⟨p, hp', rfl⟩ := h.read j (hx.others j hij ▸ hj)
      exact ⟨p, hx.kept p hp' hij, rfl⟩
  · intro j hjs hj
    by_cases hij : i = j
    · subst hij
      exact hfilled hj
    · exact h.filled j (hi ▸ hjs) (hx.others j hij ▸ hj)
  · intro j hj
    by_cases hij : i = j
    · subst hij
      exact herror hj
    · exact h.error j (hx.others j hij ▸ hj)
  · rw [hf, h.failure]
    constructor
    · rintro (⟨j, hj⟩ | hself)
      · have hij : i ≠ j := by
          rintro rfl
          exact hx.sound hj
        exact ⟨j, (hx.others j hij).trans hj⟩
      · exact ⟨i, hx.self.trans hself⟩
    · rintro ⟨j, hj⟩
      by_cases hij : i = j
      · exact .inr (hx.self.symm.trans (hij ▸ hj))
      · exact .inl ⟨j, hx.others j hij ▸ hj⟩
  · intro hnone
    rw [hi]
    exact hr hnone

theorem Upright.fail {got : Bytes} {stop : Transfer.Stop} {cause : LoadError}
    (h : Upright yield data before x) (hx : Puts i .error x y) (hk : ∀ p ∈ y.packed, p ∈ x.packed)
    (hr : (x.load.transfer i).result x.load.source = (got, stop))
    (hc : x.load.contents i got stop = .error cause) (hf : y.load.failure ≠ none) :
    Upright yield data before y := by
  have hyield : yield i = .error cause := by rw [← h.agrees, yield_of_result hr, hc]
  apply h.update hx (fun p hp => h.packed p (hk p hp)) (.error hx.self ⟨cause, hyield⟩)
  · simp [hf]
  · exact fun hnone => absurd hnone hf

theorem Upright.fill {got c : Bytes} (h : Upright yield data before x) (ht : Tidy x)
    (hb : RamBlock.Disjoint (x.load.index.blocks.map (·.ram))) (hx : Puts i .filled x y)
    (hi : i ∈ x.load.index.stored) (hk : ∀ p ∈ y.packed, p ∈ x.packed)
    (hr : (x.load.transfer i).result x.load.source = (got, .full))
    (hc : x.load.contents i got .full = .ok c) (hf : y.load.failure = x.load.failure)
    (hg : y.load.guest = Guest.write x.load.guest (x.load.index.address i) c) :
    Upright yield data before y := by
  have hyield : yield i = .ok c := by rw [← h.agrees, yield_of_result hr, hc]
  have hp := packed_of_result hi hr
  rw [h.source] at hp
  have hcontent := content_of_decode hp (contents_ok hc).2
  apply h.update hx (fun p hp => h.packed p (hk p hp)) (.filled hx.self ⟨c, hyield⟩)
  · simp [hf]
  · intro hnone
    rw [hg]
    exact (h.restored (hf ▸ hnone)).fill ht.orderly.wellFormed hb hi hcontent hx.others hx.self
      (byte_write _ _ _)

theorem Upright.pass (h : Upright yield data before x) (hs : SweepStep x y)
    (ha : x.ahead = i :: y.ahead) (hne : x.load.state i ≠ .empty) (hp : SamePages x.load y.load)
    (hk : y.packed = x.packed) (hf : y.load.failure = x.load.failure) :
    Upright yield data before y := by
  have hsource := hs.sameAnswers
  constructor
  · exact (yield_congr hp.index hsource).trans h.agrees
  · exact hsource.data.trans h.source
  · intro p hp'
    rw [hp.index, transfer_congr hp.index, Transfer.result_congr hsource]
    exact h.packed p (hk ▸ hp')
  · intro j hj hja
    rw [hp.index] at hj
    rw [hp.state]
    by_cases hij : j = i
    · exact hij ▸ hne
    · exact h.done j hj (by simp [ha, hij, hja])
  · simpa only [hp.state] using h.settled
  · simpa only [hp.state, hk] using h.read
  · simpa only [hp.index, hp.state] using h.filled
  · simpa only [hp.state] using h.error
  · simpa only [hf, hp.state] using h.failure
  · intro hnone
    rw [hp.index, hp.guest]
    exact (h.restored (hf ▸ hnone)).congr (fun j _ => by rw [hp.state]) rfl

theorem Upright.step (ht : Tidy x) (hb : RamBlock.Disjoint (x.load.index.blocks.map (·.ram)))
    (h : Upright yield data before x) (hs : SweepStep x y) : Upright yield data before y := by
  cases hs.effect with
  | pass i ha hne hp hk hf => exact h.pass hs ha hne hp hk hf
  | fail i got stop cause guest ha he hr hc hp hk hf =>
    have hx : Puts i .error x y := hs.puts_next ha he (fun p hp => hk ▸ hp)
      fun j => (hp.state j).trans (state_claim_setState x.load i j guest .error)
    exact h.fail hx (fun p hp => hk ▸ hp) hr hc hf
  | pack i d ha he hr hz hp hk hf =>
    have hx : Puts i .read x y := hs.puts_next ha he (fun p hp => by simp [hk, hp])
      fun j => (hp.state j).trans (state_claim_setState x.load i j x.load.guest .read)
    apply h.update hx _ (.read hx.self ⟨(i, d), by simp [hk], rfl⟩) (by simp [hf])
    · intro hnone
      refine (h.restored (hf ▸ hnone)).congr (fun j _ => ?_) (congrArg byte hp.guest)
      rw [hx.state]
      split
      · rename_i hij
        simp [← hij, he]
      · rfl
    · intro p hp'
      rw [hk, Multiset.mem_cons] at hp'
      rcases hp' with rfl | hp'
      · exact ⟨hz, hr⟩
      · exact h.packed p hp'
  | fill i d ha he hr hc hp hk hf =>
    have hx : Puts i .filled x y := hs.puts_next ha he (fun p hp => hk ▸ hp)
      fun j => (hp.state j).trans (state_claim_setState x.load i j _ .filled)
    exact h.fill ht hb hx (ht.ahead i (by simp [ha])) (fun p hp => hk ▸ hp) hr hc hf hp.guest
  | unpack i d page ha hk hc hp hf =>
    obtain ⟨hz, hr⟩ := h.packed (i, d) (by simp [hk])
    have hcontents : x.load.contents i d .full = .ok page := by
      simp only [contents_full, decode, hz, ↓reduceIte, hc]
    have hx : Puts i .filled x y := hs.puts_packed ht ha hk
      fun j => (hp.state j).trans (state_setState_setState x.load i j .filling _ .filled)
    exact h.fill ht hb hx (ht.stored_of_packed (p := (i, d)) (by simp [hk]))
      (fun p hp => by simp [hk, hp]) hr hcontents hf hp.guest
  | corrupt i d cause ha hk hc hp hf =>
    obtain ⟨hz, hr⟩ := h.packed (i, d) (by simp [hk])
    have hcontents :
        x.load.contents i d .full = .error (.unpack (x.load.index.address i) cause) := by
      simp only [contents_full, decode, hz, ↓reduceIte, hc]
    have hx : Puts i .error x y := hs.puts_packed ht ha hk
      fun j => (hp.state j).trans (state_setState_setState x.load i j .filling _ .error)
    exact h.fail hx (fun p hp => by simp [hk, hp]) hr hcontents hf

end

theorem Fresh.upright {l : Load W} (h : l.Fresh) (hn : l.failure = none) {order : List Nat}
    (ho : l.index.InFileOrder order) :
    Upright l.yield l.source.data (byte l.guest) ⟨l, order, 0⟩ where
  agrees := rfl
  source := rfl
  packed p hp := by simp at hp
  done i hi ha := absurd (ho.mem_iff.2 hi) ha
  settled i := by rcases h.empty_or_filled i with hs | hs <;> simp [hs]
  read i hr := by rcases h.empty_or_filled i with hs | hs <;> simp [hr] at hs
  filled i hi hs := by simp [h.empty_of_stored hi] at hs
  error i he := by rcases h.empty_or_filled i with hs | hs <;> simp [he] at hs
  failure := by
    simp only [hn, ne_eq, not_true_eq_false, false_iff, not_exists]
    intro i he
    rcases h.empty_or_filled i with hs | hs <;> simp [he] at hs
  restored _ := Index.restored_start fun i hi => by simp [h.empty_of_stored hi]

theorem Fresh.upright_sweeps {l : Load W} {order : List Nat} {x : Sweep W} (h : l.Fresh)
    (hb : RamBlock.Disjoint (l.index.blocks.map (·.ram))) (ho : l.index.InFileOrder order)
    (hs : Sweeps ⟨l, order, 0⟩ x) :
    x.load.index = l.index ∧ Tidy x ∧ Upright l.yield l.source.data (byte l.guest) x :=
  hs.keep
    (P := fun z => z.load.index = l.index ∧ Tidy z ∧
      Upright l.yield l.source.data (byte l.guest) z)
    (fun _ _ hstep ⟨hi, ht, hx⟩ => ⟨hstep.index.trans hi, ht.step hstep,
      hx.step ht (hi ▸ hb) hstep⟩) ⟨rfl, h.tidy ho, h.upright h.failure ho⟩

/-- What an eager load comes to, in whatever order it is carried out. -/
structure EagerOutcome (l : Load W) (failure : Option LoadError) (m : Load W) : Prop where
  index : m.index = l.index
  orderly : Orderly ⟨m, 0⟩
  failure_iff : failure.isSome ↔ Spoilt l.yield l.index
  complete : m.complete = true
  quiet : failure = none → m.failure = none
  filled : failure = none → ∀ i ∈ l.index.stored, m.state i = .filled
  restored : failure = none →
    l.index.Restored l.source.data m.state (byte l.guest) (byte m.guest)

omit [Guest W] [LawfulGuest W] in
theorem firstFailed_eq_none {l : Load W} (h : Orderly ⟨l, 0⟩) :
    l.firstFailed? = none ↔ ∀ i, l.state i ≠ .error := by
  simp only [firstFailed?, List.find?_eq_none, List.mem_range, decide_eq_true_eq]
  constructor
  · intro hf i he
    have hlt : i < l.index.pages.size := by
      by_contra hn
      simp [h.beyond i (Nat.le_of_not_lt hn)] at he
    exact hf i hlt he
  · exact fun hf i _ => hf i

/-- When an eager load is over, it is complete or a page has failed. -/
theorem Upright.over {yield : Nat → Except LoadError Bytes} {data : Bytes} {before : Nat → UInt8}
    {x : Sweep W} (h : Upright yield data before x) (hp : x.packed = 0)
    (ha : x.load.failure = none → x.ahead = []) (he : ∀ i, x.load.state i ≠ .error) :
    x.load.failure = none ∧ ∀ i ∈ x.load.index.stored, x.load.state i = .filled := by
  have hn : x.load.failure = none := by
    by_contra hn
    obtain ⟨i, hi⟩ := h.failure.1 hn
    exact he i hi
  refine ⟨hn, fun i hi => ?_⟩
  cases hs : x.load.state i with
  | empty => exact absurd hs (h.done i hi (by simp [ha hn]))
  | reading => exact absurd hs (h.settled i).1
  | read =>
    obtain ⟨p, hp', -⟩ := h.read i hs
    simp [hp] at hp'
  | filling => exact absurd hs (h.settled i).2
  | filled => rfl
  | error => exact absurd hs (he i)

theorem LoadsEagerly.outcome {l m : Load W} {config : Config} {threads : Threads}
    {failure : Option LoadError} (hl : l.Fresh)
    (hb : RamBlock.Disjoint (l.index.blocks.map (·.ram)))
    (h : l.LoadsEagerly config threads failure m) : EagerOutcome l failure m := by
  obtain ⟨order, ho, -, returned, l', hr, hc⟩ := h
  obtain ⟨rest, hs, hrest⟩ := hr.sweeps
  obtain ⟨hi, ht, hx⟩ := hl.upright_sweeps hb ho hs
  dsimp only at hi
  have hspoilt : (∃ i, l'.state i = .error) → Spoilt l.yield l.index := by
    rintro ⟨i, he⟩
    exact ⟨i, hi ▸ ht.orderly.stored_of_state (by simp [he]) (by simp [he]), hx.error i he⟩
  -- an error is returned if and only if a page failed
  have hnone : failure = none → ∀ i, l'.state i ≠ .error := by
    intro hf
    cases hc
    simp only [Option.or_eq_none_iff, Option.map_eq_none_iff] at hf
    exact (firstFailed_eq_none ht.orderly).1 hf.2
  have hsome : failure.isSome → ∃ i, l'.state i = .error := by
    intro hf
    by_contra hne
    have hno : ∀ i, l'.state i ≠ .error := fun i hi => hne ⟨i, hi⟩
    have hfail : l'.failure = none := by
      by_contra hn
      exact hne (hx.failure.1 hn)
    cases hc
    simp [(hrest hfail).2, (firstFailed_eq_none ht.orderly).2 hno] at hf
  have hfilled : failure = none → l'.failure = none ∧ ∀ i ∈ l'.index.stored, l'.state i = .filled :=
    fun hf => hx.over rfl (fun hn => (hrest hn).1) (hnone hf)
  cases hc
  constructor
  · exact hi
  · obtain ⟨ho, -⟩ := ht
    exact ⟨ho.wellFormed, ho.requests, ho.beyond, ho.zero, ho.reading, ho.nodup⟩
  · constructor
    · intro hf
      exact hspoilt (hsome hf)
    · rintro ⟨i, his, cause, hcause⟩
      by_contra hf
      obtain ⟨c, hok⟩ := hx.filled i (hi ▸ his) ((hfilled (Option.not_isSome_iff_eq_none.1 hf)).2 i
        (hi ▸ his))
      simp [hcause] at hok
  · rfl
  · exact fun hf => (hfilled hf).1
  · intro hf i his
    exact (hfilled hf).2 i (hi ▸ his)
  · intro hf
    have := hx.restored (hfilled hf).1
    rw [hi] at this
    exact this

end RamRestore.Load
