import RamRestore.Proofs.Load.Blame

/-! # Unpacking on a pool

The workers of a pool unpack pages in any order while others are still read. When the load is over
nothing of that is left to see: it fails where a load without a pool fails, and otherwise has read
the same, in the same order, and left the same memory.
-/

namespace RamRestore

namespace Load

variable {W : Type}

/-- Two loads of one index that have read the same so far. -/
structure SameReads (l m : Load W) : Prop where
  index : m.index = l.index
  source : m.source = l.source
  calls : m.calls = l.calls
  begun : m.begun = l.begun

def fetchAll (l : Load W) (is : List Nat) : Load W :=
  is.foldl (fun l i => (l.fetch i).2.2) l

/-- An eager load has read the pages `passed` of its order, and no others. -/
structure ReadsInOrder (l : Load W) (order passed : List Nat) (x : Sweep W) : Prop where
  split : order = passed ++ x.ahead
  behind : ∀ i ∈ passed, x.load.state i ≠ .empty
  ahead : ∀ i ∈ x.ahead, x.load.state i = .empty
  reads : SameReads (l.fetchAll passed) x.load

section

variable {k l l' m : Load W} {i : Nat} {is order passed : List Nat}
  {ps : Multiset (Nat × Bytes)} {x y : Sweep W}

theorem SameReads.trans (h : SameReads k l) (h' : SameReads l m) : SameReads k m :=
  ⟨h'.index.trans h.index, h'.source.trans h.source, h'.calls.trans h.calls,
    h'.begun.trans h.begun⟩

theorem SameReads.fetch (h : SameReads l m) (i : Nat) :
    SameReads (l.fetch i).2.2 (m.fetch i).2.2 := by
  obtain ⟨hi, hs, hc, hb⟩ := h
  have ht : (m.transfer i).run m.source = (l.transfer i).run l.source := by
    rw [transfer_congr hi, hs]
  constructor
  · exact hi
  · exact congrArg Transfer.Outcome.source ht
  · change m.calls ++ ((m.transfer i).run m.source).calls = _
    rw [hc, ht]
    rfl
  · exact congrArg (Array.push · i) hb

variable [Guest W]

theorem readInPlace_reads (he : l.state i = .empty) :
    SameReads (l.fetch i).2.2 (l.readInPlace i).2 ∧ (l.readInPlace i).2.state i ≠ .empty ∧
      ∀ j, i ≠ j → (l.readInPlace i).2.state j = l.state j := by
  obtain ⟨guest, s, hs, h⟩ := readInPlace_load he
  have hstate : ∀ j, (l.readInPlace i).2.state j = if i = j then s else l.state j := by
    intro j
    rw [h]
    exact state_claim_setState l i j guest s
  refine ⟨by rw [h]; exact ⟨rfl, rfl, rfl, rfl⟩, ?_, fun j hj => (hstate j).trans (if_neg hj)⟩
  rw [hstate, if_pos rfl]
  exact hs

theorem ReadsInOrder.readNext {ps' : Multiset (Nat × Bytes)} {r : InPlace}
    (h : ReadsInOrder l order passed ⟨k, i :: is, ps⟩) (hn : order.Nodup)
    (hr : k.readInPlace i = (r, l')) (hm : SameReads l' m) (hs : m.state = l'.state) :
    ReadsInOrder l order (passed ++ [i]) ⟨m, is, ps'⟩ := by
  obtain ⟨hsplit, hpassed, hahead, hreads⟩ := h
  dsimp only at hsplit hpassed hahead hreads
  obtain ⟨hread, hself, hother⟩ := readInPlace_reads (hahead i (.head _))
  rw [hr] at hread hself hother
  dsimp only at hread hself hother
  -- page `i` is neither behind nor further ahead
  rw [hsplit] at hn
  obtain ⟨-, hrest, hdisjoint⟩ := List.nodup_append.1 hn
  constructor
  · rw [hsplit, List.append_assoc, List.singleton_append]
  · intro j hj
    dsimp only
    rw [hs]
    rcases List.mem_append.1 hj with hj | hj
    · have hij : i ≠ j := (hdisjoint j hj i (.head _)).symm
      rw [hother j hij]
      exact hpassed j hj
    · rwa [List.mem_singleton.1 hj]
  · intro j hj
    have hij : i ≠ j := by
      rintro rfl
      exact (List.nodup_cons.1 hrest).1 hj
    dsimp only
    rw [hs, hother j hij]
    exact hahead j (.tail _ hj)
  · rw [fetchAll, List.foldl_append]
    exact ((hreads.fetch i).trans hread).trans hm

theorem ReadsInOrder.unpack {ps' : Multiset (Nat × Bytes)} {data : Bytes}
    {failure : Option LoadError} (h : ReadsInOrder l order passed ⟨k, is, ps⟩)
    (hi : k.state i ≠ .empty) (hu : k.unpackInPlace i data = (failure, l')) :
    ReadsInOrder l order passed ⟨l'.recordAny failure, is, ps'⟩ := by
  obtain ⟨guest, s, hs, rfl⟩ : ∃ guest s, s ≠ .empty ∧
      l' = ((k.setState i .filling).onGuest guest).setState i s := by
    unfold unpackInPlace at hu
    dsimp only at hu
    split at hu
    · cases hu
      exact ⟨_, .filled, nofun, rfl⟩
    · cases hu
      exact ⟨_, .error, nofun, rfl⟩
  obtain ⟨hsplit, hpassed, hahead, hreads⟩ := h
  dsimp only at hpassed hahead hreads
  have hpages := samePages_recordAny (((k.setState i .filling).onGuest guest).setState i s) failure
  have hstate : ∀ j, (((((k.setState i .filling).onGuest guest).setState i s)).recordAny
      failure).state j = if i = j then s else k.state j :=
    fun j => (hpages.state j).trans (state_setState_setState k i j .filling guest s)
  refine ⟨hsplit, fun j hj => ?_, fun j hj => ?_, hreads.trans ?_⟩
  · rw [hstate]
    split
    · exact hs
    · exact hpassed j hj
  · have hij : i ≠ j := by
      rintro rfl
      exact hi (hahead i hj)
    rw [hstate, if_neg hij]
    exact hahead j hj
  · cases failure <;> exact ⟨rfl, rfl, rfl, rfl⟩

theorem ReadsInOrder.step (h : ReadsInOrder l order passed x) (hn : order.Nodup) (ht : Tidy x)
    (hs : SweepStep x y) : ∃ passed', ReadsInOrder l order passed' y := by
  cases hs with
  | settled hr | packed hr | failed hr => exact ⟨_, h.readNext hn hr ⟨rfl, rfl, rfl, rfl⟩ rfl⟩
  | @unpack k l' i is ps data failure hu =>
    have hread : k.state i = .read := ht.read (i, data) (Multiset.mem_cons_self _ _)
    exact ⟨passed, h.unpack (by simp [hread]) hu⟩

theorem Fresh.readsInOrder (hl : l.Fresh) (hi : l.index.InFileOrder order)
    (hs : Sweeps ⟨l, order, 0⟩ x) : ∃ passed, ReadsInOrder l order passed x :=
  (hs.keep (P := fun z => Tidy z ∧ ∃ passed, ReadsInOrder l order passed z)
    (fun _ _ hstep ⟨ht, _, h⟩ => ⟨ht.step hstep, h.step hi.nodup ht hstep⟩)
    ⟨hl.tidy hi, [], rfl, nofun, hl.empty_of_inFileOrder hi, rfl, rfl, rfl, rfl⟩).2

/-- An eager load goes through the pages in steps, and only leaves out some of them when it has
failed. -/
theorem LoadsInOrder.sweeps {config : Config} {threads : Threads} {failure : Option LoadError}
    (h : l.LoadsInOrder config threads order failure m) : ∃ l' rest, m = l'.markComplete ∧
      Sweeps ⟨l, order, 0⟩ ⟨l', rest, 0⟩ ∧ (l'.failure = none → rest = []) := by
  obtain ⟨returned, l', hr, hc⟩ := h.reads
  obtain ⟨rest, hs, hrest⟩ := hr.sweeps
  cases hc
  exact ⟨l', rest, rfl, hs, fun hn => (hrest hn).1⟩

variable [LawfulGuest W] {config : Config} {threads : Threads} {failure : Option LoadError}

open LawfulGuest

/-- An eager load that succeeds has read every page, in order. -/
theorem LoadsInOrder.sameReads (hl : l.Fresh)
    (hb : RamBlock.Disjoint (l.index.blocks.map (·.ram)))
    (h : l.LoadsInOrder config threads order none m) : SameReads (l.fetchAll order) m := by
  have hquiet := (LoadsEagerly.outcome hl hb ⟨order, h⟩).quiet rfl
  obtain ⟨l', rest, rfl, hs, hrest⟩ := h.sweeps
  obtain ⟨passed, hsplit, -, -, hreads⟩ := hl.readsInOrder h.sorted hs
  obtain rfl := hrest hquiet
  rw [hsplit, List.append_nil]
  exact hreads.trans ⟨rfl, rfl, rfl, rfl⟩

theorem LoadsInOrder.settled (hl : l.Fresh)
    (hb : RamBlock.Disjoint (l.index.blocks.map (·.ram)))
    (h : l.LoadsInOrder config threads order failure m) (i : Nat) :
    m.state i ≠ .reading ∧ m.state i ≠ .read ∧ m.state i ≠ .filling := by
  obtain ⟨l', rest, rfl, hs, -⟩ := h.sweeps
  obtain ⟨-, -, hx⟩ := hl.upright_sweeps hb h.sorted hs
  refine ⟨(hx.settled i).1, fun hread => ?_, (hx.settled i).2⟩
  obtain ⟨p, hp, -⟩ := hx.read i hread
  exact Multiset.notMem_zero p hp

/-- The pages before all that cannot be loaded are filled. -/
theorem LoadsInOrder.filled_before {done rest : List Nat} (hl : l.Fresh)
    (hb : RamBlock.Disjoint (l.index.blocks.map (·.ram)))
    (h : l.LoadsInOrder config threads order failure m) (ho : order = done ++ rest)
    (hy : ∀ i ∈ done, ∃ c, l.yield i = .ok c) (hi : i ∈ done) : m.state i = .filled := by
  have hsettled := h.settled hl hb i
  obtain ⟨l', rest', rfl, hs, hrest⟩ := h.sweeps
  obtain ⟨hindex, ht, hx⟩ := hl.upright_sweeps hb h.sorted hs
  obtain ⟨passed, hsplit, hpassed, hahead, -⟩ := hl.readsInOrder h.sorted hs
  dsimp only at hindex hsplit hpassed hahead
  have hstored : ∀ {j}, j ∈ order ↔ j ∈ l'.index.stored := by
    intro j
    rw [hindex]
    exact h.sorted.mem_iff
  have hgood : ∀ j ∈ done, l'.state j ≠ .error := by
    intro j hj he
    obtain ⟨c, hc⟩ := hy j hj
    obtain ⟨cause, hcause⟩ := hx.error j he
    cases hc.symm.trans hcause
  cases hi' : l'.state i with
  | filled => exact hi'
  | error => exact absurd hi' (hgood i hi)
  | reading => exact absurd hi' hsettled.1
  | read => exact absurd hi' hsettled.2.1
  | filling => exact absurd hi' hsettled.2.2
  | empty =>
    -- the load has not come to page `i`, so it has not come to any that fails
    exfalso
    have hfailure : l'.failure = none := by
      by_contra hf
      obtain ⟨j, hj⟩ := hx.failure.1 hf
      have hjs : j ∈ l'.index.stored :=
        ht.orderly.stored_of_state (by simp [hj]) (by simp [hj])
      have hjp : j ∈ passed := by
        refine (List.mem_append.1 (hsplit ▸ hstored.2 hjs)).resolve_right fun hja => ?_
        cases hj.symm.trans (hahead j hja)
      rcases List.append_eq_append_iff.1 (ho.symm.trans hsplit) with
        ⟨more, rfl, -⟩ | ⟨more, rfl, -⟩
      · exact hpassed i (List.mem_append_left _ hi) hi'
      · exact hgood j (List.mem_append_left _ hjp) hj
    obtain rfl := hrest hfailure
    rw [List.append_nil] at hsplit
    exact hpassed i (hsplit ▸ ho ▸ List.mem_append_left _ hi) hi'

theorem EagerOutcome.state_eq {m m' : Load W} (h : EagerOutcome l none m)
    (h' : EagerOutcome l none m') : m.state = m'.state := by
  funext i
  by_cases hlt : i < l.index.pages.size
  · cases hz : (l.index.page i).isZero with
    | false =>
      have hi : i ∈ l.index.stored := Index.mem_stored.2 ⟨hlt, hz⟩
      rw [h.filled rfl i hi, h'.filled rfl i hi]
    | true =>
      have hm := h.orderly.zero i
      have hm' := h'.orderly.zero i
      rw [h.index] at hm
      rw [h'.index] at hm'
      rw [hm hlt hz, hm' hlt hz]
  · have hle : l.index.pages.size ≤ i := Nat.le_of_not_lt hlt
    have hm := h.orderly.beyond i
    have hm' := h'.orderly.beyond i
    rw [h.index] at hm
    rw [h'.index] at hm'
    rw [hm hle, hm' hle]

end

end Load

namespace Loader

variable {W : Type} [Guest W]

open Load LawfulGuest

/-- The same loader without workers. -/
def inline (l : Loader W) : Loader W :=
  { l with config := { l.config with decompressThreads := some 0 } }

variable [LawfulGuest W]

/-- What an eager load with workers comes to, next to one without workers in the same order. -/
structure AgreesWithInline (l : Loader W) (order : List Nat) (failure' : Option LoadError)
    (m' : Load W) (failure : Option LoadError) (m : Load W) : Prop where
  returned : failure = none ↔ failure' = none
  index : m.index = m'.index
  memory : failure = none → byte m.guest = byte m'.guest
  state : failure = none → m.state = m'.state
  calls : failure = none → m.calls = m'.calls
  begun : failure = none → m.begun = m'.begun
  /-- The error to return names a page that cannot be loaded. -/
  named : ∀ e, failure = some e →
    ∃ j cause, e = .pageFailed (m.index.address j) ∧ m.FailedFor l.source j cause
  /-- All pages before the first one that cannot be loaded are there. -/
  filled : failure ≠ none → ∃ done j rest cause, order = done ++ j :: rest ∧
    m.index.Spoils l.source j cause ∧ ∀ i ∈ done, (∀ cause, ¬ m.index.Spoils l.source i cause) ∧
      m.state i = .filled ∧ m.index.Holds l.source.data l.zeroChecker (byte m.guest) i
  settled : ∀ i, m.state i ≠ .reading ∧ m.state i ≠ .read ∧ m.state i ≠ .filling

variable {l : Loader W} {m₀ m m' : Load W} {failure failure' : Option LoadError}
  {order : List Nat}

theorem filled_of_loadsInOrder {done rest : List Nat} {i : Nat} (ho : l.opened? = some m₀)
    (hb : RamBlock.Disjoint l.blocks)
    (h : m₀.LoadsInOrder l.config l.threads (done ++ rest) failure m)
    (hy : ∀ i ∈ done, ∃ c, m₀.yield i = .ok c) (hi : i ∈ done) :
    m.state i = .filled ∧ m.index.Holds l.source.data l.zeroChecker (byte m.guest) i := by
  obtain ⟨hf, hblocks⟩ := opened_fresh ho
  have hfilled := h.filled_before hf (hblocks ▸ hb) rfl hy hi
  have hsorted := h.sorted
  obtain ⟨l', rest', rfl, hs, -⟩ := h.sweeps
  obtain ⟨hindex, -, hmem⟩ := memory_of_sweeps ho hb hsorted hs
  have hlt : i < m₀.index.pages.size :=
    (Index.mem_stored.1 (hsorted.mem_iff.1 (List.mem_append_left _ hi))).1
  refine ⟨hfilled, ?_⟩
  have hholds := (hmem i hlt).1 hfilled
  rwa [← hindex] at hholds

theorem agreesWithInline (ho : l.opened? = some m₀) (hb : RamBlock.Disjoint l.blocks)
    (hinline : m₀.LoadsInOrder l.inline.config l.threads order failure' m')
    (h : m₀.LoadsInOrder l.config l.threads order failure m) :
    l.AgreesWithInline order failure' m' failure m := by
  obtain ⟨hf, hblocks⟩ := opened_fresh ho
  have hb' : RamBlock.Disjoint (m₀.index.blocks.map (·.ram)) := hblocks ▸ hb
  have hsource := opened_source ho
  have hout' := LoadsEagerly.outcome hf hb' ⟨order, hinline⟩
  have hout := LoadsEagerly.outcome hf hb' ⟨order, h⟩
  have hreturned : failure = none ↔ failure' = none := by
    rw [← Option.not_isSome_iff_eq_none, ← Option.not_isSome_iff_eq_none, hout.failure_iff,
      hout'.failure_iff]
  -- where one of them succeeds, so does the other
  have hsame : failure = none → byte m.guest = byte m'.guest ∧ m.state = m'.state ∧
      SameReads m' m := by
    intro hn
    have hn' := hreturned.1 hn
    subst hn hn'
    have hr := h.sameReads hf hb'
    have hr' := hinline.sameReads hf hb'
    exact ⟨restored_unique (hout'.restored rfl) (hout.restored rfl) (hout'.filled rfl)
        (hout.filled rfl), hout.state_eq hout', hr.index.trans hr'.index.symm,
      hr.source.trans hr'.source.symm, hr.calls.trans hr'.calls.symm,
      hr.begun.trans hr'.begun.symm⟩
  constructor
  · exact hreturned
  · exact hout.index.trans hout'.index.symm
  · exact fun hn => (hsame hn).1
  · exact fun hn => (hsame hn).2.1
  · exact fun hn => (hsame hn).2.2.calls
  · exact fun hn => (hsame hn).2.2.begun
  · rintro e rfl
    obtain ⟨-, j, k, cause, ⟨hnamed, ⟨c, hj⟩, -⟩, -⟩ := hf.explained ⟨order, h⟩
    exact ⟨j, c, hnamed, hj.congr hsource.symm⟩
  · intro hn
    rcases all_or_first (fun i => ∃ c, m₀.yield i = .ok c) order with
      hy | ⟨done, j, rest, rfl, hy, hbad⟩
    · obtain ⟨i, hi, cause, hcause⟩ := hout.failure_iff.1 (Option.isSome_iff_ne_none.2 hn)
      obtain ⟨c, hc⟩ := hy i (h.sorted.mem_iff.2 hi)
      cases hc.symm.trans hcause
    · rw [yield_ok_iff, not_forall_not] at hbad
      obtain ⟨cause, hspoils⟩ := hbad
      rw [hout.index]
      refine ⟨done, j, rest, cause, rfl, hspoils.congr hsource.symm, fun i hi => ⟨?_, ?_⟩⟩
      · exact fun cause hs => yield_ok_iff.1 (hy i hi) cause (hs.congr hsource)
      · rw [← hout.index]
        exact filled_of_loadsInOrder ho hb h hy hi
  · exact h.settled hf hb'

/-- Workers make no difference to an eager load. However their steps and those of the reading
thread follow each other, they come to an end, and what they come to then agrees with the load that
reads and unpacks one page after the other, in whatever order the pages are that lie at one
position. A start is such a load, unless it is refused its workers: then it fails for that and has
read nothing. -/
theorem workers_agree_with_inline (ho : l.opened? = some m₀) (hb : RamBlock.Disjoint l.blocks)
    (hl : l.isLazy m₀.guest = false) :
    (∀ order workers, (m₀.pool order workers).Settles unpacking) ∧
      (∀ order failure' m' failure m,
        m₀.LoadsInOrder l.inline.config l.inline.threads order failure' m' →
        m₀.LoadsInOrder l.config l.threads order failure m →
          l.AgreesWithInline order failure' m' failure m) ∧
      ∃ order m' m, l.inline.start.2.load? = some m' ∧ l.start.2.load? = some m ∧
        m₀.LoadsInOrder l.inline.config l.inline.threads order l.inline.start.1 m' ∧
        (m₀.LoadsInOrder l.config l.threads order l.start.1 m ∨
          l.StartsWithoutPool l.start.1 m) := by
  refine ⟨fun order workers => (Pool.sound_ofProgram _ _ _ _).settles,
    fun _ _ _ _ _ hinline h => agreesWithInline ho hb hinline h, ?_⟩
  have ho' : l.inline.opened? = some m₀ := ho
  obtain ⟨m', hm'⟩ := exists_load_of_opened ho'
  obtain ⟨m, hm⟩ := exists_load_of_opened ho
  have hinline := loadsInOrder_start ho' hl (not_lacksPool_of_inline (.inr rfl)) hm'
  refine ⟨_, m', m, hm', hm, hinline, ?_⟩
  by_cases hw : ∃ cause, m₀.LacksPool l.config l.threads cause
  · exact .inr (startsWithoutPool_start ho hl hw hm)
  · rw [not_exists] at hw
    exact .inl (loadsInOrder_start ho hl hw hm)

def packedSample : Loader PlainWatch :=
  { Loader.ofSource { loadType := .eager, decompressThreads := some 2 } (fun _ => false) true
      (.ofBytes #[0, 0, 0, 0, 0, 0, 0, 10, 16, 7, 0, 0, 0, 1, 0, 0, 0, 1, 0, 0, 0, 2, 1, 97, 0, 0,
        0, 2, 2, 0, 0])
      { memory := .filled 5 } with
    blocks := [⟨"a", 16, 2, 1⟩] }

theorem workers_agree_with_inline_sample :
    ∃ m' m, packedSample.inline.start.2.load? = some m' ∧ packedSample.start.2.load? = some m ∧
      packedSample.start.1 = none ∧ byte m.guest = byte m'.guest := by
  let m₀ := packedSample.opened?.get (by decide +kernel)
  have ho : packedSample.opened? = some m₀ := (Option.some_get _).symm
  obtain ⟨-, hagree, order, m', m, hm', hm, hinline, h | h⟩ :=
    workers_agree_with_inline ho ⟨by decide, List.pairwise_singleton _ _⟩ (by decide +kernel)
  · have hx := hagree order _ m' _ m hinline h
    have hnone := hx.returned.2 (by decide +kernel)
    exact ⟨m', m, hm', hm, hnone, hx.memory hnone⟩
  · obtain ⟨_, _, _, _, hrefused⟩ := h.refused
    cases hrefused

def refusedSample : Loader PlainWatch :=
  { packedSample with threads := { refusesPool := fun _ => some .noThreads } }

/-- A start that asks for workers can fail where the same start without workers does not. -/
theorem workers_refused : ¬ ∀ (l : Loader PlainWatch) (m₀ : Load PlainWatch), l.opened? = some m₀ →
    RamBlock.Disjoint l.blocks → l.isLazy m₀.guest = false → m₀.index.compressed = true →
      (l.start.1 = none ↔ l.inline.start.1 = none) := by
  intro h
  have hiff := h refusedSample (refusedSample.opened?.get (by decide +kernel))
    (Option.some_get _).symm ⟨by decide, List.pairwise_singleton _ _⟩ (by decide +kernel)
    (by decide +kernel)
  have hfails : refusedSample.start.1 ≠ none := by decide +kernel
  exact hfails (hiff.2 (by decide +kernel))

end Loader
end RamRestore
