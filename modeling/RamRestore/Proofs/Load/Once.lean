import RamRestore.Proofs.Load.Completion
import RamRestore.Proofs.Registration

/-! # Once for every page

Whatever happens to a load, each page is claimed once at most, one transfer at most begins
for it, and it is handed to the guest once at most. The state of a page says which of these
have happened.
-/

namespace RamRestore.Load

variable {W : Type}

def claims (l : Load W) (i : Nat) : Nat := l.moves.count (i, .reading)

def reads (l : Load W) (i : Nat) : Nat := l.begun.count i

def fills (l : Load W) (i : Nat) : Nat := l.placed.countP (·.page = i)

/-- What has happened to the pages, as their states tell it. -/
structure Tally (l : Load W) : Prop where
  claims : ∀ i, l.claims i = if i ∈ l.index.stored ∧ l.state i ≠ .empty then 1 else 0
  reads : ∀ i, l.reads i = if i ∈ l.index.stored ∧ l.state i ≠ .empty then 1 else 0
  fills : ∀ i, l.fills i ≤ if i ∈ l.index.stored ∧ (l.state i).isTerminal then 1 else 0
  address : ∀ p ∈ l.placed, p.address = l.index.address p.page

section

variable {l m : Load W} {i j : Nat} {s : PageState}

theorem claims_setState (l : Load W) (i j : Nat) (s : PageState) :
    (l.setState i s).claims j = l.claims j + if i = j ∧ s = .reading then 1 else 0 := by
  simp [claims, setState, Array.count_push]

theorem claims_claim (l : Load W) (i j : Nat) :
    (l.claim i).claims j = l.claims j + if i = j then 1 else 0 := by
  have h := claims_setState l i j .reading
  simp only [and_true] at h
  exact h

theorem reads_claim (l : Load W) (i j : Nat) :
    (l.claim i).reads j = l.reads j + if i = j then 1 else 0 := by
  simp [reads, claim, beginTransfer, setState, Array.count_push]

theorem Tally.congr (h : Tally l) (hi : m.index = l.index) (hs : ∀ i, m.state i = l.state i)
    (hm : m.moves = l.moves) (hb : m.begun = l.begun) (hp : m.placed = l.placed) : Tally m := by
  constructor
  · intro i
    simpa only [Load.claims, hi, hs, hm] using h.claims i
  · intro i
    simpa only [Load.reads, hi, hs, hb] using h.reads i
  · intro i
    simpa only [Load.fills, hi, hs, hp] using h.fills i
  · intro p hp'
    rw [hi]
    exact h.address p (hp ▸ hp')

theorem Tally.samePages (h : Tally l) (hp : SamePages l m) : Tally m :=
  h.congr hp.index hp.state hp.moves hp.begun hp.placed

/-- Claiming a page that is empty and has to be read is the first thing that happens to it. -/
theorem Tally.claim (h : Tally l) (hi : i ∈ l.index.stored) (he : l.state i = .empty) :
    Tally (l.claim i) := by
  constructor
  · intro j
    change _ = if j ∈ l.index.stored ∧ _ then 1 else 0
    rw [claims_claim, state_claim, h.claims]
    by_cases hij : i = j
    · simp [← hij, hi, he]
    · simp [hij]
  · intro j
    change _ = if j ∈ l.index.stored ∧ _ then 1 else 0
    rw [reads_claim, state_claim, h.reads]
    by_cases hij : i = j
    · simp [← hij, hi, he]
    · simp [hij]
  · intro j
    change l.fills j ≤ if j ∈ l.index.stored ∧ _ then 1 else 0
    have hf := h.fills j
    rw [state_claim]
    by_cases hij : i = j
    · simpa [← hij, he, PageState.isTerminal] using hf
    · simpa [hij] using hf
  · exact h.address

theorem Tally.setState (h : Tally l) (hc : l.state i ≠ .empty) (hs : s ≠ .empty)
    (hr : s ≠ .reading) (ht : (l.state i).isTerminal → s.isTerminal) : Tally (l.setState i s) := by
  constructor
  · intro j
    change _ = if j ∈ l.index.stored ∧ _ then 1 else 0
    rw [claims_setState, state_setState, h.claims]
    by_cases hij : i = j
    · simp [← hij, hs, hr, hc]
    · simp [hij]
  · intro j
    change l.reads j = if j ∈ l.index.stored ∧ _ then 1 else 0
    rw [state_setState, h.reads]
    by_cases hij : i = j
    · simp [← hij, hs, hc]
    · simp [hij]
  · intro j
    change l.fills j ≤ if j ∈ l.index.stored ∧ _ then 1 else 0
    have hf := h.fills j
    rw [state_setState]
    by_cases hij : i = j
    · subst hij
      apply Nat.le_trans hf
      simp only [↓reduceIte]
      split
      · rename_i h'
        rw [if_pos ⟨h'.1, ht h'.2⟩]
      · exact Nat.zero_le _
    · simpa [hij] using hf
  · exact h.address

theorem Tally.park (h : Tally l) (hc : l.state i = .reading) (contents : Bytes) :
    Tally (l.park i contents) := by
  have hs : Tally (l.setState i .read) := by
    apply h.setState <;> simp [hc, PageState.isTerminal]
  refine hs.congr rfl ?_ rfl rfl rfl
  intro j
  rw [state_park, state_setState]

variable [Guest W]

theorem claims_fill (l : Load W) (i j : Nat) (c : Bytes) :
    (l.fill i c).2.claims j = l.claims j := by
  have hs : (if (l.fill i c).1.isNone then PageState.filled else .error) ≠ .reading := by
    split <;> simp
  simp only [claims, moves_fill, Array.count_push, beq_iff_eq, Prod.mk.injEq, reduceCtorEq,
    and_false, hs, ↓reduceIte, Nat.add_zero]

theorem reads_fill (l : Load W) (i j : Nat) (c : Bytes) : (l.fill i c).2.reads j = l.reads j := by
  rw [fill_eq]
  rfl

theorem fills_fill (l : Load W) (i j : Nat) (c : Bytes) :
    (l.fill i c).2.fills j = l.fills j + if i = j then 1 else 0 := by
  simp only [fills, placed_fill, Array.countP_push, decide_eq_true_eq]

theorem Tally.fill (h : Tally l) (hi : i ∈ l.index.stored) (hc : l.state i ≠ .empty)
    (ht : (l.state i).isTerminal = false) (c : Bytes) : Tally (l.fill i c).2 := by
  have hstate := state_fill l i (c := c)
  generalize hs : (if (l.fill i c).1.isNone then PageState.filled else .error) = s at hstate
  have hs' : s ≠ .empty ∧ s ≠ .reading ∧ s.isTerminal = true := by
    rw [← hs]
    split <;> simp [PageState.isTerminal]
  constructor
  · intro j
    rw [claims_fill, index_fill, hstate, h.claims]
    by_cases hij : i = j
    · simp [← hij, hs', hc]
    · simp [hij]
  · intro j
    rw [reads_fill, index_fill, hstate, h.reads]
    by_cases hij : i = j
    · simp [← hij, hs', hc]
    · simp [hij]
  · intro j
    have hf := h.fills j
    rw [fills_fill, index_fill, hstate]
    by_cases hij : i = j
    · subst hij
      simp only [ht, Bool.false_eq_true, and_false, ↓reduceIte, Nat.le_zero_eq] at hf
      simp [hf, hi, hs'.2.2]
    · simpa [hij] using hf
  · intro p hp
    rw [index_fill]
    rw [placed_fill, Array.mem_push] at hp
    rcases hp with hp | rfl
    · exact h.address p hp
    · rfl

variable {E : Surroundings} {x y : Session W}

theorem Tally.move (hx : Orderly x) (h : Tally x.load) (hm : Move E x y) : Tally y.load := by
  have hstored : ∀ i, x.load.state i = .reading ∨ x.load.state i = .read →
      i ∈ x.load.index.stored := by
    rintro i (hs | hs) <;> exact hx.stored_of_state (by simp [hs]) (by simp [hs])
  cases hm.pageStep with
  | stay hp | advance _ _ _ _ _ _ _ hp | abandon _ _ _ hp => exact h.samePages hp
  | claim i hl he hp => exact (h.claim (hx.stored_of_claim hl he) he).samePages hp
  | park i t got c stop cs s ht _ _ hp =>
    have hr : x.load.state i = .reading := hx.reading (i, t) (by simp [ht])
    exact (h.park hr c).samePages hp
  | fail i t got cause stop cs s ht _ _ hp =>
    have hr : x.load.state i = .reading := hx.reading (i, t) (by simp [ht])
    have hs : Tally (x.load.setState i .error) := by
      apply h.setState <;> simp [hr, PageState.isTerminal]
    exact hs.samePages hp
  | fill i t got c stop cs s ht _ _ hp =>
    have hr : x.load.state i = .reading := hx.reading (i, t) (by simp [ht])
    exact (h.fill (hstored i (.inl hr)) (by simp [hr]) (by simp [hr, PageState.isTerminal])
      c).samePages hp
  | fillParked i c hs _ hp =>
    exact (h.fill (hstored i (.inr hs)) (by simp [hs]) (by simp [hs, PageState.isTerminal])
      c).samePages hp
  | lose i hs _ hp =>
    have he : Tally (x.load.setState i .error) := by
      apply h.setState <;> simp [hs, PageState.isTerminal]
    exact he.samePages hp

theorem Tally.run (hx : Orderly x) (h : Tally x.load) (hs : Moves E x y) : Tally y.load :=
  (hs.keep (P := fun z => Orderly z ∧ Tally z.load)
    (fun _ _ hm hz => ⟨hz.1.move hm, hz.2.move hz.1 hm⟩) ⟨hx, h⟩).2

theorem Tally.sweep {x y : Sweep W} (hx : Tidy x) (h : Tally x.load) (hs : SweepStep x y) :
    Tally y.load := by
  -- whatever becomes of the guest, a page that is read or unpacked goes on from there
  have hread : ∀ i guest s, x.ahead = i :: y.ahead → x.load.state i = .empty → s ≠ .empty →
      s ≠ .reading → Tally (((x.load.claim i).onGuest guest).setState i s) := by
    intro i guest s ha he hs hr
    have ht : Tally ((x.load.claim i).onGuest guest) :=
      (h.claim (hx.ahead i (by simp [ha])) he).congr rfl (fun _ => rfl) rfl rfl rfl
    have hi : ((x.load.claim i).onGuest guest).state i = .reading :=
      (state_claim x.load i i).trans (if_pos rfl)
    apply ht.setState <;> simp [hi, hs, hr, PageState.isTerminal]
  have hwork : ∀ i data guest s, x.packed = (i, data) ::ₘ y.packed → s ≠ .empty →
      s ≠ .reading → Tally (((x.load.setState i .filling).onGuest guest).setState i s) := by
    intro i data guest s hk hs hr
    have hi : x.load.state i = .read := hx.read (i, data) (by simp [hk])
    have hf : Tally (x.load.setState i .filling) := by
      apply h.setState <;> simp [hi, PageState.isTerminal]
    have ht : Tally ((x.load.setState i .filling).onGuest guest) :=
      hf.congr rfl (fun _ => rfl) rfl rfl rfl
    have hi' : ((x.load.setState i .filling).onGuest guest).state i = .filling :=
      (state_setState x.load i i .filling).trans (if_pos rfl)
    apply ht.setState <;> simp [hi', hs, hr, PageState.isTerminal]
  cases hs.effect with
  | pass _ _ _ hp => exact h.samePages hp
  | fail i _ _ _ guest ha he _ _ hp =>
    exact (hread i guest .error ha he (by simp) (by simp)).samePages hp
  | pack i _ ha he _ _ hp =>
    exact (hread i x.load.guest .read ha he (by simp) (by simp)).samePages hp
  | fill i _ ha he _ _ hp => exact (hread i _ .filled ha he (by simp) (by simp)).samePages hp
  | unpack i data _ _ hk _ hp =>
    exact (hwork i data _ .filled hk (by simp) (by simp)).samePages hp
  | corrupt i data _ _ hk _ hp =>
    exact (hwork i data _ .error hk (by simp) (by simp)).samePages hp

/-- A page that was filled lazily was handed to the guest and accepted. -/
def Delivered (l : Load W) : Prop :=
  ∀ i ∈ l.index.stored, l.state i = .filled → ∃ p ∈ l.placed, p.page = i ∧ p.accepted = true

omit [Guest W] in
theorem Delivered.of_placed (h : Delivered l) (hi : m.index = l.index) (hp : m.placed = l.placed)
    (hs : ∀ j, m.state j = .filled → l.state j = .filled) : Delivered m := by
  intro j hj hf
  rw [hp]
  exact h j (hi ▸ hj) (hs j hf)

theorem Delivered.fill (h : Delivered l) (c : Bytes) : Delivered (l.fill i c).2 := by
  intro j hj hf
  rw [index_fill] at hj
  rw [state_fill] at hf
  simp only [placed_fill, Array.mem_push]
  split at hf
  · rename_i hij
    split at hf
    · exact ⟨_, .inr rfl, hij, ‹_›⟩
    · simp at hf
  · obtain ⟨p, hp, hpj⟩ := h j hj hf
    exact ⟨p, .inl hp, hpj⟩

omit [Guest W] in
theorem Delivered.samePages (h : Delivered l) (hp : SamePages l m) : Delivered m :=
  h.of_placed hp.index hp.placed fun j hj => hp.state j ▸ hj

omit [Guest W] in
theorem Delivered.setState (h : Delivered l) (hs : s ≠ .filled) : Delivered (l.setState i s) := by
  refine h.of_placed rfl rfl fun j hj => ?_
  rw [state_setState] at hj
  split at hj
  · exact absurd hj hs
  · exact hj

theorem Delivered.move (h : Delivered x.load) (hm : Move E x y) : Delivered y.load := by
  cases hm.pageStep with
  | stay hp | advance _ _ _ _ _ _ _ hp | abandon _ _ _ hp => exact h.samePages hp
  | claim i _ _ hp =>
    have hc : Delivered (x.load.setState i .reading) := h.setState nofun
    exact Delivered.samePages (l := x.load.claim i) hc hp
  | park i _ _ c _ _ _ _ _ _ hp =>
    have hk : Delivered (x.load.park i c) := by
      refine h.of_placed rfl rfl fun j hj => ?_
      rw [state_park] at hj
      split at hj
      · simp at hj
      · exact hj
    exact hk.samePages hp
  | fail _ _ _ _ _ _ _ _ _ _ hp | lose _ _ _ hp =>
    exact (h.setState (s := .error) nofun).samePages hp
  | fill _ _ _ c _ _ _ _ _ _ hp => exact (h.fill c).samePages hp
  | fillParked _ c _ _ hp => exact (h.fill c).samePages hp

theorem Delivered.run (h : Delivered x.load) (hs : Moves E x y) : Delivered y.load :=
  hs.keep (P := fun z => Delivered z.load) (fun _ _ hm hz => hz.move hm) h

end

/-- How often a page was handed to the guest for an address. -/
def fillsAt (l : Load W) (a : Nat) : Nat := l.placed.countP (·.address = a)

section

variable {l : Load W} {i : Nat}

theorem Fresh.tally (h : l.Fresh) : Tally l := by
  have hstate : ∀ i, ¬(i ∈ l.index.stored ∧ l.state i ≠ .empty) :=
    fun i ⟨hi, hne⟩ => hne (h.empty_of_stored hi)
  constructor
  · intro i
    rw [if_neg (hstate i)]
    simp [claims, h.moves]
  · intro i
    rw [if_neg (hstate i)]
    simp [reads, h.begun]
  · intro i
    simp [fills, h.placed]
  · intro p hp
    simp [h.placed] at hp

theorem Fresh.delivered (h : l.Fresh) : Delivered l := by
  intro i hi hf
  rw [h.empty_of_stored hi] at hf
  cases hf

theorem Tally.claims_le (h : Tally l) (i : Nat) : l.claims i ≤ 1 := by
  rw [h.claims]
  split <;> decide

theorem Tally.reads_le (h : Tally l) (i : Nat) : l.reads i ≤ 1 := by
  rw [h.reads]
  split <;> decide

theorem Tally.fills_le (h : Tally l) (i : Nat) : l.fills i ≤ 1 := by
  apply Nat.le_trans (h.fills i)
  split <;> decide

theorem Tally.untouched (h : Tally l) (hi : i ∉ l.index.stored) :
    l.claims i = 0 ∧ l.reads i = 0 ∧ l.fills i = 0 := by
  have hf := h.fills i
  simp only [hi, false_and, ↓reduceIte, Nat.le_zero_eq] at hf
  exact ⟨by simp [h.claims, hi], by simp [h.reads, hi], hf⟩

theorem Tally.mem_stored (h : Tally l) {p : Placement} (hp : p ∈ l.placed) :
    p.page ∈ l.index.stored := by
  by_contra hn
  have hf := (h.untouched hn).2.2
  simp only [Load.fills, Array.countP_eq_zero] at hf
  simpa using hf p hp

/-- If no other page goes to the address of page `i`, what is handed over there is page `i`. -/
theorem Tally.fillsAt_eq (h : Tally l) (hu : l.index.SoleAt i) :
    l.fillsAt (l.index.address i) = l.fills i := by
  apply Array.countP_congr
  intro p hp
  have ha := h.address p hp
  simp only [decide_eq_true_eq]
  constructor
  · intro he
    exact hu p.page (h.mem_stored hp) (ha.symm.trans he)
  · rintro rfl
    exact ha

end

variable [Guest W] {E : Surroundings} {l : Loader W} {m : Load W} {failure : Option LoadError}
  {x : Session W}

/-- However the load was started, its pages are in order and accounted for. -/
theorem starts_tally (h : l.Starts failure m) : Orderly ⟨m, 0⟩ ∧ Tally m := by
  rcases h with h | ⟨m₀, ho, -, order, hi, -, returned, l', hr, hc⟩ | h
  · obtain ⟨hf, -⟩ := h.fresh
    exact ⟨hf.orderly, hf.tally⟩
  · obtain ⟨hf, -⟩ := Loader.opened_fresh ho
    obtain ⟨rest, hs, -⟩ := hr.sweeps
    obtain ⟨ht, hy⟩ := hs.keep (P := fun z => Tidy z ∧ Tally z.load)
      (fun _ _ h ⟨ht, hy⟩ => ⟨ht.step h, hy.sweep ht h⟩) ⟨hf.tidy hi, hf.tally⟩
    cases hc
    obtain ⟨ho, htr, -⟩ := ht
    exact ⟨⟨ho.wellFormed, ho.requests, ho.beyond, ho.zero, ho.reading, ho.nodup⟩,
      ⟨hy.claims, hy.reads, hy.fills, hy.address⟩⟩
  · obtain ⟨hf, -⟩ := Loader.opened_fresh h.opened
    exact ⟨hf.orderly, hf.tally⟩

/-- However the load was started, no other page goes to the address of a page, unless blocks have
memory in common. -/
theorem starts_soleAt (h : l.Starts failure m) (ha : RamBlock.Accepted l.blocks)
    (hb : RamBlock.Disjoint l.blocks) {i : Nat} (hi : i < m.index.pages.size) :
    m.index.SoleAt i := by
  obtain ⟨m₀, -, hw, hblocks, hindex⟩ := h.opened
  rw [hindex] at hi ⊢
  refine Index.soleAt_of_disjoint hw (hblocks ▸ hb) (fun j hj => ?_) hi
  obtain ⟨b, hb, -⟩ := hw.page j hj
  have hmem : b.ram ∈ l.blocks := hblocks ▸ List.mem_map_of_mem (List.mem_of_getElem? hb)
  simp only [Index.pageSize, hb]
  exact (isPageSize_bounds (ha.isPageSize hmem)).1

/--
Every page is read once at most and handed to the guest once at most, and pages that are all
zero never are. Where the registered blocks have no memory in common, something is handed over for
an address once at most. In a lazy run that completes without a failure, an interruption or a fault
on its way, every other page is read and handed over exactly once.
-/
theorem read_and_filled_once (hm : l.Starts failure m) (hr : Moves E ⟨m, 0⟩ x) :
    (∀ i, x.load.claims i ≤ 1 ∧ x.load.reads i ≤ 1 ∧ x.load.fills i ≤ 1) ∧
      (RamBlock.Accepted l.blocks → RamBlock.Disjoint l.blocks →
        ∀ i < m.index.pages.size, m.index.SoleAt i) ∧
      (∀ i, m.index.SoleAt i → x.load.fillsAt (m.index.address i) ≤ 1) ∧
      (∀ i < m.index.pages.size, (m.index.page i).isZero →
        x.load.reads i = 0 ∧ x.load.fills i = 0) ∧
      (l.StartsLazily none m → ¬ E.interrupts → x.load.complete = true → x.load.failure = none →
        x.faults = 0 → ∀ i ∈ m.index.stored, x.load.claims i = 1 ∧ x.load.reads i = 1 ∧
          x.load.fills i = 1 ∧ (m.index.SoleAt i → x.load.fillsAt (m.index.address i) = 1)) := by
  obtain ⟨ho, ht⟩ := starts_tally hm
  have hx : Tally x.load := ht.run ho hr
  have hi : x.load.index = m.index := hr.index
  refine ⟨fun i => ⟨hx.claims_le i, hx.reads_le i, hx.fills_le i⟩,
    fun ha hb i hi => starts_soleAt hm ha hb hi, ?_, ?_, ?_⟩
  · intro i hu
    rw [← hi] at hu ⊢
    rw [hx.fillsAt_eq hu]
    exact hx.fills_le i
  · intro i _ hz
    have hns : i ∉ x.load.index.stored := by
      rw [hi, Index.mem_stored]
      simp [hz]
    exact (hx.untouched hns).2
  · intro hl hE hc hn hfs i his
    obtain ⟨hf, -⟩ := hl.fresh
    have hlt : i < x.load.index.pages.size := hi ▸ (Index.mem_stored.1 his).1
    rw [← hi] at his
    have hfilled : x.load.state i = .filled :=
      ((accounted_start hl).run hE hr).filled hc hfs hn i hlt
    have hfills : x.load.fills i = 1 := by
      obtain ⟨p, hp, hpi, -⟩ := (hf.delivered.run hr : Delivered x.load) i his hfilled
      have hpos : 0 < x.load.fills i := Array.countP_pos_iff.2 ⟨p, hp, by simp [hpi]⟩
      exact Nat.le_antisymm (hx.fills_le i) hpos
    refine ⟨?_, ?_, hfills, fun hu => ?_⟩
    · simp [hx.claims, his, hfilled]
    · simp [hx.reads, his, hfilled]
    · rw [← hi] at hu ⊢
      rw [hx.fillsAt_eq hu, hfills]

theorem read_and_filled_once_sample : Loader.sampleEnd.claims 0 = 1 ∧
    Loader.sampleEnd.reads 0 = 1 ∧ Loader.sampleEnd.fills 0 = 1 ∧
    (Loader.sampleLoad.index.SoleAt 0 →
      Loader.sampleEnd.fillsAt (Loader.sampleLoad.index.address 0) = 1) :=
  (read_and_filled_once (E := .quiet) (.inl Loader.sample_startsLazily)
    Loader.sample_steps.moves).2.2.2.2 Loader.sample_startsLazily id (by decide +kernel)
    (by decide +kernel) rfl 0 (by decide +kernel)

def twins : Loader PlainWatch :=
  { Loader.ofSource {} (fun _ => false) true
      (.ofBytes #[0, 0, 0, 0, 0, 0, 0, 10, 7, 8, 0, 0, 0, 1, 0, 0, 0, 0, 0, 0, 0, 2, 1, 97, 0, 0, 0,
        1, 1, 0, 1, 98, 0, 0, 0, 1, 1, 2])
      { memory := .filled 0 } with
    blocks := [⟨"a", 0x1000000000, 1, 1⟩, ⟨"b", 0x1000000000, 1, 1⟩] }

def twinsLoad : Load PlainWatch := twins.start.2.load?.get (by decide +kernel)

def twinsEnd : Load PlainWatch := (((twinsLoad.idle.2.readerSteps 9).idle.2).idle.2).idle.2

/-- Where blocks share memory, something is handed over for an address more than once. -/
theorem address_filled_twice : ¬ ∀ (l : Loader PlainWatch) (m : Load PlainWatch)
    (x : Session PlainWatch) (i : Nat), l.StartsLazily none m → Steps .quiet ⟨m, 0⟩ x →
      i ∈ m.index.stored → x.load.fillsAt (m.index.address i) ≤ 1 := by
  intro h
  have hs : twins.StartsLazily none twinsLoad :=
    ⟨⟨twins.opened?.get (by decide +kernel), (Option.some_get _).symm, by decide +kernel⟩,
      by decide +kernel, (Option.some_get _).symm⟩
  have hr : Steps .quiet ⟨twinsLoad, 0⟩ ⟨twinsEnd, 0⟩ :=
    .head .idle ((steps_readerSteps _ 0 9).trans (.head .idle (.head .idle (.single .idle))))
  have hle := h twins twinsLoad ⟨twinsEnd, 0⟩ 0 hs hr (by decide +kernel)
  exact absurd hle (by decide +kernel)

end RamRestore.Load
