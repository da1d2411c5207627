import Mathlib.Data.List.Pairwise
import RamRestore.Proofs.Index.Listed
import RamRestore.Proofs.Load.Zeroes

/-! # An index that is rejected

A start that cannot read its index has read no page, created no watch, and has no load. Of memory
it has changed the pages that were listed as all zero before the reading failed, unless the checker
vouched for them.
-/

namespace RamRestore

def bytesAt (now : Nat → UInt8) (r : Nat × Nat) : Bytes :=
  Array.ofFn fun k : Fin r.2 => now (r.1 + k)

theorem bytesAt_congr {now now' : Nat → UInt8} {r : Nat × Nat}
    (h : ∀ a, InRange r a → now' a = now a) : bytesAt now' r = bytesAt now r := by
  unfold bytesAt
  congr 1
  funext k
  exact h _ ⟨Nat.le_add_right _ _, Nat.add_lt_add_left k.isLt _⟩

theorem RamBlock.Disjoint.eq_of_contains {rams : List RamBlock} {b c : RamBlock} {a : Nat}
    (h : RamBlock.Disjoint rams) (hb : b ∈ rams) (hc : c ∈ rams) (hba : b.contains a = true)
    (hca : c.contains a = true) : b = c := by
  have hsymm : Std.Symm fun b c : RamBlock =>
      ∀ a, b.contains a = true → c.contains a = false :=
    ⟨fun b c h a hc => by
      rw [← Bool.not_eq_true]
      intro hb
      rw [h a hb] at hc
      cases hc⟩
  by_contra hne
  have := h.disjoint.forall hb hc hne a hba
  rw [hca] at this
  cases this

theorem Index.ListedZero.disjoint {rams : List RamBlock} {source : Source} {q q' : RamBlock × Nat}
    (hr : RamBlock.Accepted rams) (hb : RamBlock.Disjoint rams) (h : ListedZero rams source q)
    (h' : ListedZero rams source q') (hne : q ≠ q') {a : Nat} (ha : InRange (memoryOf q) a) :
    ¬ InRange (memoryOf q') a := by
  intro ha'
  obtain ⟨hmem, hfit⟩ := h.inside
  obtain ⟨hmem', hfit'⟩ := h'.inside
  rw [h.memoryOf_eq hr hb.inside] at ha
  rw [h'.memoryOf_eq hr hb.inside] at ha'
  obtain ⟨ram, k⟩ := q
  obtain ⟨ram', k'⟩ := q'
  simp only [InRange, Nat.succ_mul] at *
  have hc : ram.contains a = true := RamBlock.contains_iff.2 (by omega)
  have hc' : ram'.contains a = true := RamBlock.contains_iff.2 (by omega)
  obtain rfl : ram = ram' := hb.eq_of_contains hmem hmem' hc hc'
  have hk : k * ram.pageSize < (k' + 1) * ram.pageSize := by rw [Nat.succ_mul]; omega
  have hk' : k' * ram.pageSize < (k + 1) * ram.pageSize := by rw [Nat.succ_mul]; omega
  have := Nat.lt_of_mul_lt_mul_right hk
  have := Nat.lt_of_mul_lt_mul_right hk'
  exact hne (by rw [show k = k' by omega])

namespace Loader

variable {W : Type} [Guest W] [LawfulGuest W] {zeroChecker : Bytes → Bool} {w : W}
  {ranges : List (Nat × Nat)} {a : Nat}

open LawfulGuest

theorem byte_clear_singleton {r : Nat × Nat} (ha : InRange r a) :
    byte (clear zeroChecker w [r]).2 a =
      if zeroChecker (bytesAt (byte w) r) then byte w a else 0 := by
  obtain ⟨start, length⟩ := r
  have hbytes : (Guest.read w start length).1 = bytesAt (byte w) (start, length) := read_eq ..
  obtain ⟨hle, hlt⟩ := ha
  simp only [clear, hbytes]
  split
  · rw [byte_read]
  · rw [byte_write, Array.size_replicate, if_pos ⟨hle, Nat.sub_lt_left_of_lt_add hle hlt⟩]
    simp [Nat.sub_lt_left_of_lt_add hle hlt]

theorem clear_disjoint (zeroChecker : Bytes → Bool)
    (hd : ranges.Pairwise fun r q => ∀ a, InRange r a → ¬ InRange q a) :
    (clear zeroChecker w ranges).1 =
        ranges.map (fun r => ⟨r.1, r.2, zeroChecker (bytesAt (byte w) r)⟩) ∧
      ∀ r ∈ ranges, ∀ a, InRange r a → byte (clear zeroChecker w ranges).2 a =
        if zeroChecker (bytesAt (byte w) r) then byte w a else 0 := by
  induction ranges generalizing w with
  | nil => simp [clear]
  | cons first ranges ih =>
    obtain ⟨hfirst, hd⟩ := List.pairwise_cons.1 hd
    obtain ⟨hchecks, hcleared⟩ := ih (w := (clear zeroChecker w [first]).2) hd
    have hrest : ∀ r ∈ ranges, ∀ a, InRange r a →
        byte (clear zeroChecker w [first]).2 a = byte w a := by
      intro r hr a ha
      apply byte_clear_of_outside
      intro q hq hin
      obtain rfl := List.mem_singleton.1 hq
      exact hfirst r hr a hin ha
    constructor
    · change ⟨first.1, first.2, zeroChecker (Guest.read w first.1 first.2).1⟩ ::
        (clear zeroChecker (clear zeroChecker w [first]).2 ranges).1 = _
      rw [hchecks, read_eq, List.map_cons]
      congr 1
      exact List.map_congr_left fun r hr => by rw [bytesAt_congr (hrest r hr)]
    · intro r hr a ha
      change byte (clear zeroChecker (clear zeroChecker w [first]).2 ranges).2 a = _
      rcases List.mem_cons.1 hr with rfl | hr
      · rw [byte_clear_of_outside fun q hq => hfirst q hq a ha, byte_clear_singleton ha]
      · rw [hcleared r hr a ha, bytesAt_congr (hrest r hr), hrest r hr a ha]

/-- What a start leaves behind that could not read its index. -/
structure Rejects (l : Loader W) (cause : LoadError) : Prop where
  error : l.start.1 = some cause
  /-- No page was read: there is no load, and of the source only the index was asked for. -/
  load : l.start.2.load? = none
  source : l.start.2.source = (Index.read l.blocks l.source).source
  watched : l.start.2.watched = false
  pageState : ∀ a, l.start.2.pageState? a = none
  isComplete : l.start.2.isComplete = false
  hasError : l.start.2.hasError = false
  /-- The checker was asked about the pages that were listed as all zero, as they were before. -/
  checks : ∀ c, c ∈ l.start.2.zeroChecks ↔ ∃ q, Index.ListedZero l.blocks l.source q ∧
    c = ⟨(Index.memoryOf q).1, (Index.memoryOf q).2,
      l.zeroChecker (bytesAt (byte l.guest) (Index.memoryOf q))⟩
  cleared : ∀ q, Index.ListedZero l.blocks l.source q → ∀ a, InRange (Index.memoryOf q) a →
    byte l.start.2.guest a =
      if l.zeroChecker (bytesAt (byte l.guest) (Index.memoryOf q)) then byte l.guest a else 0
  kept : ∀ a, (∀ q, Index.ListedZero l.blocks l.source q → ¬ InRange (Index.memoryOf q) a) →
    byte l.start.2.guest a = byte l.guest a
  /-- Before the first record of a page, and in the header, all memory is as it was. -/
  early : (∀ r, ¬ Index.Arrives l.blocks l.source r) → byte l.start.2.guest = byte l.guest
  header : (Index.opening? l.source = none ∨ ∃ s₀ e s, Index.opening? l.source = some s₀ ∧
    Index.header s₀ = .error e s) → byte l.start.2.guest = byte l.guest

variable {l : Loader W} {cause : LoadError}

theorem rejects_of_registering (hp : l.phase = .registering l.source l.guest)
    (hw : l.watched = false) (hr : RamBlock.Accepted l.blocks) (hb : RamBlock.Disjoint l.blocks)
    (he : (Index.read l.blocks l.source).outcome = .error cause) : l.Rejects cause := by
  obtain ⟨qs, hcleared, hn, hq⟩ := Index.cleared_read hr l.source
  have hd : (qs.map Index.memoryOf).Pairwise fun r q => ∀ a, InRange r a → ¬ InRange q a := by
    refine List.pairwise_map.2 (hn.imp_of_mem fun hmem hmem' hne a ha => ?_)
    exact ((hq _).1 hmem).disjoint hr hb ((hq _).1 hmem') hne ha
  obtain ⟨hchecks, hbytes⟩ := clear_disjoint l.zeroChecker (w := l.guest) hd
  have hstart : l.start = (some cause, { l with
      phase := .rejected (Index.read l.blocks l.source).source
        (clear l.zeroChecker l.guest (qs.map Index.memoryOf)).2
      zeroChecks := (clear l.zeroChecker l.guest (qs.map Index.memoryOf)).1 }) := by
    rw [start, hp]
    simp only [he, hcleared]
  have hkept : ∀ a, (∀ q, Index.ListedZero l.blocks l.source q → ¬ InRange (Index.memoryOf q) a) →
      byte (clear l.zeroChecker l.guest (qs.map Index.memoryOf)).2 a = byte l.guest a := by
    intro a ha
    apply byte_clear_of_outside
    intro r hmem
    obtain ⟨q, hqs, rfl⟩ := List.mem_map.1 hmem
    exact ha q ((hq q).1 hqs)
  have hearly : (∀ r, ¬ Index.Arrives l.blocks l.source r) →
      byte (clear l.zeroChecker l.guest (qs.map Index.memoryOf)).2 = byte l.guest := by
    intro hnone
    funext a
    apply hkept
    rintro q ⟨r, ha, -⟩
    exact absurd ha (hnone r)
  constructor <;> rw [hstart]
  · rfl
  · rfl
  · exact hw
  · exact fun _ => rfl
  · rfl
  · rfl
  · intro c
    dsimp only
    rw [hchecks, List.map_map, List.mem_map]
    simp only [hq, Function.comp_apply, eq_comm (b := c)]
  · exact fun q hlisted => hbytes _ (List.mem_map_of_mem ((hq q).2 hlisted))
  · exact hkept
  · exact hearly
  · exact fun hh => hearly fun r => Index.not_arrives_of_header hh

/-- A start that cannot read its index leaves everything as it was, apart from the pages that were
listed as all zero by then. -/
theorem start_rejects {config : Config} {offersWatch : Bool} {source : Source} {guest : W}
    {threads : Threads} {blocks : List RamBlock}
    (hl : (ofSource config zeroChecker offersWatch source guest threads).registerAll blocks = .ok l)
    (hb : RamBlock.Disjoint blocks) (he : (Index.read blocks source).outcome = .error cause) :
    l.Rejects cause := by
  obtain ⟨hr, rfl⟩ := registerAll_ok .nil hl
  exact rejects_of_registering rfl rfl hr hb he

/-- The index breaks off behind its first page record, which says that the page is all zero. -/
def brokenOff : Bytes :=
  #[0, 0, 0, 0, 0, 0, 0, 8, 0, 0, 0, 1, 0, 0, 0, 0, 0, 0, 0, 2, 1, 97, 0, 0, 0, 2, 0]

theorem start_rejects_brokenOff : ∃ l : Loader PlainWatch,
    (ofSource {} (fun _ => false) true (.ofBytes brokenOff) { memory := .filled 5 }).registerAll
      [⟨"a", 16, 4, 2⟩] = .ok l ∧
    l.Rejects (.io .endOfData) ∧ byte l.start.2.guest 17 = 0 ∧ byte l.start.2.guest 18 = 5 := by
  have ha : RamBlock.Accepted [⟨"a", 16, 4, 2⟩] := .snoc .nil (by decide +kernel)
  have hb : RamBlock.Apart [⟨"a", 16, 4, 2⟩] := ⟨by decide, by decide⟩
  have hcause : (match (Index.read [⟨"a", 16, 4, 2⟩] (.ofBytes brokenOff)).outcome with
      | .ok _ => none
      | .error cause => some cause) = some (.io .endOfData) := by decide +kernel
  have he : (Index.read [⟨"a", 16, 4, 2⟩] (.ofBytes brokenOff)).outcome =
      .error (.io .endOfData) := by
    split at hcause
    · cases hcause
    · rename_i cause h
      rw [h, Option.some.inj hcause]
  have hl := registerAll_of_accepted (l := ofSource {} (fun _ => false) true (.ofBytes brokenOff)
    ({ memory := .filled 5 } : PlainWatch)) ha rfl
  exact ⟨_, hl, start_rejects hl hb.disjoint he, by decide +kernel, by decide +kernel⟩

end Loader
end RamRestore
