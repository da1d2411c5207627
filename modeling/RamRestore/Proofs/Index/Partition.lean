import Mathlib.Data.List.Perm.Subperm
import RamRestore.Load
import RamRestore.Proofs.Index.Declared
import RamRestore.Proofs.Index.RoundTrip

/-! # Records and runs

A walk over an index that looks only at names and lengths finds its records. In an index that
was read each block has one of them, and in the order of the records the runs of the blocks tile
the sequence of pages.
-/

namespace RamRestore

namespace Index

abbrev Walk := StateT (List UInt8) Option

structure RecordHead where
  name : List UInt8
  count : Nat
  deriving DecidableEq, Repr

namespace Walk

def chop (n : Nat) : Walk (List UInt8) := fun bytes =>
  if (bytes.take n).length = n then some (bytes.take n, bytes.drop n) else none

def packed : Walk Nat := fun bytes =>
  match Packed.read bytes with
  | (.ok n, rest) => some (n, rest)
  | (.error _, _) => none

def page : Walk Unit := do
  let size ← packed
  if size = 0 then return ()
  let _delta ← packed

def pages : (n : Nat) → Walk Unit
  | 0 => return ()
  | n + 1 => do
    page
    pages n

def record : Walk RecordHead := do
  let length ← chop 1
  let name ← chop (bigEndian length)
  let count := bigEndian (← chop 4)
  pages count
  return ⟨name, count⟩

def records : (n : Nat) → Walk (List RecordHead)
  | 0 => return []
  | n + 1 => do
    let head ← record
    return head :: (← records n)

def headerLength : Nat := 12

end Walk

/-- The heads of the first `n` records of a snapshot, if it has so many. -/
def recordHeads? (source : Source) (n : Nat) : Option (List RecordHead) := do
  let scan ← opening? source
  let (_, rest) ← Walk.chop Walk.headerLength scan.rest
  let (heads, _) ← Walk.records n rest
  return heads

/-- Each run starts where the one before it ends. -/
def Tiles : Nat → List PlacedBlock → Nat → Prop
  | first, [], last => first = last
  | first, b :: bs, last => b.first = first ∧ Tiles (first + b.count) bs last

/-- The runs of an index cut its page sequence up as the heads of the records say. -/
structure Partitioned (x : Index) (heads : List RecordHead) : Prop where
  named : ∀ b ∈ x.blocks, heads.countP (·.name = b.ram.name) = 1
  declared : ∀ b ∈ x.blocks, ⟨b.ram.name, b.count⟩ ∈ heads
  apart : x.blocks.Pairwise fun b c => b.first + b.count ≤ c.first ∨ c.first + c.count ≤ b.first
  covered : ∀ i, i < x.pages.size ↔ ∃ b ∈ x.blocks, b.first ≤ i ∧ i < b.first + b.count

def StartsAs (x : Index) (i : Nat) (state : PageState) : Prop :=
  ∀ {W : Type} (source : Source) (guest : W) (capacity : Nat),
    (Load.ofIndex x source guest capacity).state i = state

/-- What an index says of page `i` of a block: that it is all zero, or where to find it. -/
inductive Listed (x : Index) (b : PlacedBlock) (i : Nat) : Prop
  | zero (size : (x.page i).size = 0) (position : (x.page i).position = 0)
      (state : x.StartsAs i .filled)
  | stored (size : if x.compressed then
        0 < (x.page i).size ∧ (x.page i).size ≤ Lz4.maxBlockLength b.ram.pageSize
        else (x.page i).size = b.ram.pageSize)
      (first : 8 ≤ (x.page i).position) (last : (x.page i).position ≤ 2 ^ 63 - 1)
      (state : x.StartsAs i .empty)

def recordHeadOf (b : PlacedBlock) : RecordHead := ⟨b.ram.name, b.count⟩

structure Gains (p : Progress) (b : PlacedBlock) (p' : Progress) : Prop where
  first : b.first = p.pages.size
  last : b.first + b.count = p'.pages.size
  blocks : ∃ k, p.blocks[k]? = some (b.ram, none) ∧
    p'.blocks = p.blocks.set k (b.ram, some (b.first, b.count))

inductive GainsAll : Progress → List PlacedBlock → Progress → Prop
  | nil {p : Progress} : GainsAll p [] p
  | cons {p p₁ p' : Progress} {b : PlacedBlock} {bs : List PlacedBlock} (h : Gains p b p₁)
      (hs : GainsAll p₁ bs p') : GainsAll p (b :: bs) p'

namespace Tiles

variable {first last : Nat} {b : PlacedBlock} {bs : List PlacedBlock}

theorem le (h : Tiles first bs last) : first ≤ last := by
  induction bs generalizing first with
  | nil => exact Nat.le_of_eq h
  | cons b bs ih => exact Nat.le_trans (Nat.le_add_right ..) (ih h.2)

theorem bounds (h : Tiles first bs last) (hb : b ∈ bs) :
    first ≤ b.first ∧ b.first + b.count ≤ last := by
  induction bs generalizing first with
  | nil => cases hb
  | cons c bs ih =>
    obtain ⟨rfl, h⟩ := h
    rcases List.mem_cons.1 hb with rfl | hb
    · exact ⟨Nat.le_refl _, h.le⟩
    · have := ih h hb
      omega

theorem pairwise (h : Tiles first bs last) :
    bs.Pairwise fun b c => b.first + b.count ≤ c.first := by
  induction bs generalizing first with
  | nil => exact .nil
  | cons b bs ih =>
    obtain ⟨rfl, h⟩ := h
    exact .cons (fun c hc => (h.bounds hc).1) (ih h)

theorem covers (h : Tiles first bs last) {i : Nat} (hl : first ≤ i) (hu : i < last) :
    ∃ b ∈ bs, b.first ≤ i ∧ i < b.first + b.count := by
  induction bs generalizing first with
  | nil => exact absurd hu (Nat.not_lt_of_le (h ▸ hl))
  | cons b bs ih =>
    obtain ⟨rfl, h⟩ := h
    by_cases hi : i < b.first + b.count
    · exact ⟨b, List.mem_cons_self, hl, hi⟩
    · obtain ⟨c, hc, hle, hlt⟩ := ih h (Nat.le_of_not_lt hi)
      exact ⟨c, List.mem_cons_of_mem _ hc, hle, hlt⟩

end Tiles

section

open Decoder

variable {α β : Type} {compressed : Bool} {block k n : Nat} {ram : RamBlock} {track : Track}
  {pages : Array Page} {p p' : Progress} {s s' : Scan} {b : PlacedBlock} {bs : List PlacedBlock}

theorem Walk.bind_of_some {w : Walk α} {f : α → Walk β} {a : α} {bytes rest : List UInt8}
    (h : w bytes = some (a, rest)) : (w >>= f) bytes = f a rest := by
  change StateT.bind w f bytes = _
  rw [StateT.bind, h]
  rfl

theorem chop_of_take {bytes : List UInt8} (h : take n s = .ok bytes s') :
    Walk.chop n s.rest = some (bytes, s'.rest) := by
  unfold take at h
  dsimp only at h
  split at h
  · rename_i hn
    cases h
    exact if_pos hn
  · cases h

theorem chop_of_word32 {value : Nat} (h : word32 s = .ok value s') :
    ∃ bytes, Walk.chop 4 s.rest = some (bytes, s'.rest) ∧ bigEndian bytes = value := by
  obtain ⟨bytes, _, ht, h⟩ := bind_ok h
  cases h
  exact ⟨bytes, chop_of_take ht, rfl⟩

theorem packed_of_packed {value : Nat} (h : packed s = .ok value s') :
    Walk.packed s.rest = some (value, s'.rest) := by
  unfold packed at h
  split at h
  · rename_i hr
    cases h
    rw [Walk.packed, hr]
  · cases h
  · cases h

theorem chop_append {m : Nat} {b₁ b₂ r₀ r₁ r₂ : List UInt8}
    (h₁ : Walk.chop m r₀ = some (b₁, r₁)) (h₂ : Walk.chop n r₁ = some (b₂, r₂)) :
    Walk.chop (m + n) r₀ = some (b₁ ++ b₂, r₂) := by
  unfold Walk.chop at *
  split at h₁
  · cases h₁
    split at h₂
    · cases h₂
      have hlen : (r₀.take (m + n)).length = m + n := by
        simp only [List.length_take, List.length_drop] at *
        omega
      rw [List.drop_drop, ← List.take_add, if_pos hlen]
    · cases h₂
  · cases h₁

theorem chop_of_header {flags : Flags} (h : header s = .ok flags s') :
    ∃ bytes, Walk.chop Walk.headerLength s.rest = some (bytes, s'.rest) := by
  obtain ⟨found, s₁, h₁, h⟩ := bind_ok h
  split at h
  · obtain ⟨_, _, hc, -⟩ := bind_ok h
    exact absurd hc throw_not_ok
  · obtain ⟨_, s₂, h₂, h⟩ := bind_ok h
    obtain ⟨_, s₃, h₃, h⟩ := bind_ok h
    cases h
    obtain ⟨b₁, h₁, -⟩ := chop_of_word32 h₁
    obtain ⟨b₂, h₂, -⟩ := chop_of_word32 h₂
    obtain ⟨b₃, h₃, -⟩ := chop_of_word32 h₃
    exact ⟨_, chop_append (chop_append h₁ h₂) h₃⟩

/-! ### One walk for each reader -/

theorem walk_pageRecord {r : Page × Track}
    (h : pageRecord compressed block ram k track s = .ok r s') :
    Walk.page s.rest = some ((), s'.rest) := by
  obtain ⟨size, s₁, hs, h⟩ := bind_ok h
  rw [Walk.page, Walk.bind_of_some (packed_of_packed hs)]
  split at h
  · rename_i hz
    obtain ⟨_, s₂, hc, h⟩ := bind_ok h
    cases hc
    cases h
    rw [if_pos hz]
    rfl
  · rename_i hz
    rw [if_neg hz]
    obtain ⟨_, s₂, hd, h⟩ := bind_ok h
    obtain ⟨_, _, hd, hp⟩ := bind_ok hd
    cases hp
    rw [Walk.bind_of_some (packed_of_packed hd)]
    cases hp : place compressed block ram track size _ with
    | error cause =>
      rw [hp] at h
      exact absurd h corrupt_not_ok
    | ok page =>
      rw [hp] at h
      cases h
      rfl

theorem walk_pageRecords {r : Array Page × Track}
    (h : pageRecords compressed block ram n k track pages s = .ok r s') :
    Walk.pages n s.rest = some ((), s'.rest) := by
  induction n generalizing k track pages s with
  | zero =>
    cases h
    rfl
  | succ n ih =>
    obtain ⟨⟨page, track₁⟩, s₁, hp, h⟩ := bind_ok h
    rw [Walk.pages, Walk.bind_of_some (walk_pageRecord hp)]
    exact ih h

theorem gains_of_blockRecord (h : blockRecord compressed p s = .ok p' s') :
    ∃ b, Gains p b p' ∧ Walk.record s.rest = some (recordHeadOf b, s'.rest) := by
  obtain ⟨length, name, s₁, s₂, s₃, block, ram, count, pages, track, h₁, h₂, hf, hb, h₃, -, hr,
    rfl⟩ := blockRecord_cases h
  refine ⟨⟨ram, p.pages.size, count⟩, ⟨rfl, (pageRecords_ok hr).1.symm, block, hb, rfl⟩, ?_⟩
  obtain ⟨bytes, h₃, hcount⟩ := chop_of_word32 h₃
  rw [Walk.record, Walk.bind_of_some (chop_of_take h₁), Walk.bind_of_some (chop_of_take h₂),
    Walk.bind_of_some h₃, hcount, Walk.bind_of_some (walk_pageRecords hr), recordHeadOf,
    name_of_findIdx? hf hb]
  rfl

theorem gainsAll_of_blockRecords (h : blockRecords compressed n p s = .ok p' s') :
    ∃ bs, GainsAll p bs p' ∧ bs.length = n ∧
      Walk.records n s.rest = some (bs.map recordHeadOf, s'.rest) := by
  induction n generalizing p s with
  | zero =>
    cases h
    exact ⟨[], .nil, rfl, rfl⟩
  | succ n ih =>
    obtain ⟨p₁, s₁, h₁, h⟩ := bind_ok h
    obtain ⟨b, hb, hw⟩ := gains_of_blockRecord h₁
    obtain ⟨bs, hbs, hn, hws⟩ := ih h
    refine ⟨b :: bs, .cons hb hbs, by simp [hn], ?_⟩
    rw [Walk.records, Walk.bind_of_some hw, Walk.bind_of_some hws]
    rfl

/-! ### What runs the blocks have in the end -/

theorem Gains.countP (h : Gains p b p') :
    p.blocks.countP (·.2.isNone) = p'.blocks.countP (·.2.isNone) + 1 := by
  obtain ⟨k, hk, hset⟩ := h.blocks
  obtain ⟨hlt, hget⟩ := List.getElem?_eq_some_iff.1 hk
  have hpos : 0 < p.blocks.countP (·.2.isNone) :=
    List.countP_pos_iff.2 ⟨_, List.mem_of_getElem? hk, rfl⟩
  rw [hset, List.countP_set hlt, hget]
  simp only [Option.isNone_none, Option.isNone_some, ↓reduceIte, Bool.false_eq_true]
  omega

namespace GainsAll

theorem tiles (h : GainsAll p bs p') : Tiles p.pages.size bs p'.pages.size := by
  induction h with
  | nil => rfl
  | cons h _ ih =>
    refine ⟨h.first, ?_⟩
    rwa [← h.first, h.last]

theorem countP (h : GainsAll p bs p') :
    p.blocks.countP (·.2.isNone) = p'.blocks.countP (·.2.isNone) + bs.length := by
  induction h with
  | nil => rfl
  | cons h _ ih =>
    rw [h.countP, ih, List.length_cons]
    omega

theorem mem {first count : Nat} (h : GainsAll p bs p') (hn : ∀ q ∈ p.blocks, q.2 = none)
    (hr : (ram, some (first, count)) ∈ p'.blocks) : ⟨ram, first, count⟩ ∈ bs := by
  suffices hs : (ram, some (first, count)) ∈ p.blocks ∨ ⟨ram, first, count⟩ ∈ bs by
    rcases hs with hs | hs
    · cases hn _ hs
    · exact hs
  clear hn
  induction h with
  | nil => exact .inl hr
  | cons h _ ih =>
    obtain ⟨k, -, hset⟩ := h.blocks
    rcases ih hr with hr | hr
    · rw [hset] at hr
      rcases List.mem_or_eq_of_mem_set hr with hr | hr
      · exact .inl hr
      · cases hr
        exact .inr List.mem_cons_self
    · exact .inr (List.mem_cons_of_mem _ hr)

end GainsAll

variable {rams : List RamBlock} {source : Source} {x : Index}

/-- As many records as there are blocks, none of which names a block twice, name them all. -/
theorem runs_of_blockRecords (flags : Flags)
    (h : blockRecords compressed rams.length (.start rams) s = .ok p s') (hn : rams.Nodup) :
    ∃ bs, Tiles 0 bs p.pages.size ∧ (p.found flags).blocks.Perm bs ∧
      Walk.records rams.length s.rest = some (bs.map recordHeadOf, s'.rest) := by
  obtain ⟨bs, hbs, hlen, hw⟩ := gainsAll_of_blockRecords h
  refine ⟨bs, hbs.tiles, ?_, hw⟩
  have hp : p.Sound compressed rams := blockRecords_ok (Progress.sound_start _ rams _) h
  have hstart : ∀ q ∈ (Progress.start rams).blocks, q.2 = none := by simp [Progress.start]
  -- no block is left without a run
  have hnone : p.blocks.countP (·.2.isNone) = 0 := by
    have hall : (Progress.start rams).blocks.countP (·.2.isNone) = rams.length := by
      rw [List.countP_eq_length.2 fun q hq => by simp [hstart q hq]]
      simp [Progress.start]
    have := hbs.countP
    omega
  have hsub : (p.found flags).blocks ⊆ bs := by
    intro b hb
    obtain ⟨⟨ram, run⟩, hq, rfl⟩ := List.mem_map.1 hb
    cases run with
    | none => exact absurd rfl (List.countP_eq_zero.1 hnone _ hq)
    | some run => exact hbs.mem hstart hq
  have hrams : (p.found flags).blocks.map (·.ram) = rams := by
    rw [← hp.rams]
    simp [Progress.found]
  have hnodup : (p.found flags).blocks.Nodup := .of_map _ (hrams ▸ hn)
  have hle : bs.length ≤ (p.found flags).blocks.length := by
    have := congrArg List.length hrams
    rw [List.length_map] at this
    omega
  exact (hnodup.subperm hsub).perm_of_length_le hle

theorem Partitioned.of_tiles (ht : Tiles 0 bs x.pages.size) (hp : x.blocks.Perm bs)
    (hn : (x.blocks.map (·.ram.name)).Nodup) : x.Partitioned (bs.map recordHeadOf) where
  named b hb := by
    have hc := List.count_eq_one_of_mem hn (List.mem_map_of_mem hb)
    rw [List.count, List.countP_map] at hc
    rw [← (hp.map recordHeadOf).countP_eq, List.countP_map, ← hc]
    refine List.countP_congr fun c _ => ?_
    simp only [Function.comp_apply, beq_iff_eq]
    exact decide_eq_true_iff
  declared b hb := List.mem_map_of_mem (f := recordHeadOf) (hp.mem_iff.1 hb)
  apart := by
    refine (hp.pairwise_iff ?_).2 (ht.pairwise.imp fun h => .inl h)
    exact fun h => h.symm
  covered i := by
    constructor
    · intro hi
      obtain ⟨b, hb, h⟩ := ht.covers (Nat.zero_le i) hi
      exact ⟨b, hp.mem_iff.2 hb, h⟩
    · rintro ⟨b, hb, -, hlt⟩
      exact Nat.lt_of_lt_of_le hlt (ht.bounds (hp.mem_iff.1 hb)).2

theorem partitioned_of_read (hb : RamBlock.Accepted rams)
    (hx : (read rams source).outcome = .ok x) :
    ∃ heads, recordHeads? source rams.length = some heads ∧ x.Partitioned heads := by
  rcases read_cases rams source with ⟨cause, hc, -⟩ | ⟨s₀, ho, -, -, hok⟩
  · simp [hc] at hx
  · obtain ⟨s', hi⟩ := hok x hx
    have hrams := (index_ok hi).1
    rw [index_eq] at hi
    obtain ⟨flags, s₁, hh, hi⟩ := bind_ok hi
    obtain ⟨p, s₂, hr, hi⟩ := bind_ok hi
    obtain rfl := pure_ok hi
    obtain ⟨_, hhead⟩ := chop_of_header hh
    obtain ⟨bs, ht, hperm, hw⟩ := runs_of_blockRecords flags hr hb.nodup
    refine ⟨bs.map recordHeadOf, ?_, .of_tiles ht hperm ?_⟩
    · simp only [recordHeads?, ho, hhead, hw, Option.bind_eq_bind, Option.bind_some,
        Option.pure_def]
    · have hnames := hb.names_nodup
      rw [← hrams, List.map_map] at hnames
      exact hnames

theorem block_lt_of_read (hb : RamBlock.Accepted rams) (hx : (read rams source).outcome = .ok x)
    {i : Nat} (hi : i < x.pages.size) : (x.page i).block < 0x10000 := by
  obtain ⟨hrams, hw⟩ := read_ok hx
  obtain ⟨b, hget, -⟩ := hw.page i hi
  obtain ⟨hlt, -⟩ := List.getElem?_eq_some_iff.1 hget
  have hlen := hb.length_le
  rw [← hrams, List.length_map] at hlen
  omega

theorem listed_of_admissible {i : Nat} (hi : i < x.pages.size) (hs : 0 < b.ram.pageSize)
    (ha : (x.page i).Admissible x.compressed b.ram) : x.Listed b i := by
  rcases ha with ⟨hz, hp⟩ | ⟨hsize, hl, hu⟩
  · refine .zero hz hp fun source guest capacity => ?_
    rw [Load.state_ofIndex, if_pos ⟨hi, decide_eq_true hz⟩]
  · have hne : (x.page i).size ≠ 0 := by
      split at hsize <;> omega
    unfold firstPosition at hl
    refine .stored hsize (by omega) (by omega) fun source guest capacity => ?_
    rw [Load.state_ofIndex, if_neg]
    rintro ⟨-, hz⟩
    exact hne (of_decide_eq_true hz)

/-- Whatever the bytes, an index that is accepted is well formed. -/
theorem accepted_wellFormed (hb : RamBlock.Accepted rams)
    (hx : (read rams source).outcome = .ok x) :
    x.blocks.map (·.ram) = rams ∧
      (∃ heads, recordHeads? source rams.length = some heads ∧ x.Partitioned heads) ∧
      (∀ b ∈ x.blocks, b.count * b.ram.pageSize ≤ b.ram.size) ∧
      ∀ i < x.pages.size, (x.page i).block < 0x10000 ∧
        ∃ b, x.block? i = some b ∧ b.first ≤ i ∧ i < b.first + b.count ∧ x.Listed b i := by
  obtain ⟨hrams, hw⟩ := read_ok hx
  refine ⟨hrams, partitioned_of_read hb hx, hw.fits, fun i hi => ⟨block_lt_of_read hb hx hi, ?_⟩⟩
  obtain ⟨b, hget, hle, hlt, ha⟩ := hw.page i hi
  have hmem : b.ram ∈ rams := hrams ▸ List.mem_map_of_mem (List.mem_of_getElem? hget)
  have hsize := (isPageSize_bounds (hb.isPageSize hmem)).1
  exact ⟨b, hget, hle, hlt, listed_of_admissible hi hsize ha⟩

theorem accepted_wellFormed_sample :
    ∃ x, (read [⟨"a", 16, 4, 2⟩, ⟨"b", 32, 12, 4⟩] (.ofBytes sampleSnapshot)).outcome = .ok x ∧
      x.Partitioned [⟨[98], 3⟩, ⟨[97], 2⟩] := by
  have ha : RamBlock.Accepted [⟨"a", 16, 4, 2⟩] := .snoc .nil (by decide +kernel)
  have hb : RamBlock.Accepted [⟨"a", 16, 4, 2⟩, ⟨"b", 32, 12, 4⟩] := ha.snoc (by decide +kernel)
  have hs : recordHeads? (.ofBytes sampleSnapshot) 2 = some [⟨[98], 3⟩, ⟨[97], 2⟩] := by
    decide +kernel
  cases hx : (read [⟨"a", 16, 4, 2⟩, ⟨"b", 32, 12, 4⟩] (.ofBytes sampleSnapshot)).outcome with
  | error cause =>
    have hok : (read [⟨"a", 16, 4, 2⟩, ⟨"b", 32, 12, 4⟩]
      (.ofBytes sampleSnapshot)).outcome.isOk = true := by decide +kernel
    rw [hx] at hok
    cases hok
  | ok x =>
    obtain ⟨-, ⟨heads, hh, hp⟩, -⟩ := accepted_wellFormed hb hx
    obtain rfl := Option.some.inj (hs.symm.trans hh)
    exact ⟨x, rfl, hp⟩

end
end Index
end RamRestore
