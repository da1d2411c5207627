import RamRestore.Index.Decoder
import RamRestore.Proofs.Source

/-! # Indexes that were read

Whatever the bytes were, an index that was read is well formed: each page lies in the run of
its block, the run fits into the block, and size and position of the page are admissible.
-/

namespace RamRestore

open Index (firstPosition)

/-- What the record of a page may say: nothing, or a size and a position that it may have. -/
def Page.Admissible (compressed : Bool) (ram : RamBlock) (p : Page) : Prop :=
  (p.size = 0 ∧ p.position = 0) ∨
    ((if compressed then 0 < p.size ∧ p.size ≤ Lz4.maxBlockLength ram.pageSize
      else p.size = ram.pageSize) ∧
      firstPosition ≤ p.position ∧ (p.position : Int) < 0x8000000000000000)

namespace Index

/-- The runs of an index lie in its page sequence, and every page in the run of its block. -/
structure WellFormed (x : Index) : Prop where
  run_le : ∀ b ∈ x.blocks, b.first + b.count ≤ x.pages.size
  fits : ∀ b ∈ x.blocks, b.count * b.ram.pageSize ≤ b.ram.size
  page : ∀ i < x.pages.size, ∃ b, x.block? i = some b ∧ b.first ≤ i ∧ i < b.first + b.count ∧
    (x.page i).Admissible x.compressed b.ram

namespace Decoder

variable {α β : Type} {s s' s'' : Scan}

theorem bind_ok {x : Decoder α} {f : α → Decoder β} {b : β}
    (h : (x >>= f) s = .ok b s'') : ∃ a s', x s = .ok a s' ∧ f a s' = .ok b s'' := by
  change EStateM.bind x f s = _ at h
  unfold EStateM.bind at h
  split at h
  · exact ⟨_, _, ‹_›, h⟩
  · cases h

theorem bind_of_ok {x : Decoder α} {f : α → Decoder β} {a : α} (h : x s = .ok a s') :
    (x >>= f) s = f a s' := by
  change EStateM.bind x f s = _
  rw [EStateM.bind, h]

theorem pure_ok {a b : α} (h : (pure a : Decoder α) s = .ok b s') : a = b := by
  cases h
  rfl

theorem throw_not_ok {e : LoadError} {b : α} : (throw e : Decoder α) s ≠ .ok b s' := nofun

theorem corrupt_not_ok {cause : Corruption} {b : α} :
    (corrupt cause : Decoder α) s ≠ .ok b s' := nofun

end Decoder

open Decoder

variable {compressed : Bool} {block k n size : Nat} {ram : RamBlock} {track track' : Track}
  {page : Page} {pages pages' : Array Page} {s s' : Scan}

theorem word?_eq_some {x y : Int} (h : word? x = some y) :
    y = x ∧ -0x8000000000000000 ≤ x ∧ x < 0x8000000000000000 := by
  unfold word? at h
  split at h
  · simp only [Option.some.injEq] at h
    exact ⟨h.symm, ‹_›⟩
  · simp at h

theorem distance_ok {d d' : Int} {size' : Nat} (hs : size ≠ 0)
    (h : distance compressed ram track size d = .ok (size', d')) :
    if compressed then 0 < size' ∧ size' ≤ Lz4.maxBlockLength ram.pageSize
    else size' = ram.pageSize := by
  unfold distance at h
  cases compressed with
  | true =>
    simp only [↓reduceIte] at h
    split at h
    · simp at h
    · split at h
      · simp at h
      · simp only [Except.ok.injEq, Prod.mk.injEq] at h
        simp only [↓reduceIte]
        omega
  | false =>
    simp only [Bool.false_eq_true, ↓reduceIte] at h
    split at h
    · simp at h
    · split at h
      · simp at h
      · simp only [Except.ok.injEq, Prod.mk.injEq] at h
        exact h.1.symm

theorem place_ok {d : Int} (hs : size ≠ 0)
    (h : place compressed block ram track size d = .ok page) :
    page.block = block ∧
      (if compressed then 0 < page.size ∧ page.size ≤ Lz4.maxBlockLength ram.pageSize
        else page.size = ram.pageSize) ∧
      firstPosition ≤ page.position ∧ (page.position : Int) < 0x8000000000000000 := by
  simp only [place, bind, Except.bind] at h
  split at h
  · simp at h
  · rename_i p hd
    have hd := distance_ok hs hd
    split at h
    · simp at h
    · split at h
      · simp at h
      · rename_i position hp
        obtain ⟨rfl, -, hlt⟩ := word?_eq_some hp
        split at h
        · simp at h
        · simp only [pure, Except.pure, Except.ok.injEq] at h
          subst h
          refine ⟨rfl, hd, ?_, ?_⟩ <;> simp only [firstPosition] at * <;> omega

theorem pageRecord_ok (h : pageRecord compressed block ram k track s = .ok (page, track') s') :
    page.block = block ∧ page.Admissible compressed ram := by
  obtain ⟨size, _, -, h⟩ := bind_ok h
  split at h
  · obtain ⟨-, _, -, h⟩ := bind_ok h
    obtain ⟨rfl, -⟩ := Prod.mk.inj (pure_ok h)
    exact ⟨rfl, .inl ⟨rfl, rfl⟩⟩
  · rename_i hs
    obtain ⟨d, _, -, h⟩ := bind_ok h
    cases hp : place compressed block ram track size d with
    | error cause =>
      rw [hp] at h
      exact absurd h corrupt_not_ok
    | ok p =>
      rw [hp] at h
      obtain ⟨rfl, -⟩ := Prod.mk.inj (pure_ok h)
      exact ⟨(place_ok hs hp).1, .inr (place_ok hs hp).2⟩

theorem pageRecords_ok
    (h : pageRecords compressed block ram n k track pages s = .ok (pages', track') s') :
    pages'.size = pages.size + n ∧ (∀ i < pages.size, pages'[i]? = pages[i]?) ∧
      ∀ i, pages.size ≤ i → i < pages'.size → ∃ p, pages'[i]? = some p ∧
        p.block = block ∧ p.Admissible compressed ram := by
  induction n generalizing k track pages s with
  | zero =>
    obtain ⟨rfl, -⟩ := Prod.mk.inj (pure_ok h)
    exact ⟨rfl, fun _ _ => rfl, fun i h₁ h₂ => by omega⟩
  | succ n ih =>
    obtain ⟨⟨page, track₁⟩, s₁, hp, h⟩ := bind_ok h
    obtain ⟨hsize, hold, hnew⟩ := ih h
    simp only [Array.size_push] at hsize hold hnew
    refine ⟨by omega, fun i hi => ?_, fun i h₁ h₂ => ?_⟩
    · rw [hold i (by omega), Array.getElem?_push_lt hi, Array.getElem?_eq_getElem hi]
    · by_cases hi : i = pages.size
      · subst hi
        refine ⟨page, ?_, pageRecord_ok hp⟩
        rw [hold _ (by omega)]
        simp
      · exact hnew i (by omega) h₂

structure Progress.Sound (compressed : Bool) (rams : List RamBlock) (p : Progress) : Prop where
  rams : p.blocks.map (·.1) = rams
  run : ∀ (k : Nat) (ram : RamBlock) (first count : Nat),
    p.blocks[k]? = some (ram, some (first, count)) →
      first + count ≤ p.pages.size ∧ count * ram.pageSize ≤ ram.size
  page : ∀ i < p.pages.size, ∃ page ram first count, p.pages[i]? = some page ∧
    p.blocks[page.block]? = some (ram, some (first, count)) ∧ first ≤ i ∧ i < first + count ∧
    page.Admissible compressed ram

theorem Progress.sound_start (compressed : Bool) (rams : List RamBlock) (track : Track) :
    Progress.Sound compressed rams ⟨rams.map (·, none), #[], track⟩ where
  rams := by simp [Function.comp_def]
  run k ram first count h := by simp at h
  page i hi := by simp at hi

theorem Progress.Sound.extend {rams : List RamBlock} {p : Progress} {count : Nat}
    (hp : p.Sound compressed rams) (hb : p.blocks[block]? = some (ram, none))
    (hfit : count * ram.pageSize ≤ ram.size)
    (hsize : pages'.size = p.pages.size + count)
    (hold : ∀ i < p.pages.size, pages'[i]? = p.pages[i]?)
    (hnew : ∀ i, p.pages.size ≤ i → i < pages'.size → ∃ page, pages'[i]? = some page ∧
      page.block = block ∧ page.Admissible compressed ram) :
    Progress.Sound compressed rams
      ⟨p.blocks.set block (ram, some (p.pages.size, count)), pages', track⟩ := by
  obtain ⟨hlt, hget⟩ := List.getElem?_eq_some_iff.1 hb
  constructor
  · rw [← hp.rams]
    apply List.ext_getElem (by simp)
    intro k h₁ h₂
    simp only [List.getElem_map, List.getElem_set]
    split
    · subst k
      rw [hget]
    · rfl
  · intro k ram' first' count' h
    rw [List.getElem?_set] at h
    split at h
    · simp only [Option.some.injEq, Prod.mk.injEq] at h
      obtain ⟨rfl, rfl, rfl⟩ := h
      exact ⟨Nat.le_of_eq hsize.symm, hfit⟩
    · obtain ⟨h₁, h₂⟩ := hp.run k ram' first' count' h
      exact ⟨by simp only; omega, h₂⟩
  · intro i hi
    simp only at hi
    by_cases hlt' : i < p.pages.size
    · obtain ⟨page, ram', first', count', hpage, hrun, h⟩ := hp.page i hlt'
      have hne : block ≠ page.block := by
        rintro rfl
        simp [hb] at hrun
      exact ⟨page, ram', first', count', (hold i hlt').trans hpage,
        by rw [List.getElem?_set_ne hne, hrun], h⟩
    · obtain ⟨page, hpage, rfl, ha⟩ := hnew i (by omega) hi
      exact ⟨page, ram, p.pages.size, count, hpage, by simp [hlt], by omega, by omega, ha⟩

/-- A block record that is read names a block that has no run yet, and pages that fit into it. -/
theorem blockRecord_cases {p p' : Progress} (h : blockRecord compressed p s = .ok p' s') :
    ∃ length name s₁ s₂ s₃ block ram count pages track, take 1 s = .ok length s₁ ∧
      take (bigEndian length) s₁ = .ok name s₂ ∧
      p.blocks.findIdx? (·.1.name == name) = some block ∧
      p.blocks[block]? = some (ram, none) ∧ word32 s₂ = .ok count s₃ ∧
      count * ram.pageSize ≤ ram.size ∧
      pageRecords compressed block ram count 0 p.track p.pages s₃ = .ok (pages, track) s' ∧
      p' = ⟨p.blocks.set block (ram, some (p.pages.size, count)), pages, track⟩ := by
  obtain ⟨length, s₁, h₁, h⟩ := bind_ok h
  obtain ⟨name, s₂, h₂, h⟩ := bind_ok h
  cases hf : p.blocks.findIdx? (·.1.name == name) with
  | none =>
    rw [hf] at h
    exact absurd h throw_not_ok
  | some block =>
    rw [hf] at h
    cases hb : p.blocks[block]? with
    | none =>
      simp only [hb] at h
      exact absurd h throw_not_ok
    | some entry =>
      obtain ⟨ram, run⟩ := entry
      simp only [hb] at h
      cases run with
      | some run =>
        obtain ⟨_, _, hc, -⟩ := bind_ok h
        exact absurd hc corrupt_not_ok
      | none =>
        obtain ⟨count, s₃, h₃, h⟩ := bind_ok h
        split at h
        · obtain ⟨_, _, hc, -⟩ := bind_ok h
          exact absurd hc corrupt_not_ok
        · rename_i hfit
          obtain ⟨⟨pages, track⟩, _, hr, h⟩ := bind_ok h
          obtain rfl := pure_ok h
          cases h
          exact ⟨length, name, s₁, s₂, s₃, block, ram, count, pages, track, h₁, h₂, hf, hb, h₃,
            Nat.le_of_not_lt hfit, hr, rfl⟩

theorem blockRecord_ok {rams : List RamBlock} {p p' : Progress} (hp : p.Sound compressed rams)
    (h : blockRecord compressed p s = .ok p' s') : p'.Sound compressed rams := by
  obtain ⟨_, _, _, _, _, block, ram, count, pages, track, -, -, -, hb, -, hfit, hr, rfl⟩ :=
    blockRecord_cases h
  obtain ⟨hsize, hold, hnew⟩ := pageRecords_ok hr
  exact hp.extend hb hfit hsize hold hnew

theorem blockRecords_ok {rams : List RamBlock} {p p' : Progress} (hp : p.Sound compressed rams)
    (h : blockRecords compressed n p s = .ok p' s') : p'.Sound compressed rams := by
  induction n generalizing p s with
  | zero => exact pure_ok h ▸ hp
  | succ n ih =>
    obtain ⟨p₁, _, h₁, h⟩ := bind_ok h
    exact ih (blockRecord_ok hp h₁) h

def header : Decoder Flags := do
  let found ← word32
  if found ≠ version then throw (.formatVersion found)
  let flags ← word32
  let _pageCountHint ← word32
  return ⟨flags⟩

def Progress.start (blocks : List RamBlock) : Progress :=
  ⟨blocks.map (·, none), #[], ⟨firstPosition, 0⟩⟩

def Progress.found (p : Progress) (flags : Flags) : Index where
  blocks := p.blocks.map fun (ram, run) => ⟨ram, (run.getD (0, 0)).1, (run.getD (0, 0)).2⟩
  pages := p.pages
  flags := flags

theorem index_eq (blocks : List RamBlock) :
    index blocks = do
      let flags ← header
      let p ← blockRecords (flags.contains .compressedPages) blocks.length (.start blocks)
      return p.found flags := by
  unfold index header
  simp only [bind_assoc]
  congr 1
  funext found
  split
  · rfl
  · simp only [bind_assoc, pure_bind, Progress.start, Progress.found]

theorem index_ok {rams : List RamBlock} {x : Index} (h : index rams s = .ok x s') :
    x.blocks.map (·.ram) = rams ∧ x.WellFormed := by
  rw [index_eq] at h
  obtain ⟨flags, _, -, h⟩ := bind_ok h
  obtain ⟨p, _, hr, h⟩ := bind_ok h
  obtain rfl := pure_ok h
  have hp := blockRecords_ok (Progress.sound_start _ rams _) hr
  refine ⟨?_, ?_, ?_, ?_⟩
  · rw [← hp.rams]
    simp [Progress.found]
  · intro b hb
    obtain ⟨⟨ram, run⟩, hmem, rfl⟩ := List.mem_map.1 hb
    obtain ⟨k, hk⟩ := List.getElem?_of_mem hmem
    cases run with
    | none => simp
    | some run => exact (hp.run k _ _ _ hk).1
  · intro b hb
    obtain ⟨⟨ram, run⟩, hmem, rfl⟩ := List.mem_map.1 hb
    obtain ⟨k, hk⟩ := List.getElem?_of_mem hmem
    cases run with
    | none => simp
    | some run => exact (hp.run k _ _ _ hk).2
  · intro i hi
    obtain ⟨page, ram, first, count, hpage, hrun, hle, hlt, ha⟩ := hp.page i hi
    have he : (p.found flags).page i = page := by
      simp [Progress.found, Index.page, Array.getD_eq_getD_getElem?, hpage]
    refine ⟨⟨ram, first, count⟩, ?_, hle, hlt, ?_⟩
    · simp only [block?, he]
      simp only [Progress.found, List.getElem?_map, hrun, Option.map_some, Option.getD_some]
    · rw [he]
      exact ha

theorem parse_ok {rams : List RamBlock} {bytes : List UInt8} {ending : IoError} {x : Index}
    {scan : Scan} (h : parse rams bytes ending = (.ok x, scan)) :
    x.blocks.map (·.ram) = rams ∧ x.WellFormed := by
  unfold parse at h
  split at h
  · rename_i hi
    simp only [Prod.mk.injEq, Except.ok.injEq] at h
    exact h.1 ▸ index_ok hi
  · simp at h

/-- The index of a snapshot, if it can be read, is well formed. -/
theorem read_ok {rams : List RamBlock} {source : Source} {x : Index}
    (h : (read rams source).outcome = .ok x) : x.blocks.map (·.ram) = rams ∧ x.WellFormed := by
  unfold read at h
  dsimp only at h
  split at h
  · simp at h
  · exact parse_ok (Prod.ext h rfl)

theorem sameAnswers_read (rams : List RamBlock) (source : Source) :
    Source.SameAnswers source (read rams source).source := by
  unfold read
  dsimp only
  split
  · exact source.sameAnswers_afterStream 0 8
  · exact (source.sameAnswers_afterStream 0 8).trans (Source.sameAnswers_afterStream ..)

theorem read_congr {rams : List RamBlock} {s s' : Source} (h : Source.SameAnswers s s') :
    (read rams s').outcome = (read rams s).outcome ∧
      (read rams s').cleared = (read rams s).cleared := by
  have ha : Source.SameAnswers (s.afterStream 0 8) (s'.afterStream 0 8) :=
    ((s.sameAnswers_afterStream 0 8).symm.trans h).trans (s'.sameAnswers_afterStream 0 8)
  unfold read
  simp only [h.stream, ha.stream]
  split <;> exact ⟨rfl, rfl⟩

end Index
end RamRestore
