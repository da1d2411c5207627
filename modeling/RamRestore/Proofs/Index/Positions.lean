import RamRestore.Proofs.Index.Declared
import RamRestore.Proofs.Index.Reads
import RamRestore.Proofs.Transfer

/-! # Positions in bounds

The position of a page is computed in steps, and each of them may overflow. It does so only on
the way to a position that no page may have, so a record is refused for its position exactly if
the position is out of bounds.
-/

namespace RamRestore

/-- Whether an index is refused because of where a page of it would be. -/
def Corruption.isPositional : Corruption → Bool
  | .positionOverflow | .positionOutOfRange => true
  | _ => false

namespace Transfer

variable {t t' : Transfer} {s : Source} {c : ReadCall}

theorem call_end (h : t.got.size ≤ t.size) :
    t.position ≤ (t.call s).1.offset ∧
      (t.call s).1.offset + (t.call s).1.wanted = t.position + t.size := by
  have hcall : (t.call s).1.offset = t.offset ∧ (t.call s).1.wanted = t.wanted := by
    unfold call
    split <;> exact ⟨rfl, rfl⟩
  rw [hcall.1, hcall.2, offset, wanted]
  omega

theorem run_ends (h : t.got.size ≤ t.size) : ∀ c ∈ (t.run s).calls,
    t.position ≤ c.offset ∧ c.offset + c.wanted = t.position + t.size := by
  fun_induction run t s with
  | case1 => simp
  | case2 t s _ c got stop hc =>
    intro d hd
    obtain rfl := List.mem_singleton.1 hd
    have := call_end (s := s) h
    rwa [hc] at this
  | case3 t s _ c t' hc o ih =>
    have hle : t'.got.size ≤ t'.size ∧ t'.position = t.position ∧ t'.size = t.size := by
      rcases call_going_cases hc with rfl | ⟨b, -, -, hlt, rfl⟩
      · exact ⟨h, rfl, rfl⟩
      · exact ⟨Nat.le_of_lt hlt, rfl, rfl⟩
    obtain ⟨hle, hposition, hsize⟩ := hle
    intro d hd
    rcases List.mem_cons.1 hd with rfl | hd
    · have := call_end (s := s) h
      rwa [hc] at this
    · rw [← hposition, ← hsize]
      exact ih hle d hd

end Transfer

namespace Index

open Decoder

def SizeAccepted (compressed : Bool) (ram : RamBlock) (size : Nat) : Prop :=
  if compressed then 0 < size ∧ size ≤ Lz4.maxBlockLength ram.pageSize else size = 1

def sizeOnDisk (compressed : Bool) (ram : RamBlock) (size : Nat) : Nat :=
  if compressed then size else ram.pageSize

/-- Where a delta leads from the page before, as a number without bounds. -/
def destination (compressed : Bool) (ram : RamBlock) (before : Track) (d : Int) : Int :=
  if compressed then before.position + before.previous + d else before.position + d * ram.pageSize

def lastStored (pages : Array Page) : Track :=
  match pages.toList.reverse.find? (!·.isZero) with
  | some p => ⟨p.position, p.size⟩
  | none => ⟨8, 0⟩

/-- The record of a page, when an index has been read up to there. -/
structure Spot where
  compressed : Bool
  block : Nat
  ram : RamBlock
  /-- The number of the page in its block. -/
  k : Nat
  /-- All pages before it. -/
  pages : Array Page
  track : Track
  scan : Scan

namespace Spot

def read (r : Spot) : EStateM.Result LoadError Scan (Page × Track) :=
  pageRecord r.compressed r.block r.ram r.k r.track r.scan

def Gives (r : Spot) (size : Nat) (d : Int) : Prop :=
  ∃ s s', packed r.scan = .ok size s ∧ delta s = .ok d s'

/-- The record is refused because of its position. -/
def Refused (r : Spot) : Prop :=
  ∃ cause s, cause.isPositional = true ∧ r.read = .error (.invalidIndex cause) s

end Spot

/-- Reading the index of a source arrives at the record of a page. -/
inductive Arrives (rams : List RamBlock) (source : Source) : Spot → Prop
  | record {s₀ s₁ s₂ s₃ s₄ : Scan} {flags : Flags} {n count block k : Nat} {p : Progress}
      {name : List UInt8} {ram : RamBlock} {pages : Array Page} {track : Track}
      (ho : opening? source = some s₀) (hh : header s₀ = .ok flags s₁) (hn : n < rams.length)
      (hp : blockRecords (flags.contains .compressedPages) n (.start rams) s₁ = .ok p s₂)
      (hr : recordHead s₂ = .ok (name, count) s₃)
      (hf : p.blocks.findIdx? (·.1.name == name) = some block)
      (hb : p.blocks[block]? = some (ram, none)) (hfit : count * ram.pageSize ≤ ram.size)
      (hk : k < count)
      (hpages : pageRecords (flags.contains .compressedPages) block ram k 0 p.track p.pages s₃ =
        .ok (pages, track) s₄) :
      Arrives rams source ⟨flags.contains .compressedPages, block, ram, k, pages, track, s₄⟩

section

variable {compressed : Bool} {block k n size : Nat} {ram : RamBlock} {track track' : Track}
  {page : Page} {pages pages' : Array Page} {d : Int}

/-! ### Steps that may overflow -/

theorem word?_of_mem {x : Int} (h : -0x8000000000000000 ≤ x ∧ x < 0x8000000000000000) :
    word? x = some x := if_pos h

def stride (compressed : Bool) (ram : RamBlock) (before : Track) (d : Int) : Int :=
  if compressed then d + before.previous else d * ram.pageSize

theorem destination_eq :
    destination compressed ram track d = track.position + stride compressed ram track d := by
  cases compressed with
  | true => simp only [destination, stride, ↓reduceIte]; omega
  | false => rfl

theorem distance_eq (hs : SizeAccepted compressed ram size) :
    distance compressed ram track size d =
      match word? (stride compressed ram track d) with
      | none => .error .positionOverflow
      | some way => .ok (sizeOnDisk compressed ram size, way) := by
  cases compressed with
  | true =>
    have hle : ¬ Lz4.maxBlockLength ram.pageSize < size := Nat.not_lt_of_le hs.2
    cases hw : word? (d + track.previous) <;>
      simp only [distance, ↓reduceIte, hle, stride, sizeOnDisk, hw]
  | false =>
    have hone : ¬ size ≠ 1 := not_not_intro hs
    cases hw : word? (d * ram.pageSize) <;>
      simp only [distance, Bool.false_eq_true, ↓reduceIte, hone, stride, sizeOnDisk, hw]

theorem sizeOnDisk_lt (hr : isPageSize ram.pageSize = true)
    (hs : SizeAccepted compressed ram size) : sizeOnDisk compressed ram size < word32Count := by
  have hp := (isPageSize_bounds hr).2
  cases compressed with
  | true =>
    have := hs.2
    unfold Lz4.maxBlockLength at this
    simp only [sizeOnDisk, ↓reduceIte, word32Count]
    omega
  | false =>
    simp only [sizeOnDisk, Bool.false_eq_true, ↓reduceIte, word32Count]
    omega

/-- Of a record with a size that is accepted, only the two steps to its position are checked. -/
theorem place_eq (hr : isPageSize ram.pageSize = true) (hs : SizeAccepted compressed ram size) :
    place compressed block ram track size d =
      match word? (stride compressed ram track d) with
      | none => .error .positionOverflow
      | some way =>
        match word? (track.position + way) with
        | none => .error .positionOutOfRange
        | some position =>
          if position < firstPosition then .error .positionOutOfRange
          else .ok ⟨block, sizeOnDisk compressed ram size, position.toNat⟩ := by
  have hsize : ¬ word32Count ≤ sizeOnDisk compressed ram size :=
    Nat.not_le_of_lt (sizeOnDisk_lt hr hs)
  simp only [place, distance_eq hs, bind, Except.bind]
  cases word? (stride compressed ram track d) with
  | none => rfl
  | some way =>
    simp only [hsize, ↓reduceIte]
    cases word? (track.position + way) with
    | none => rfl
    | some position => by_cases hp : position < firstPosition <;> simp only [hp, ↓reduceIte] <;> rfl

/-- A page that would be in bounds is placed there: no step towards it overflows. -/
theorem place_of_inBounds (hr : isPageSize ram.pageSize = true) (ht : track.Valid)
    (hs : SizeAccepted compressed ram size) (hl : 8 ≤ destination compressed ram track d)
    (hu : destination compressed ram track d ≤ 2 ^ 63 - 1) :
    place compressed block ram track size d =
      .ok ⟨block, sizeOnDisk compressed ram size, (destination compressed ram track d).toNat⟩ := by
  obtain ⟨hp₁, hp₂⟩ := ht
  unfold firstPosition at hp₁
  rw [destination_eq] at hl hu ⊢
  rw [place_eq hr hs, word?_of_mem (by omega)]
  dsimp only
  rw [word?_of_mem (by omega)]
  exact if_neg (Int.not_lt.2 hl)

/-- A page that would be out of bounds is refused for that, whichever step finds it out. -/
theorem place_of_outOfBounds (hr : isPageSize ram.pageSize = true)
    (hs : SizeAccepted compressed ram size)
    (hx : destination compressed ram track d < 8 ∨
      2 ^ 63 - 1 < destination compressed ram track d) :
    ∃ cause, cause.isPositional = true ∧
      place compressed block ram track size d = .error cause := by
  rw [destination_eq] at hx
  rw [place_eq hr hs]
  cases hway : word? (stride compressed ram track d) with
  | none => exact ⟨_, rfl, rfl⟩
  | some way =>
    obtain ⟨rfl, -, -⟩ := word?_eq_some hway
    dsimp only
    cases hposition : word? (track.position + stride compressed ram track d) with
    | none => exact ⟨_, rfl, rfl⟩
    | some position =>
      obtain ⟨rfl, -, hlt⟩ := word?_eq_some hposition
      refine ⟨_, rfl, if_pos ?_⟩
      unfold firstPosition
      omega

/-- No page is refused because its size does not fit into 32 bits. -/
theorem place_fits {cause : Corruption} (hr : isPageSize ram.pageSize = true) (hs : size ≠ 0)
    (h : place compressed block ram track size d = .error cause) :
    ∀ m, cause ≠ .sizeTooLarge m := by
  intro m hm
  subst hm
  by_cases ha : SizeAccepted compressed ram size
  · rw [place_eq hr ha] at h
    split at h
    · cases h
    · split at h
      · cases h
      · split at h <;> cases h
  · -- a size that is not accepted is refused before that
    cases compressed with
    | true =>
      have hlt : Lz4.maxBlockLength ram.pageSize < size := by
        simp only [SizeAccepted, ↓reduceIte, not_and, Nat.not_le] at ha
        exact ha (Nat.pos_of_ne_zero hs)
      simp only [place, distance, ↓reduceIte, hlt, bind, Except.bind] at h
      cases h
    | false =>
      have hne : size ≠ 1 := ha
      simp only [place, distance, Bool.false_eq_true, ↓reduceIte, ne_eq, hne, not_false_eq_true,
        bind, Except.bind] at h
      cases h

/-! ### The page before -/

structure Tracks (track : Track) (pages : Array Page) : Prop where
  eq : track = lastStored pages
  valid : track.Valid

theorem tracks_start (rams : List RamBlock) :
    Tracks (Progress.start rams).track (Progress.start rams).pages := ⟨rfl, Track.valid_start⟩

theorem lastStored_push (pages : Array Page) (p : Page) :
    lastStored (pages.push p) =
      if p.isZero then lastStored pages else ⟨p.position, p.size⟩ := by
  cases hz : p.isZero <;> simp [lastStored, hz]

variable {s s' : Scan} {p p' : Progress}

namespace Tracks

theorem pageRecord (hr : isPageSize ram.pageSize = true) (h : Tracks track pages)
    (hp : pageRecord compressed block ram k track s = .ok (page, track') s') :
    Tracks track' (pages.push page) := by
  obtain ⟨size, s₁, -, hp⟩ := bind_ok hp
  split at hp
  · obtain ⟨_, s₂, -, hp⟩ := bind_ok hp
    cases hp
    exact ⟨by rw [lastStored_push, h.eq]; rfl, h.valid⟩
  · rename_i hs
    obtain ⟨d, s₂, -, hp⟩ := bind_ok hp
    cases hplace : place compressed block ram track size d with
    | error cause =>
      rw [hplace] at hp
      exact absurd hp corrupt_not_ok
    | ok q =>
      rw [hplace] at hp
      cases hp
      obtain ⟨-, hsize, hposition⟩ := place_ok hs hplace
      have hpos : page.size ≠ 0 := by
        have := (isPageSize_bounds hr).1
        split at hsize <;> omega
      have hz : page.isZero = false := decide_eq_false hpos
      exact ⟨by rw [lastStored_push, hz]; rfl, hposition⟩

theorem pageRecords (hr : isPageSize ram.pageSize = true) (h : Tracks track pages)
    (hp : pageRecords compressed block ram n k track pages s = .ok (pages', track') s') :
    Tracks track' pages' := by
  induction n generalizing k track pages s with
  | zero =>
    cases hp
    exact h
  | succ n ih =>
    obtain ⟨⟨page, track₁⟩, s₁, h₁, hp⟩ := bind_ok hp
    exact ih (h.pageRecord hr h₁) hp

theorem blockRecords {rams : List RamBlock} (hb : RamBlock.Accepted rams)
    (hp : p.Sound compressed rams) (h : Tracks p.track p.pages)
    (hn : blockRecords compressed n p s = .ok p' s') : Tracks p'.track p'.pages := by
  induction n generalizing p s with
  | zero =>
    cases hn
    exact h
  | succ n ih =>
    obtain ⟨p₁, s₁, h₁, hn⟩ := bind_ok hn
    refine ih (blockRecord_ok hp h₁) ?_ hn
    obtain ⟨_, _, _, _, _, block, ram, count, pages, track, -, -, -, hget, -, -, hrecords, rfl⟩ :=
      blockRecord_cases h₁
    have hmem : ram ∈ rams := hp.rams ▸ List.mem_map_of_mem (List.mem_of_getElem? hget)
    exact h.pageRecords (hb.isPageSize hmem) hrecords

end Tracks

/-! ### Up to a record, and on from there -/

theorem Decoder.bind_of_error {α β : Type} {x : Decoder α} {f : α → Decoder β} {e : LoadError}
    (h : x s = .error e s') : (x >>= f) s = .error e s' := by
  change EStateM.bind x f s = _
  rw [EStateM.bind, h]

theorem Decoder.bind_of_eq {α β : Type} {x y : Decoder α} (f : α → Decoder β)
    (h : x s = y s') : (x >>= f) s = (y >>= f) s' := by
  change EStateM.bind x f s = EStateM.bind y f s'
  rw [EStateM.bind, EStateM.bind, h]

theorem pageRecords_add {m : Nat} {s₁ : Scan}
    (h : pageRecords compressed block ram m k track pages s = .ok (pages', track') s₁) :
    pageRecords compressed block ram (m + n) k track pages s =
      pageRecords compressed block ram n (k + m) track' pages' s₁ := by
  induction m generalizing k track pages s with
  | zero =>
    cases h
    rw [Nat.zero_add, Nat.add_zero]
  | succ m ih =>
    obtain ⟨⟨page, track₁⟩, s₂, h₁, h⟩ := bind_ok h
    rw [Nat.succ_add, pageRecords, bind_of_ok h₁, Nat.add_comm m 1, ← Nat.add_assoc]
    exact ih h

theorem blockRecords_add {m : Nat} (h : blockRecords compressed m p s = .ok p' s') :
    blockRecords compressed (m + n) p s = blockRecords compressed n p' s' := by
  induction m generalizing p s with
  | zero =>
    cases h
    rw [Nat.zero_add]
  | succ m ih =>
    obtain ⟨p₁, s₁, h₁, h⟩ := bind_ok h
    rw [Nat.succ_add, blockRecords, bind_of_ok h₁]
    exact ih h

theorem recordHead_cases {name : List UInt8} {count : Nat}
    (h : recordHead s = .ok (name, count) s') : ∃ length s₁ s₂, take 1 s = .ok length s₁ ∧
      take (bigEndian length) s₁ = .ok name s₂ ∧ word32 s₂ = .ok count s' := by
  obtain ⟨length, s₁, h₁, h⟩ := bind_ok h
  obtain ⟨name', s₂, h₂, h⟩ := bind_ok h
  obtain ⟨count', s₃, h₃, h⟩ := bind_ok h
  cases h
  exact ⟨length, s₁, s₂, h₁, h₂, h₃⟩

theorem blockRecord_of_head {name : List UInt8} {count : Nat}
    (hr : recordHead s = .ok (name, count) s')
    (hf : p.blocks.findIdx? (·.1.name == name) = some block)
    (hb : p.blocks[block]? = some (ram, none)) (hfit : count * ram.pageSize ≤ ram.size) :
    blockRecord compressed p s =
      (do
        let (pages, track) ← pageRecords compressed block ram count 0 p.track p.pages
        return ⟨p.blocks.set block (ram, some (p.pages.size, count)), pages, track⟩ :
          Decoder Progress) s' := by
  obtain ⟨length, s₁, s₂, h₁, h₂, h₃⟩ := recordHead_cases hr
  rw [blockRecord, bind_of_ok h₁, bind_of_ok h₂]
  simp only [hf, hb]
  rw [Option.isSome_none]
  simp only [Bool.false_eq_true, ↓reduceIte]
  rw [bind_of_ok h₃, if_neg (Nat.not_lt_of_le hfit)]

variable {rams : List RamBlock} {source : Source}

theorem outcome_read {s₀ : Scan} (ho : opening? source = some s₀) :
    (read rams source).outcome =
      match index rams s₀ with
      | .ok x _ => .ok x
      | .error e _ => .error e := by
  have hstream : ∀ offset, (source.afterStream 0 8).stream offset = source.stream offset :=
    fun offset => (source.sameAnswers_afterStream 0 8).stream offset
  unfold opening? at ho
  unfold read
  simp only [hstream] at ho ⊢
  split at ho
  · cases ho
  · rename_i hlen
    cases ho
    simp only [hlen, ↓reduceIte, parse]
    split <;> simp [*]

theorem pages_blockRecords (h : blockRecords compressed n p s = .ok p' s') :
    ∀ i < p.pages.size, p'.pages[i]? = p.pages[i]? := by
  induction n generalizing p s with
  | zero =>
    cases h
    exact fun _ _ => rfl
  | succ n ih =>
    obtain ⟨p₁, s₁, h₁, h⟩ := bind_ok h
    obtain ⟨_, _, _, _, _, _, _, _, pages, track, -, -, -, -, -, -, hr, rfl⟩ := blockRecord_cases h₁
    obtain ⟨hsize, hold, -⟩ := pageRecords_ok hr
    intro i hi
    rw [ih h i (by dsimp only; omega)]
    exact hold i hi

namespace Arrives

variable {r : Spot} {x : Index}

/-- What comes of an index is what comes of the record and of what stands behind it; there the
page of the record stays as it is. -/
theorem goesOn (h : Arrives rams source r) :
    ∃ s₀ rest, opening? source = some s₀ ∧
      index rams s₀ =
        (pageRecord r.compressed r.block r.ram r.k r.track >>= rest) r.scan ∧
      ∀ page track s x s', rest (page, track) s = .ok x s' → x.page r.pages.size = page := by
  cases h with
  | @record s₀ s₁ s₂ s₃ s₄ flags n count block k p name ram pages track ho hh hn hp hr hf hb hfit
      hk hpages =>
    obtain ⟨m, hm⟩ := Nat.exists_eq_add_of_lt hn
    obtain ⟨j, hj⟩ := Nat.exists_eq_add_of_lt hk
    refine ⟨s₀, fun r => do
      let (pages, track) ← pageRecords (flags.contains .compressedPages) block ram j (k + 1) r.2
        (pages.push r.1)
      let p ← blockRecords (flags.contains .compressedPages) m
        ⟨p.blocks.set block (ram, some (p.pages.size, count)), pages, track⟩
      return p.found flags, ho, ?_, ?_⟩
    · rw [index_eq, bind_of_ok hh, hm, Nat.add_assoc]
      rw [bind_of_eq _ (blockRecords_add hp), blockRecords, bind_assoc,
        bind_of_eq _ (blockRecord_of_head hr hf hb hfit), bind_assoc]
      rw [hj, Nat.add_assoc, bind_of_eq _ (pageRecords_add hpages), Nat.zero_add, pageRecords,
        bind_assoc]
      simp only [pure_bind]
    · intro page track' s x s' hrest
      obtain ⟨⟨pages', track₁⟩, s₅, hrecords, hrest⟩ := bind_ok hrest
      obtain ⟨p', s₆, hblocks, hrest⟩ := bind_ok hrest
      obtain rfl := pure_ok hrest
      obtain ⟨hsize, hold, -⟩ := pageRecords_ok hrecords
      rw [Array.size_push] at hsize
      have hpage : p'.pages[pages.size]? = some page := by
        rw [pages_blockRecords hblocks pages.size (by dsimp only; omega),
          hold pages.size (by simp)]
        simp
      simp [Progress.found, Index.page, Array.getD_eq_getD_getElem?, hpage]

theorem isPageSize (hb : RamBlock.Accepted rams) (h : Arrives rams source r) :
    isPageSize r.ram.pageSize = true := by
  cases h with
  | record ho hh hn hp hr hf hget =>
    have hs := blockRecords_ok (Progress.sound_start _ rams _) hp
    exact hb.isPageSize (hs.rams ▸ List.mem_map_of_mem (List.mem_of_getElem? hget))

theorem tracks (hb : RamBlock.Accepted rams) (h : Arrives rams source r) :
    Tracks r.track r.pages := by
  have hsize := h.isPageSize hb
  cases h with
  | record ho hh hn hp hr hf hget hfit hk hpages =>
    have ht := (tracks_start rams).blockRecords hb (Progress.sound_start _ rams _) hp
    exact ht.pageRecords hsize hpages

theorem outcome_of_error {e : LoadError} {s : Scan} (h : Arrives rams source r)
    (he : r.read = .error e s) : (read rams source).outcome = .error e := by
  obtain ⟨s₀, rest, ho, hindex, -⟩ := h.goesOn
  rw [outcome_read ho, hindex, bind_of_error he]

theorem page_of_ok {page : Page} {track : Track} {s : Scan} (h : Arrives rams source r)
    (hok : r.read = .ok (page, track) s) (hx : (read rams source).outcome = .ok x) :
    x.page r.pages.size = page := by
  obtain ⟨s₀, rest, ho, hindex, hpage⟩ := h.goesOn
  rw [outcome_read ho, hindex, bind_of_ok hok] at hx
  split at hx
  · cases hx
    exact hpage _ _ _ _ _ ‹_›
  · cases hx

end Arrives

/-! ### The error that never comes -/

def Decoder.Fits {α : Type} (x : Decoder α) (s : Scan) : Prop :=
  ∀ m s', x s ≠ .error (.invalidIndex (.sizeTooLarge m)) s'

namespace Decoder.Fits

variable {α β : Type} {x : Decoder α} {f : α → Decoder β}

theorem bind (hx : Fits x s) (hf : ∀ a s', x s = .ok a s' → Fits (f a) s') :
    Fits (x >>= f) s := by
  intro m s' h
  change EStateM.bind x f s = _ at h
  unfold EStateM.bind at h
  split at h
  · exact hf _ _ ‹_› m s' h
  · rename_i e s'' he
    cases h
    exact hx m _ he

theorem pure (a : α) : Fits (Pure.pure a) s := nofun

theorem take (n : Nat) : Fits (Decoder.take n) s := by
  intro m s' h
  unfold Decoder.take at h
  dsimp only at h
  split at h <;> cases h

theorem word32 : Fits Decoder.word32 s := (take 4).bind fun _ _ _ => pure _

theorem packed : Fits Decoder.packed s := by
  intro m s' h
  unfold Decoder.packed at h
  split at h <;> cases h

theorem delta : Fits Decoder.delta s := packed.bind fun _ _ _ => pure _

theorem corrupt {cause : Corruption} (h : ∀ m, cause ≠ .sizeTooLarge m) :
    Fits (corrupt cause : Decoder α) s := by
  intro m s' he
  cases he
  exact h m rfl

end Decoder.Fits

theorem fits_pageRecords (hr : isPageSize ram.pageSize = true) :
    Fits (pageRecords compressed block ram n k track pages) s := by
  induction n generalizing k track pages s with
  | zero => exact .pure _
  | succ n ih =>
    refine .bind (.bind .packed fun size s₁ _ => ?_) fun _ _ _ => ih
    split
    · exact .bind nofun fun _ _ _ => .pure _
    · rename_i hs
      refine .bind .delta fun d s₂ _ => ?_
      split
      · exact .corrupt (place_fits hr hs ‹_›)
      · exact .pure _

theorem fits_blockRecord (hr : ∀ q ∈ p.blocks, isPageSize q.1.pageSize = true) :
    Fits (blockRecord compressed p) s := by
  refine .bind (.take 1) fun length s₁ _ => .bind (.take _) fun name s₂ _ => ?_
  split
  · exact nofun
  · split
    · exact nofun
    · rename_i ram run hb
      cases run with
      | some run => exact .bind (.corrupt nofun) fun _ _ h => absurd h corrupt_not_ok
      | none =>
        refine .bind .word32 fun count s₃ _ => ?_
        split
        · exact .bind (.corrupt nofun) fun _ _ h => absurd h corrupt_not_ok
        · exact .bind (fits_pageRecords (hr _ (List.mem_of_getElem? hb))) fun _ _ _ => .pure _

theorem fits_blockRecords (hb : RamBlock.Accepted rams) (hp : p.Sound compressed rams) :
    Fits (blockRecords compressed n p) s := by
  induction n generalizing p s with
  | zero => exact .pure _
  | succ n ih =>
    refine .bind (fits_blockRecord fun q hq => ?_) fun _ _ h => ih (blockRecord_ok hp h)
    exact hb.isPageSize (hp.rams ▸ List.mem_map_of_mem hq)

theorem fits_index (hb : RamBlock.Accepted rams) : Fits (index rams) s := by
  rw [index_eq]
  refine .bind ?_ fun flags s₁ _ => ?_
  · refine .bind .word32 fun found _ _ => ?_
    split
    · exact .bind nofun fun _ _ h => absurd h throw_not_ok
    · exact .bind .word32 fun _ _ _ => .bind .word32 fun _ _ _ => .pure _
  · exact .bind (fits_blockRecords hb (Progress.sound_start _ rams _)) fun _ _ _ => .pure _

theorem outcome_fits (hb : RamBlock.Accepted rams) (m : Nat) :
    (read rams source).outcome ≠ .error (.invalidIndex (.sizeTooLarge m)) := by
  cases ho : opening? source with
  | none =>
    unfold opening? at ho
    unfold read
    dsimp only at ho ⊢
    split at ho
    · rename_i hlen
      rw [if_pos hlen]
      exact nofun
    · cases ho
  | some s₀ =>
    rw [outcome_read ho]
    split
    · exact nofun
    · rename_i e s' he
      rintro ⟨⟩
      exact fits_index hb m s' he

/-- What becomes of a record that would put its page at position `x`. -/
structure Checked (rams : List RamBlock) (source : Source) (r : Spot) (size : Nat) (x : Int) :
    Prop where
  refused_iff : r.Refused ↔ x < 8 ∨ 2 ^ 63 - 1 < x
  /-- With the record, the index is refused for its position. -/
  refused : r.Refused → ∃ cause, cause.isPositional = true ∧
    (read rams source).outcome = .error (.invalidIndex cause)
  /-- A record that is not refused gives a page of its block at this position and no other. -/
  placed : ¬ r.Refused → ∃ page track s, r.read = .ok (page, track) s ∧ page.block = r.block ∧
    page.size = sizeOnDisk r.compressed r.ram size ∧ (page.position : Int) = x ∧
    ∀ idx, (read rams source).outcome = .ok idx → idx.page r.pages.size = page

/-- The reads of a page stay inside 64 bits. -/
structure Readable (p : Page) : Prop where
  size_lt : p.size < 2 ^ 32
  end_lt : p.position + p.size < 2 ^ 64
  calls : ∀ (source : Source), ∀ c ∈ ((⟨p.position, p.size, #[]⟩ : Transfer).run source).calls,
    p.position ≤ c.offset ∧ c.offset + c.wanted = p.position + p.size

theorem Spot.read_of_gives {r : Spot} (hg : r.Gives size d) (hs : size ≠ 0) : ∃ s,
    r.read = match place r.compressed r.block r.ram r.track size d with
      | .error cause => .error (.invalidIndex cause) s
      | .ok page => .ok (page, ⟨page.position, page.size⟩) s := by
  obtain ⟨s₁, s₂, h₁, h₂⟩ := hg
  refine ⟨s₂, ?_⟩
  rw [Spot.read, pageRecord, bind_of_ok h₁, if_neg hs, bind_of_ok h₂]
  cases place r.compressed r.block r.ram r.track size d <;> rfl

theorem SizeAccepted.ne_zero (hs : SizeAccepted compressed ram size) : size ≠ 0 := by
  cases compressed with
  | true => exact Nat.ne_of_gt hs.1
  | false =>
    have hone : size = 1 := hs
    omega

theorem Arrives.checked {r : Spot} (hb : RamBlock.Accepted rams) (h : Arrives rams source r)
    (hg : r.Gives size d) (hs : SizeAccepted r.compressed r.ram size) :
    Checked rams source r size (destination r.compressed r.ram (lastStored r.pages) d) := by
  have hsize := h.isPageSize hb
  have ht := h.tracks hb
  obtain ⟨s, hread⟩ := Spot.read_of_gives hg hs.ne_zero
  rw [← ht.eq]
  by_cases hx : destination r.compressed r.ram r.track d < 8 ∨
      2 ^ 63 - 1 < destination r.compressed r.ram r.track d
  · obtain ⟨cause, hc, hplace⟩ : ∃ cause, cause.isPositional = true ∧
        place r.compressed r.block r.ram r.track size d = .error cause :=
      place_of_outOfBounds hsize hs hx
    rw [hplace] at hread
    have hrefused : r.Refused := ⟨cause, s, hc, hread⟩
    exact ⟨⟨fun _ => hx, fun _ => hrefused⟩, fun _ => ⟨cause, hc, h.outcome_of_error hread⟩,
      fun hn => absurd hrefused hn⟩
  · have hnonneg : 0 ≤ destination r.compressed r.ram r.track d := by omega
    rw [place_of_inBounds hsize ht.valid hs (by omega) (by omega)] at hread
    have hok : ¬ r.Refused := by
      rintro ⟨cause, s', -, he⟩
      rw [hread] at he
      cases he
    refine ⟨⟨fun hr => absurd hr hok, fun hx' => absurd hx' hx⟩, fun hr => absurd hr hok, ?_⟩
    intro _
    exact ⟨_, _, s, hread, rfl, rfl, Int.toNat_of_nonneg hnonneg,
      fun idx hidx => h.page_of_ok hread hidx⟩

theorem readable_of_read {x : Index} (hb : RamBlock.Accepted rams)
    (hx : (read rams source).outcome = .ok x) {i : Nat} (hi : i < x.pages.size) :
    Readable (x.page i) := by
  obtain ⟨hrams, hw⟩ := read_ok hx
  obtain ⟨b, hget, -, -, ha⟩ := hw.page i hi
  have hmem : b.ram ∈ rams := hrams ▸ List.mem_map_of_mem (List.mem_of_getElem? hget)
  have hp := (isPageSize_bounds (hb.isPageSize hmem)).2
  have hbounds : (x.page i).size < 2 ^ 32 ∧ (x.page i).position < 2 ^ 63 := by
    rcases ha with ⟨hs, hposition⟩ | ⟨hs, -, hlt⟩
    · omega
    · unfold Lz4.maxBlockLength at hs
      split at hs <;> omega
  exact ⟨hbounds.1, by omega, fun source c hc => Transfer.run_ends (Nat.zero_le _) c hc⟩

/-- A record is refused for its position exactly if the position is out of bounds, no size is too
large, and what is accepted can be read without leaving 64 bits. -/
theorem positions_exact (hb : RamBlock.Accepted rams) :
    (∀ r size d, Arrives rams source r → r.Gives size d →
      SizeAccepted r.compressed r.ram size →
        Checked rams source r size (destination r.compressed r.ram (lastStored r.pages) d)) ∧
      (∀ m, (read rams source).outcome ≠ .error (.invalidIndex (.sizeTooLarge m))) ∧
      ∀ x, (read rams source).outcome = .ok x → ∀ i < x.pages.size, Readable (x.page i) :=
  ⟨fun _ _ _ h hg hs => h.checked hb hg hs, outcome_fits hb,
    fun _ hx _ hi => readable_of_read hb hx hi⟩

end

/-- The record of its second page leads back to position 4, which belongs to the header. -/
def steppingBack : Bytes :=
  #[0, 0, 0, 0, 0, 0, 0, 8, 0, 0, 0, 1, 0, 0, 0, 0, 0, 0, 0, 2, 1, 97, 0, 0, 0, 2, 1, 0, 1, 3]

def steppingBackSpot : Spot where
  compressed := false
  block := 0
  ram := ⟨"a", 16, 8, 4⟩
  k := 1
  pages := #[⟨0, 4, 8⟩]
  track := ⟨8, 4⟩
  scan := { rest := [1, 3], ending := .endOfData }

theorem arrives_steppingBack :
    Arrives [⟨"a", 16, 8, 4⟩] (.ofBytes steppingBack) steppingBackSpot := by
  have ho : opening? (.ofBytes steppingBack) =
      some { rest := steppingBack.toList.drop 8, ending := .endOfData } := by
    unfold opening?
    have hs : (Source.ofBytes steppingBack).stream 0 = (steppingBack.toList, .endOfData) := by
      decide +kernel
    have hs' : (Source.ofBytes steppingBack).stream 8 =
        (steppingBack.toList.drop 8, .endOfData) := by decide +kernel
    have hp : bigEndian (steppingBack.toList.take 8) = 8 := by decide
    rw [hs]
    dsimp only
    rw [hp, hs']
    rfl
  have hh : header { rest := steppingBack.toList.drop 8, ending := .endOfData } =
      .ok ⟨0⟩ { rest := steppingBack.toList.drop 20, ending := .endOfData } := rfl
  have hr : recordHead { rest := steppingBack.toList.drop 20, ending := .endOfData } =
      .ok ([97], 2) { rest := [1, 0, 1, 3], ending := .endOfData } := rfl
  exact .record ho hh Nat.zero_lt_one rfl hr (by decide +kernel) rfl (by decide) (by decide) rfl

theorem positions_exact_sample :
    Checked [⟨"a", 16, 8, 4⟩] (.ofBytes steppingBack) steppingBackSpot 1 4 := by
  have hb : RamBlock.Accepted [⟨"a", 16, 8, 4⟩] := .snoc .nil (by decide +kernel)
  exact (positions_exact hb).1 steppingBackSpot 1 (-1) arrives_steppingBack ⟨_, _, rfl, rfl⟩ rfl

end Index
end RamRestore
