import RamRestore.PageState
import RamRestore.Proofs.Load.EagerOutcome
import RamRestore.Proofs.Snapshot

/-! # Restoring what was saved

A snapshot that was written is restored by an eager load: every page holds what was saved of it,
and all other memory is as it was before.
-/

namespace RamRestore

namespace Index

variable {x : Index} {records done rest : List Record} {r : Record} {ram : RamBlock} {e : Entry}
  {es : List Entry} {i k : Nat}

theorem listing_append (done rest : List Record) :
    listing (done ++ rest) = listing done ++ listing rest := by
  simp [listing]

theorem getElem?_listing (hk : r.entries[k]? = some e) :
    (listing (done ++ r :: rest))[(listing done).length + k]? = some (r.ram, e) := by
  obtain ⟨hlt, -⟩ := List.getElem?_eq_some_iff.1 hk
  rw [listing_append, List.getElem?_append_right (by omega), Nat.add_sub_cancel_left, listing,
    List.flatMap_cons, List.getElem?_append_left (by simpa using hlt), List.getElem?_map, hk]
  rfl

theorem exists_of_getElem?_listing (h : (listing records)[i]? = some (ram, e)) :
    ∃ done r rest k, records = done ++ r :: rest ∧ i = (listing done).length + k ∧
      r.entries[k]? = some e ∧ r.ram = ram := by
  induction records generalizing i with
  | nil => cases h
  | cons r records ih =>
    rw [listing, List.flatMap_cons] at h
    by_cases hi : i < r.entries.length
    · rw [List.getElem?_append_left (by simpa using hi), List.getElem?_map,
        Option.map_eq_some_iff] at h
      obtain ⟨e, he, ⟨⟩⟩ := h
      exact ⟨[], r, records, i, rfl, by simp [listing], he, rfl⟩
    · rw [List.getElem?_append_right (by simpa using hi), List.length_map] at h
      obtain ⟨done, q, rest, k, rfl, hk, he, hq⟩ := ih h
      refine ⟨r :: done, q, rest, k, rfl, ?_, he, hq⟩
      simp only [listing, List.flatMap_cons, List.length_append, List.length_map] at hk ⊢
      omega

/-- Where an index that says what records say puts page `k` of a block. -/
theorem Tells.place (hx : x.Tells records) (hn : (x.blocks.map (·.ram)).Nodup)
    (hr : records = done ++ r :: rest) (hk : r.entries[k]? = some e)
    (hi : i = (listing done).length + k) :
    i < x.pages.size ∧ x.pageSize i = r.ram.pageSize ∧ x.address i = r.ram.pageAddress k ∧
      x.page i = e.page (x.page i).block := by
  have he : (listing records)[i]? = some (r.ram, e) := by
    rw [hr, hi]
    exact getElem?_listing hk
  obtain ⟨b, hb, hram, hpage⟩ := hx.page i r.ram e he
  obtain ⟨c, hc, hcram, hfirst, -⟩ := hx.run done r rest hr
  -- both are the block of the record
  have hbc : b = c :=
    List.inj_on_of_nodup_map hn (List.mem_of_getElem? hb) hc (hram.trans hcram.symm)
  subst hbc
  refine ⟨?_, ?_, ?_, hpage⟩
  · rw [hx.size]
    exact (List.getElem?_eq_some_iff.1 he).1
  · simp only [pageSize, hb, hram]
  · simp only [address, hb, hram]
    rw [hfirst, hi, Nat.add_sub_cancel_left]

end Index

namespace Loader

variable {W : Type} [Guest W] [LawfulGuest W]

open LawfulGuest

theorem isZero_read {w : W} {start length : Nat}
    (h : isZero (Guest.read w start length).1 = true) {a : Nat} (hle : start ≤ a)
    (hlt : a < start + length) : byte w a = 0 := by
  rw [read_eq, isZero, Array.all_eq_true] at h
  have hk := h (a - start) (by rw [Array.size_ofFn]; omega)
  simpa [Nat.add_sub_cancel' hle] using hk

/-- With an exact checker the listed ranges are zero, and all else is as it was. -/
theorem byte_clear {zeroChecker : Bytes → Bool} (hz : ∀ bytes, zeroChecker bytes = isZero bytes)
    (w : W) (ranges : List (Nat × Nat)) (a : Nat) :
    byte (clear zeroChecker w ranges).2 a =
      if ∃ r ∈ ranges, r.1 ≤ a ∧ a < r.1 + r.2 then 0 else byte w a := by
  induction ranges generalizing w with
  | nil => simp [clear]
  | cons r ranges ih =>
    obtain ⟨start, length⟩ := r
    -- one range, whether it is written or was zero before
    have hone : ∀ w' : W, w' = (if zeroChecker (Guest.read w start length).1
          then (Guest.read w start length).2
          else Guest.write (Guest.read w start length).2 start (Array.replicate length 0)) →
        byte w' a = if start ≤ a ∧ a < start + length then 0 else byte w a := by
      rintro w' rfl
      split
      · rename_i h
        rw [hz] at h
        rw [byte_read]
        split
        · rename_i ha
          exact isZero_read h ha.1 ha.2
        · rfl
      · rw [byte_write, byte_read]
        by_cases ha : start ≤ a ∧ a < start + length
        · rw [if_pos ha, if_pos ⟨ha.1, by rw [Array.size_replicate]; omega⟩]
          simp [show a - start < length by omega]
        · rw [if_neg ha, if_neg]
          rw [Array.size_replicate]
          omega
    have hhead := hone _ rfl
    simp only [clear, ih, hhead, List.exists_mem_cons_iff]
    split
    · rename_i h
      rw [if_pos (.inr h)]
    · rename_i h
      simp only [h, or_false]

end Loader
def SavedBlock.Covers (b : SavedBlock) (k a : Nat) : Prop :=
  b.ram.start + k * b.ram.pageSize ≤ a ∧ a < b.ram.start + k * b.ram.pageSize + b.ram.pageSize

namespace Snapshot

variable {s : Snapshot} {x : Index} {before : Bytes} {b : SavedBlock} {p : SavedPage} {i k : Nat}

/-- Page `i` of an index is page `k` of a block, of which this was saved. -/
structure Lies (x : Index) (b : SavedBlock) (k : Nat) (p : SavedPage) (i : Nat) : Prop where
  lt : i < x.pages.size
  pageSize : x.pageSize i = b.ram.pageSize
  address : x.address i = b.ram.pageAddress k
  page : x.page i = p.entry.page (x.page i).block

theorem exists_lies (hx : x.Tells s.records) (hn : (x.blocks.map (·.ram)).Nodup)
    (hb : b ∈ s.blocks) (hk : b.pages[k]? = some p) : ∃ i, Lies x b k p i := by
  obtain ⟨done, rest, hs⟩ := List.append_of_mem hb
  have hr : s.records = done.map SavedBlock.record ++ b.record :: rest.map SavedBlock.record := by
    simp [records, hs]
  have he : b.record.entries[k]? = some p.entry := by simp [SavedBlock.record, hk]
  obtain ⟨hlt, hsize, haddress, hpage⟩ := hx.place hn hr he rfl
  exact ⟨_, hlt, hsize, haddress, hpage⟩

theorem exists_saved (hx : x.Tells s.records) (hn : (x.blocks.map (·.ram)).Nodup)
    (hi : i < x.pages.size) :
    ∃ b ∈ s.blocks, ∃ k p, b.pages[k]? = some p ∧ Lies x b k p i := by
  rw [hx.size] at hi
  obtain ⟨done, r, rest, k, hr, hk, he, -⟩ :=
    Index.exists_of_getElem?_listing (List.getElem?_eq_getElem hi)
  have hmem : r ∈ s.records := by simp [hr]
  obtain ⟨b, hb, rfl⟩ := List.mem_map.1 hmem
  simp only [SavedBlock.record, List.getElem?_map, Option.map_eq_some_iff] at he
  obtain ⟨p, hp, he⟩ := he
  have hentry : b.record.entries[k]? = some p.entry := by simp [SavedBlock.record, hp]
  obtain ⟨hlt, hsize, haddress, hpage⟩ := hx.place hn hr hentry hk
  exact ⟨b, hb, k, p, hp, hlt, hsize, haddress, hpage⟩

theorem mem_listing (hb : b ∈ s.blocks) (hp : p ∈ b.pages) :
    (b.ram, p.entry) ∈ Index.listing s.records :=
  List.mem_flatMap.2 ⟨b.record, List.mem_map_of_mem hb,
    List.mem_map.2 ⟨p.entry, List.mem_map_of_mem hp, rfl⟩⟩

theorem Lies.mem_stored (hl : Lies x b k p i) (hv : s.Valid before.size) (hb : b ∈ s.blocks)
    (hk : b.pages[k]? = some p) (hr : isPageSize b.ram.pageSize = true) :
    i ∈ x.stored ↔ p ≠ .zero := by
  rw [Index.mem_stored, hl.page]
  cases p with
  | zero => simp [SavedPage.entry, Index.Entry.page, Page.zero, Page.isZero]
  | stored contents payload position =>
    obtain ⟨t, hw⟩ := hv.writable.mem (mem_listing hb (List.mem_of_getElem? hk))
    have hpos := hw.size_pos hr
    simp [SavedPage.entry, Index.Entry.page, Page.isZero, hl.lt, Nat.ne_of_gt hpos]

/-- The file has the bytes of a page where the index says. -/
theorem Lies.payload {contents : Bytes} {payload : List UInt8} {position : Nat}
    (hl : Lies x b k (.stored contents payload position) i) (hv : s.Valid before.size)
    (hb : b ∈ s.blocks) (hk : b.pages[k]? = some (.stored contents payload position)) :
    (x.page i).position + (x.page i).size ≤ (s.file before).size ∧
      (s.file before).extract (x.page i).position ((x.page i).position + (x.page i).size) =
        payload.toArray := by
  have hc : (position, payload) ∈ s.chunks := by
    refine .tail _ (.tail _ (List.mem_flatMap.2 ⟨b, hb, List.mem_filterMap.2 ?_⟩))
    exact ⟨_, List.mem_of_getElem? hk, rfl⟩
  rw [hl.page]
  refine ⟨?_, (hv.hasAt hc).extract⟩
  rw [size_file]
  exact hv.within _ hc

theorem Lies.decode {W : Type} {m : Load W} {contents : Bytes} {payload : List UInt8}
    {position : Nat} (hl : Lies m.index b k (.stored contents payload position) i)
    (hv : s.Valid before.size) (hb : b ∈ s.blocks)
    (hk : b.pages[k]? = some (.stored contents payload position))
    (hf : m.index.flags = s.flags) : m.decode i payload.toArray = .ok contents := by
  have hp := hv.sound b hb _ (List.mem_of_getElem? hk)
  simp only [SavedPage.Sound] at hp
  have hc : m.index.compressed = s.compressed := by rw [Index.compressed, hf, compressed]
  rw [Load.decode, hc, hl.pageSize]
  split at hp
  · rename_i h
    rw [if_pos h]
    cases hu : unpack b.ram.pageSize payload with
    | error cause => simp [hu, Except.toOption] at hp
    | ok page =>
      simp only [hu, Except.toOption, Option.some.injEq] at hp
      rw [hp]
  · rename_i h
    rw [if_neg h, hp]

section

variable {W : Type} [Guest W] [LawfulGuest W]

open LawfulGuest

/-- What was saved is in memory, all other memory is as it was before, and the load is over. -/
structure Restores (s : Snapshot) (memory : Nat → UInt8) (m : Load W) : Prop where
  failure : m.failure = none
  complete : m.complete = true
  filled : ∀ i < m.index.pages.size, m.state i = .filled
  saved : ∀ b ∈ s.blocks, ∀ k p, b.pages[k]? = some p → ∀ j < b.ram.pageSize,
    byte m.guest (b.ram.start + k * b.ram.pageSize + j) = p.byte j
  kept : ∀ a, (∀ b ∈ s.blocks, ∀ k < b.pages.length, ¬ b.Covers k a) →
    byte m.guest a = memory a

/-- A load of which only the index has been read, and the zero pages written. -/
structure Opens (s : Snapshot) (file : Bytes) (memory : Nat → UInt8) (m : Load W) : Prop where
  fresh : m.Fresh
  flags : m.index.flags = s.flags
  tells : m.index.Tells s.records
  source : m.source.Serves file
  zero : ∀ b ∈ s.blocks, ∀ k a, b.pages[k]? = some .zero → b.Covers k a → byte m.guest a = 0
  kept : ∀ a, (∀ b ∈ s.blocks, ∀ k, b.pages[k]? = some .zero → ¬ b.Covers k a) →
    byte m.guest a = memory a

variable {l : Loader W} {source : Source} {guest : W} {m n : Load W} {memory : Nat → UInt8}

omit [Guest W] [LawfulGuest W] in
theorem Valid.pageAddress {blocks : List RamBlock} (hv : s.Valid before.size)
    (hb : RamBlock.Accepted blocks) (ha : RamBlock.Disjoint blocks)
    (hp : (s.blocks.map (·.ram)).Perm blocks) (hmem : b ∈ s.blocks) (hk : k < b.pages.length) :
    b.ram.pageAddress k = b.ram.start + k * b.ram.pageSize := by
  have hram : b.ram ∈ blocks := hp.mem_iff.1 (List.mem_map_of_mem hmem)
  apply RamBlock.pageAddress_eq (isPageSize_bounds (hb.isPageSize hram)).1 (ha.inside b.ram hram)
  exact Nat.le_trans (Nat.mul_le_mul_right _ hk) (hv.fits b hmem)

omit [Guest W] [LawfulGuest W] in
/-- Reading a page that was saved with contents comes to these contents. -/
theorem Lies.yield {contents : Bytes} {payload : List UInt8} {position : Nat}
    (hl : Lies m.index b k (.stored contents payload position) i) (hv : s.Valid before.size)
    (hb : b ∈ s.blocks) (hk : b.pages[k]? = some (.stored contents payload position))
    (hf : m.index.flags = s.flags) (hs : m.source.Serves (s.file before)) :
    m.yield i = .ok contents ∧ m.index.content? (s.file before) i = some contents := by
  obtain ⟨hle, hbytes⟩ := hl.payload hv hb hk
  have hholds : (m.transfer i).Holds (s.file before) := ⟨Nat.zero_le _, by simp [Load.transfer]⟩
  have hresult := hholds.result_of_serves hs hle
  have hdecode := hl.decode hv hb hk hf
  constructor
  · rw [Load.yield_of_result hresult, Load.contents_full, ← hdecode]
    exact congrArg (m.decode i) hbytes
  · refine Load.content_of_decode (Index.packed_eq_some ?_ hbytes.symm) hdecode
    rw [← hbytes, Array.size_extract]
    omega

/-- Whatever an eager load does after it has read the index, it restores what was saved. -/
theorem Opens.restores {config : Config} {threads : Threads} {failure : Option LoadError}
    (ho : s.Opens (s.file before) memory m)
    (hb : RamBlock.Accepted (m.index.blocks.map (·.ram)))
    (ha : RamBlock.Disjoint (m.index.blocks.map (·.ram)))
    (hp : (s.blocks.map (·.ram)).Perm (m.index.blocks.map (·.ram))) (hv : s.Valid before.size)
    (hn : m.LoadsEagerly config threads failure n) : failure = none ∧ s.Restores memory n := by
  have hout := hn.outcome ho.fresh ha
  have hpage : ∀ b ∈ s.blocks, isPageSize b.ram.pageSize = true :=
    fun b hmem => hb.isPageSize (hp.mem_iff.1 (List.mem_map_of_mem hmem))
  have hsaved : ∀ i < m.index.pages.size, ∃ b ∈ s.blocks, ∃ k p, b.pages[k]? = some p ∧
      Lies m.index b k p i := fun i hi => exists_saved ho.tells hb.nodup hi
  have hfail : failure = none := by
    apply Option.not_isSome_iff_eq_none.1
    rw [hout.failure_iff]
    rintro ⟨i, hi, cause, hcause⟩
    obtain ⟨b, hmem, k, p, hk, hl⟩ := hsaved i (Index.mem_stored.1 hi).1
    cases p with
    | zero => exact (hl.mem_stored hv hmem hk (hpage b hmem)).1 hi rfl
    | stored contents payload position =>
      rw [(hl.yield hv hmem hk ho.flags ho.source).1] at hcause
      cases hcause
  have hrestored := hout.restored hfail
  rw [ho.source.data] at hrestored
  -- where a page lies that was saved
  have hcovers : ∀ b ∈ s.blocks, ∀ k p i, b.pages[k]? = some p → Lies m.index b k p i →
      ∀ a, m.index.Covers i a ↔ b.Covers k a := by
    intro b hmem k p i hk hl a
    rw [Index.Covers, hl.address, hl.pageSize,
      hv.pageAddress hb ha hp hmem (List.getElem?_eq_some_iff.1 hk).1]
    exact Iff.rfl
  refine ⟨hfail, hout.quiet hfail, hout.complete, ?_, ?_, ?_⟩
  · intro i hi
    rw [hout.index] at hi
    cases hz : (m.index.page i).isZero with
    | true => exact hout.orderly.zero i (hout.index ▸ hi) (hout.index ▸ hz)
    | false => exact hout.filled hfail i (Index.mem_stored.2 ⟨hi, hz⟩)
  · intro b hmem k p hk j hj
    obtain ⟨i, hl⟩ := exists_lies ho.tells hb.nodup hmem hk
    have haddress := hv.pageAddress hb ha hp hmem (List.getElem?_eq_some_iff.1 hk).1
    have hstored := hl.mem_stored hv hmem hk (hpage b hmem)
    have hc : b.Covers k (b.ram.start + k * b.ram.pageSize + j) := ⟨by omega, by omega⟩
    cases p with
    | stored contents payload position =>
      have hi := hstored.2 nofun
      obtain ⟨c, hcontent, hbytes⟩ := hrestored.filled i hi (hout.filled hfail i hi)
      rw [(hl.yield hv hmem hk ho.flags ho.source).2] at hcontent
      cases hcontent
      rw [hl.address, hl.pageSize, haddress] at hbytes
      exact hbytes j hj
    | zero =>
      rw [hrestored.kept, ho.zero b hmem k _ hk hc]
      · rfl
      · -- no page that was read covers an address of a zero page
        intro i' hi' hc' _
        have hi := (hcovers b hmem k _ i hk hl _).2 hc
        have he :=
          Index.covers_unique ho.fresh.wellFormed ha hl.lt (Index.mem_stored.1 hi').1 hi hc'
        exact hstored.1 (he ▸ hi') rfl
  · intro a hout'
    rw [hrestored.kept]
    · refine ho.kept a fun b hmem k hk => ?_
      exact hout' b hmem k (List.getElem?_eq_some_iff.1 hk).1
    · intro i hi hc _
      obtain ⟨b, hmem, k, p, hk, hl⟩ := hsaved i (Index.mem_stored.1 hi).1
      exact hout' b hmem k (List.getElem?_eq_some_iff.1 hk).1 ((hcovers b hmem k p i hk hl a).1 hc)

def sample : Snapshot where
  flags := .compressedPages
  hint := 7
  position := 13
  blocks :=
    [⟨⟨"b", 32, 8, 4⟩, [.stored #[1, 2, 3, 4] [0x40, 1, 2, 3, 4] 50, .zero], by decide⟩,
      ⟨⟨"a", 16, 4, 2⟩, [.zero, .stored #[7, 8] [0x20, 7, 8] 8], by decide⟩]

end

end Snapshot
end RamRestore
