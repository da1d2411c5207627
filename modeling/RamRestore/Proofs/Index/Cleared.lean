import RamRestore.Proofs.Index.Geometry

/-! # Memory that is cleared

While an index is read, the memory of every page that is all zero is noted. Once the index is
there, what was noted is the memory of its zero pages, and no other memory.
-/

namespace RamRestore.Index

open Decoder

section

variable {compressed : Bool} {block k n : Nat} {ram : RamBlock} {track track' : Track}
  {pages pages' : Array Page} {page : Page} {p p' : Progress} {s s' : Scan} {r : Nat × Nat}

theorem cleared_take {bytes : List UInt8} (h : take n s = .ok bytes s') :
    s'.cleared = s.cleared := by
  unfold take at h
  dsimp only at h
  split at h
  · cases h
    rfl
  · cases h

theorem cleared_word32 {m : Nat} (h : word32 s = .ok m s') : s'.cleared = s.cleared := by
  obtain ⟨bytes, s₁, ht, h⟩ := bind_ok h
  cases h
  exact cleared_take ht

theorem cleared_packed {m : Nat} (h : packed s = .ok m s') : s'.cleared = s.cleared := by
  unfold packed at h
  split at h <;> cases h
  rfl

theorem cleared_delta {d : Int} (h : delta s = .ok d s') : s'.cleared = s.cleared := by
  obtain ⟨m, s₁, hp, h⟩ := bind_ok h
  cases h
  exact cleared_packed hp

theorem cleared_header {flags : Flags} (h : header s = .ok flags s') : s'.cleared = s.cleared := by
  obtain ⟨found, s₁, h₁, h⟩ := bind_ok h
  split at h
  · obtain ⟨_, _, hc, -⟩ := bind_ok h
    exact absurd hc throw_not_ok
  · obtain ⟨_, s₂, h₂, h⟩ := bind_ok h
    obtain ⟨_, s₃, h₃, h⟩ := bind_ok h
    cases h
    rw [cleared_word32 h₃, cleared_word32 h₂, cleared_word32 h₁]

def pageRange (ram : RamBlock) (k : Nat) : Nat × Nat := (ram.pageAddress k, ram.pageSize)

theorem mem_cleared_pageRecord (hpos : 0 < r.2)
    (h : pageRecord compressed block ram k track s = .ok (page, track') s') :
    r ∈ s'.cleared ↔ r ∈ s.cleared ∨ page.isZero = true ∧ r = pageRange ram k := by
  obtain ⟨size, s₁, hsize, h⟩ := bind_ok h
  split at h
  · obtain ⟨_, s₂, hclear, h⟩ := bind_ok h
    cases hclear
    obtain ⟨rfl, -⟩ := Prod.mk.inj (pure_ok h)
    cases h
    simp only [List.mem_cons, cleared_packed hsize, pageRange]
    exact ⟨fun h => h.elim (fun h => .inr ⟨rfl, h⟩) .inl, fun h => h.elim .inr fun h => .inl h.2⟩
  · rename_i hs
    obtain ⟨d, s₂, hd, h⟩ := bind_ok h
    cases hp : place compressed block ram track size d with
    | error cause =>
      rw [hp] at h
      exact absurd h corrupt_not_ok
    | ok q =>
      rw [hp] at h
      obtain ⟨rfl, -⟩ := Prod.mk.inj (pure_ok h)
      cases h
      rw [cleared_delta hd, cleared_packed hsize]
      refine ⟨.inl, fun h => h.elim id ?_⟩
      -- a page that was not noted takes room on disk, unless it takes none in memory
      rintro ⟨hz, rfl⟩
      obtain ⟨-, hroom, -⟩ := place_ok hs hp
      have hsize : 0 < q.size := by
        cases compressed with
        | true => exact hroom.1
        | false =>
          rw [show q.size = ram.pageSize from hroom]
          exact hpos
      simp [Page.isZero, Nat.ne_of_gt hsize] at hz

theorem mem_cleared_pageRecords (hpos : 0 < r.2)
    (h : pageRecords compressed block ram n k track pages s = .ok (pages', track') s') :
    r ∈ s'.cleared ↔ r ∈ s.cleared ∨ ∃ j < n, ∃ page, pages'[pages.size + j]? = some page ∧
      page.isZero = true ∧ r = pageRange ram (k + j) := by
  induction n generalizing k track pages s with
  | zero =>
    cases h
    simp
  | succ n ih =>
    obtain ⟨⟨page, track₁⟩, s₁, hp, h⟩ := bind_ok h
    have hfirst : pages'[pages.size]? = some page := by
      rw [(pageRecords_ok h).2.1 pages.size (by simp)]
      simp
    have hrest : ∀ j, pages.size + (j + 1) = (pages.push page).size + j := by
      intro j
      rw [Array.size_push]
      omega
    rw [ih h, mem_cleared_pageRecord hpos hp, or_assoc, Nat.exists_lt_succ_left]
    simp only [Nat.add_zero, hfirst, Option.some.injEq, exists_eq_left', hrest, Nat.add_assoc,
      Nat.add_comm 1]

/-- Page `i` is among the pages found so far and all zero, and this is its memory. -/
def Progress.ZeroAt (p : Progress) (i : Nat) (r : Nat × Nat) : Prop :=
  ∃ page ram first count, p.pages[i]? = some page ∧ page.isZero = true ∧
    p.blocks[page.block]? = some (ram, some (first, count)) ∧ r = pageRange ram (i - first)

def Noted (p : Progress) (s : Scan) : Prop :=
  ∀ r : Nat × Nat, 0 < r.2 → (r ∈ s.cleared ↔ ∃ i, p.ZeroAt i r)

theorem exists_zeroAt_extend {rams : List RamBlock} {count : Nat} (hp : p.Sound compressed rams)
    (hb : p.blocks[block]? = some (ram, none))
    (hsize : pages'.size = p.pages.size + count)
    (hold : ∀ i < p.pages.size, pages'[i]? = p.pages[i]?)
    (hnew : ∀ i, p.pages.size ≤ i → i < pages'.size → ∃ page, pages'[i]? = some page ∧
      page.block = block ∧ page.Admissible compressed ram) :
    (∃ i, Progress.ZeroAt
        ⟨p.blocks.set block (ram, some (p.pages.size, count)), pages', track⟩ i r) ↔
      (∃ i, p.ZeroAt i r) ∨ ∃ j < count, ∃ page, pages'[p.pages.size + j]? = some page ∧
        page.isZero = true ∧ r = pageRange ram j := by
  obtain ⟨hlt, -⟩ := List.getElem?_eq_some_iff.1 hb
  -- a page found before belongs to a block that has its run
  have hne : ∀ (i : Nat) (page : Page), p.pages[i]? = some page → block ≠ page.block := by
    rintro i page hpage rfl
    obtain ⟨hi, -⟩ := Array.getElem?_eq_some_iff.1 hpage
    obtain ⟨page', _, _, _, hpage', hrun, -⟩ := hp.page i hi
    cases hpage.symm.trans hpage'
    simp [hb] at hrun
  constructor
  · rintro ⟨i, page, ram', first, count', hpage, hz, hrun, rfl⟩
    by_cases hi : i < p.pages.size
    · rw [hold i hi] at hpage
      rw [List.getElem?_set_ne (hne i page hpage)] at hrun
      exact .inl ⟨i, page, ram', first, count', hpage, hz, hrun, rfl⟩
    · obtain ⟨hi', -⟩ := Array.getElem?_eq_some_iff.1 hpage
      obtain ⟨page', hpage', hblock, -⟩ := hnew i (Nat.le_of_not_lt hi) hi'
      cases hpage.symm.trans hpage'
      rw [hblock, List.getElem?_set_self hlt] at hrun
      cases hrun
      dsimp only at hi'
      refine .inr ⟨i - p.pages.size, by omega, page, ?_, hz, rfl⟩
      rw [Nat.add_sub_of_le (Nat.le_of_not_lt hi)]
      exact hpage
  · rintro (⟨i, page, ram', first, count', hpage, hz, hrun, rfl⟩ | ⟨j, hj, page, hpage, hz, rfl⟩)
    · obtain ⟨hi, -⟩ := Array.getElem?_eq_some_iff.1 hpage
      refine ⟨i, page, ram', first, count', (hold i hi).trans hpage, hz, ?_, rfl⟩
      rw [List.getElem?_set_ne (hne i page hpage), hrun]
    · obtain ⟨page', hpage', hblock, -⟩ := hnew (p.pages.size + j) (by omega) (by omega)
      cases hpage.symm.trans hpage'
      refine ⟨p.pages.size + j, page, ram, p.pages.size, count, hpage, hz, ?_, ?_⟩
      · rw [hblock, List.getElem?_set_self hlt]
      · rw [Nat.add_sub_cancel_left]

theorem Noted.blockRecord {rams : List RamBlock} (hn : Noted p s) (hp : p.Sound compressed rams)
    (h : blockRecord compressed p s = .ok p' s') : Noted p' s' := by
  obtain ⟨_, _, s₁, s₂, s₃, block, ram, count, pages, track, h₁, h₂, -, hb, h₃, -, hr, rfl⟩ :=
    blockRecord_cases h
  intro r hpos
  obtain ⟨hsize, hold, hnew⟩ := pageRecords_ok hr
  rw [mem_cleared_pageRecords hpos hr, cleared_word32 h₃, cleared_take h₂, cleared_take h₁,
    hn r hpos, exists_zeroAt_extend hp hb hsize hold hnew]
  simp only [Nat.zero_add]

theorem Noted.blockRecords {rams : List RamBlock} (hn : Noted p s) (hp : p.Sound compressed rams)
    (h : blockRecords compressed n p s = .ok p' s') : Noted p' s' := by
  induction n generalizing p s with
  | zero =>
    cases h
    exact hn
  | succ n ih =>
    obtain ⟨p₁, s₁, h₁, h⟩ := bind_ok h
    exact ih (hn.blockRecord hp h₁) (blockRecord_ok hp h₁) h

theorem noted_start (blocks : List RamBlock) (h : s.cleared = []) :
    Noted (.start blocks) s := by
  intro r _
  simp [h, Progress.start, Progress.ZeroAt]

/-- The index that was found has the zero pages that were found. -/
theorem exists_zeroAt_found {rams : List RamBlock} (hp : p.Sound compressed rams)
    (flags : Flags) :
    (∃ i, p.ZeroAt i r) ↔ ∃ i < (p.found flags).pages.size,
      ((p.found flags).page i).isZero = true ∧
        r = ((p.found flags).address i, (p.found flags).pageSize i) := by
  have hfound : ∀ i page ram first count, p.pages[i]? = some page →
      p.blocks[page.block]? = some (ram, some (first, count)) →
      (p.found flags).page i = page ∧
        ((p.found flags).address i, (p.found flags).pageSize i) = pageRange ram (i - first) := by
    intro i page ram first count hpage hrun
    have he : (p.found flags).page i = page := by
      simp [Progress.found, Index.page, Array.getD_eq_getD_getElem?, hpage]
    have hblock : (p.found flags).block? i = some ⟨ram, first, count⟩ := by
      simp only [block?, he]
      simp only [Progress.found, List.getElem?_map, hrun, Option.map_some, Option.getD_some]
    exact ⟨he, by simp only [address, pageSize, hblock, pageRange]⟩
  constructor
  · rintro ⟨i, page, ram, first, count, hpage, hz, hrun, rfl⟩
    obtain ⟨he, hr⟩ := hfound i page ram first count hpage hrun
    obtain ⟨hi, -⟩ := Array.getElem?_eq_some_iff.1 hpage
    exact ⟨i, hi, he ▸ hz, hr.symm⟩
  · rintro ⟨i, hi, hz, rfl⟩
    obtain ⟨page, ram, first, count, hpage, hrun, -⟩ := hp.page i hi
    obtain ⟨he, hr⟩ := hfound i page ram first count hpage hrun
    exact ⟨i, page, ram, first, count, hpage, he ▸ hz, hrun, hr⟩

theorem mem_cleared_index {rams : List RamBlock} {x : Index} (hs : s.cleared = [])
    (h : index rams s = .ok x s') (hpos : 0 < r.2) :
    r ∈ s'.cleared ↔
      ∃ i < x.pages.size, (x.page i).isZero = true ∧ r = (x.address i, x.pageSize i) := by
  rw [index_eq] at h
  obtain ⟨flags, s₁, hh, h⟩ := bind_ok h
  obtain ⟨p, s₂, hr, h⟩ := bind_ok h
  cases h
  have hsound := Progress.sound_start (flags.contains .compressedPages) rams ⟨firstPosition, 0⟩
  have hnoted := (noted_start rams (s := s₁) ((cleared_header hh).trans hs)).blockRecords hsound hr
  rw [hnoted r hpos, exists_zeroAt_found (blockRecords_ok hsound hr)]

end

/-- What is cleared when an index was read is the memory of its zero pages. -/
theorem mem_cleared_read {blocks : List RamBlock} {source : Source} {x : Index} {r : Nat × Nat}
    (h : (read blocks source).outcome = .ok x) (hpos : 0 < r.2) :
    r ∈ (read blocks source).cleared ↔
      ∃ i < x.pages.size, (x.page i).isZero = true ∧ r = (x.address i, x.pageSize i) := by
  unfold read parse at h ⊢
  dsimp only at h ⊢
  split at h
  · cases h
  · rename_i hhead
    rw [if_neg hhead]
    dsimp only at h ⊢
    split at h
    · rename_i s' hindex
      cases h
      rw [List.mem_reverse]
      exact mem_cleared_index rfl hindex hpos
    · cases h

end RamRestore.Index
