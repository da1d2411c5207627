import RamRestore.Proofs.Index.Geometry
import RamRestore.Proofs.Registration

/-! # Pages that a snapshot declares

The record of a block says how many pages it has. However an index goes on, and wherever it
breaks off, only the memory of such pages is cleared, and such are the pages of an index that
was read.
-/

namespace RamRestore.Index

open Decoder

/-- Reads the start of a record: the name of a block and its number of pages. -/
def recordHead : Decoder (List UInt8 × Nat) := do
  let length ← take 1
  let name ← take (bigEndian length)
  return (name, ← word32)

/-- Where whole records lead. -/
inductive Follows (compressed : Bool) (p₀ : Progress) (s₀ : Scan) : Progress → Scan → Prop
  | start : Follows compressed p₀ s₀ p₀ s₀
  | record {p p' : Progress} {s s' : Scan} (h : Follows compressed p₀ s₀ p s)
      (hr : blockRecord compressed p s = .ok p' s') : Follows compressed p₀ s₀ p' s'

def opening? (source : Source) : Option Scan :=
  let head := (source.stream 0).1.take 8
  if head.length < 8 then none
  else
    let (rest, ending) := source.stream (bigEndian head)
    some { rest, ending }

/-- The first record that names a block says that it has so many pages. -/
inductive Declares (blocks : List RamBlock) (source : Source) (b : RamBlock) (count : Nat) : Prop
  | record {s₀ s₁ s s' : Scan} {flags : Flags} {p : Progress} (ho : opening? source = some s₀)
      (hh : header s₀ = .ok flags s₁)
      (hf : Follows (flags.contains .compressedPages) (.start blocks) s₁ p s)
      (hb : (b, none) ∈ p.blocks) (hr : recordHead s = .ok (b.name, count) s')

/-- The memory of a page of a block, which has as many pages as the snapshot says. -/
def DeclaredPage (blocks : List RamBlock) (source : Source) (address length : Nat) : Prop :=
  ∃ b ∈ blocks, ∃ count, Declares blocks source b count ∧ ∃ k < count,
    address = b.start + k * b.pageSize ∧ length = b.pageSize ∧
      address + length ≤ b.start + b.size

namespace Decoder

def scanOf {α : Type} : EStateM.Result LoadError Scan α → Scan
  | .ok _ s => s
  | .error _ s => s

/-- Whatever comes of a reader from here on, the memory that it has cleared is such. -/
def Clears {α : Type} (P : Nat × Nat → Prop) (x : Decoder α) (s : Scan) : Prop :=
  ∀ r ∈ (scanOf (x s)).cleared, P r ∨ r ∈ s.cleared

namespace Clears

variable {α β : Type} {P : Nat × Nat → Prop} {x : Decoder α} {f : α → Decoder β} {s : Scan}

theorem nothing (h : (scanOf (x s)).cleared = s.cleared) : Clears P x s :=
  fun _ hr => .inr (h ▸ hr)

theorem bind (hx : Clears P x s) (hf : ∀ a s', x s = .ok a s' → Clears P (f a) s') :
    Clears P (x >>= f) s := by
  intro r hr
  change r ∈ (scanOf (EStateM.bind x f s)).cleared at hr
  unfold EStateM.bind at hr
  split at hr
  · rename_i a s' hok
    rcases hf a s' hok r hr with hp | hr
    · exact .inl hp
    · apply hx r
      rwa [hok]
  · rename_i e s' he
    apply hx r
    rwa [he]

theorem pure (a : α) : Clears P (Pure.pure a) s := nothing rfl

theorem throw (e : LoadError) : Clears P (MonadExcept.throw e : Decoder α) s := nothing rfl

theorem corrupt (cause : Corruption) : Clears P (corrupt cause : Decoder α) s := nothing rfl

theorem take (n : Nat) : Clears P (Decoder.take n) s := by
  apply nothing
  unfold Decoder.take
  dsimp only
  split <;> rfl

theorem word32 : Clears P Decoder.word32 s := (take 4).bind fun _ _ _ => pure _

theorem packed : Clears P Decoder.packed s := by
  apply nothing
  unfold Decoder.packed
  split <;> rfl

theorem delta : Clears P Decoder.delta s := packed.bind fun _ _ _ => pure _

theorem clear {address length : Nat} (h : P (address, length)) :
    Clears P (Decoder.clear address length) s := by
  intro r hr
  rcases List.mem_cons.1 hr with rfl | hr
  · exact .inl h
  · exact .inr hr

end Clears
end Decoder

section

variable {compressed : Bool} {block k n : Nat} {ram : RamBlock} {track : Track}
  {pages : Array Page} {P : Nat × Nat → Prop} {p p' p₀ : Progress} {s s' s₀ : Scan}

theorem clears_pageRecord (h : P (ram.pageAddress k, ram.pageSize)) :
    Clears P (pageRecord compressed block ram k track) s := by
  refine .bind .packed fun size s₁ _ => ?_
  split
  · exact .bind (.clear h) fun _ _ _ => .pure _
  · refine .bind .delta fun d s₂ _ => ?_
    split
    · exact .corrupt _
    · exact .pure _

theorem clears_pageRecords (h : ∀ j < n, P (ram.pageAddress (k + j), ram.pageSize)) :
    Clears P (pageRecords compressed block ram n k track pages) s := by
  induction n generalizing k track pages s with
  | zero => exact .pure _
  | succ n ih =>
    refine .bind (clears_pageRecord (h 0 (Nat.zero_lt_succ n))) fun _ _ _ => ih fun j hj => ?_
    have hj' := h (j + 1) (Nat.succ_lt_succ hj)
    rwa [Nat.add_assoc, Nat.add_comm 1 j]

theorem recordHead_eq {length name : List UInt8} {count : Nat} {s₁ s₂ s₃ : Scan}
    (h₁ : take 1 s = .ok length s₁) (h₂ : take (bigEndian length) s₁ = .ok name s₂)
    (h₃ : word32 s₂ = .ok count s₃) : recordHead s = .ok (name, count) s₃ := by
  rw [recordHead, bind_of_ok h₁, bind_of_ok h₂, bind_of_ok h₃]
  rfl

theorem name_of_findIdx? {name : List UInt8} {run : Option (Nat × Nat)}
    (hf : p.blocks.findIdx? (·.1.name == name) = some block)
    (hb : p.blocks[block]? = some (ram, run)) : ram.name = name := by
  obtain ⟨hlt, he, -⟩ := List.findIdx?_eq_some_iff_getElem.1 hf
  obtain ⟨_, hget⟩ := List.getElem?_eq_some_iff.1 hb
  rw [hget] at he
  exact eq_of_beq he

/-- What a record says that may be read: a block that was not named before, and a number of
pages that fit into it. -/
structure Heads (p : Progress) (s : Scan) (ram : RamBlock) (count : Nat) : Prop where
  mem : (ram, none) ∈ p.blocks
  head : ∃ s', recordHead s = .ok (ram.name, count) s'
  fits : count * ram.pageSize ≤ ram.size

theorem clears_blockRecord
    (h : ∀ ram count, Heads p s ram count → ∀ k < count, P (ram.pageAddress k, ram.pageSize)) :
    Clears P (blockRecord compressed p) s := by
  refine .bind (.take 1) fun length s₁ h₁ => .bind (.take _) fun name s₂ h₂ => ?_
  split
  · exact .throw _
  · rename_i block hf
    split
    · exact .throw _
    · rename_i ram run hb
      have hname := name_of_findIdx? hf hb
      cases run with
      | some run => exact .bind (.corrupt _) fun _ _ hc => absurd hc corrupt_not_ok
      | none =>
        refine .bind .word32 fun count s₃ h₃ => ?_
        split
        · exact .bind (.corrupt _) fun _ _ hc => absurd hc corrupt_not_ok
        · rename_i hfit
          have hh : Heads p s ram count :=
            ⟨List.mem_of_getElem? hb, ⟨s₃, hname ▸ recordHead_eq h₁ h₂ h₃⟩, Nat.le_of_not_lt hfit⟩
          refine .bind (clears_pageRecords fun j hj => ?_) fun _ _ _ => .pure _
          rw [Nat.zero_add]
          exact h ram count hh j hj

theorem clears_blockRecords (hf : Follows compressed p₀ s₀ p s)
    (h : ∀ p s, Follows compressed p₀ s₀ p s →
      ∀ ram count, Heads p s ram count → ∀ k < count, P (ram.pageAddress k, ram.pageSize)) :
    Clears P (blockRecords compressed n p) s := by
  induction n generalizing p s with
  | zero => exact .pure _
  | succ n ih =>
    exact .bind (clears_blockRecord (h p s hf)) fun _ _ hr => ih (hf.record hr)

theorem clears_index {blocks : List RamBlock}
    (h : ∀ flags s₁ p s, header s₀ = .ok flags s₁ →
      Follows (flags.contains .compressedPages) (.start blocks) s₁ p s →
      ∀ ram count, Heads p s ram count → ∀ k < count, P (ram.pageAddress k, ram.pageSize)) :
    Clears P (index blocks) s₀ := by
  rw [index_eq]
  refine .bind ?_ fun flags s₁ hh => ?_
  · refine .bind .word32 fun found _ _ => ?_
    split
    · exact .bind (.throw _) fun _ _ hc => absurd hc throw_not_ok
    · exact .bind .word32 fun _ _ _ => .bind .word32 fun _ _ _ => .pure _
  · exact .bind (clears_blockRecords .start fun p s hf => h flags s₁ p s hh hf) fun _ _ _ => .pure _

theorem Heads.of_blockRecord (h : blockRecord compressed p s = .ok p' s') :
    ∃ block ram count, Heads p s ram count ∧ p.blocks[block]? = some (ram, none) ∧
      p'.blocks = p.blocks.set block (ram, some (p.pages.size, count)) := by
  obtain ⟨_, _, _, _, s₃, block, ram, count, _, _, h₁, h₂, hf, hb, h₃, hfit, -, rfl⟩ :=
    blockRecord_cases h
  have hname := name_of_findIdx? hf hb
  exact ⟨block, ram, count,
    ⟨List.mem_of_getElem? hb, ⟨s₃, hname ▸ recordHead_eq h₁ h₂ h₃⟩, hfit⟩, hb, rfl⟩

namespace Follows

theorem sound {rams : List RamBlock} (h : Follows compressed p₀ s₀ p s)
    (hp : p₀.Sound compressed rams) : p.Sound compressed rams := by
  induction h with
  | start => exact hp
  | record _ hr ih => exact blockRecord_ok ih hr

/-- Every block that has a run got it from a record. -/
theorem heads (h : Follows compressed p₀ s₀ p s) (hn : ∀ q ∈ p₀.blocks, q.2 = none)
    {first count : Nat} (hr : (ram, some (first, count)) ∈ p.blocks) :
    ∃ p' s', Follows compressed p₀ s₀ p' s' ∧ Heads p' s' ram count := by
  induction h with
  | start => cases hn _ hr
  | record h hrec ih =>
    obtain ⟨block, ram', count', hh, -, hset⟩ := Heads.of_blockRecord hrec
    rw [hset] at hr
    rcases List.mem_or_eq_of_mem_set hr with hr | hr
    · exact ih hr
    · cases hr
      exact ⟨_, _, h, hh⟩

theorem mem_of_mem {run : Nat × Nat} (h : Follows compressed p s p' s')
    (hr : (ram, some run) ∈ p.blocks) : (ram, some run) ∈ p'.blocks := by
  induction h with
  | start => exact hr
  | record _ hrec ih =>
    obtain ⟨block, ram', count, -, hb, hset⟩ := Heads.of_blockRecord hrec
    obtain ⟨k, hk⟩ := List.getElem?_of_mem ih
    have hne : block ≠ k := by
      rintro rfl
      simp [hk] at hb
    rw [hset]
    apply List.mem_of_getElem? (i := k)
    rw [List.getElem?_set_ne hne, hk]

theorem cases_first (h : Follows compressed p s p' s') :
    p' = p ∧ s' = s ∨ ∃ p₁ s₁, blockRecord compressed p s = .ok p₁ s₁ ∧
      Follows compressed p₁ s₁ p' s' := by
  induction h with
  | start => exact .inl ⟨rfl, rfl⟩
  | record _ hr ih =>
    rcases ih with ⟨rfl, rfl⟩ | ⟨p₁, s₁, h₁, h⟩
    · exact .inr ⟨_, _, hr, .start⟩
    · exact .inr ⟨p₁, s₁, h₁, h.record hr⟩

/-- Of two places that whole records lead to, one lies behind the other. -/
theorem total (h : Follows compressed p₀ s₀ p s) (h' : Follows compressed p₀ s₀ p' s') :
    Follows compressed p s p' s' ∨ Follows compressed p' s' p s := by
  induction h' with
  | start => exact .inr h
  | record _ hr ih =>
    rcases ih with ih | ih
    · exact .inl (ih.record hr)
    · rcases ih.cases_first with ⟨rfl, rfl⟩ | ⟨p₁, s₁, h₁, h⟩
      · exact .inl (.record .start hr)
      · rw [hr] at h₁
        cases h₁
        exact .inr h

/-- Before and behind the record that names a block, only before it the block has no run. -/
theorem eq_of_none {rams : List RamBlock} {b : RamBlock} {head : Nat} {t : Scan}
    (hn : RamBlock.Accepted rams) (hp : p.Sound compressed rams)
    (h : Follows compressed p s p' s') (hb : (b, none) ∈ p.blocks)
    (hr : recordHead s = .ok (b.name, head) t) (hb' : (b, none) ∈ p'.blocks) : s' = s := by
  rcases h.cases_first with ⟨-, rfl⟩ | ⟨p₁, s₁, h₁, h⟩
  · rfl
  · obtain ⟨block, ram, count, hh, hget, hset⟩ := Heads.of_blockRecord h₁
    obtain ⟨t', hr'⟩ := hh.head
    rw [hr] at hr'
    have hname : b.name = ram.name := (Prod.mk.inj (EStateM.Result.ok.inj hr').1).1
    have hmem : ∀ q ∈ p.blocks, q.1 ∈ rams := fun q hq => hp.rams ▸ List.mem_map_of_mem hq
    have hram : b = ram :=
      List.inj_on_of_nodup_map hn.names_nodup (hmem _ hb) (hmem _ hh.mem) hname
    subst hram
    -- from here on the block has a run
    have hrun : (b, some (p.pages.size, count)) ∈ p₁.blocks := by
      obtain ⟨hlt, -⟩ := List.getElem?_eq_some_iff.1 hget
      rw [hset]
      exact List.mem_set hlt _
    have hblocks : (p'.blocks.map (·.1)).Nodup :=
      (h.sound (blockRecord_ok hp h₁)).rams ▸ hn.nodup
    have := List.inj_on_of_nodup_map hblocks hb' (h.mem_of_mem hrun) rfl
    cases this

end Follows

theorem follows_of_blockRecords (hf : Follows compressed p₀ s₀ p s)
    (h : blockRecords compressed n p s = .ok p' s') : Follows compressed p₀ s₀ p' s' := by
  induction n generalizing p s with
  | zero =>
    obtain ⟨rfl, rfl⟩ := EStateM.Result.ok.inj h
    exact hf
  | succ n ih =>
    obtain ⟨p₁, s₁, h₁, h⟩ := bind_ok h
    exact ih (hf.record h₁) h

variable {blocks : List RamBlock} {source : Source} {x : Index}

theorem Heads.declares {s₁ : Scan} {flags : Flags} {count : Nat}
    (ho : opening? source = some s₀) (hh : header s₀ = .ok flags s₁)
    (hf : Follows (flags.contains .compressedPages) (.start blocks) s₁ p s)
    (h : Heads p s ram count) : Declares blocks source ram count := by
  obtain ⟨s', hr⟩ := h.head
  exact .record ho hh hf h.mem hr

theorem Declares.unique {b : RamBlock} {m n : Nat} (hb : RamBlock.Accepted blocks)
    (hm : Declares blocks source b m) (hn : Declares blocks source b n) : m = n := by
  cases hm with
  | record ho hh hf hmem hr =>
    cases hn with
    | record ho' hh' hf' hmem' hr' =>
      rw [ho] at ho'
      cases ho'
      rw [hh] at hh'
      cases hh'
      have hs := hf.sound (Progress.sound_start _ blocks _)
      have hs' := hf'.sound (Progress.sound_start _ blocks _)
      rcases hf.total hf' with h | h
      · rw [h.eq_of_none hb hs hmem hr hmem', hr] at hr'
        exact (Prod.mk.inj (EStateM.Result.ok.inj hr').1).2
      · rw [h.eq_of_none hb hs' hmem' hr' hmem, hr'] at hr
        exact (Prod.mk.inj (EStateM.Result.ok.inj hr).1).2.symm

/-- A page of a block that lies in the address space is where its number says. -/
theorem Heads.declaredPage {s₁ : Scan} {flags : Flags} {count : Nat} (hb : RamBlock.Accepted blocks)
    (hin : ∀ b ∈ blocks, b.start + b.size ≤ word64Count) (ho : opening? source = some s₀)
    (hh : header s₀ = .ok flags s₁)
    (hf : Follows (flags.contains .compressedPages) (.start blocks) s₁ p s)
    (h : Heads p s ram count) (hk : k < count) :
    DeclaredPage blocks source (ram.pageAddress k) ram.pageSize := by
  have hmem : ram ∈ blocks := by
    have hr := (hf.sound (Progress.sound_start _ blocks _)).rams
    exact hr ▸ List.mem_map_of_mem h.mem
  have hle : (k + 1) * ram.pageSize ≤ ram.size :=
    Nat.le_trans (Nat.mul_le_mul_right _ hk) h.fits
  have ha := RamBlock.pageAddress_eq (isPageSize_bounds (hb.isPageSize hmem)).1 (hin ram hmem) hle
  refine ⟨ram, hmem, count, h.declares ho hh hf, k, hk, ha, rfl, ?_⟩
  rw [ha, Nat.add_assoc, ← Nat.succ_mul]
  exact Nat.add_le_add_left hle _

theorem read_cases (blocks : List RamBlock) (source : Source) :
    (∃ cause, (read blocks source).outcome = .error cause ∧ (read blocks source).cleared = []) ∨
      ∃ s₀, opening? source = some s₀ ∧ s₀.cleared = [] ∧
        (read blocks source).cleared = (scanOf (index blocks s₀)).cleared.reverse ∧
        ∀ x, (read blocks source).outcome = .ok x → ∃ s', index blocks s₀ = .ok x s' := by
  have hstream : ∀ offset, (source.afterStream 0 8).stream offset = source.stream offset :=
    fun offset => (source.sameAnswers_afterStream 0 8).stream offset
  unfold read opening?
  simp only [hstream]
  split
  · exact .inl ⟨_, rfl, rfl⟩
  · refine .inr ⟨_, rfl, rfl, ?_⟩
    unfold parse
    dsimp only
    split
    · rename_i hi
      rw [hi]
      refine ⟨rfl, ?_⟩
      rintro _ ⟨⟩
      exact ⟨_, rfl⟩
    · rename_i hi
      rw [hi]
      exact ⟨rfl, nofun⟩

/-- Only memory of pages that the snapshot declares is cleared, also if the index breaks off. -/
theorem declaredPage_of_cleared (hb : RamBlock.Accepted blocks)
    (hin : ∀ b ∈ blocks, b.start + b.size ≤ word64Count) {r : Nat × Nat}
    (hr : r ∈ (read blocks source).cleared) : DeclaredPage blocks source r.1 r.2 := by
  rcases read_cases blocks source with ⟨_, -, hc⟩ | ⟨s₀, ho, hempty, hc, -⟩
  · simp [hc] at hr
  · rw [hc, List.mem_reverse] at hr
    have hclears : Clears (fun r => DeclaredPage blocks source r.1 r.2) (index blocks) s₀ :=
      clears_index fun flags s₁ p s hh hf ram count h k hk => h.declaredPage hb hin ho hh hf hk
    rcases hclears r hr with h | h
    · exact h
    · simp [hempty] at h

theorem declaredPage_of_read (hb : RamBlock.Accepted blocks)
    (hin : ∀ b ∈ blocks, b.start + b.size ≤ word64Count) (hx : (read blocks source).outcome = .ok x)
    {i : Nat} (hi : i < x.pages.size) :
    DeclaredPage blocks source (x.address i) (x.pageSize i) := by
  rcases read_cases blocks source with ⟨_, he, -⟩ | ⟨s₀, ho, -, -, hok⟩
  · rw [hx] at he
    cases he
  · obtain ⟨s', hindex⟩ := hok x hx
    obtain ⟨b, hblock, hle, hlt, -⟩ := (read_ok hx).2.page i hi
    rw [index_eq] at hindex
    obtain ⟨flags, s₁, hh, h⟩ := bind_ok hindex
    obtain ⟨p, s₂, hr, h⟩ := bind_ok h
    obtain rfl := pure_ok h
    obtain ⟨⟨ram, run⟩, hmem, rfl⟩ := List.mem_map.1 (List.mem_of_getElem? hblock)
    cases run with
    | none => simp at hlt
    | some run =>
      obtain ⟨p', s'', hf, hheads⟩ := (follows_of_blockRecords .start hr).heads
        (by simp [Progress.start]) hmem
      have hp := hheads.declaredPage hb hin ho hh hf (k := i - run.1)
        (by simp only [Option.getD_some] at hle hlt; omega)
      simpa only [address, pageSize, hblock, Option.getD_some] using hp

end

/-- Memory that consists of pages, each of which starts at the end of the one before. -/
inductive Tiled (P : Nat → Nat → Prop) : Nat → Nat → Prop
  | page {a n : Nat} (h : P a n) : Tiled P a n
  | join {a m n : Nat} (h : Tiled P a m) (hp : P (a + m) n) : Tiled P a (m + n)

section

variable {P : Nat → Nat → Prop} {x : Index} {a n : Nat}

theorem tiled_joinRanges {range : Option (Nat × Nat)} {is : List Nat}
    (hr : ∀ r, range = some r → Tiled P r.1 r.2)
    (hi : ∀ i ∈ is, P (x.address i) (x.pageSize i)) :
    ∀ r ∈ x.joinRanges range is, Tiled P r.1 r.2 := by
  induction is generalizing range with
  | nil =>
    cases range with
    | none => simp [joinRanges]
    | some range => simpa [joinRanges] using hr range rfl
  | cons i is ih =>
    have hpage := hi i (by simp)
    have hrest : ∀ j ∈ is, P (x.address j) (x.pageSize j) := fun j hj => hi j (by simp [hj])
    cases range with
    | none =>
      refine ih ?_ hrest
      rintro _ ⟨⟩
      exact .page hpage
    | some range =>
      obtain ⟨start, len⟩ := range
      rw [joinRanges]
      split
      · rename_i he
        refine ih ?_ hrest
        rintro _ ⟨⟩
        exact .join (hr _ rfl) (he ▸ hpage)
      · rintro r hm
        rcases List.mem_cons.1 hm with rfl | hm
        · exact hr _ rfl
        · refine ih ?_ hrest r hm
          rintro _ ⟨⟩
          exact .page hpage

theorem tiled_ranges (h : ∀ i < x.pages.size, P (x.address i) (x.pageSize i)) :
    ∀ r ∈ x.ranges, Tiled P r.1 r.2 :=
  tiled_joinRanges nofun fun i hi => h i (mem_stored.1 hi).1

end

end RamRestore.Index
