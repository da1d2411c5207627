import Mathlib.Data.List.Forall2
import Mathlib.Data.List.Perm.Basic
import RamRestore.Proofs.Index.Declared
import RamRestore.Proofs.Index.Locate

/-! # Indexes of blocks in another order

The order in which blocks are registered only decides how an index numbers them. Read for the same
blocks in another order, a snapshot lists the same pages in the same order, each of them in the same
block; and if it cannot be read, it fails at the same place and for the same cause.
-/

namespace RamRestore.Index

/-- The same pages of the same blocks, which have other numbers. -/
structure Renumbered (x y : Index) : Prop where
  flags : y.flags = x.flags
  pages : y.pages.size = x.pages.size
  size : ∀ i, (y.page i).size = (x.page i).size
  position : ∀ i, (y.page i).position = (x.page i).position
  block : ∀ i < x.pages.size, y.block? i = x.block? i
  locate : ∀ a, y.locate a = x.locate a

namespace Renumbered

variable {x y : Index} {i : Nat}

theorem refl (x : Index) : x.Renumbered x :=
  ⟨rfl, rfl, fun _ => rfl, fun _ => rfl, fun _ _ => rfl, fun _ => rfl⟩

theorem compressed (h : x.Renumbered y) : y.compressed = x.compressed := by
  simp only [Index.compressed, h.flags]

theorem isZero (h : x.Renumbered y) (i : Nat) : (y.page i).isZero = (x.page i).isZero := by
  simp only [Page.isZero, h.size]

theorem address (h : x.Renumbered y) (hi : i < x.pages.size) : y.address i = x.address i := by
  simp only [Index.address, h.block i hi]

theorem pageSize (h : x.Renumbered y) (hi : i < x.pages.size) : y.pageSize i = x.pageSize i := by
  simp only [Index.pageSize, h.block i hi]

theorem stored (h : x.Renumbered y) : y.stored = x.stored := by
  simp only [Index.stored, h.pages, h.isZero]

theorem readOrder (h : x.Renumbered y) : y.readOrder = x.readOrder := by
  simp only [Index.readOrder, h.stored, h.position]

theorem joinRanges (h : x.Renumbered y) (range : Option (Nat × Nat)) {is : List Nat}
    (his : ∀ i ∈ is, i < x.pages.size) : y.joinRanges range is = x.joinRanges range is := by
  induction is generalizing range with
  | nil => cases range <;> rfl
  | cons i is ih =>
    have hi := his i List.mem_cons_self
    have ih := fun range => ih range fun j hj => his j (List.mem_cons_of_mem i hj)
    rcases range with _ | ⟨start, length⟩ <;>
      simp only [Index.joinRanges, h.address hi, h.pageSize hi, ih]

theorem ranges (h : x.Renumbered y) : y.ranges = x.ranges := by
  rw [Index.ranges, h.stored]
  exact h.joinRanges none fun i hi => (mem_stored.1 hi).1

end Renumbered

/-! ## Readers that agree -/

namespace Decoder

variable {α β γ δ : Type} {T : Scan → Scan → Prop} {R : α → β → Prop} {S : γ → δ → Prop}

inductive Agree (T : Scan → Scan → Prop) (R : α → β → Prop) :
    EStateM.Result LoadError Scan α → EStateM.Result LoadError Scan β → Prop
  | ok {a : α} {b : β} {s t : Scan} (h : R a b) (ht : T s t) : Agree T R (.ok a s) (.ok b t)
  | error (e : LoadError) {s t : Scan} (ht : T s t) : Agree T R (.error e s) (.error e t)

/-- Readers that come to results which agree, wherever they start. -/
def Agrees (T : Scan → Scan → Prop) (R : α → β → Prop) (x : Decoder α) (y : Decoder β) : Prop :=
  ∀ s t, T s t → Agree T R (x s) (y t)

namespace Agrees

theorem bind {x : Decoder α} {y : Decoder β} {f : α → Decoder γ} {g : β → Decoder δ}
    (hx : Agrees T R x y) (hf : ∀ a b, R a b → Agrees T S (f a) (g b)) :
    Agrees T S (x >>= f) (y >>= g) := by
  intro s t ht
  have h := hx s t ht
  change Agree T S (EStateM.bind x f s) (EStateM.bind y g t)
  unfold EStateM.bind
  generalize x s = u, y t = v at h ⊢
  cases h with
  | ok h ht => exact hf _ _ h _ _ ht
  | error e ht => exact .error e ht

theorem refl (x : Decoder α) : Agrees (· = ·) (· = ·) x x := by
  rintro s _ rfl
  cases x s with
  | ok a s => exact .ok rfl rfl
  | error e s => exact .error e rfl

theorem andThen {x : Decoder α} {f : α → Decoder γ} {g : α → Decoder δ}
    (hx : Agrees T (· = ·) x x) (h : ∀ a, Agrees T S (f a) (g a)) :
    Agrees T S (x >>= f) (x >>= g) :=
  hx.bind fun a _ he => he ▸ h a

theorem pure {a : α} {b : β} (h : R a b) : Agrees T R (Pure.pure a) (Pure.pure b) :=
  fun _ _ => .ok h

theorem throw (e : LoadError) : Agrees T R (MonadExcept.throw e) (MonadExcept.throw e) :=
  fun _ _ => .error e

/-- What would follow an error does not matter. -/
theorem corrupt (cause : Corruption) (f : γ → Decoder α) (g : δ → Decoder β) :
    Agrees T R (Decoder.corrupt cause >>= f) (Decoder.corrupt cause >>= g) := fun _ _ => .error _

end Agrees
end Decoder

open Decoder

/-! ## Records -/

structure SamePage (rams rams' : List RamBlock) (p q : Page) : Prop where
  size : q.size = p.size
  position : q.position = p.position
  block : ∃ ram, rams[p.block]? = some ram ∧ rams'[q.block]? = some ram

variable {rams rams' : List RamBlock} {compressed : Bool} {block block' k n size : Nat}
  {ram : RamBlock} {run : Option (Nat × Nat)} {track : Track} {pages pages' : Array Page}
  {p q : Progress}

theorem place_block (compressed : Bool) (block block' : Nat) (ram : RamBlock) (track : Track)
    (size : Nat) (delta : Int) :
    place compressed block' ram track size delta =
      (place compressed block ram track size delta).map ({ · with block := block' }) := by
  unfold place
  cases distance compressed ram track size delta with
  | error cause => rfl
  | ok d =>
    simp only [bind, Except.bind]
    split
    · rfl
    · cases word? (track.position + d.2) with
      | none => rfl
      | some position =>
        dsimp only
        split <;> rfl

theorem agrees_pageRecord (hb : rams[block]? = some ram) (hb' : rams'[block']? = some ram) :
    Agrees (· = ·) (fun x y => SamePage rams rams' x.1 y.1 ∧ y.2 = x.2)
      (pageRecord compressed block ram k track) (pageRecord compressed block' ram k track) := by
  refine .andThen (.refl _) fun size => ?_
  split
  · exact .andThen (.refl _) fun _ => .pure ⟨⟨rfl, rfl, ram, hb, hb'⟩, rfl⟩
  · rename_i hsize
    refine .andThen (.refl _) fun delta => ?_
    rw [place_block compressed block block']
    cases hp : place compressed block ram track size delta with
    | error cause => exact .throw _
    | ok page =>
      obtain ⟨rfl, -⟩ := place_ok hsize hp
      exact .pure ⟨⟨rfl, rfl, ram, hb, hb'⟩, rfl⟩

theorem agrees_pageRecords (hb : rams[block]? = some ram) (hb' : rams'[block']? = some ram)
    (h : List.Forall₂ (SamePage rams rams') pages.toList pages'.toList) :
    Agrees (· = ·)
      (fun x y => List.Forall₂ (SamePage rams rams') x.1.toList y.1.toList ∧ y.2 = x.2)
      (pageRecords compressed block ram n k track pages)
      (pageRecords compressed block' ram n k track pages') := by
  induction n generalizing k track pages pages' with
  | zero => exact .pure ⟨h, rfl⟩
  | succ n ih =>
    refine (agrees_pageRecord hb hb').bind ?_
    rintro ⟨page, track⟩ ⟨page', _⟩ ⟨hpage, rfl⟩
    refine ih ?_
    simp only [Array.toList_push]
    exact List.rel_append h (.cons hpage .nil)

structure Progress.Renumbered (rams rams' : List RamBlock) (p q : Progress) : Prop where
  left : p.blocks.map (·.1) = rams
  right : q.blocks.map (·.1) = rams'
  blocks : p.blocks.Perm q.blocks
  pages : List.Forall₂ (SamePage rams rams') p.pages.toList q.pages.toList
  track : q.track = p.track

theorem Progress.renumbered_start (hp : rams.Perm rams') :
    Progress.Renumbered rams rams' (.start rams) (.start rams') where
  left := by simp [Progress.start, Function.comp_def]
  right := by simp [Progress.start, Function.comp_def]
  blocks := hp.map _
  pages := .nil
  track := rfl

theorem findIdx?_of_mem (hn : (p.blocks.map (·.1.name)).Nodup) (hm : (ram, run) ∈ p.blocks) :
    ∃ block, p.blocks.findIdx? (·.1.name == ram.name) = some block ∧
      p.blocks[block]? = some (ram, run) := by
  cases hf : p.blocks.findIdx? (·.1.name == ram.name) with
  | none => simpa using List.findIdx?_eq_none_iff.1 hf _ hm
  | some block =>
    obtain ⟨hlt, he, -⟩ := List.findIdx?_eq_some_iff_getElem.1 hf
    refine ⟨block, rfl, ?_⟩
    rw [List.getElem?_eq_getElem hlt]
    exact congrArg some
      (List.inj_on_of_nodup_map hn (List.getElem_mem hlt) hm (eq_of_beq he))

theorem set_perm {α : Type} {as bs : List α} {a : α} (h : as.Perm bs) {i j : Nat}
    (ha : as[i]? = some a) (hb : bs[j]? = some a) (c : α) : (as.set i c).Perm (bs.set j c) := by
  obtain ⟨hi, rfl⟩ := List.getElem?_eq_some_iff.1 ha
  obtain ⟨hj, he⟩ := List.getElem?_eq_some_iff.1 hb
  have herase : (as.eraseIdx i).Perm (bs.eraseIdx j) := by
    refine List.Perm.cons_inv (a := as[i]) ?_
    exact (List.getElem_cons_eraseIdx_perm hi).trans
      (h.trans (he ▸ (List.getElem_cons_eraseIdx_perm hj).symm))
  exact (List.set_perm_cons_eraseIdx hi c).trans
    ((herase.cons c).trans (List.set_perm_cons_eraseIdx hj c).symm)

theorem map_fst_set {blocks : List (RamBlock × Option (Nat × Nat))}
    (hb : blocks[block]? = some (ram, run)) (new : Option (Nat × Nat)) :
    (blocks.set block (ram, new)).map (·.1) = blocks.map (·.1) := by
  obtain ⟨hlt, he⟩ := List.getElem?_eq_some_iff.1 hb
  have hlt' : block < (blocks.map (·.1)).length := by rwa [List.length_map]
  have hram : ram = (blocks.map (·.1))[block] := by rw [List.getElem_map, he]
  rw [List.map_set, hram, List.set_getElem_self]

namespace Progress.Renumbered

variable (h : Progress.Renumbered rams rams' p q) (hn : (rams.map (·.name)).Nodup)

include h

theorem pages_size : q.pages.size = p.pages.size := h.pages.length_eq.symm

theorem extend (hb : p.blocks[block]? = some (ram, run)) (hb' : q.blocks[block']? = some (ram, run))
    (new : Nat × Nat) (hpages : List.Forall₂ (SamePage rams rams') pages.toList pages'.toList) :
    Progress.Renumbered rams rams' ⟨p.blocks.set block (ram, some new), pages, track⟩
      ⟨q.blocks.set block' (ram, some new), pages', track⟩ where
  left := (map_fst_set hb _).trans h.left
  right := (map_fst_set hb' _).trans h.right
  blocks := set_perm h.blocks hb hb' _
  pages := hpages
  track := rfl

include hn

theorem find (name : List UInt8) :
    (p.blocks.findIdx? (·.1.name == name) = none ∧
        q.blocks.findIdx? (·.1.name == name) = none) ∨
      ∃ block block' ram run, p.blocks.findIdx? (·.1.name == name) = some block ∧
        p.blocks[block]? = some (ram, run) ∧ q.blocks.findIdx? (·.1.name == name) = some block' ∧
        q.blocks[block']? = some (ram, run) := by
  cases hf : p.blocks.findIdx? (·.1.name == name) with
  | none =>
    refine .inl ⟨rfl, ?_⟩
    rw [List.findIdx?_eq_none_iff] at hf ⊢
    exact fun e he => hf e (h.blocks.mem_iff.2 he)
  | some block =>
    obtain ⟨hlt, he, -⟩ := List.findIdx?_eq_some_iff_getElem.1 hf
    obtain rfl := eq_of_beq he
    have hq : (q.blocks.map (·.1.name)).Nodup := by
      rw [← h.left, List.map_map] at hn
      exact (h.blocks.map _).nodup_iff.1 hn
    obtain ⟨block', hf', hb'⟩ :=
      findIdx?_of_mem hq (h.blocks.mem_iff.1 (List.getElem_mem hlt))
    exact .inr ⟨block, block', _, _, rfl, List.getElem?_eq_getElem hlt, hf', hb'⟩

theorem agrees_blockRecord :
    Agrees (· = ·) (Progress.Renumbered rams rams') (blockRecord compressed p)
      (blockRecord compressed q) := by
  refine .andThen (.refl _) fun length => .andThen (.refl _) fun name => ?_
  rcases h.find hn name with ⟨hf, hf'⟩ | ⟨block, block', ram, run, hf, hb, hf', hb'⟩
  · simp only [hf, hf']
    exact .throw _
  · simp only [hf, hf', hb, hb']
    cases run with
    | some run => exact .corrupt _ _ _
    | none =>
      refine .andThen (.refl _) fun count => ?_
      split
      · exact .corrupt _ _ _
      · have hram : rams[block]? = some ram := by
          rw [← h.left, List.getElem?_map, hb, Option.map_some]
        have hram' : rams'[block']? = some ram := by
          rw [← h.right, List.getElem?_map, hb', Option.map_some]
        rw [h.track]
        refine (agrees_pageRecords hram hram' h.pages).bind ?_
        rintro ⟨pages, track⟩ ⟨pages', _⟩ ⟨hpages, rfl⟩
        refine .pure ?_
        rw [h.pages_size]
        exact h.extend hb hb' _ hpages

theorem agrees_blockRecords (n : Nat) :
    Agrees (· = ·) (Progress.Renumbered rams rams') (blockRecords compressed n p)
      (blockRecords compressed n q) := by
  induction n generalizing p q with
  | zero => exact .pure h
  | succ n ih => exact (h.agrees_blockRecord hn).bind fun _ _ h => ih h

omit hn in
theorem page (i : Nat) (flags : Flags) :
    (i < p.pages.size ∧ SamePage rams rams' ((p.found flags).page i) ((q.found flags).page i)) ∨
      (p.pages.size ≤ i ∧ (p.found flags).page i = default ∧ (q.found flags).page i = default) := by
  rcases Nat.lt_or_ge i p.pages.size with hi | hi
  · refine .inl ⟨hi, ?_⟩
    have hi' : i < q.pages.size := h.pages_size ▸ hi
    simp only [found, Index.page, Array.getD_eq_getD_getElem?, Array.getElem?_eq_getElem hi,
      Array.getElem?_eq_getElem hi', Option.getD_some]
    exact h.pages.get hi hi'
  · refine .inr ⟨hi, ?_, ?_⟩
    · simp only [found, Index.page, Array.getD_eq_getD_getElem?, Array.getElem?_eq_none hi,
        Option.getD_none]
    · simp only [found, Index.page, Array.getD_eq_getD_getElem?,
        Array.getElem?_eq_none (h.pages_size ▸ hi : q.pages.size ≤ i), Option.getD_none]

omit hn in
theorem found_blocks (flags : Flags) : (p.found flags).blocks.Perm (q.found flags).blocks :=
  h.blocks.map _

theorem entry_eq {e e' : RamBlock × Option (Nat × Nat)} (hb : p.blocks[block]? = some e)
    (hb' : q.blocks[block']? = some e') (he : e'.1 = e.1) : e' = e := by
  have hp : (p.blocks.map (·.1)).Nodup := h.left ▸ List.Nodup.of_map _ hn
  exact List.inj_on_of_nodup_map hp (h.blocks.mem_iff.2 (List.mem_of_getElem? hb'))
    (List.mem_of_getElem? hb) he

theorem found (hd : RamBlock.Unshared rams) (flags : Flags) :
    (p.found flags).Renumbered (q.found flags) where
  flags := rfl
  pages := h.pages_size
  size i := by
    rcases h.page i flags with ⟨-, hs⟩ | ⟨-, hp, hq⟩
    · exact hs.size
    · rw [hp, hq]
  position i := by
    rcases h.page i flags with ⟨-, hs⟩ | ⟨-, hp, hq⟩
    · exact hs.position
    · rw [hp, hq]
  block i hi := by
    rcases h.page i flags with ⟨-, hs⟩ | ⟨hle, -⟩
    · obtain ⟨ram, hb, hb'⟩ := hs.block
      rw [← h.left, List.getElem?_map, Option.map_eq_some_iff] at hb
      rw [← h.right, List.getElem?_map, Option.map_eq_some_iff] at hb'
      obtain ⟨e, hb, rfl⟩ := hb
      obtain ⟨e', hb', he⟩ := hb'
      obtain rfl := h.entry_eq hn hb hb' he
      change (q.blocks.map _)[_]? = (p.blocks.map _)[_]?
      rw [List.getElem?_map, List.getElem?_map, hb, hb']
    · exact absurd hi (Nat.not_lt_of_le hle)
  locate a := by
    have hleft : (p.found flags).blocks.map (·.ram) = rams := by
      rw [← h.left]
      simp [Progress.found]
    have hright : (q.found flags).blocks.map (·.ram) = rams' := by
      rw [← h.right]
      simp [Progress.found]
    have hdp : RamBlock.Unshared ((p.found flags).blocks.map (·.ram)) := hleft ▸ hd
    have hdq : RamBlock.Unshared ((q.found flags).blocks.map (·.ram)) :=
      hdp.perm ((h.found_blocks flags).map _)
    have hfind : (q.found flags).blocks.find? (·.ram.contains a) =
        (p.found flags).blocks.find? (·.ram.contains a) := by
      ext b
      rw [find_block_iff hdp, find_block_iff hdq, (h.found_blocks flags).mem_iff]
    simp only [Index.locate, hfind]

end Progress.Renumbered

/-! ## Snapshots -/

variable {bs bs' : List RamBlock}

theorem agrees_index (ha : RamBlock.Accepted bs) (hd : RamBlock.Unshared bs) (hp : bs.Perm bs') :
    Agrees (· = ·) Renumbered (index bs) (index bs') := by
  rw [index_eq, index_eq, hp.length_eq]
  refine .andThen (.refl _) fun flags => ?_
  refine ((Progress.renumbered_start hp).agrees_blockRecords ha.names_nodup _).bind ?_
  exact fun p q h => .pure (h.found ha.names_nodup hd flags)

/-- An index that is read, or the cause for which it cannot be read, for blocks in two orders. -/
inductive SameOutcome : Except LoadError Index → Except LoadError Index → Prop
  | ok {x y : Index} (h : x.Renumbered y) : SameOutcome (.ok x) (.ok y)
  | error (cause : LoadError) : SameOutcome (.error cause) (.error cause)

theorem parse_perm (ha : RamBlock.Accepted bs) (hd : RamBlock.Unshared bs) (hp : bs.Perm bs')
    (bytes : List UInt8) (ending : IoError) :
    SameOutcome (parse bs bytes ending).1 (parse bs' bytes ending).1 ∧
      (parse bs' bytes ending).2 = (parse bs bytes ending).2 := by
  have h := agrees_index ha hd hp { rest := bytes, ending } _ rfl
  unfold parse
  generalize index bs _ = u, index bs' _ = v at h ⊢
  cases h with
  | ok h ht => exact ⟨.ok h, ht.symm⟩
  | error e ht => exact ⟨.error e, ht.symm⟩

/-- The order of the blocks does not matter to how an index is read, and neither to the memory that
is cleared for it nor to the reads that it takes. -/
theorem read_perm (ha : RamBlock.Accepted bs) (hd : RamBlock.Unshared bs) (hp : bs.Perm bs')
    (source : Source) :
    SameOutcome (read bs source).outcome (read bs' source).outcome ∧
      (read bs' source).cleared = (read bs source).cleared ∧
      (read bs' source).source = (read bs source).source := by
  unfold read
  dsimp only
  split
  · exact ⟨.error _, rfl, rfl⟩
  · obtain ⟨houtcome, hscan⟩ := parse_perm ha hd hp
      ((source.afterStream 0 8).stream (bigEndian ((source.stream 0).1.take 8))).1
      ((source.afterStream 0 8).stream (bigEndian ((source.stream 0).1.take 8))).2
    rw [hscan]
    exact ⟨houtcome, rfl, rfl⟩

end RamRestore.Index
