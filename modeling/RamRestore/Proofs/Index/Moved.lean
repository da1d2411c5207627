import RamRestore.Proofs.Index.Image
import RamRestore.Proofs.Index.Renumbered

/-! # Indexes of blocks at other addresses

The addresses of blocks decide which memory is cleared for an index, and nothing else of how it is
read. What a snapshot says its blocks are to hold does not hang on them either.
-/

namespace RamRestore

namespace RamBlock

def movedTo (b : RamBlock) (start : Nat) : RamBlock := { b with start }

variable {b : RamBlock} {bs : List RamBlock} {start : Nat}

@[simp] theorem movedTo_start : (b.movedTo start).start = start := rfl

@[simp] theorem movedTo_pageSize : (b.movedTo start).pageSize = b.pageSize := rfl

@[simp] theorem movedTo_name : (b.movedTo start).name = b.name := rfl

theorem refusal_movedTo (hb : b.start ≠ 0) (hs : start ≠ 0) :
    (b.movedTo start).refusal? (bs.map (·.movedTo start)) = b.refusal? bs := by
  have hfault : (b.movedTo start).fault? = b.fault? := by
    simp only [fault?, movedTo_name, movedTo_pageSize, movedTo_start, hb, hs]
  simp only [refusal?, hfault, List.length_map, List.any_map]
  rfl

theorem accepted_snoc_iff : Accepted (bs ++ [b]) ↔ Accepted bs ∧ b.refusal? bs = none := by
  constructor
  · intro h
    refine ⟨?_, h.refusal rfl⟩
    generalize hc : bs ++ [b] = cs at h
    cases h with
    | nil => simp at hc
    | snoc h => exact (List.append_inj' hc rfl).1 ▸ h
  · rintro ⟨h, hb⟩
    exact .snoc h hb

theorem accepted_movedTo (hs : start ≠ 0) (hb : ∀ b ∈ bs, b.start ≠ 0) :
    Accepted (bs.map (·.movedTo start)) ↔ Accepted bs := by
  induction bs using List.reverseRecOn with
  | nil => simp [Accepted.nil]
  | append_singleton bs b ih =>
    have hlast : b.start ≠ 0 := hb b (List.mem_append_right _ (.head _))
    rw [List.map_append, List.map_singleton, accepted_snoc_iff, accepted_snoc_iff,
      ih fun c hc => hb c (List.mem_append_left _ hc), refusal_movedTo hlast hs]

end RamBlock

namespace Index

/-- The index that is read where every block is at this address. -/
def movedTo (x : Index) (start : Nat) : Index :=
  { x with blocks := x.blocks.map fun b => { b with ram := b.ram.movedTo start } }

section

variable {x : Index} {start i : Nat}

theorem pageSize_movedTo : (x.movedTo start).pageSize i = x.pageSize i := by
  simp only [pageSize, block?, movedTo, List.getElem?_map, page]
  cases x.blocks[(x.pages.getD i default).block]? <;> rfl

theorem content_movedTo (data : Bytes) :
    (x.movedTo start).content? data i = x.content? data i := by
  unfold content?
  rw [pageSize_movedTo]
  rfl

theorem image_movedTo (data : Bytes) : (x.movedTo start).image data = x.image data := by
  unfold image
  rw [movedTo, List.foldl_map]
  apply List.foldl_ext
  intro bytes b _
  apply congrArg (bytes ++ ·)
  apply congrArg Array.ofFn
  funext o
  unfold imageByte
  rw [← movedTo]
  simp only [content_movedTo]
  rfl

end

/-! ## Reading -/

open Decoder

/-- Both scans are at the same place; what they cleared may differ. -/
structure SamePlace (s t : Scan) : Prop where
  rest : t.rest = s.rest
  ending : t.ending = s.ending
  exhausted : t.exhausted = s.exhausted

namespace Decoder.Agrees

theorem ended {α : Type} {R : α → α → Prop} : Agrees SamePlace R Decoder.ended Decoder.ended := by
  intro s t h
  unfold Decoder.ended
  rw [h.ending]
  exact .error _ ⟨rfl, rfl, rfl⟩

theorem take (n : Nat) : Agrees SamePlace (· = ·) (Decoder.take n) (Decoder.take n) := by
  intro s t h
  simp only [Decoder.take, h.rest]
  split
  · exact .ok rfl ⟨rfl, h.ending, h.exhausted⟩
  · exact ended _ _ h

theorem word32 : Agrees SamePlace (· = ·) Decoder.word32 Decoder.word32 :=
  (take 4).andThen fun _ => .pure rfl

theorem packed : Agrees SamePlace (· = ·) Decoder.packed Decoder.packed := by
  intro s t h
  simp only [Decoder.packed, h.rest]
  split
  · exact .ok rfl ⟨rfl, h.ending, h.exhausted⟩
  · exact ended _ _ h
  · exact .error _ ⟨rfl, h.ending, h.exhausted⟩

theorem delta : Agrees SamePlace (· = ·) Decoder.delta Decoder.delta :=
  packed.andThen fun _ => .pure rfl

theorem clear (address address' length : Nat) :
    Agrees SamePlace (· = ·) (Decoder.clear address length) (Decoder.clear address' length) :=
  fun _ _ h => .ok rfl ⟨h.rest, h.ending, h.exhausted⟩

theorem header : Agrees SamePlace (· = ·) Index.header Index.header := by
  refine word32.andThen fun found => ?_
  split
  · exact fun _ _ h => .error _ h
  · exact word32.andThen fun _ => word32.andThen fun _ => .pure rfl

end Decoder.Agrees

variable {compressed : Bool} {block n k start : Nat} {ram : RamBlock} {track : Track}
  {pages : Array Page}

theorem agrees_pageRecord_movedTo :
    Agrees SamePlace (· = ·) (pageRecord compressed block ram k track)
      (pageRecord compressed block (ram.movedTo start) k track) := by
  refine .andThen .packed fun size => ?_
  split
  · exact (Agrees.clear _ _ _).bind fun _ _ _ => .pure rfl
  · refine .andThen .delta fun delta => ?_
    have hplace : place compressed block (ram.movedTo start) track size delta =
        place compressed block ram track size delta := rfl
    rw [hplace]
    cases place compressed block ram track size delta with
    | error cause => exact .throw _
    | ok page => exact .pure rfl

theorem agrees_pageRecords_movedTo :
    Agrees SamePlace (· = ·) (pageRecords compressed block ram n k track pages)
      (pageRecords compressed block (ram.movedTo start) n k track pages) := by
  induction n generalizing k track pages with
  | zero => exact .pure rfl
  | succ n ih =>
    refine agrees_pageRecord_movedTo.bind ?_
    rintro ⟨page, track⟩ _ rfl
    exact ih

def Progress.movedTo (p : Progress) (start : Nat) : Progress :=
  { p with blocks := p.blocks.map fun (ram, run) => (ram.movedTo start, run) }

theorem Progress.found_movedTo (p : Progress) (flags : Flags) :
    (p.movedTo start).found flags = (p.found flags).movedTo start := by
  simp [Progress.found, Progress.movedTo, Index.movedTo, Function.comp_def]

theorem agrees_blockRecord_movedTo (p : Progress) :
    Agrees SamePlace (fun q r => r = q.movedTo start) (blockRecord compressed p)
      (blockRecord compressed (p.movedTo start)) := by
  refine .andThen (.take _) fun length => .andThen (.take _) fun name => ?_
  have hfind : (p.movedTo start).blocks.findIdx? (·.1.name == name) =
      p.blocks.findIdx? (·.1.name == name) := List.findIdx?_map ..
  rw [hfind]
  cases p.blocks.findIdx? (·.1.name == name) with
  | none => exact .throw _
  | some block =>
    have hget : (p.movedTo start).blocks[block]? =
        p.blocks[block]?.map fun (ram, run) => (ram.movedTo start, run) := List.getElem?_map ..
    simp only [hget]
    cases p.blocks[block]? with
    | none => exact .throw _
    | some entry =>
      obtain ⟨ram, run⟩ := entry
      cases run with
      | some run => exact .corrupt _ _ _
      | none =>
        refine .andThen .word32 fun count => ?_
        change Agrees _ _ _ (if ram.size < count * ram.pageSize then _ else _)
        split
        · exact .corrupt _ _ _
        · refine agrees_pageRecords_movedTo.bind ?_
          rintro ⟨pages, track⟩ _ rfl
          refine .pure ?_
          simp only [Progress.movedTo, List.map_set]

theorem agrees_blockRecords_movedTo (n : Nat) (p : Progress) :
    Agrees SamePlace (fun q r => r = q.movedTo start) (blockRecords compressed n p)
      (blockRecords compressed n (p.movedTo start)) := by
  induction n generalizing p with
  | zero => exact .pure rfl
  | succ n ih =>
    refine (agrees_blockRecord_movedTo p).bind ?_
    rintro p _ rfl
    exact ih p

theorem agrees_index_movedTo (bs : List RamBlock) (start : Nat) :
    Agrees SamePlace (fun x y => y = x.movedTo start) (index bs)
      (index (bs.map (·.movedTo start))) := by
  have hstart : Progress.start (bs.map (·.movedTo start)) = (Progress.start bs).movedTo start := by
    simp [Progress.start, Progress.movedTo, Function.comp_def]
  rw [index_eq, index_eq, hstart, List.length_map]
  refine .andThen .header fun flags => ?_
  refine (agrees_blockRecords_movedTo _ _).bind ?_
  rintro p _ rfl
  exact .pure (p.found_movedTo flags)

/-- Read for blocks at another address, a snapshot gives the same index, or cannot be read for the
same cause. -/
theorem read_movedTo (bs : List RamBlock) (source : Source) (start : Nat) :
    (read (bs.map (·.movedTo start)) source).outcome =
      (read bs source).outcome.map (·.movedTo start) := by
  unfold read
  dsimp only
  split
  · rfl
  · unfold parse
    generalize hs : Scan.mk _ _ _ _ = s
    have h := agrees_index_movedTo bs start s s ⟨rfl, rfl, rfl⟩
    generalize index bs s = u, index (bs.map (·.movedTo start)) s = v at h ⊢
    cases h with
    | ok h => exact congrArg Except.ok h
    | error => rfl

end Index
end RamRestore
