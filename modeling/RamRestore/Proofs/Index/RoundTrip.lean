import RamRestore.Proofs.Index.Reads
import RamRestore.Load

/-! # Reading back an index

An index that was written is read back record by record, wherever it stands in its snapshot,
and whatever else there is.
-/

namespace RamRestore.Index

section

variable {compressed : Bool} {blocks : List RamBlock} {done rs : List Record} {r : Record}
  {t : Track} {b : RamBlock}

theorem runOf_append (b : RamBlock) (first : Nat) (done rs : List Record) :
    runOf b first (done ++ rs) =
      (runOf b first done).or (runOf b (first + (listing done).length) rs) := by
  induction done generalizing first with
  | nil => simp [runOf, listing]
  | cons q done ih =>
    rw [List.cons_append, runOf, runOf]
    split
    · rfl
    · rw [ih]
      simp [listing, Nat.add_assoc]

theorem runOf_eq_none (b : RamBlock) (first : Nat) (h : ∀ r ∈ rs, r.ram ≠ b) :
    runOf b first rs = none := by
  induction rs generalizing first with
  | nil => rfl
  | cons r rs ih =>
    rw [runOf, if_neg (h r (by simp))]
    exact ih _ fun q hq => h q (by simp [hq])

def progress (blocks : List RamBlock) (done : List Record) (t : Track) : Progress where
  blocks := blocks.map fun b => (b, runOf b 0 done)
  pages := (done.flatMap (Record.pages blocks)).toArray
  track := t

theorem size_progress (blocks : List RamBlock) (done : List Record) (t : Track) :
    (progress blocks done t).pages.size = (listing done).length := by
  simp [progress, Record.pages, listing, List.length_flatMap]

theorem findIdx?_name (hn : (blocks.map (·.name)).Nodup) (hb : b ∈ blocks) :
    blocks.findIdx? (·.name == b.name) = some (blocks.idxOf b) := by
  have hlt : blocks.idxOf b < blocks.length := List.idxOf_lt_length_iff.2 hb
  rw [List.findIdx?_eq_some_iff_getElem]
  refine ⟨hlt, by simp, ?_⟩
  intro j hj he
  have hname : blocks[j].name = blocks[blocks.idxOf b].name := by
    rw [List.getElem_idxOf hlt]
    exact eq_of_beq he
  have hinj := (hn.get_inj_iff (i := ⟨j, by rw [List.length_map]; omega⟩)
    (j := ⟨blocks.idxOf b, by rwa [List.length_map]⟩)).1 (by simpa using hname)
  exact absurd (Fin.val_eq_of_eq hinj) (Nat.ne_of_lt hj)

theorem set_progress (hn : blocks.Nodup) (hb : r.ram ∈ blocks) (hd : ∀ q ∈ done, q.ram ≠ r.ram)
    (t t' : Track) :
    (progress blocks done t).blocks.set (blocks.idxOf r.ram)
        (r.ram, some ((progress blocks done t).pages.size, r.entries.length)) =
      (progress blocks (done ++ [r]) t').blocks := by
  rw [size_progress]
  apply List.ext_getElem (by simp [progress])
  intro j h₁ h₂
  have hj : j < blocks.length := by simpa [progress] using h₂
  have hlt : blocks.idxOf r.ram < blocks.length := List.idxOf_lt_length_iff.2 hb
  simp only [progress, List.getElem_set, List.getElem_map, runOf_append]
  split
  · rename_i hij
    subst hij
    rw [List.getElem_idxOf hlt, runOf_eq_none r.ram 0 hd]
    simp [runOf]
  · rename_i hij
    have hne : r.ram ≠ blocks[j] := by
      rintro he
      refine hij ?_
      rw [he, hn.idxOf_getElem j hj]
    simp [runOf, hne]

theorem Reads.blockRecord (hb : RamBlock.Accepted blocks) (hr : r.ram ∈ blocks)
    (hd : ∀ q ∈ done, q.ram ≠ r.ram) (hfit : r.entries.length * r.ram.pageSize ≤ r.ram.size)
    (ht : t.Valid) (hw : WritableEntries compressed r.ram t r.entries) :
    Reads (blockRecord compressed (progress blocks done t)) (r.encode compressed t)
      (zeroEntries r.ram 0 r.entries) (progress blocks (done ++ [r]) (r.track t)) := by
  have hlt : blocks.idxOf r.ram < blocks.length := List.idxOf_lt_length_iff.2 hr
  have hlen := Reads.take (bytesOf 1 r.ram.name.length)
  rw [length_bytesOf] at hlen
  have hfind : (progress blocks done t).blocks.findIdx? (·.1.name == r.ram.name) =
      some (blocks.idxOf r.ram) := by
    simpa [progress, Function.comp_def] using findIdx?_name hb.names_nodup hr
  have hget : (progress blocks done t).blocks[blocks.idxOf r.ram]? = some (r.ram, none) := by
    simp [progress, hlt, runOf_eq_none r.ram 0 hd]
  unfold Index.blockRecord Record.encode
  rw [List.append_assoc, List.append_assoc]
  refine hlen.andThen ?_ rfl (List.nil_append _).symm
  have hname : bigEndian (bytesOf 1 r.ram.name.length) = r.ram.name.length :=
    bigEndian_bytesOf 1 (by have := hb.name_length_le hr; omega)
  rw [hname]
  refine (Reads.take r.ram.name).andThen ?_ rfl (List.nil_append _).symm
  simp only [hfind, hget]
  refine (Reads.word32 r.length_lt).andThen ?_ rfl (List.nil_append _).symm
  rw [if_neg (Nat.not_lt_of_le hfit)]
  refine (Reads.pageRecords (hb.isPageSize hr) ht hw 0 _).andThen ?_ (List.append_nil _).symm
    (List.append_nil _).symm
  have hblocks := set_progress hb.nodup hr hd t (r.track t)
  have hpages : (progress blocks (done ++ [r]) (r.track t)).pages =
      (progress blocks done t).pages ++
        (r.entries.map (Entry.page (blocks.idxOf r.ram))).toArray := by
    simp [progress, Record.pages]
  have hp : progress blocks (done ++ [r]) (r.track t) = _ :=
    (Progress.mk.injEq ..).mpr ⟨hblocks.symm, hpages, rfl⟩
  rw [hp]
  exact .pure _

/-- Records that list each of these blocks once, and no more pages of it than it has. -/
structure Lists (blocks : List RamBlock) (records : List Record) : Prop where
  perm : (records.map (·.ram)).Perm blocks
  fits : ∀ r ∈ records, r.entries.length * r.ram.pageSize ≤ r.ram.size

theorem Reads.blockRecords (hb : RamBlock.Accepted blocks) (hl : Lists blocks (done ++ rs))
    (ht : t.Valid) (hw : WritableRecords compressed t rs) :
    Reads (blockRecords compressed rs.length (progress blocks done t))
      (encodeRecords compressed t rs) (rs.flatMap fun r => zeroEntries r.ram 0 r.entries)
      (progress blocks (done ++ rs) (rs.foldl Record.track t)) := by
  induction rs generalizing done t with
  | nil => simpa [Index.blockRecords, encodeRecords] using Reads.pure (progress blocks done t)
  | cons r rs ih =>
    obtain ⟨hr, hrs⟩ := hw
    have hmem : r.ram ∈ blocks := hl.perm.mem_iff.1 (by simp)
    have hd : ∀ q ∈ done, q.ram ≠ r.ram := by
      have hn := hl.perm.nodup_iff.2 hb.nodup
      rw [List.map_append, List.nodup_append] at hn
      exact fun q hq => hn.2.2 q.ram (List.mem_map_of_mem hq) r.ram (by simp)
    have hone := Reads.blockRecord hb hmem hd (hl.fits r (by simp)) ht hr
    rw [show done ++ r :: rs = done ++ [r] ++ rs by simp] at hl ⊢
    exact hone.andThen (ih hl (hr.track_valid ht) hrs) rfl rfl

theorem Reads.header {flags : Flags} {hint : Nat} (hf : flags.bits < word32Count)
    (hh : hint < word32Count) :
    Reads header (bytesOf 4 version ++ bytesOf 4 flags.bits ++ bytesOf 4 hint) [] flags := by
  unfold Index.header
  rw [List.append_assoc]
  refine (Reads.word32 (n := version) (by decide)).andThen ?_ rfl rfl
  rw [if_neg (not_not_intro rfl)]
  refine (Reads.word32 hf).andThen ?_ rfl rfl
  exact (Reads.word32 hh).andThen (.pure _) (List.append_nil _).symm rfl

theorem Reads.index {flags : Flags} {hint : Nat} {records : List Record}
    (hb : RamBlock.Accepted blocks) (hl : Lists blocks records)
    (hw : WritableRecords (flags.contains .compressedPages) .start records)
    (hf : flags.bits < word32Count) (hh : hint < word32Count) :
    Reads (index blocks) (encode flags hint records)
      (records.flatMap fun r => zeroEntries r.ram 0 r.entries)
      (ofRecords blocks flags records) := by
  have hlen : records.length = blocks.length := by
    rw [← hl.perm.length_eq, List.length_map]
  have hl' : Lists blocks ([] ++ records) := hl
  have hrecords := Reads.blockRecords hb hl' Track.valid_start hw
  rw [hlen] at hrecords
  have hx : (progress blocks records (records.foldl Record.track .start)).found flags =
      ofRecords blocks flags records := by
    simp only [ofRecords, progress, Progress.found, List.map_map]
    rfl
  rw [index_eq, ← hx]
  refine (Reads.header hf hh).andThen ?_ rfl (List.nil_append _).symm
  exact hrecords.andThen (.pure _) (List.append_nil _).symm (List.append_nil _).symm

/-- An index says what records say: each page in its place, and of each block its run. -/
structure Tells (x : Index) (records : List Record) : Prop where
  size : x.pages.size = (listing records).length
  page : ∀ i ram e, (listing records)[i]? = some (ram, e) →
    ∃ b, x.block? i = some b ∧ b.ram = ram ∧ x.page i = e.page (x.page i).block
  run : ∀ done r rest, records = done ++ r :: rest → ∃ b ∈ x.blocks,
    b.ram = r.ram ∧ b.first = (listing done).length ∧ b.count = r.entries.length

theorem Entry.block_page (e : Entry) (block : Nat) : (e.page block).block = block := by
  cases e <;> rfl

theorem pages_ofRecords (blocks : List RamBlock) (flags : Flags) (records : List Record) :
    (ofRecords blocks flags records).pages.toList =
      (listing records).map fun p => p.2.page (blocks.idxOf p.1) := by
  simp only [ofRecords, listing, List.map_flatMap, List.map_map]
  rfl

theorem Lists.mem {records : List Record} {ram : RamBlock} {e : Entry} (hl : Lists blocks records)
    (h : (ram, e) ∈ listing records) : ram ∈ blocks := by
  obtain ⟨r, hr, he⟩ := List.mem_flatMap.1 h
  obtain ⟨-, -, ⟨⟩⟩ := List.mem_map.1 he
  exact hl.perm.mem_iff.1 (List.mem_map_of_mem hr)

theorem tells_ofRecords {records : List Record} (flags : Flags) (hn : blocks.Nodup)
    (hl : Lists blocks records) : (ofRecords blocks flags records).Tells records := by
  have hpages := pages_ofRecords blocks flags records
  refine ⟨?_, ?_, ?_⟩
  · rw [← Array.length_toList, hpages, List.length_map]
  · intro i ram e he
    have hmem : ram ∈ blocks := hl.mem (List.mem_of_getElem? he)
    have hlt : blocks.idxOf ram < blocks.length := List.idxOf_lt_length_iff.2 hmem
    have hpage : (ofRecords blocks flags records).page i = e.page (blocks.idxOf ram) := by
      rw [Index.page, Array.getD_eq_getD_getElem?, ← Array.getElem?_toList, hpages,
        List.getElem?_map, he]
      rfl
    refine ⟨placed records ram, ?_, rfl, ?_⟩
    · rw [block?, hpage, Entry.block_page]
      simp only [ofRecords, List.getElem?_map, List.getElem?_eq_getElem hlt,
        List.getElem_idxOf hlt, Option.map_some]
    · rw [hpage, Entry.block_page]
  · rintro done r rest rfl
    have hd : ∀ q ∈ done, q.ram ≠ r.ram := by
      have hn := hl.perm.nodup_iff.2 hn
      rw [List.map_append, List.nodup_append] at hn
      exact fun q hq => hn.2.2 q.ram (List.mem_map_of_mem hq) r.ram (by simp)
    have hrun : runOf r.ram 0 (done ++ r :: rest) =
        some ((listing done).length, r.entries.length) := by
      rw [runOf_append, runOf_eq_none r.ram 0 hd]
      simp [runOf]
    have hr : r.ram ∈ blocks := hl.perm.mem_iff.1 (by simp)
    refine ⟨placed _ r.ram, List.mem_map_of_mem hr, rfl, ?_⟩
    simp only [placed, hrun, Option.getD_some, and_self]

theorem WritableEntries.mem {ram : RamBlock} {es : List Entry} {e : Entry}
    (h : WritableEntries compressed ram t es) (he : e ∈ es) :
    ∃ t, e.Writable compressed ram t := by
  induction es generalizing t with
  | nil => cases he
  | cons q es ih =>
    obtain ⟨hq, hes⟩ := h
    rcases List.mem_cons.1 he with rfl | he
    · exact ⟨t, hq⟩
    · exact ih hes he

theorem WritableRecords.mem {ram : RamBlock} {e : Entry} (h : WritableRecords compressed t rs)
    (he : (ram, e) ∈ listing rs) : ∃ t, e.Writable compressed ram t := by
  induction rs generalizing t with
  | nil => cases he
  | cons r rs ih =>
    obtain ⟨hr, hrs⟩ := h
    rcases List.mem_append.1 he with he | he
    · obtain ⟨_, hq, ⟨⟩⟩ := List.mem_map.1 he
      exact hr.mem hq
    · exact ih hrs he

/-- The snapshot has these bytes for an index: its first eight bytes say where they are. -/
structure IndexAt (data : Bytes) (position : Nat) (bytes : List UInt8) : Prop where
  position_lt : position < word64Count
  head : bytesOf 8 position <+: data.toList
  bytes : bytes <+: data.toList.drop position

section

variable {data : Bytes} {position : Nat} {source : Source} {flags : Flags} {hint : Nat}
  {records : List Record}

theorem length_encode_pos (flags : Flags) (hint : Nat) (records : List Record) :
    0 < (encode flags hint records).length := by
  simp [encode, length_bytesOf]

theorem parse_encode (hb : RamBlock.Accepted blocks) (hl : Lists blocks records)
    (hw : WritableRecords (flags.contains .compressedPages) .start records)
    (hf : flags.bits < word32Count) (hh : hint < word32Count) (rest : List UInt8)
    (ending : IoError) :
    parse blocks (encode flags hint records ++ rest) ending = (.ok (ofRecords blocks flags records),
      { rest, ending, cleared := (records.flatMap fun r => zeroEntries r.ram 0 r.entries).reverse })
    := by
  rw [parse, Reads.index hb hl hw hf hh _ rest rfl]
  simp

/-- The index of a snapshot is read, and the zero pages that it names, whatever else is there. -/
theorem read_encode (hb : RamBlock.Accepted blocks) (hl : Lists blocks records)
    (hw : WritableRecords (flags.contains .compressedPages) .start records)
    (hf : flags.bits < word32Count) (hh : hint < word32Count) (hs : source.Serves data)
    (hd : IndexAt data position (encode flags hint records)) :
    (read blocks source).outcome = .ok (ofRecords blocks flags records) ∧
      (read blocks source).cleared = records.flatMap fun r => zeroEntries r.ram 0 r.entries := by
  obtain ⟨rest, hrest⟩ := hd.bytes
  obtain ⟨rest₀, hhead⟩ := hd.head
  have htake : data.toList.take 8 = bytesOf 8 position := by
    rw [← hhead, List.take_append_of_le_length (by rw [length_bytesOf]),
      List.take_of_length_le (by rw [length_bytesOf])]
  have hlt : position < data.size := by
    apply Nat.lt_of_not_le
    intro hle
    rw [List.drop_eq_nil_of_le (by simpa using hle)] at hrest
    have := length_encode_pos flags hint records
    simp [List.append_eq_nil_iff.1 hrest] at this
  have hposition : bigEndian (bytesOf 8 position) = position :=
    bigEndian_bytesOf 8 (by have := hd.position_lt; unfold word64Count at this; omega)
  have hstream : (source.afterStream 0 8).stream position =
      (encode flags hint records ++ rest, .endOfData) := by
    rw [(hs.congr (source.sameAnswers_afterStream 0 8)).stream (Nat.le_of_lt hlt), hrest]
  unfold read
  simp only [hs.stream (Nat.zero_le _), List.drop_zero, htake, length_bytesOf, Nat.lt_irrefl,
    ↓reduceIte, hposition, hstream, parse_encode hb hl hw hf hh, List.reverse_reverse, and_self]

/--
Reading undoes writing: the index of a snapshot that stands for records has their pages in their
order, each with its block, its size and its position, and of each block the run of its record.
The pages that are all zero are filled from the start and the others are empty.
-/
theorem read_written (hb : RamBlock.Accepted blocks) (hl : Lists blocks records)
    (hw : WritableRecords (flags.contains .compressedPages) .start records)
    (hf : flags.bits < word32Count) (hh : hint < word32Count) (hs : source.Serves data)
    (hd : IndexAt data position (encode flags hint records)) :
    ∃ x, (read blocks source).outcome = .ok x ∧ x.flags = flags ∧
      x.blocks.map (·.ram) = blocks ∧ x.Tells records ∧
      ∀ {W : Type} (s : Source) (guest : W) (capacity i : Nat) (ram : RamBlock) (e : Entry),
        (listing records)[i]? = some (ram, e) →
          (Load.ofIndex x s guest capacity).state i = if e = .zero then .filled else .empty := by
  obtain ⟨hread, -⟩ := read_encode hb hl hw hf hh hs hd
  have ht := tells_ofRecords flags hb.nodup hl
  refine ⟨_, hread, rfl, (read_ok hread).1, ht, ?_⟩
  intro W s guest capacity i ram e he
  have hi : i < (ofRecords blocks flags records).pages.size := by
    rw [ht.size]
    exact (List.getElem?_eq_some_iff.1 he).1
  have hmem := List.mem_of_getElem? he
  obtain ⟨b, -, -, hpage⟩ := ht.page i ram e he
  rw [Load.state_ofIndex, hpage]
  cases e with
  | zero => simp [hi, Entry.page, Page.zero, Page.isZero]
  | stored size position =>
    obtain ⟨t, he⟩ := hw.mem hmem
    have hpos := he.size_pos (hb.isPageSize (hl.mem hmem))
    simp [Entry.page, Page.isZero, Nat.ne_of_gt hpos]

def sampleRecords : List Record :=
  [⟨⟨"b", 32, 12, 4⟩, [.stored 3 40, .zero, .stored 1 8], by decide⟩,
    ⟨⟨"a", 16, 4, 2⟩, [.zero, .stored 2 100], by decide⟩]

def sampleSnapshot : Bytes :=
  (bytesOf 8 12 ++ [0, 0, 0, 0] ++ encode ⟨5⟩ 7 sampleRecords).toArray

theorem read_written_sample :
    ∃ x, (read [⟨"a", 16, 4, 2⟩, ⟨"b", 32, 12, 4⟩] (.ofBytes sampleSnapshot)).outcome = .ok x ∧
      x.Tells sampleRecords := by
  have ha : RamBlock.Accepted [⟨"a", 16, 4, 2⟩] := .snoc .nil (by decide +kernel)
  have hb : RamBlock.Accepted [⟨"a", 16, 4, 2⟩, ⟨"b", 32, 12, 4⟩] := ha.snoc (by decide +kernel)
  have hl : Lists [⟨"a", 16, 4, 2⟩, ⟨"b", 32, 12, 4⟩] sampleRecords := ⟨by decide, by decide⟩
  have hd : IndexAt sampleSnapshot 12 (encode ⟨5⟩ 7 sampleRecords) :=
    ⟨by decide, by decide +kernel, by decide +kernel⟩
  obtain ⟨x, hx, -, -, ht, -⟩ := read_written hb hl (by decide) (by decide)
    (by decide) (Source.serves_ofBytes sampleSnapshot) hd
  exact ⟨x, hx, ht⟩

end

end

end RamRestore.Index
