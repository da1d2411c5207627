import Mathlib.Tactic.IntervalCases
import RamRestore.Proofs.Index.Listed
import RamRestore.Proofs.Index.Partition
import RamRestore.Proofs.Load.Agreement

/-! # The extent of an index

A reader that takes some bytes takes exactly these: what stands behind them changes nothing, and
where they break off it runs into the end. So an index is read from its own bytes alone.
-/

namespace RamRestore

namespace Packed

theorem readGroups_exact {groups weight sum n : Nat} {rest rest' : List UInt8}
    (h : readGroups groups weight sum rest = (.ok n, rest')) :
    ∃ bytes, rest = bytes ++ rest' ∧
      (∀ tail, readGroups groups weight sum (bytes ++ tail) = (.ok n, tail)) ∧
      ∀ cut, cut <+: bytes → cut ≠ bytes →
        readGroups groups weight sum cut = (.error .ended, []) := by
  induction groups generalizing weight sum rest with
  | zero => cases h
  | succ groups ih =>
    cases rest with
    | nil => cases h
    | cons b rest =>
      rw [readGroups] at h
      split at h
      · rename_i hb
        cases h
        refine ⟨[b], rfl, fun tail => ?_, fun cut hcut hne => ?_⟩
        · rw [List.singleton_append, readGroups, if_pos hb]
        · rcases List.prefix_cons_iff.1 hcut with rfl | ⟨t, rfl, ht⟩
          · rfl
          · rw [List.prefix_nil.1 ht] at hne
            exact absurd rfl hne
      · rename_i hb
        obtain ⟨bytes, rfl, hall, hcut⟩ := ih h
        refine ⟨b :: bytes, rfl, fun tail => ?_, fun cut hpre hne => ?_⟩
        · rw [List.cons_append, readGroups, if_neg hb, hall]
        · rcases List.prefix_cons_iff.1 hpre with rfl | ⟨t, rfl, ht⟩
          · rfl
          · rw [readGroups, if_neg hb, hcut t ht fun he => hne (congrArg _ he)]

end Packed

namespace Index

open Decoder

section

variable {α β : Type} {x : Decoder α} {f : α → Decoder β} {a : α} {b : β}
  {bytes bytes' : List UInt8} {zeroes zeroes' : List (Nat × Nat)}

/-- A reader takes these bytes: it reads them whatever stands behind, and where they break off and
nothing stands behind, it fails for that. -/
structure Takes (x : Decoder α) (bytes : List UInt8) (zeroes : List (Nat × Nat)) (a : α) :
    Prop where
  reads : Reads x bytes zeroes a
  starves : ∀ s : Scan, s.rest <+: bytes → s.rest ≠ bytes → ∃ s', x s = .error (.io s.ending) s'

def Exact (x : Decoder α) : Prop :=
  ∀ s a s', x s = .ok a s' → ∃ bytes zeroes, s.rest = bytes ++ s'.rest ∧ Takes x bytes zeroes a

theorem Takes.bind (hx : Takes x bytes zeroes a) (hf : Takes (f a) bytes' zeroes' b) :
    Takes (x >>= f) (bytes ++ bytes') (zeroes ++ zeroes') b where
  reads := hx.reads.bind hf.reads
  starves := by
    intro s hpre hne
    by_cases hle : bytes <+: s.rest
    · obtain ⟨cut, hcut⟩ := hle
      rw [← hcut] at hpre hne
      rw [bind_of_ok (hx.reads s cut hcut.symm)]
      exact hf.starves { s with rest := cut, cleared := zeroes.reverse ++ s.cleared }
        ((List.prefix_append_right_inj _).1 hpre) fun he => hne (congrArg _ he)
    · have hshort : s.rest <+: bytes :=
        (List.prefix_or_prefix_of_prefix hpre (List.prefix_append _ _)).resolve_right hle
      obtain ⟨s', he⟩ := hx.starves s hshort fun he => hle (he ▸ List.prefix_rfl)
      exact ⟨s', bind_of_error he⟩

namespace Exact

theorem bind (hx : Exact x) (hf : ∀ a, Exact (f a)) : Exact (x >>= f) := by
  intro s b s'' h
  obtain ⟨a, s', hxs, hfs⟩ := bind_ok h
  obtain ⟨bytes, zeroes, hrest, htakes⟩ := hx s a s' hxs
  obtain ⟨bytes', zeroes', hrest', htakes'⟩ := hf a s' b s'' hfs
  refine ⟨bytes ++ bytes', zeroes ++ zeroes', ?_, htakes.bind htakes'⟩
  rw [hrest, hrest', List.append_assoc]

theorem pure (a : α) : Exact (Pure.pure a) := by
  intro s b s' h
  cases h
  refine ⟨[], [], rfl, .pure _, fun s hpre hne => ?_⟩
  exact absurd (List.prefix_nil.1 hpre) hne

theorem throw (e : LoadError) : Exact (MonadExcept.throw e : Decoder α) := by
  intro s a s' h
  exact absurd h throw_not_ok

theorem corrupt (cause : Corruption) : Exact (Decoder.corrupt cause : Decoder α) := throw _

theorem throw_bind (e : LoadError) (f : α → Decoder β) :
    Exact ((MonadExcept.throw e : Decoder α) >>= f) := by
  intro s b s' h
  obtain ⟨a, s₁, h, -⟩ := bind_ok h
  exact absurd h throw_not_ok

theorem corrupt_bind (cause : Corruption) (f : α → Decoder β) :
    Exact ((Decoder.corrupt cause : Decoder α) >>= f) := throw_bind _ f

theorem take (n : Nat) : Exact (Decoder.take n) := by
  intro s bytes s' h
  unfold Decoder.take at h
  dsimp only at h
  split at h
  · rename_i hlen
    cases h
    have hreads := Reads.take (s.rest.take n)
    rw [hlen] at hreads
    refine ⟨_, [], (List.take_append_drop n s.rest).symm, hreads, fun t hpre hne => ?_⟩
    have hlt : (t.rest.take n).length ≠ n := by
      intro he
      refine hne (List.IsPrefix.eq_of_length hpre ?_)
      have := hpre.length_le
      rw [List.length_take] at he
      omega
    simp only [Decoder.take, hlt, ↓reduceIte]
    exact ⟨_, rfl⟩
  · cases h

theorem packed : Exact Decoder.packed := by
  intro s n s' h
  unfold Decoder.packed at h
  split at h
  · rename_i m rest hr
    cases h
    obtain ⟨bytes, hbytes, hall, hcut⟩ := Packed.readGroups_exact hr
    refine ⟨bytes, [], hbytes, ?_, fun t hpre hne => ?_⟩
    · intro t tail ht
      rw [Decoder.packed, ht, Packed.read, hall]
      rfl
    · rw [Decoder.packed, Packed.read, hcut t.rest hpre hne]
      exact ⟨_, rfl⟩
  · cases h
  · cases h

theorem clear (address length : Nat) : Exact (Decoder.clear address length) := by
  intro s b s' h
  cases h
  refine ⟨[], [(address, length)], rfl, .clear _ _, fun s hpre hne => ?_⟩
  exact absurd (List.prefix_nil.1 hpre) hne

theorem word32 : Exact Decoder.word32 := (take 4).bind fun _ => pure _

theorem delta : Exact Decoder.delta := packed.bind fun _ => pure _

end Exact

end

section

variable {compressed : Bool} {block k n : Nat} {ram : RamBlock} {track : Track}
  {pages : Array Page} {p : Progress}

theorem exact_pageRecord : Exact (pageRecord compressed block ram k track) := by
  refine .bind .packed fun size => ?_
  split
  · exact .bind (.clear _ _) fun _ => .pure _
  · refine .bind .delta fun d => ?_
    split
    · exact .corrupt _
    · exact .pure _

theorem exact_pageRecords : Exact (pageRecords compressed block ram n k track pages) := by
  induction n generalizing k track pages with
  | zero => exact .pure _
  | succ n ih => exact .bind exact_pageRecord fun _ => ih

theorem exact_blockRecord : Exact (blockRecord compressed p) := by
  refine .bind (.take 1) fun length => .bind (.take _) fun name => ?_
  split
  · exact .throw _
  · split
    · exact .throw _
    · split
      · exact .corrupt_bind _ _
      · refine .bind .word32 fun count => ?_
        split
        · exact .corrupt_bind _ _
        · exact .bind exact_pageRecords fun _ => .pure _

theorem exact_blockRecords : Exact (blockRecords compressed n p) := by
  induction n generalizing p with
  | zero => exact .pure _
  | succ n ih => exact .bind exact_blockRecord fun _ => ih

theorem exact_header : Exact header := by
  refine .bind .word32 fun found => ?_
  split
  · exact .throw_bind _ _
  · exact .bind .word32 fun _ => .bind .word32 fun _ => .pure _

theorem exact_index (rams : List RamBlock) : Exact (index rams) := by
  rw [index_eq]
  exact .bind exact_header fun _ => .bind exact_blockRecords fun _ => .pure _

end

section

variable {rams : List RamBlock} {source : Source} {x : Index} {s s' : Scan} {n : Nat}

/-- Passes an index of `n` blocks: its header, and a record for each block. -/
def Walk.index (n : Nat) : Walk (List RecordHead) := do
  let _header ← chop headerLength
  records n

/-- A snapshot that ends with its index: the first eight bytes say where the index starts, and
there is nothing behind its records. -/
structure EndsInIndex (n : Nat) (before bytes : List UInt8) : Prop where
  position : bigEndian ((before ++ bytes).take 8) = before.length
  walk : ∃ heads, Walk.index n bytes = some (heads, [])

/-- An index that is read ends where its records do. -/
theorem walk_of_index (hr : RamBlock.Accepted rams) (h : index rams s = .ok x s') :
    ∃ heads, Walk.index rams.length s.rest = some (heads, s'.rest) := by
  rw [index_eq] at h
  obtain ⟨flags, s₁, hh, h⟩ := bind_ok h
  obtain ⟨p, s₂, hp, h⟩ := bind_ok h
  cases h
  obtain ⟨_, hheader⟩ := chop_of_header hh
  obtain ⟨bs, -, -, hw⟩ := runs_of_blockRecords flags hp hr.nodup
  exact ⟨bs.map recordHeadOf, by simp [Walk.index, bind, StateT.bind, hheader, hw]⟩

theorem opening_of_serves {data : List UInt8} (hs : source.Serves data.toArray)
    (hlen : 8 ≤ data.length) (hle : bigEndian (data.take 8) ≤ data.length) :
    opening? source =
      some { rest := data.drop (bigEndian (data.take 8)), ending := .endOfData } := by
  have hshort : ¬ (data.take 8).length < 8 := by rw [List.length_take]; omega
  unfold opening?
  rw [hs.stream (Nat.zero_le _)]
  simp only [List.drop_zero, hshort, ↓reduceIte]
  rw [hs.stream (by simpa using hle)]

theorem version_of_header {flags : Flags} (h : header s = .ok flags s') :
    ∃ s₁, word32 s = .ok 1 s₁ := by
  obtain ⟨found, s₁, h₁, h⟩ := bind_ok h
  by_cases hv : found = version
  · subst hv
    exact ⟨s₁, h₁⟩
  · rw [if_pos hv] at h
    obtain ⟨_, _, hc, -⟩ := bind_ok h
    exact absurd hc throw_not_ok

/-- The position of an index that is read lies behind the eight bytes that say it: in these there is
no place for the version. -/
theorem eight_le_of_header {data : List UInt8} {flags : Flags} (hlen : 8 ≤ data.length)
    (hrest : s.rest = data.drop (bigEndian (data.take 8))) (h : header s = .ok flags s') :
    8 ≤ bigEndian (data.take 8) := by
  obtain ⟨s₁, hversion⟩ := version_of_header h
  obtain ⟨bytes, hchop, hone⟩ := chop_of_word32 hversion
  rw [hrest] at hchop
  unfold Walk.chop at hchop
  split at hchop
  · rename_i hfour
    obtain ⟨rfl, -⟩ := Prod.mk.inj (Option.some.inj hchop)
    by_contra hle
    have hlt := Nat.lt_of_not_le hle
    match data, hlen with
    | d₀ :: d₁ :: d₂ :: d₃ :: d₄ :: d₅ :: d₆ :: d₇ :: data, _ =>
      generalize hp : bigEndian ((d₀ :: d₁ :: d₂ :: d₃ :: d₄ :: d₅ :: d₆ :: d₇ :: data).take 8) = p
        at *
      simp only [bigEndian, List.take_succ_cons, List.take_zero, List.foldl_cons,
        List.foldl_nil] at hp
      obtain ⟨b₀, b₁, b₂, b₃, hb⟩ := List.length_eq_four.1 hfour
      rw [hb] at hone
      simp only [bigEndian, List.foldl_cons, List.foldl_nil] at hone
      have hb := congrArg (List.map UInt8.toNat) hb
      interval_cases p <;>
        simp only [List.drop_succ_cons, List.drop_zero, List.take_succ_cons, List.take_zero,
          List.map_cons, List.cons.injEq] at hb <;>
        omega
  · cases hchop

variable {before bytes : List UInt8}

theorem length_of_opening {data : List UInt8} {s₀ : Scan} (hs : source.Serves data.toArray)
    (ho : opening? source = some s₀) : 8 ≤ data.length := by
  unfold opening? at ho
  rw [hs.stream (Nat.zero_le _)] at ho
  dsimp only at ho
  split at ho
  · cases ho
  · rename_i hlen
    simp only [List.drop_zero, List.length_take] at hlen
    omega

/-- An index at the end of a snapshot is read from all of its bytes, and only from these. -/
theorem takes_of_endsInIndex (hr : RamBlock.Accepted rams)
    (he : EndsInIndex rams.length before bytes) (hs : source.Serves (before ++ bytes).toArray)
    (hx : (read rams source).outcome = .ok x) :
    8 ≤ before.length ∧ ∃ zeroes, Takes (index rams) bytes zeroes x := by
  rcases read_cases rams source with ⟨cause, hc, -⟩ | ⟨s₀, ho, -, -, hok⟩
  · rw [hx] at hc
    cases hc
  · obtain ⟨s', hindex⟩ := hok x hx
    have hlen := length_of_opening hs ho
    have hdrop : (before ++ bytes).drop (bigEndian ((before ++ bytes).take 8)) = bytes := by
      rw [he.position, List.drop_left]
    have hopening := opening_of_serves hs hlen (by rw [he.position]; simp)
    rw [ho, hdrop, Option.some.injEq] at hopening
    subst hopening
    constructor
    · rw [index_eq] at hindex
      obtain ⟨flags, s₁, hh, -⟩ := bind_ok hindex
      have h8 := eight_le_of_header hlen hdrop.symm hh
      rwa [he.position] at h8
    · obtain ⟨bytes', zeroes, hbytes, htakes⟩ := exact_index rams _ _ _ hindex
      obtain ⟨heads, hwalk⟩ := walk_of_index hr hindex
      obtain ⟨heads', hwalk'⟩ := he.walk
      have hrest : s'.rest = [] := (Prod.mk.inj (Option.some.inj (hwalk.symm.trans hwalk'))).2
      rw [hrest, List.append_nil] at hbytes
      obtain rfl : bytes = bytes' := hbytes
      exact ⟨zeroes, htakes⟩

theorem opening_of_endsInIndex (he : EndsInIndex n before bytes) (h8 : 8 ≤ before.length)
    {rest : List UInt8} (hs : source.Serves (before ++ rest).toArray) :
    opening? source = some { rest, ending := .endOfData } := by
  have htake : (before ++ rest).take 8 = (before ++ bytes).take 8 := by
    rw [List.take_append_of_le_length h8, List.take_append_of_le_length h8]
  have hposition : bigEndian ((before ++ rest).take 8) = before.length := by
    rw [htake, he.position]
  rw [opening_of_serves hs (by simp; omega) (by rw [hposition]; simp), hposition,
    List.drop_left]

/-- An index that breaks off is refused because the snapshot ends. -/
theorem read_cut (hr : RamBlock.Accepted rams) (he : EndsInIndex rams.length before bytes)
    (hs : source.Serves (before ++ bytes).toArray) (hx : (read rams source).outcome = .ok x)
    {cut : List UInt8} (hcut : cut <+: bytes) (hne : cut ≠ bytes) {source' : Source}
    (hs' : source'.Serves (before ++ cut).toArray) :
    (read rams source').outcome = .error (.io .endOfData) := by
  obtain ⟨h8, zeroes, htakes⟩ := takes_of_endsInIndex hr he hs hx
  have ho := opening_of_endsInIndex he h8 hs'
  obtain ⟨s', herror⟩ := htakes.starves { rest := cut, ending := .endOfData } hcut hne
  rw [outcome_read ho, herror]

theorem read_extended (hr : RamBlock.Accepted rams) (he : EndsInIndex rams.length before bytes)
    (hs : source.Serves (before ++ bytes).toArray) (hx : (read rams source).outcome = .ok x)
    {extra : List UInt8} {source' : Source}
    (hs' : source'.Serves (before ++ bytes ++ extra).toArray) :
    (read rams source').outcome = .ok x ∧
      (read rams source').cleared = (read rams source).cleared := by
  obtain ⟨h8, zeroes, htakes⟩ := takes_of_endsInIndex hr he hs hx
  have hread : ∀ (extra : List UInt8) (source : Source),
      source.Serves (before ++ (bytes ++ extra)).toArray →
        (read rams source).outcome = .ok x ∧ (read rams source).cleared = zeroes := by
    intro extra source hs
    have ho := opening_of_endsInIndex he h8 hs
    have hindex := htakes.reads { rest := bytes ++ extra, ending := .endOfData } extra rfl
    rw [outcome_read ho, cleared_of_opening ho, hindex]
    simp [scanOf]
  obtain ⟨hok, hcleared⟩ := hread extra source' (by rwa [List.append_assoc] at hs')
  obtain ⟨-, hcleared₀⟩ := hread [] source (by rwa [List.append_nil])
  exact ⟨hok, hcleared.trans hcleared₀.symm⟩

end
end Index

namespace Loader

variable {W : Type} [Guest W] {config : Config} {zeroChecker : Bytes → Bool} {offersWatch : Bool}
  {source : Source} {guest : W} {threads : Threads} {rams : List RamBlock} {l : Loader W}
  {before bytes : List UInt8} {x : Index}

/--
An index at the end of a snapshot is all that is read. Where any part of it is missing, the start
fails because the data ends; and whatever is added behind it, the same index is found, and the same
memory is cleared.
-/
theorem start_reads_exactly
    (hl : (ofSource config zeroChecker offersWatch source guest threads).registerAll rams = .ok l)
    (he : Index.EndsInIndex rams.length before bytes)
    (hs : source.Serves (before ++ bytes).toArray)
    (hx : (Index.read rams source).outcome = .ok x) :
    (∀ cut, cut <+: bytes → cut ≠ bytes → ∀ source' : Source,
      source'.Serves (before ++ cut).toArray →
        (l.withSource source').start.1 = some (.io .endOfData)) ∧
    ∀ extra (source' : Source), source'.Serves (before ++ bytes ++ extra).toArray →
      ∃ m m', l.opened? = some m ∧ (l.withSource source').opened? = some m' ∧
        m.index = x ∧ m'.index = x ∧ m'.guest = m.guest ∧
        (l.withSource source').start.2.zeroChecks = l.start.2.zeroChecks := by
  obtain ⟨hr, rfl⟩ := registerAll_ok .nil hl
  change RamBlock.Accepted rams at hr
  constructor
  · intro cut hcut hne source' hs'
    have hread := Index.read_cut hr he hs hx hcut hne hs'
    simp only [start, withSource, ofSource, List.nil_append, hread]
  · intro extra source' hs'
    obtain ⟨hread, hcleared⟩ := Index.read_extended hr he hs hx hs'
    refine ⟨.ofIndex x (Index.read rams source).source
      (clear zeroChecker guest (Index.read rams source).cleared).2 config.capacity,
      .ofIndex x (Index.read rams source').source
      (clear zeroChecker guest (Index.read rams source).cleared).2 config.capacity,
      ?_, ?_, rfl, rfl, rfl, ?_⟩
    · simp only [opened?, ofSource, List.nil_append, hx]
    · simp only [opened?, withSource, ofSource, List.nil_append, hread, hcleared]
    · simp only [start, withSource, ofSource, List.nil_append, hx, hread, hcleared, begin]

theorem start_reads_exactly_sample : ∃ l : Loader PlainWatch,
    (ofSource {} (fun _ => false) true (.ofBytes Index.sampleSnapshot)
      { memory := .filled 5 }).registerAll [⟨"a", 16, 4, 2⟩, ⟨"b", 32, 12, 4⟩] = .ok l ∧
    (l.withSource (.ofBytes (Index.sampleSnapshot.extract 0 44))).start.1 =
      some (.io .endOfData) := by
  have ha : RamBlock.Accepted [⟨"a", 16, 4, 2⟩] := .snoc .nil (by decide +kernel)
  have hb : RamBlock.Accepted [⟨"a", 16, 4, 2⟩, ⟨"b", 32, 12, 4⟩] := ha.snoc (by decide +kernel)
  have hl := registerAll_of_accepted (l := ofSource {} (fun _ => false) true
    (.ofBytes Index.sampleSnapshot) ({ memory := .filled 5 } : PlainWatch)) hb rfl
  have he : Index.EndsInIndex 2 (Index.sampleSnapshot.toList.take 12)
      (Index.sampleSnapshot.toList.drop 12) :=
    ⟨by decide +kernel, [⟨[98], 3⟩, ⟨[97], 2⟩], by decide +kernel⟩
  have hs := Source.serves_ofBytes Index.sampleSnapshot
  have hs' := Source.serves_ofBytes (Index.sampleSnapshot.extract 0 44)
  have hok : (Index.read [⟨"a", 16, 4, 2⟩, ⟨"b", 32, 12, 4⟩]
    (.ofBytes Index.sampleSnapshot)).outcome.isOk = true := by decide +kernel
  cases hx : (Index.read [⟨"a", 16, 4, 2⟩, ⟨"b", 32, 12, 4⟩]
      (.ofBytes Index.sampleSnapshot)).outcome with
  | error cause =>
    rw [hx] at hok
    cases hok
  | ok x =>
    refine ⟨_, hl, ?_⟩
    refine (start_reads_exactly hl he (by rwa [List.take_append_drop]) hx).1
      ((Index.sampleSnapshot.toList.drop 12).take 32) (List.take_prefix _ _) (by decide +kernel)
      _ ?_
    rwa [show Index.sampleSnapshot.toList.take 12 ++ (Index.sampleSnapshot.toList.drop 12).take 32 =
      (Index.sampleSnapshot.extract 0 44).toList by decide +kernel]

end Loader
end RamRestore
