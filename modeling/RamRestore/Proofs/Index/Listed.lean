import RamRestore.Proofs.Index.Cleared
import RamRestore.Proofs.Index.Positions

/-! # Pages that are listed as all zero

However the reading of an index ends, the memory that it has noted is that of the pages whose
records gave size zero before the end, and each of these pages was noted once.
-/

namespace RamRestore.Index

open Decoder

def memoryOf (q : RamBlock × Nat) : Nat × Nat := pageRange q.1 q.2

namespace Decoder

variable {α β : Type} {x : Decoder α} {f : α → Decoder β} {a : α} {e : LoadError} {s s' : Scan}
  {P Q : RamBlock × Nat → Prop}

def Quiet (x : Decoder α) : Prop := ∀ s, (scanOf (x s)).cleared = s.cleared

namespace Quiet

theorem bind (hx : Quiet x) (hf : ∀ a, Quiet (f a)) : Quiet (x >>= f) := by
  intro s
  have hxs := hx s
  cases h : x s with
  | ok a s' =>
    rw [h] at hxs
    rw [bind_of_ok h, hf a s']
    exact hxs
  | error e s' =>
    rw [h] at hxs
    rw [bind_of_error h]
    exact hxs

theorem pure (a : α) : Quiet (Pure.pure a) := fun _ => rfl

theorem throw (e : LoadError) : Quiet (MonadExcept.throw e : Decoder α) := fun _ => rfl

theorem take (n : Nat) : Quiet (Decoder.take n) := by
  intro s
  unfold Decoder.take
  dsimp only
  split <;> rfl

theorem word32 : Quiet Decoder.word32 := (take 4).bind fun _ => pure _

theorem packed : Quiet Decoder.packed := by
  intro s
  unfold Decoder.packed
  split <;> rfl

theorem delta : Quiet Decoder.delta := packed.bind fun _ => pure _

theorem header : Quiet Index.header := by
  refine word32.bind fun found => ?_
  split
  · exact (throw _).bind fun _ => word32.bind fun _ => word32.bind fun _ => pure _
  · exact word32.bind fun _ => word32.bind fun _ => pure _

end Quiet

/-- Whatever comes of a reader from here on, the memory that it clears is that of the pages with a
property, and it clears each of them once. -/
def ClearsJust (P : RamBlock × Nat → Prop) (x : Decoder α) (s : Scan) : Prop :=
  ∃ qs : List (RamBlock × Nat),
    (scanOf (x s)).cleared = qs.map memoryOf ++ s.cleared ∧ qs.Nodup ∧ ∀ q, q ∈ qs ↔ P q

namespace ClearsJust

theorem congr (h : ClearsJust P x s) (hPQ : ∀ q, P q ↔ Q q) : ClearsJust Q x s := by
  obtain ⟨qs, hc, hn, hq⟩ := h
  exact ⟨qs, hc, hn, fun q => (hq q).trans (hPQ q)⟩

theorem nothing (h : (scanOf (x s)).cleared = s.cleared) (hP : ∀ q, ¬ P q) : ClearsJust P x s :=
  ⟨[], h, .nil, fun q => ⟨nofun, fun hq => absurd hq (hP q)⟩⟩

/-- What is cleared by one reader is not cleared by the next one as well. -/
theorem bind_ok (h : x s = .ok a s') (hx : ClearsJust P x s) (hf : ClearsJust Q (f a) s')
    (hd : ∀ q, P q → ¬ Q q) : ClearsJust (fun q => P q ∨ Q q) (x >>= f) s := by
  obtain ⟨qs, hc, hn, hq⟩ := hx
  obtain ⟨qs', hc', hn', hq'⟩ := hf
  rw [h] at hc
  refine ⟨qs' ++ qs, ?_, ?_, ?_⟩
  · rw [bind_of_ok h, hc', List.map_append, List.append_assoc]
    exact congrArg _ hc
  · refine List.nodup_append.2 ⟨hn', hn, ?_⟩
    rintro q hmem' _ hmem rfl
    exact hd q ((hq q).1 hmem) ((hq' q).1 hmem')
  · intro q
    rw [List.mem_append, hq, hq', or_comm]

theorem bind_error (h : x s = .error e s') (hx : ClearsJust P x s) : ClearsJust P (x >>= f) s := by
  unfold ClearsJust at hx ⊢
  rw [h] at hx
  rwa [bind_of_error h]

theorem bind_quiet (hx : ClearsJust P x s) (hf : ∀ a, Quiet (f a)) : ClearsJust P (x >>= f) s := by
  cases h : x s with
  | ok a s' =>
    unfold ClearsJust at hx ⊢
    rw [h] at hx
    rwa [bind_of_ok h, hf a s']
  | error e s' => exact bind_error h hx

theorem quiet_bind (hx : Quiet x) (hok : ∀ a s', x s = .ok a s' → ClearsJust P (f a) s')
    (herror : ∀ e s', x s = .error e s' → ∀ q, ¬ P q) : ClearsJust P (x >>= f) s := by
  cases h : x s with
  | ok a s' =>
    have hcleared := hx s
    rw [h] at hcleared
    obtain ⟨qs, hc, hrest⟩ := hok a s' h
    refine ⟨qs, ?_, hrest⟩
    rw [bind_of_ok h, hc]
    exact congrArg _ hcleared
  | error e s' => exact bind_error h (nothing (hx s) (herror e s' h))

end ClearsJust
end Decoder

section

variable {compressed : Bool} {block k n : Nat} {ram : RamBlock} {track : Track}
  {pages : Array Page} {p p' : Progress} {s s' s₁ : Scan} {q : RamBlock × Nat}
  {rams : List RamBlock}

def ZeroNext (s : Scan) : Prop := ∃ s', packed s = .ok 0 s'

theorem clearsJust_pageRecord :
    ClearsJust (fun q => ZeroNext s ∧ q = (ram, k))
      (pageRecord compressed block ram k track) s := by
  refine .quiet_bind .packed (fun size s₁ h₁ => ?_) ?_
  · split
    · subst size
      refine ⟨[(ram, k)], rfl, by simp, fun q => ?_⟩
      rw [List.mem_singleton]
      exact ⟨fun hq => ⟨⟨s₁, h₁⟩, hq⟩, And.right⟩
    · rename_i hs
      refine .nothing ?_ ?_
      · refine (Quiet.delta.bind fun d => ?_) s₁
        split
        · exact .throw _
        · exact .pure _
      · rintro q ⟨⟨s', h⟩, -⟩
        rw [h₁] at h
        cases h
        exact hs rfl
  · rintro e s₁ he q ⟨⟨s', h⟩, -⟩
    rw [he] at h
    cases h

def ZeroAmong (compressed : Bool) (block : Nat) (ram : RamBlock) (n k : Nat) (track : Track)
    (pages : Array Page) (s : Scan) (q : RamBlock × Nat) : Prop :=
  ∃ j < n, ∃ pages' track' s', pageRecords compressed block ram j k track pages s =
    .ok (pages', track') s' ∧ ZeroNext s' ∧ q = (ram, k + j)

theorem zeroAmong_succ : ZeroAmong compressed block ram (n + 1) k track pages s q ↔
    ZeroNext s ∧ q = (ram, k) ∨
      ∃ page track₁ s₁, pageRecord compressed block ram k track s = .ok (page, track₁) s₁ ∧
        ZeroAmong compressed block ram n (k + 1) track₁ (pages.push page) s₁ q := by
  constructor
  · rintro ⟨j, hj, pages', track', s', h, hz, rfl⟩
    cases j with
    | zero =>
      cases h
      exact .inl ⟨hz, rfl⟩
    | succ j =>
      obtain ⟨⟨page, track₁⟩, s₁, h₁, h⟩ := Decoder.bind_ok h
      have hj := Nat.lt_of_succ_lt_succ hj
      refine .inr ⟨page, track₁, s₁, h₁, j, hj, pages', track', s', h, hz, ?_⟩
      rw [Nat.add_assoc, Nat.add_comm 1]
  · rintro (⟨hz, rfl⟩ | ⟨page, track₁, s₁, h₁, j, hj, pages', track', s', h, hz, rfl⟩)
    · exact ⟨0, Nat.zero_lt_succ n, pages, track, s, rfl, hz, rfl⟩
    · refine ⟨j + 1, Nat.succ_lt_succ hj, pages', track', s', ?_, hz, ?_⟩
      · rw [pageRecords, bind_of_ok h₁]
        exact h
      · rw [Nat.add_assoc, Nat.add_comm 1]

theorem clearsJust_pageRecords :
    ClearsJust (ZeroAmong compressed block ram n k track pages s)
      (pageRecords compressed block ram n k track pages) s := by
  induction n generalizing k track pages s with
  | zero => exact .nothing rfl fun q ⟨j, hj, _⟩ => absurd hj (Nat.not_lt_zero j)
  | succ n ih =>
    have hfirst : ClearsJust (fun q => ZeroNext s ∧ q = (ram, k))
        (pageRecord compressed block ram k track) s := clearsJust_pageRecord
    cases h₁ : pageRecord compressed block ram k track s with
    | ok r s₁ =>
      obtain ⟨page, track₁⟩ := r
      refine (ClearsJust.bind_ok h₁ hfirst ih ?_).congr fun q => ?_
      · -- the pages behind this one have higher numbers
        rintro q ⟨-, rfl⟩ ⟨j, -, _, _, _, -, -, hq⟩
        have := (Prod.mk.inj hq).2
        omega
      · simp only [zeroAmong_succ, h₁, EStateM.Result.ok.injEq, Prod.mk.injEq]
        constructor
        · rintro (h | h)
          · exact .inl h
          · exact .inr ⟨page, track₁, s₁, ⟨⟨rfl, rfl⟩, rfl⟩, h⟩
        · rintro (h | ⟨_, _, _, ⟨⟨rfl, rfl⟩, rfl⟩, h⟩)
          · exact .inl h
          · exact .inr h
    | error e s₁ =>
      refine (ClearsJust.bind_error h₁ hfirst).congr fun q => ?_
      simp [zeroAmong_succ, h₁]

def ZeroInRecord (compressed : Bool) (p : Progress) (s : Scan) (q : RamBlock × Nat) : Prop :=
  ∃ name count s₁ block ram, recordHead s = .ok (name, count) s₁ ∧
    p.blocks.findIdx? (·.1.name == name) = some block ∧ p.blocks[block]? = some (ram, none) ∧
    count * ram.pageSize ≤ ram.size ∧
    ZeroAmong compressed block ram count 0 p.track p.pages s₁ q

theorem zeroInRecord_iff {length name : List UInt8} {s₂ : Scan} (h₁ : take 1 s = .ok length s₁)
    (h₂ : take (bigEndian length) s₁ = .ok name s₂) :
    ZeroInRecord compressed p s q ↔ ∃ count s₃ block ram,
      p.blocks.findIdx? (·.1.name == name) = some block ∧ p.blocks[block]? = some (ram, none) ∧
      word32 s₂ = .ok count s₃ ∧ count * ram.pageSize ≤ ram.size ∧
      ZeroAmong compressed block ram count 0 p.track p.pages s₃ q := by
  constructor
  · rintro ⟨name', count, s₃, block, ram, hr, hf, hb, hfit, hz⟩
    obtain ⟨length', s₁', s₂', h₁', h₂', h₃⟩ := recordHead_cases hr
    cases h₁.symm.trans h₁'
    cases h₂.symm.trans h₂'
    exact ⟨count, s₃, block, ram, hf, hb, h₃, hfit, hz⟩
  · rintro ⟨count, s₃, block, ram, hf, hb, h₃, hfit, hz⟩
    exact ⟨name, count, s₃, block, ram, recordHead_eq h₁ h₂ h₃, hf, hb, hfit, hz⟩

theorem clearsJust_run :
    ClearsJust (fun q => ∃ count s', word32 s = .ok count s' ∧ count * ram.pageSize ≤ ram.size ∧
        ZeroAmong compressed block ram count 0 p.track p.pages s' q)
      (do
        let count ← word32
        if ram.size < count * ram.pageSize then corrupt (.tooManyPages ram.id count ram.size)
        let (pages, track) ← pageRecords compressed block ram count 0 p.track p.pages
        return ({ blocks := p.blocks.set block (ram, some (p.pages.size, count)), pages, track } :
          Progress)) s := by
  refine .quiet_bind .word32 (fun count s' hcount => ?_) ?_
  · split
    · rename_i hlarge
      refine .nothing rfl ?_
      rintro q ⟨_, _, hcount', hfit, -⟩
      cases hcount.symm.trans hcount'
      exact absurd hfit (Nat.not_le_of_lt hlarge)
    · rename_i hfit
      refine (clearsJust_pageRecords.bind_quiet fun _ => .pure _).congr fun q => ?_
      constructor
      · exact fun hz => ⟨count, s', hcount, Nat.le_of_not_lt hfit, hz⟩
      · rintro ⟨_, _, hcount', -, hz⟩
        cases hcount.symm.trans hcount'
        exact hz
  · rintro e s' he q ⟨_, _, hcount, -⟩
    cases he.symm.trans hcount

theorem clearsJust_blockRecord :
    ClearsJust (ZeroInRecord compressed p s) (blockRecord compressed p) s := by
  refine .quiet_bind (.take 1) (fun length s₁ h₁ => .quiet_bind (.take _) (fun name s₂ h₂ => ?_) ?_)
    ?_
  · refine ClearsJust.congr ?_ fun q => (zeroInRecord_iff h₁ h₂).symm
    cases hf : p.blocks.findIdx? (·.1.name == name) with
    | none => exact .nothing rfl nofun
    | some block =>
      cases hb : p.blocks[block]? with
      | none =>
        simp only [hb]
        refine .nothing rfl ?_
        rintro q ⟨_, _, _, _, hblock, hram, -⟩
        cases hblock
        cases hb.symm.trans hram
      | some entry =>
        obtain ⟨ram, _ | run⟩ := entry
        · simp only [hb, Option.isSome_none, Bool.false_eq_true, ↓reduceIte]
          refine clearsJust_run.congr fun q => ?_
          constructor
          · rintro ⟨count, s₃, h₃, hfit, hz⟩
            exact ⟨count, s₃, block, ram, rfl, hb, h₃, hfit, hz⟩
          · rintro ⟨count, s₃, _, _, hblock, hram, h₃, hfit, hz⟩
            cases hblock
            cases hb.symm.trans hram
            exact ⟨count, s₃, h₃, hfit, hz⟩
        · simp only [hb]
          refine .nothing rfl ?_
          rintro q ⟨_, _, _, _, hblock, hram, -⟩
          cases hblock
          cases hb.symm.trans hram
  · rintro e s₂ he q ⟨_, _, _, _, _, hr, -⟩
    obtain ⟨_, _, _, h₁', h₂', -⟩ := recordHead_cases hr
    cases h₁.symm.trans h₁'
    cases he.symm.trans h₂'
  · rintro e s₁ he q ⟨_, _, _, _, _, hr, -⟩
    obtain ⟨_, _, _, h₁, -⟩ := recordHead_cases hr
    cases he.symm.trans h₁

theorem ZeroInRecord.mem (h : ZeroInRecord compressed p s q) : (q.1, none) ∈ p.blocks := by
  obtain ⟨_, _, _, _, ram, -, -, hb, -, _, -, _, _, _, -, -, rfl⟩ := h
  exact List.mem_of_getElem? hb

theorem ZeroInRecord.mem_of_ok (h : ZeroInRecord compressed p s q)
    (hok : blockRecord compressed p s = .ok p' s') : ∃ run, (q.1, some run) ∈ p'.blocks := by
  obtain ⟨length, name, s₁, s₂, s₃, block, ram, count, pages, track, h₁, h₂, hf, hb, -, -, -,
    rfl⟩ := blockRecord_cases hok
  obtain ⟨_, _, block', ram', hf', hb', -, -, _, -, _, _, _, -, -, rfl⟩ :=
    (zeroInRecord_iff h₁ h₂).1 h
  cases hf.symm.trans hf'
  cases hb.symm.trans hb'
  exact ⟨_, List.mem_set (List.getElem?_eq_some_iff.1 hb).1 _⟩

def ZeroInRecords (compressed : Bool) (n : Nat) (p : Progress) (s : Scan) (q : RamBlock × Nat) :
    Prop :=
  ∃ j < n, ∃ p' s', blockRecords compressed j p s = .ok p' s' ∧ ZeroInRecord compressed p' s' q

theorem zeroInRecords_succ : ZeroInRecords compressed (n + 1) p s q ↔
    ZeroInRecord compressed p s q ∨ ∃ p₁ s₁, blockRecord compressed p s = .ok p₁ s₁ ∧
      ZeroInRecords compressed n p₁ s₁ q := by
  constructor
  · rintro ⟨j, hj, p', s', h, hz⟩
    cases j with
    | zero =>
      cases h
      exact .inl hz
    | succ j =>
      obtain ⟨p₁, s₁, h₁, h⟩ := Decoder.bind_ok h
      exact .inr ⟨p₁, s₁, h₁, j, Nat.lt_of_succ_lt_succ hj, p', s', h, hz⟩
  · rintro (hz | ⟨p₁, s₁, h₁, j, hj, p', s', h, hz⟩)
    · exact ⟨0, Nat.zero_lt_succ n, p, s, rfl, hz⟩
    · refine ⟨j + 1, Nat.succ_lt_succ hj, p', s', ?_, hz⟩
      rw [blockRecords, bind_of_ok h₁]
      exact h

theorem clearsJust_blockRecords (hr : RamBlock.Accepted rams) (hp : p.Sound compressed rams) :
    ClearsJust (ZeroInRecords compressed n p s) (blockRecords compressed n p) s := by
  induction n generalizing p s with
  | zero => exact .nothing rfl fun q ⟨j, hj, _⟩ => absurd hj (Nat.not_lt_zero j)
  | succ n ih =>
    cases h₁ : blockRecord compressed p s with
    | ok p₁ s₁ =>
      have hp₁ := blockRecord_ok hp h₁
      refine (ClearsJust.bind_ok h₁ clearsJust_blockRecord (ih hp₁) ?_).congr fun q => ?_
      · -- a block that has its run is not named again
        rintro q hq ⟨j, -, p', s', h, hz⟩
        obtain ⟨run, hrun⟩ := hq.mem_of_ok h₁
        have hf := follows_of_blockRecords .start h
        have hblocks : (p'.blocks.map (·.1)).Nodup := (hf.sound hp₁).rams ▸ hr.nodup
        cases List.inj_on_of_nodup_map hblocks hz.mem (hf.mem_of_mem hrun) rfl
      · simp only [zeroInRecords_succ, h₁, EStateM.Result.ok.injEq]
        constructor
        · rintro (h | h)
          · exact .inl h
          · exact .inr ⟨p₁, s₁, ⟨rfl, rfl⟩, h⟩
        · rintro (h | ⟨_, _, ⟨rfl, rfl⟩, h⟩)
          · exact .inl h
          · exact .inr h
    | error e s₁ =>
      refine (ClearsJust.bind_error h₁ clearsJust_blockRecord).congr fun q => ?_
      simp [zeroInRecords_succ, h₁]

theorem clearsJust_index (hr : RamBlock.Accepted rams) :
    ClearsJust (fun q => ∃ flags s₁, header s = .ok flags s₁ ∧
      ZeroInRecords (flags.contains .compressedPages) rams.length (.start rams) s₁ q)
      (index rams) s := by
  rw [index_eq]
  refine .quiet_bind .header (fun flags s₁ hh => ?_) ?_
  · have hp := Progress.sound_start (flags.contains .compressedPages) rams ⟨firstPosition, 0⟩
    refine ((clearsJust_blockRecords hr hp).bind_quiet fun _ => .pure _).congr fun q => ?_
    constructor
    · exact fun hz => ⟨flags, s₁, hh, hz⟩
    · rintro ⟨_, _, hh', hz⟩
      cases hh.symm.trans hh'
      exact hz
  · rintro e s₁ he q ⟨_, _, hh, -⟩
    cases he.symm.trans hh

/-- Reading the index of a source arrives at a record that gives this page size zero. -/
def ListedZero (rams : List RamBlock) (source : Source) (q : RamBlock × Nat) : Prop :=
  ∃ r, Arrives rams source r ∧ ZeroNext r.scan ∧ q = (r.ram, r.k)

variable {source : Source}

theorem listedZero_iff {s₀ : Scan} (ho : opening? source = some s₀) :
    ListedZero rams source q ↔ ∃ flags s₁, header s₀ = .ok flags s₁ ∧
      ZeroInRecords (flags.contains .compressedPages) rams.length (.start rams) s₁ q := by
  constructor
  · rintro ⟨r, ha, hz, rfl⟩
    cases ha with
    | @record _ s₁ s₂ s₃ s₄ flags n count block k p name ram pages track ho' hh hn hp hr hf hb hfit
        hk hpages =>
      cases ho.symm.trans ho'
      exact ⟨flags, s₁, hh, n, hn, p, s₂, hp, name, count, s₃, block, ram, hr, hf, hb, hfit, k, hk,
        pages, track, s₄, hpages, hz, by rw [Nat.zero_add]⟩
  · rintro ⟨flags, s₁, hh, n, hn, p, s₂, hp, name, count, s₃, block, ram, hr, hf, hb, hfit, k, hk,
      pages, track, s₄, hpages, hz, rfl⟩
    rw [Nat.zero_add]
    exact ⟨_, .record ho hh hn hp hr hf hb hfit hk hpages, hz, rfl⟩

theorem cleared_of_opening {s₀ : Scan} (ho : opening? source = some s₀) :
    (read rams source).cleared = (scanOf (index rams s₀)).cleared.reverse := by
  have hstream : ∀ offset, (source.afterStream 0 8).stream offset = source.stream offset :=
    fun offset => (source.sameAnswers_afterStream 0 8).stream offset
  unfold opening? at ho
  unfold read
  simp only [hstream] at ho ⊢
  split at ho
  · cases ho
  · rename_i hlen
    cases ho
    simp only [hlen, ↓reduceIte, parse]
    split <;> simp [*, scanOf]

theorem cleared_of_unopened (ho : opening? source = none) : (read rams source).cleared = [] := by
  unfold opening? at ho
  unfold read
  dsimp only at ho ⊢
  split at ho
  · rename_i hlen
    rw [if_pos hlen]
  · cases ho

theorem cleared_opening {s₀ : Scan} (ho : opening? source = some s₀) : s₀.cleared = [] := by
  unfold opening? at ho
  dsimp only at ho
  split at ho
  · cases ho
  · cases ho
    rfl

/-- What is noted is the memory of the pages that were listed as all zero, of each of them once. -/
theorem cleared_read (hr : RamBlock.Accepted rams) (source : Source) :
    ∃ qs : List (RamBlock × Nat), (read rams source).cleared = qs.map memoryOf ∧ qs.Nodup ∧
      ∀ q, q ∈ qs ↔ ListedZero rams source q := by
  cases ho : opening? source with
  | none =>
    refine ⟨[], cleared_of_unopened ho, .nil, fun q => ⟨nofun, ?_⟩⟩
    rintro ⟨r, ⟨ho', -⟩, -⟩
    cases ho.symm.trans ho'
  | some s₀ =>
    obtain ⟨qs, hc, hn, hq⟩ := clearsJust_index hr (s := s₀)
    rw [cleared_opening ho, List.append_nil] at hc
    refine ⟨qs.reverse, ?_, List.nodup_reverse.2 hn, fun q => ?_⟩
    · rw [cleared_of_opening ho, hc, List.map_reverse]
    · rw [List.mem_reverse, hq, listedZero_iff ho]

theorem ListedZero.inside (h : ListedZero rams source q) :
    q.1 ∈ rams ∧ (q.2 + 1) * q.1.pageSize ≤ q.1.size := by
  obtain ⟨r, ha, -, rfl⟩ := h
  cases ha with
  | @record _ _ _ _ _ flags n count block k p name ram pages track _ _ _ hp _ _ hb hfit hk =>
    have hs := blockRecords_ok (Progress.sound_start _ rams _) hp
    exact ⟨hs.rams ▸ List.mem_map_of_mem (List.mem_of_getElem? hb),
      Nat.le_trans (Nat.mul_le_mul_right _ hk) hfit⟩

theorem ListedZero.memoryOf_eq (hr : RamBlock.Accepted rams)
    (hin : ∀ b ∈ rams, b.start + b.size ≤ word64Count) (h : ListedZero rams source q) :
    memoryOf q = (q.1.start + q.2 * q.1.pageSize, q.1.pageSize) := by
  obtain ⟨hmem, hfit⟩ := h.inside
  have hpos := (isPageSize_bounds (hr.isPageSize hmem)).1
  rw [memoryOf, pageRange, RamBlock.pageAddress_eq hpos (hin _ hmem) hfit]

theorem not_arrives_of_header {r : Spot}
    (h : opening? source = none ∨ ∃ s₀ e s, opening? source = some s₀ ∧ header s₀ = .error e s) :
    ¬ Arrives rams source r := by
  rintro ⟨ho, hh⟩
  rcases h with hn | ⟨s₀, e, s, ho', he⟩
  · cases hn.symm.trans ho
  · cases ho.symm.trans ho'
    cases he.symm.trans hh

end
end RamRestore.Index
