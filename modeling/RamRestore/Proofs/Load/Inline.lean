import RamRestore.Proofs.Load.Held

/-! # Reading pages in order

Without a pool an eager load reads the pages one after the other, by their positions in the file.
It stops at the first page that cannot be loaded: the pages before it are filled, and the pages
behind it were not touched.
-/

namespace RamRestore

namespace Index

/-- Why page `i` cannot be loaded: its read fails, the data ends before it, or it cannot be
unpacked. -/
inductive Spoils (x : Index) (s : Source) (i : Nat) : LoadError → Prop
  | read {got : Bytes} {cause : IoError}
      (h : ({ position := (x.page i).position, size := (x.page i).size } : Transfer).result s =
        (got, .failed cause)) : Spoils x s i (.io cause)
  | short {got : Bytes}
      (h : ({ position := (x.page i).position, size := (x.page i).size } : Transfer).result s =
        (got, .short)) :
      Spoils x s i (.shortRead (x.address i) (x.page i).position got.size (x.page i).size)
  | unpack {got : Bytes} {cause : UnpackError}
      (h : ({ position := (x.page i).position, size := (x.page i).size } : Transfer).result s =
        (got, .full))
      (hz : x.compressed = true)
      (hu : RamRestore.unpack (x.pageSize i) got.toList = .error cause) :
      Spoils x s i (.unpack (x.address i) cause)

theorem not_spoils_of_reply {x : Index} {s : Source} {i : Nat} {p : Page} {got : Bytes}
    (hp : x.page i = p) (hz : 0 < p.size) (hr : s.reply p.position p.size = .ok got)
    (hgot : got.size = p.size)
    (hu : x.compressed = true → ∃ c, RamRestore.unpack (x.pageSize i) got.toList = .ok c)
    (cause : LoadError) : ¬ x.Spoils s i cause := by
  subst hp
  have hfull : ({ position := (x.page i).position, size := (x.page i).size } : Transfer).result s =
      (#[] ++ got, .full) :=
    Transfer.result_of_reply hz hr (by rw [hgot]; exact Nat.le_add_left _ _)
  rw [Array.empty_append] at hfull
  intro hs
  cases hs with
  | read h | short h => cases hfull.symm.trans h
  | unpack h hz he =>
    obtain ⟨c, hc⟩ := hu hz
    cases hfull.symm.trans h
    cases hc.symm.trans he

theorem spoils_of_end {x : Index} {s : Source} {i : Nat} {p : Page} (hp : x.page i = p)
    (hz : 0 < p.size) (hr : s.reply p.position p.size = .ok #[]) :
    x.Spoils s i (.shortRead (x.address i) p.position 0 p.size) := by
  subst hp
  exact .short (Transfer.result_of_end hz hr)

theorem Spoils.congr {x : Index} {s s' : Source} {i : Nat} {cause : LoadError}
    (h : Source.SameAnswers s s') (hs : x.Spoils s i cause) : x.Spoils s' i cause := by
  cases hs with
  | read hr => exact .read ((Transfer.result_congr h _).trans hr)
  | short hr => exact .short ((Transfer.result_congr h _).trans hr)
  | unpack hr hz hu => exact .unpack ((Transfer.result_congr h _).trans hr) hz hu

end Index

namespace Load

variable {W : Type}

section

variable {l : Load W} {i : Nat}

/-- Reading a page comes to a failure just where the page is spoilt. -/
theorem yield_eq_error_iff {cause : LoadError} :
    l.yield i = .error cause ↔ l.index.Spoils l.source i cause := by
  cases hr : (l.transfer i).result l.source with
  | mk got stop =>
    rw [yield_of_result hr]
    constructor
    · intro h
      cases stop with
      | failed e =>
        cases h
        exact .read hr
      | short =>
        cases h
        exact .short hr
      | full =>
        rw [contents_full, decode] at h
        split at h
        · split at h
          · cases h
          · rename_i hu
            cases h
            exact .unpack hr ‹_› hu
        · cases h
    · intro h
      cases h with
      | read h | short h =>
        cases hr.symm.trans h
        rfl
      | unpack h hz hu =>
        cases hr.symm.trans h
        simp only [contents_full, decode, hz, ↓reduceIte, hu]

theorem yield_ok_iff : (∃ c, l.yield i = .ok c) ↔ ∀ cause, ¬ l.index.Spoils l.source i cause := by
  simp only [← yield_eq_error_iff]
  cases l.yield i <;> simp

end

structure Took (l : Load W) (is : List Nat) (s : PageState) (l' : Load W) : Prop where
  index : l'.index = l.index
  source : Source.SameAnswers l.source l'.source
  begun : l'.begun.toList = l.begun.toList ++ is
  state : ∀ j, l'.state j = if j ∈ is then s else l.state j

theorem Took.refl (l : Load W) (s : PageState) : Took l [] s l :=
  ⟨rfl, .refl _, (List.append_nil _).symm, fun _ => by simp⟩

theorem Took.trans {l l₁ l₂ : Load W} {is js : List Nat} {s : PageState} (h : Took l is s l₁)
    (h' : Took l₁ js s l₂) : Took l (is ++ js) s l₂ where
  index := h'.index.trans h.index
  source := h.source.trans h'.source
  begun := by rw [h'.begun, h.begun, List.append_assoc]
  state j := by
    rw [h'.state, h.state]
    by_cases hi : j ∈ is <;> by_cases hj : j ∈ js <;> simp [hi, hj]

theorem Took.record {l m : Load W} {is : List Nat} {s : PageState} (h : Took l is s m)
    (cause : LoadError) : Took l is s (m.record cause) :=
  ⟨h.index, h.source, h.begun, h.state⟩

variable [Guest W] {l l' : Load W} {i : Nat} {is : List Nat}

theorem took_of_samePages {r : InPlace} {s : PageState} {w : W} {m : Load W}
    (h : l.readInPlace i = (r, m)) (hp : SamePages (((l.claim i).onGuest w).setState i s) m) :
    Took l [i] s m where
  index := hp.index
  source := by
    have := sameAnswers_readInPlace l i
    rwa [h] at this
  begun := by
    rw [hp.begun]
    exact Array.toList_push
  state j := by
    rw [hp.state, state_claim_setState]
    simp [eq_comm]

/-- Unpacking what was read of page `i` comes to what the page comes to. -/
theorem unpackInPlace_cases (data : Bytes) {k : Load W} (hz : k.index.compressed = true) :
    ∃ guest, (∃ page, k.decode i data = .ok page ∧ k.unpackInPlace i data =
        (none, ((k.setState i .filling).onGuest guest).setState i .filled)) ∨
      ∃ cause, k.decode i data = .error cause ∧ k.unpackInPlace i data =
        (some cause, ((k.setState i .filling).onGuest guest).setState i .error) := by
  have hindex : (k.setState i .filling).index = k.index := rfl
  unfold unpackInPlace decode
  simp only [hz, ↓reduceIte, hindex]
  cases unpack (k.index.pageSize i) data.toList with
  | ok page => exact ⟨_, .inl ⟨page, rfl, rfl⟩⟩
  | error cause => exact ⟨_, .inr ⟨_, rfl, rfl⟩⟩

theorem loadInline_cons (hn : l.failure = none) (he : l.state i = .empty) (is : List Nat) :
    (∃ c m, l.yield i = .ok c ∧ Took l [i] .filled m ∧ m.failure = none ∧
        l.loadInline (i :: is) = m.loadInline is) ∨
      ∃ cause m, l.yield i = .error cause ∧ Took l [i] .error m ∧ m.failure = some cause ∧
        l.loadInline (i :: is) = (some (.pageFailed (l.index.address i)), m) := by
  rw [loadInline, if_neg (by simp [hn])]
  cases h : l.readInPlace i with
  | mk r k =>
    obtain ⟨hf, ⟨got, stop, cause, guest, rfl, hr, hc, hp⟩ |
      ⟨data, hr, ⟨rfl, hz, hp⟩ | ⟨rfl, hc, hp⟩⟩⟩ := readInPlace_cases he h
    · have ht := took_of_samePages h hp
      refine .inr ⟨cause, _, (yield_of_result hr).trans hc, ht.record cause, ?_, ?_⟩
      · simp [record, hf, hn]
      · simp only [failPage, ht.index]
    · have ht := took_of_samePages (w := l.guest) h hp
      have hy : l.yield i = k.decode i data := by
        rw [yield_of_result hr, contents_full]
        simp only [decode, ht.index]
      have htook : ∀ guest s,
          Took l [i] s (((k.setState i .filling).onGuest guest).setState i s) := by
        refine fun guest s => ⟨ht.index, ht.source, ht.begun, fun j => ?_⟩
        rw [state_setState_setState, ht.state]
        by_cases hij : i = j <;> simp [hij, eq_comm]
      obtain ⟨guest, ⟨page, hd, hu⟩ | ⟨cause, hd, hu⟩⟩ :=
        unpackInPlace_cases (i := i) data (ht.index ▸ hz)
      · refine .inl ⟨page, _, hy.trans hd, htook guest _, hf.trans hn, ?_⟩
        simp only [hu]
      · refine .inr ⟨cause, _, hy.trans hd, (htook guest _).record cause, ?_, ?_⟩
        · have hk : k.failure = none := hf.trans hn
          change some (k.failure.getD cause) = some cause
          rw [hk]
          rfl
        · simp only [hu, failPage]
          change (some (LoadError.pageFailed (k.index.address i)), _) = _
          rw [ht.index]
    · have ht := took_of_samePages h hp
      exact .inl ⟨data, k, (yield_of_result hr).trans hc, ht, hf.trans hn, rfl⟩

theorem loadInline_append {done : List Nat} (hn : l.failure = none)
    (he : ∀ i ∈ done, l.state i = .empty) (hd : done.Nodup)
    (hy : ∀ i ∈ done, ∃ c, l.yield i = .ok c) (rest : List Nat) :
    ∃ m, Took l done .filled m ∧ m.failure = none ∧
      l.loadInline (done ++ rest) = m.loadInline rest := by
  induction done generalizing l with
  | nil => exact ⟨l, .refl l _, hn, rfl⟩
  | cons i done ih =>
    obtain ⟨hid, hd⟩ := List.nodup_cons.1 hd
    obtain ⟨c, hc⟩ := hy i (.head _)
    obtain ⟨_, m, -, ht, hm, hl⟩ | ⟨cause, _, hcause, -⟩ :=
      loadInline_cons hn (he i (.head _)) (done ++ rest)
    · obtain ⟨m', ht', hm', hl'⟩ := ih hm
        (fun j hj => by
          have hij : j ≠ i := ne_of_mem_of_not_mem hj hid
          rw [ht.state, if_neg (by simp [hij])]
          exact he j (.tail _ hj)) hd
        (fun j hj => by
          rw [yield_congr ht.index ht.source]
          exact hy j (.tail _ hj))
      exact ⟨m', ht.trans ht', hm', hl.trans hl'⟩
    · cases hc.symm.trans hcause

omit [Guest W] in
theorem Fresh.empty_of_inFileOrder (h : l.Fresh) {order : List Nat}
    (ho : l.index.InFileOrder order) : ∀ i ∈ order, l.state i = .empty :=
  fun _ hi => h.empty_of_stored (ho.mem_iff.1 hi)

theorem Fresh.loadInline_through (h : l.Fresh) {order : List Nat} (ho : l.index.InFileOrder order)
    (hy : ∀ i ∈ order, ∃ c, l.yield i = .ok c) :
    ∃ m, l.loadInline order = (none, m) ∧ Took l order .filled m ∧ m.failure = none := by
  obtain ⟨m, ht, hm, hl⟩ := loadInline_append h.failure (h.empty_of_inFileOrder ho) ho.nodup hy []
  rw [List.append_nil, loadInline] at hl
  exact ⟨m, hl, ht, hm⟩

theorem Fresh.loadInline_stops (h : l.Fresh) {done rest : List Nat} {cause : LoadError}
    (ho : l.index.InFileOrder (done ++ i :: rest)) (hy : ∀ i ∈ done, ∃ c, l.yield i = .ok c)
    (hc : l.yield i = .error cause) :
    ∃ m k, l.loadInline (done ++ i :: rest) = (some (.pageFailed (l.index.address i)), k) ∧
      Took l done .filled m ∧ Took m [i] .error k ∧ k.failure = some cause := by
  have he := h.empty_of_inFileOrder ho
  have hn := ho.nodup
  obtain ⟨hdone, hrest, hdisjoint⟩ := List.nodup_append.1 hn
  obtain ⟨m, ht, hm, hl⟩ :=
    loadInline_append h.failure (fun j hj => he j (by simp [hj])) hdone hy (i :: rest)
  have hi : m.state i = .empty := by
    rw [ht.state, if_neg fun hi => hdisjoint i hi i (.head _) rfl]
    exact he i (by simp)
  have hyield : m.yield i = .error cause := by rwa [yield_congr ht.index ht.source]
  obtain ⟨_, _, hok, -⟩ | ⟨cause', k, hcause, ht', hk, hl'⟩ := loadInline_cons hm hi rest
  · cases hyield.symm.trans hok
  · cases hyield.symm.trans hcause
    exact ⟨m, k, by rw [hl, hl', ht.index], ht, ht', hk⟩

end Load

namespace Loader

variable {W : Type} [Guest W] {l : Loader W} {m₀ : Load W}

open LawfulGuest Load

variable [LawfulGuest W]

/-- What an eager load has come to where every page could be read. -/
structure ReadsThrough (l : Loader W) (failure : Option LoadError) (m : Load W)
    (order : List Nat) : Prop where
  returned : failure = none
  error : m.failure = none
  begun : m.begun.toList = order
  filled : ∀ i < m.index.pages.size, m.state i = .filled ∧
    m.index.Holds l.source.data l.zeroChecker (byte m.guest) i

/-- What an eager load has come to where page `j` was the first one that could not be read. -/
structure StopsAt (l : Loader W) (failure : Option LoadError) (m : Load W) (done : List Nat)
    (j : Nat) (rest : List Nat) (cause : LoadError) : Prop where
  returned : failure = some (.pageFailed (m.index.address j))
  error : m.failure = some cause
  begun : m.begun.toList = done ++ [j]
  filled : ∀ i ∈ done, m.state i = .filled ∧
    m.index.Holds l.source.data l.zeroChecker (byte m.guest) i
  failed : m.state j = .error
  untouched : ∀ i ∈ rest, m.state i = .empty ∧ ∀ k < m.index.pageSize i,
    byte m.guest (m.index.address i + k) = byte l.guest (m.index.address i + k)

/-- However far the pages were read, those that are filled hold their contents, and the memory of
those that are empty is as it was. -/
theorem memory_of_sweeps (ho : l.opened? = some m₀) (hb : RamBlock.Disjoint l.blocks)
    {order : List Nat} (hi : m₀.index.InFileOrder order) {x : Sweep W}
    (hs : Sweeps ⟨m₀, order, 0⟩ x) :
    x.load.index = m₀.index ∧ Orderly ⟨x.load, 0⟩ ∧ ∀ i < m₀.index.pages.size,
      (x.load.state i = .filled →
        m₀.index.Holds l.source.data l.zeroChecker (byte x.load.guest) i) ∧
      (x.load.state i = .empty → ∀ k < m₀.index.pageSize i,
        byte x.load.guest (m₀.index.address i + k) = byte l.guest (m₀.index.address i + k)) := by
  obtain ⟨hf, hblocks⟩ := opened_fresh ho
  have hb' : RamBlock.Disjoint (m₀.index.blocks.map (·.ram)) := hblocks ▸ hb
  obtain ⟨hindex, ht, hsteady⟩ := hf.steady_sweeps hb' hi hs
  have hdata := (opened_source ho).data
  -- an address of one page is no address of another
  have hsame : ∀ {i j k}, i < m₀.index.pages.size → k < m₀.index.pageSize i →
      j < m₀.index.pages.size → m₀.index.Covers j (m₀.index.address i + k) → i = j :=
    fun hi hk hj hc => Index.covers_unique hf.wellFormed hb' hi hj
      ⟨Nat.le_add_right _ _, Nat.add_lt_add_left hk _⟩ hc
  refine ⟨hindex, ht.orderly, fun i hlt => ⟨fun hfill => ?_, fun hempty k hk => ?_⟩⟩
  · cases hz : (m₀.index.page i).isZero with
    | true =>
      refine (holds_of_opened ho hb l.source.data hlt hz).congr fun k hk => ?_
      refine hsteady.kept _ fun j hj _ => ?_
      rw [hindex] at hj ⊢
      exact Index.not_covers_zero hf.wellFormed hb' hlt hz hk hj
    | false =>
      have hst : i ∈ m₀.index.stored := Index.mem_stored.2 ⟨hlt, hz⟩
      have hh := hsteady.filled i
      rw [hindex, hdata] at hh
      rw [Index.Holds, if_neg (by simp [hz])]
      exact hh hst hfill
  · have hz : (m₀.index.page i).isZero = false := by
      cases hz : (m₀.index.page i).isZero with
      | false => rfl
      | true =>
        have := ht.orderly.zero i (hindex ▸ hlt) (hindex ▸ hz)
        simp [hempty] at this
    refine (hsteady.kept _ fun j hj hne hc => ?_).trans
      (byte_opened ho fun j hjlt hjz hc => ?_)
    · rw [hindex] at hj hc
      obtain rfl := hsame hlt hk (Index.mem_stored.1 hj).1 hc
      exact hne hempty
    · obtain rfl := hsame hlt hk hjlt hc
      simp [hz] at hjz

section

variable {returned failure : Option LoadError} {m k : Load W} {order : List Nat}

theorem readsThrough_of_loadInline (ho : l.opened? = some m₀) (hb : RamBlock.Disjoint l.blocks)
    (hi : m₀.index.InFileOrder order) (hrun : m₀.loadInline order = (returned, k))
    (hc : k.conclude returned = (failure, m)) (h : ∀ i ∈ order, ∃ c, m₀.yield i = .ok c) :
    ReadsThrough l failure m order := by
  obtain ⟨hf, -⟩ := opened_fresh ho
  obtain ⟨rest, hs, -⟩ := loadInline_sweeps hrun
  obtain ⟨hindex, hord, hmem⟩ := memory_of_sweeps ho hb hi hs
  obtain ⟨k', hrun', ht, hk⟩ := hf.loadInline_through hi h
  cases hrun.symm.trans hrun'
  cases hc
  have hfilled : ∀ i < m₀.index.pages.size, k.state i = .filled := by
    intro i hlt
    rw [ht.state]
    split
    · rfl
    · rename_i hno
      refine (hf.empty_or_filled i).resolve_left fun he => hno ?_
      exact hi.mem_iff.2 (hf.stored_of_empty hlt he)
  constructor
  · have hnone : k.firstFailed? = none := by
      refine (firstFailed_eq_none hord).2 fun i he => ?_
      rw [ht.state] at he
      split at he
      · cases he
      · rcases hf.empty_or_filled i with hs | hs <;> simp [hs] at he
    rw [hnone]
    rfl
  · exact hk
  · exact ht.begun.trans (by rw [hf.begun]; rfl)
  · intro i hlt
    have hlt' : i < m₀.index.pages.size := hindex ▸ hlt
    refine ⟨hfilled i hlt', ?_⟩
    have := (hmem i hlt').1 (hfilled i hlt')
    rwa [← hindex] at this

theorem stopsAt_of_loadInline (ho : l.opened? = some m₀) (hb : RamBlock.Disjoint l.blocks)
    {done rest : List Nat} {j : Nat} {cause : LoadError}
    (hi : m₀.index.InFileOrder (done ++ j :: rest))
    (hrun : m₀.loadInline (done ++ j :: rest) = (returned, k))
    (hc : k.conclude returned = (failure, m)) (h : ∀ i ∈ done, ∃ c, m₀.yield i = .ok c)
    (hbad : m₀.yield j = .error cause) : StopsAt l failure m done j rest cause := by
  obtain ⟨hf, -⟩ := opened_fresh ho
  obtain ⟨_, hs, -⟩ := loadInline_sweeps hrun
  obtain ⟨hindex, -, hmem⟩ := memory_of_sweeps ho hb hi hs
  obtain ⟨k', k'', hrun', ht, ht', hk⟩ := hf.loadInline_stops hi h hbad
  cases hrun.symm.trans hrun'
  cases hc
  have he := hf.empty_of_inFileOrder hi
  have hstored : ∀ i ∈ done ++ j :: rest, i < m₀.index.pages.size :=
    fun i hmem => (Index.mem_stored.1 (hi.mem_iff.1 hmem)).1
  obtain ⟨-, hrest, hdisjoint⟩ := List.nodup_append.1 hi.nodup
  constructor
  · exact congrArg (fun x : Index => some (LoadError.pageFailed (x.address j))) hindex.symm
  · exact hk
  · refine ht'.begun.trans ?_
    rw [ht.begun, hf.begun]
    rfl
  · intro i hd
    have hfill : k.state i = .filled := by
      have hij : i ≠ j := hdisjoint i hd j (.head _)
      rw [ht'.state, if_neg (by simp [hij]), ht.state, if_pos hd]
    refine ⟨hfill, ?_⟩
    have := (hmem i (hstored i (by simp [hd]))).1 hfill
    rwa [← hindex] at this
  · exact (ht'.state j).trans (if_pos (by simp))
  · intro i hr
    have hempty : k.state i = .empty := by
      have hij : i ≠ j := fun h => (List.nodup_cons.1 hrest).1 (h ▸ hr)
      have hid : i ∉ done := fun h => hdisjoint i h i (.tail _ hr) rfl
      rw [ht'.state, if_neg (by simp [hij]), ht.state, if_neg hid]
      exact he i (by simp [hr])
    refine ⟨hempty, ?_⟩
    have := (hmem i (hstored i (by simp [hr]))).2 hempty
    rwa [← hindex] at this

theorem stopsAt_of_loadsInOrder (ho : l.opened? = some m₀) (hb : RamBlock.Disjoint l.blocks)
    (hp : m₀.index.compressed = false ∨ l.config.decompressThreads = some 0)
    {done rest : List Nat} {j : Nat} {cause : LoadError}
    (h : m₀.LoadsInOrder l.config l.threads (done ++ j :: rest) failure m)
    (hdone : ∀ i ∈ done, ∀ cause, ¬ m₀.index.Spoils l.source i cause)
    (hbad : m₀.index.Spoils l.source j cause) : StopsAt l failure m done j rest cause := by
  have hsource := opened_source ho
  obtain ⟨hi, -, returned, k, hr, hc⟩ := h
  rw [workers?_eq_none hp] at hr
  obtain ⟨hrun⟩ := hr
  refine stopsAt_of_loadInline ho hb hi hrun hc (fun i hd => ?_)
    (yield_eq_error_iff.2 (hbad.congr hsource))
  exact yield_ok_iff.2 fun cause hs => hdone i hd cause (hs.congr hsource.symm)

end

/-- Without a pool an eager load fills the pages by their positions, up to the first one that cannot
be read. The start is such a load. It brings the pages at one position into some order, and the load
goes on accordingly whatever that order is. -/
theorem inline_stops_at_first_bad_page (ho : l.opened? = some m₀) (hb : RamBlock.Apart l.blocks)
    (hl : l.isLazy m₀.guest = false)
    (hp : m₀.index.compressed = false ∨ l.config.decompressThreads = some 0) :
    (∃ order m, l.start.2.load? = some m ∧
      m₀.LoadsInOrder l.config l.threads order l.start.1 m) ∧
    ∀ order failure m, m₀.LoadsInOrder l.config l.threads order failure m →
      m.index = m₀.index ∧ m.complete = true ∧
      ((∀ i ∈ order, ∀ cause, ¬ m₀.index.Spoils l.source i cause) →
        ReadsThrough l failure m order) ∧
      ∀ done j rest cause, order = done ++ j :: rest →
        (∀ i ∈ done, ∀ cause, ¬ m₀.index.Spoils l.source i cause) →
        m₀.index.Spoils l.source j cause → StopsAt l failure m done j rest cause := by
  constructor
  · obtain ⟨m, hm⟩ := exists_load_of_opened ho
    exact ⟨_, m, hm, loadsInOrder_start ho hl (not_lacksPool_of_inline hp) hm⟩
  · intro order failure m h
    obtain ⟨hi, -, returned, k, hr, hc⟩ := id h
    rw [workers?_eq_none hp] at hr
    obtain ⟨hrun⟩ := hr
    obtain ⟨rest, hs, -⟩ := loadInline_sweeps hrun
    obtain ⟨hindex, -⟩ := memory_of_sweeps ho hb.disjoint hi hs
    have hm : m = k.markComplete := (congrArg Prod.snd hc).symm
    refine ⟨hm ▸ hindex, by rw [hm]; rfl, fun hgood => ?_, ?_⟩
    · exact readsThrough_of_loadInline ho hb.disjoint hi hrun hc fun i hi =>
        yield_ok_iff.2 fun cause hs => hgood i hi cause (hs.congr (opened_source ho).symm)
    · rintro done j rest cause rfl hdone hbad
      exact stopsAt_of_loadsInOrder ho hb.disjoint hp h hdone hbad

theorem inline_stops_at_first_bad_page_sample : ∃ order m,
    unwatchedSample.start.2.load? = some m ∧
      unwatchedSample.ReadsThrough unwatchedSample.start.1 m order := by
  let m₀ := unwatchedSample.opened?.get (by decide +kernel)
  have ho : unwatchedSample.opened? = some m₀ := (Option.some_get _).symm
  obtain ⟨⟨order, m, hm, hl⟩, h⟩ := inline_stops_at_first_bad_page ho
    ⟨by decide, by decide⟩ (by decide +kernel) (.inl (by decide +kernel))
  obtain ⟨-, -, hthrough, -⟩ := h order _ m hl
  refine ⟨order, m, hm, hthrough fun i hi => ?_⟩
  have hstored : m₀.index.stored = [0] := by decide +kernel
  have hpage : m₀.index.page 0 = { block := 0, position := 8, size := 1 } := by decide +kernel
  have hreply : unwatchedSample.source.reply 8 1 = .ok #[7] := by decide +kernel
  rw [hl.sorted.mem_iff, hstored, List.mem_singleton] at hi
  subst hi
  exact Index.not_spoils_of_reply hpage Nat.one_pos hreply rfl fun hz =>
    absurd hz (by decide +kernel)

/-- A loader of 21 pages of one byte each. The fourth one is the first byte behind the place of the
index position, and all others are behind the end of the file, at one position. -/
def tiedSample : Loader PlainWatch :=
  { Loader.ofSource { loadType := .eager } (fun _ => false) true
      (.ofBytes (#[0, 0, 0, 0, 0, 0, 0, 9, 7, 0, 0, 0, 1, 0, 0, 0, 0, 0, 0, 0, 0, 1, 97, 0, 0, 0,
        21, 1, 208, 15, 1, 0, 1, 0, 1, 209, 15, 1, 208, 15] ++
          (Array.replicate 16 #[1, 0]).flatten))
      { memory := .filled 5 } with
    blocks := [⟨"a", 16, 21, 1⟩] }

/-- What its index says. -/
def tiedIndex : Index where
  blocks := [⟨⟨"a", 16, 21, 1⟩, 0, 21⟩]
  pages := (Array.range 21).map fun i => ⟨0, 1, if i = 3 then 8 else 1008⟩
  flags := ⟨0⟩

theorem tiedSample_opened : ∃ m₀, tiedSample.opened? = some m₀ ∧ m₀.index = tiedIndex ∧
    tiedSample.isLazy m₀.guest = false := by
  let m₀ := tiedSample.opened?.get (by decide +kernel)
  have hm : m₀.index.blocks = tiedIndex.blocks ∧ m₀.index.pages = tiedIndex.pages ∧
      m₀.index.flags = tiedIndex.flags ∧ tiedSample.isLazy m₀.guest = false := by decide +kernel
  obtain ⟨hblocks, hpages, hflags, hlazy⟩ := hm
  refine ⟨m₀, (Option.some_get _).symm, ?_, hlazy⟩
  exact (congrArg₂ (Index.mk · · m₀.index.flags) hblocks hpages).trans (congrArg _ hflags)

/-- The sort puts page 1 in front of page 0. -/
theorem readOrder_tiedIndex : tiedIndex.readOrder = [3] ++ 1 :: ([2, 0] ++ List.range' 4 17) := by
  have hmoved : Sorting.rearrange
      (fun i j => (tiedIndex.page i).position < (tiedIndex.page j).position) tiedIndex.stored =
        [3] ++ 1 :: ([2, 0] ++ List.range' 4 17) := by decide +kernel
  rw [Index.readOrder, Sorting.byKey, hmoved]
  exact List.mergeSort_of_pairwise (by decide +kernel)

theorem tiedIndex_not_spoils (cause : LoadError) :
    ¬ tiedIndex.Spoils tiedSample.source 3 cause := by
  have hpage : tiedIndex.page 3 = { block := 0, position := 8, size := 1 } := by decide +kernel
  have hreply : tiedSample.source.reply 8 1 = .ok #[7] := by decide +kernel
  have hplain : ¬ tiedIndex.compressed = true := by decide
  exact Index.not_spoils_of_reply hpage Nat.one_pos hreply rfl (fun hz => absurd hz hplain) cause

theorem tiedIndex_spoils {i : Nat} (hi : i ∈ [0, 1]) :
    ∃ cause, tiedIndex.Spoils tiedSample.source i cause := by
  have hpage : tiedIndex.page i = { block := 0, position := 1008, size := 1 } := by
    revert i
    decide +kernel
  have hreply : tiedSample.source.reply 1008 1 = .ok #[] := by decide +kernel
  exact ⟨_, Index.spoils_of_end hpage Nat.one_pos hreply⟩

/-- Of pages at one position, it need not be the first one in index order that a load without a pool
stops at. -/
theorem inline_stops_at_another_bad_page :
    ¬ ∀ (l : Loader PlainWatch) (m₀ m : Load PlainWatch) (order : List Nat),
      l.opened? = some m₀ → RamBlock.Apart l.blocks → l.isLazy m₀.guest = false →
      m₀.index.compressed = false → l.start.2.load? = some m → m₀.index.InFileOrder order →
      order.Pairwise (fun i j => (m₀.index.page i).position = (m₀.index.page j).position → i < j) →
      ∀ done j rest cause, order = done ++ j :: rest →
        (∀ i ∈ done, ∀ cause, ¬ m₀.index.Spoils l.source i cause) →
        m₀.index.Spoils l.source j cause → StopsAt l l.start.1 m done j rest cause := by
  intro h
  obtain ⟨m₀, ho, hindex, hlazy⟩ := tiedSample_opened
  have hb : RamBlock.Apart tiedSample.blocks := ⟨by decide, by decide⟩
  have hplain : m₀.index.compressed = false := hindex ▸ by decide +kernel
  obtain ⟨m, hm⟩ := exists_load_of_opened ho
  have hload := loadsInOrder_start ho hlazy (not_lacksPool_of_inline (.inl hplain)) hm
  have hloads : ∀ i ∈ [3], ∀ cause, ¬ m₀.index.Spoils tiedSample.source i cause := by
    intro i hi
    rw [hindex, List.mem_singleton.1 hi]
    exact tiedIndex_not_spoils
  obtain ⟨cause, hzero⟩ := tiedIndex_spoils (i := 0) (by decide)
  obtain ⟨cause', hone⟩ := tiedIndex_spoils (i := 1) (by decide)
  rw [hindex, readOrder_tiedIndex] at hload
  rw [← hindex] at hzero hone
  -- the load stops at page 1, and so leaves page 0 alone
  have hempty := (stopsAt_of_loadsInOrder ho hb.disjoint (.inl hplain) hload hloads hone).untouched
    0 (by decide)
  have horder : m₀.index.InFileOrder ([3] ++ 0 :: ([1, 2] ++ List.range' 4 17)) := by
    rw [hindex]
    exact ⟨by decide +kernel, by decide +kernel⟩
  have hstop := h tiedSample m₀ m _ ho hb hlazy hplain hm horder
    (hindex ▸ by decide +kernel) [3] 0 _ _ rfl hloads hzero
  cases hempty.1.symm.trans hstop.failed

end Loader
end RamRestore
