import RamRestore.Proofs.Load.Ownership
import RamRestore.Proofs.Load.Sweep
import RamRestore.Proofs.Transfer

/-! # What a step of an eager load does

A step reads the page that is next in place, or unpacks one that was read. While pages are
packed they count as read, and nobody else has them.
-/

namespace RamRestore.Load

variable {W : Type}

def onGuest (l : Load W) (guest : W) : Load W := { l with guest }

theorem state_setState_setState (l : Load W) (i j : Nat) (s : PageState) (guest : W)
    (s' : PageState) :
    (((l.setState i s).onGuest guest).setState i s').state j = if i = j then s' else l.state j := by
  rw [state_setState]
  split
  · rfl
  · exact (state_setState l i j s).trans (if_neg ‹_›)

theorem state_claim_setState (l : Load W) (i j : Nat) (guest : W) (s : PageState) :
    (((l.claim i).onGuest guest).setState i s).state j = if i = j then s else l.state j :=
  state_setState_setState l i j .reading guest s

variable [Guest W]

inductive SweepEffect (x y : Sweep W) : Prop
  | pass (i : Nat) (ha : x.ahead = i :: y.ahead) (hs : x.load.state i ≠ .empty)
      (hp : SamePages x.load y.load) (hk : y.packed = x.packed)
      (hf : y.load.failure = x.load.failure)
  | fail (i : Nat) (got : Bytes) (stop : Transfer.Stop) (cause : LoadError) (guest : W)
      (ha : x.ahead = i :: y.ahead) (he : x.load.state i = .empty)
      (hr : (x.load.transfer i).result x.load.source = (got, stop))
      (hc : x.load.contents i got stop = .error cause)
      (hp : SamePages (((x.load.claim i).onGuest guest).setState i .error) y.load)
      (hk : y.packed = x.packed) (hf : y.load.failure ≠ none)
  | pack (i : Nat) (data : Bytes) (ha : x.ahead = i :: y.ahead) (he : x.load.state i = .empty)
      (hr : (x.load.transfer i).result x.load.source = (data, .full))
      (hz : x.load.index.compressed = true)
      (hp : SamePages ((x.load.claim i).setState i .read) y.load)
      (hk : y.packed = (i, data) ::ₘ x.packed) (hf : y.load.failure = x.load.failure)
  | fill (i : Nat) (data : Bytes) (ha : x.ahead = i :: y.ahead) (he : x.load.state i = .empty)
      (hr : (x.load.transfer i).result x.load.source = (data, .full))
      (hc : x.load.contents i data .full = .ok data)
      (hp : SamePages (((x.load.claim i).write i data).setState i .filled) y.load)
      (hk : y.packed = x.packed) (hf : y.load.failure = x.load.failure)
  | unpack (i : Nat) (data page : Bytes) (ha : y.ahead = x.ahead)
      (hk : x.packed = (i, data) ::ₘ y.packed)
      (hc : RamRestore.unpack (x.load.index.pageSize i) data.toList = .ok page)
      (hp : SamePages (((x.load.setState i .filling).write i page).setState i .filled) y.load)
      (hf : y.load.failure = x.load.failure)
  | corrupt (i : Nat) (data : Bytes) (cause : UnpackError) (ha : y.ahead = x.ahead)
      (hk : x.packed = (i, data) ::ₘ y.packed)
      (hc : RamRestore.unpack (x.load.index.pageSize i) data.toList = .error cause)
      (hp : SamePages (((x.load.setState i .filling).spoil i data).setState i .error) y.load)
      (hf : y.load.failure ≠ none)

section

variable {l : Load W} {i : Nat}

theorem readInPlace_of_empty (he : l.state i = .empty) :
    l.readInPlace i =
      let o := (l.transfer i).run l.source
      let k := (l.claim i).note o.calls o.source
      let k := if l.index.compressed then k else k.write i o.got
      match l.readFailure? i o.got o.stop with
      | some cause => (.failed cause, k.setState i .error)
      | none =>
        if l.index.compressed then (.packed o.got, k.setState i .read)
        else (.settled, k.setState i .filled) := by
  unfold readInPlace
  rw [if_neg (not_not_intro he)]
  dsimp only [fetch]
  have hz : ∀ cs s, (((l.setState i .reading).beginTransfer i).2.note cs s).index = l.index :=
    fun _ _ => rfl
  have hw : ∀ (k : Load W) data, (k.write i data).index = k.index := fun _ _ => rfl
  cases h : l.index.compressed <;> simp only [hz, hw, h, Bool.false_eq_true, ↓reduceIte] <;> rfl

omit [Guest W] in
theorem contents_of_readFailure {got : Bytes} {stop : Transfer.Stop} {cause : LoadError}
    (h : l.readFailure? i got stop = some cause) : l.contents i got stop = .error cause := by
  rw [contents, h]

omit [Guest W] in
theorem full_of_readFailure {got : Bytes} {stop : Transfer.Stop}
    (h : l.readFailure? i got stop = none) : stop = .full := by
  cases stop with
  | full => rfl
  | short => simp [readFailure?] at h
  | failed cause => simp [readFailure?] at h

omit [Guest W] in
theorem contents_full (got : Bytes) : l.contents i got .full = l.decode i got := rfl

/-- Reading a page that is empty fails, leaves it packed, or fills it. -/
theorem readInPlace_cases (he : l.state i = .empty) {r : InPlace} {l' : Load W}
    (h : l.readInPlace i = (r, l')) :
    l'.failure = l.failure ∧
      ((∃ got stop cause guest, r = .failed cause ∧
          (l.transfer i).result l.source = (got, stop) ∧ l.contents i got stop = .error cause ∧
          SamePages (((l.claim i).onGuest guest).setState i .error) l') ∨
        ∃ data, (l.transfer i).result l.source = (data, .full) ∧
          (r = .packed data ∧ l.index.compressed = true ∧
              SamePages ((l.claim i).setState i .read) l' ∨
            r = .settled ∧ l.contents i data .full = .ok data ∧
              SamePages (((l.claim i).write i data).setState i .filled) l')) := by
  have hr := (l.transfer i).run_eq_result l.source
  rw [readInPlace_of_empty he] at h
  dsimp only at h
  generalize (l.transfer i).run l.source = o at h hr
  cases hz : l.index.compressed with
  | true =>
    simp only [hz, ↓reduceIte] at h
    split at h
    · rename_i cause hc
      cases h
      exact ⟨rfl, .inl
        ⟨o.got, o.stop, cause, l.guest, rfl, hr.symm, contents_of_readFailure hc, rfl⟩⟩
    · rename_i hc
      cases h
      rw [full_of_readFailure hc] at hr
      exact ⟨rfl, .inr ⟨o.got, hr.symm, .inl ⟨rfl, rfl, rfl⟩⟩⟩
  | false =>
    simp only [hz, Bool.false_eq_true, ↓reduceIte] at h
    split at h
    · rename_i cause hc
      cases h
      exact ⟨rfl, .inl ⟨o.got, o.stop, cause, Guest.write l.guest (l.index.address i) o.got, rfl,
        hr.symm, contents_of_readFailure hc, rfl⟩⟩
    · rename_i hc
      cases h
      rw [full_of_readFailure hc] at hr
      have hd : l.contents i o.got .full = .ok o.got := by
        simp only [contents_full, decode, hz, Bool.false_eq_true, ↓reduceIte]
      exact ⟨rfl, .inr ⟨o.got, hr.symm, .inr ⟨rfl, hd, rfl⟩⟩⟩

theorem readInPlace_of_not_empty (he : l.state i ≠ .empty) : l.readInPlace i = (.settled, l) := by
  rw [readInPlace, if_pos he]

theorem SweepStep.effect {x y : Sweep W} (h : SweepStep x y) : SweepEffect x y := by
  cases h with
  | @settled l l' i is ps h =>
    by_cases he : l.state i = .empty
    · obtain ⟨hf, ⟨_, _, _, _, hr, -⟩ | ⟨data, hr, ⟨hr', -⟩ | ⟨-, hc, hp⟩⟩⟩ :=
        readInPlace_cases he h
      · cases hr
      · cases hr'
      · exact .fill i data rfl he hr hc hp rfl hf
    · rw [readInPlace_of_not_empty he] at h
      cases h
      exact .pass i rfl he rfl rfl rfl
  | @packed l l' i is ps data h =>
    by_cases he : l.state i = .empty
    · obtain ⟨hf, ⟨_, _, _, _, hr, -⟩ | ⟨_, hr, ⟨hr', hz, hp⟩ | ⟨hr', -⟩⟩⟩ := readInPlace_cases he h
      · cases hr
      · cases hr'
        exact .pack i data rfl he hr hz hp rfl hf
      · cases hr'
    · rw [readInPlace_of_not_empty he] at h
      cases h
  | @failed l l' i is ps cause _ h =>
    by_cases he : l.state i = .empty
    · obtain ⟨-, ⟨got, stop, _, guest, hr', hr, hc, hp⟩ | ⟨_, -, ⟨hr', -⟩ | ⟨hr', -⟩⟩⟩ :=
        readInPlace_cases he h
      · cases hr'
        exact .fail i got stop cause guest rfl he hr hc hp rfl nofun
      · cases hr'
      · cases hr'
    · rw [readInPlace_of_not_empty he] at h
      cases h
  | @unpack l l' i is ps data failure h =>
    unfold unpackInPlace at h
    dsimp only at h
    split at h
    · rename_i page hc
      cases h
      exact .unpack i data page rfl rfl hc rfl rfl
    · rename_i cause hc
      cases h
      exact .corrupt i data cause rfl rfl hc rfl nofun

theorem readInPlace_load (he : l.state i = .empty) : ∃ guest s, s ≠ .empty ∧
    (l.readInPlace i).2 =
      (((l.claim i).note ((l.transfer i).run l.source).calls
        ((l.transfer i).run l.source).source).onGuest guest).setState i s := by
  rw [readInPlace_of_empty he]
  dsimp only
  split
  · split <;> exact ⟨_, .error, nofun, rfl⟩
  · split
    · exact ⟨_, .read, nofun, rfl⟩
    · exact ⟨_, .filled, nofun, rfl⟩

theorem background_readInPlace (l : Load W) (i : Nat) :
    (l.readInPlace i).2.background = l.background := by
  by_cases he : l.state i = .empty
  · obtain ⟨guest, s, -, h⟩ := readInPlace_load he
    rw [h]
    rfl
  · rw [readInPlace_of_not_empty he]

theorem failure_readInPlace (l : Load W) (i : Nat) : (l.readInPlace i).2.failure = l.failure := by
  by_cases he : l.state i = .empty
  · obtain ⟨guest, s, -, h⟩ := readInPlace_load he
    rw [h]
    rfl
  · rw [readInPlace_of_not_empty he]

theorem sameAnswers_readInPlace (l : Load W) (i : Nat) :
    Source.SameAnswers l.source (l.readInPlace i).2.source := by
  by_cases he : l.state i = .empty
  · obtain ⟨guest, s, -, h⟩ := readInPlace_load he
    rw [h]
    exact (l.transfer i).sameAnswers_run l.source
  · rw [readInPlace_of_not_empty he]
    exact .refl _

theorem background_unpackInPlace (l : Load W) (i : Nat) (data : Bytes) :
    (l.unpackInPlace i data).2.background = l.background := by
  unfold unpackInPlace
  dsimp only
  split <;> rfl

theorem source_unpackInPlace (l : Load W) (i : Nat) (data : Bytes) :
    (l.unpackInPlace i data).2.source = l.source := by
  unfold unpackInPlace
  dsimp only
  split <;> rfl

theorem SweepStep.index {x y : Sweep W} (h : SweepStep x y) : y.load.index = x.load.index := by
  cases h.effect with
  | pass _ _ _ hp | fail _ _ _ _ _ _ _ _ _ hp | pack _ _ _ _ _ _ hp | fill _ _ _ _ _ _ hp
  | unpack _ _ _ _ _ _ hp | corrupt _ _ _ _ _ _ hp => exact hp.index

theorem Sweeps.index {x y : Sweep W} (h : Sweeps x y) : y.load.index = x.load.index :=
  h.keep (P := fun z => z.load.index = x.load.index) (fun _ _ hs hz => hs.index.trans hz) rfl

theorem SweepStep.background {x y : Sweep W} (h : SweepStep x y) :
    y.load.background = x.load.background := by
  cases h with
  | @settled l _ i _ _ h | @packed l _ i _ _ _ h =>
    have := background_readInPlace l i
    rwa [h] at this
  | @failed l _ i _ _ _ _ h =>
    have := background_readInPlace l i
    rw [h] at this
    exact this
  | @unpack l _ i _ _ data _ h =>
    have := background_unpackInPlace l i data
    rw [h] at this
    exact (background_recordAny _ _).trans this

theorem Sweeps.background {x y : Sweep W} (h : Sweeps x y) :
    y.load.background = x.load.background :=
  h.keep (P := fun z => z.load.background = x.load.background)
    (fun _ _ hs hz => hs.background.trans hz) rfl

theorem SweepStep.sameAnswers {x y : Sweep W} (h : SweepStep x y) :
    Source.SameAnswers x.load.source y.load.source := by
  cases h with
  | @settled l _ i _ _ h | @packed l _ i _ _ _ h | @failed l _ i _ _ _ _ h =>
    have := sameAnswers_readInPlace l i
    rwa [h] at this
  | @unpack l l' i _ _ data failure h =>
    have := source_unpackInPlace l i data
    rw [h] at this
    cases failure <;> exact this ▸ .refl _

/-- The pages ahead and the packed ones have to be read, and each packed page is packed once. -/
structure Tidy (x : Sweep W) : Prop where
  orderly : Orderly ⟨x.load, 0⟩
  transfers : Session.transfers ⟨x.load, 0⟩ = 0
  ahead : ∀ i ∈ x.ahead, i ∈ x.load.index.stored
  read : ∀ p ∈ x.packed, x.load.state p.1 = .read
  nodup : (x.packed.map Prod.fst).Nodup

variable {x y : Sweep W}

omit [Guest W] in
theorem Tidy.stored_of_packed (h : Tidy x) {p : Nat × Bytes} (hp : p ∈ x.packed) :
    p.1 ∈ x.load.index.stored :=
  h.orderly.stored_of_state (by simp [h.read p hp]) (by simp [h.read p hp])

omit [Guest W] in
theorem Tidy.not_mem_packed (h : Tidy x) {data : Bytes} {ps : Multiset (Nat × Bytes)}
    (hk : x.packed = (i, data) ::ₘ ps) : ∀ p ∈ ps, p.1 ≠ i := by
  have hn := h.nodup
  simp only [hk, Multiset.map_cons, Multiset.nodup_cons] at hn
  rintro p hp rfl
  exact hn.1 (Multiset.mem_map_of_mem Prod.fst hp)

theorem Tidy.update (h : Tidy x) (hs : SweepStep x y) (hi : i ∈ x.load.index.stored)
    (hindex : y.load.index = x.load.index)
    (hstate : ∀ j, i ≠ j → y.load.state j = x.load.state j)
    (ha : ∀ j ∈ y.ahead, j ∈ x.ahead) (hr : ∀ p ∈ y.packed, y.load.state p.1 = .read)
    (hn : (y.packed.map Prod.fst).Nodup) : Tidy y := by
  have hrequests : y.load.requests = x.load.requests :=
    congrArg Background.requests hs.background
  have ht : Session.transfers ⟨y.load, 0⟩ = 0 :=
    (transfers_congr hs.background 0).trans h.transfers
  constructor
  · refine h.orderly.update hindex ?_ hi hstate ?_ ?_
    · dsimp only
      rw [hrequests]
      exact h.orderly.requests
    · simp [ht]
    · simp [ht]
  · exact ht
  · intro j hj
    rw [hindex]
    exact h.ahead j (ha j hj)
  · exact hr
  · exact hn

omit [Guest W] in
theorem Tidy.ne_of_packed (h : Tidy x) {p : Nat × Bytes} (he : x.load.state i = .empty)
    (hp : p ∈ x.packed) : i ≠ p.1 := by
  rintro rfl
  simp [h.read p hp] at he

theorem Tidy.readNext (h : Tidy x) (hs : SweepStep x y) (ha : x.ahead = i :: y.ahead)
    (he : x.load.state i = .empty) (hindex : y.load.index = x.load.index)
    (hstate : ∀ j, i ≠ j → y.load.state j = x.load.state j) (hk : y.packed = x.packed) :
    Tidy y := by
  refine h.update hs (h.ahead i (by simp [ha])) hindex hstate (fun j hj => by simp [ha, hj])
    (fun p hp => ?_) (hk ▸ h.nodup)
  rw [hk] at hp
  rw [hstate _ (h.ne_of_packed he hp)]
  exact h.read p hp

theorem Tidy.worked (h : Tidy x) (hs : SweepStep x y) {data : Bytes} (ha : y.ahead = x.ahead)
    (hk : x.packed = (i, data) ::ₘ y.packed) (hindex : y.load.index = x.load.index)
    (hstate : ∀ j, i ≠ j → y.load.state j = x.load.state j) : Tidy y := by
  have hn := h.nodup
  simp only [hk, Multiset.map_cons, Multiset.nodup_cons] at hn
  refine h.update hs (h.stored_of_packed (p := (i, data)) (by simp [hk])) hindex hstate
    (fun j hj => by simpa [ha] using hj) (fun p hp => ?_) hn.2
  rw [hstate _ (h.not_mem_packed hk p hp).symm]
  exact h.read p (by simp [hk, hp])

theorem Tidy.step (h : Tidy x) (hs : SweepStep x y) : Tidy y := by
  cases hs.effect with
  | pass i ha _ hp hk =>
    have hi : i ∈ x.load.index.stored := h.ahead i (by simp [ha])
    refine h.update hs hi hp.index (fun j _ => hp.state j) (fun j hj => by simp [ha, hj])
      (fun p hp' => ?_) (hk ▸ h.nodup)
    rw [hp.state]
    exact h.read p (hk ▸ hp')
  | fail i got stop cause guest ha he _ _ hp hk =>
    refine h.readNext hs ha he hp.index (fun j hj => ?_) hk
    rw [hp.state, state_claim_setState, if_neg hj]
  | pack i data ha he _ _ hp hk =>
    have hstate : ∀ j, y.load.state j = if i = j then .read else x.load.state j :=
      fun j => (hp.state j).trans (state_claim_setState x.load i j x.load.guest .read)
    refine h.update hs (h.ahead i (by simp [ha])) hp.index
      (fun j hj => by rw [hstate, if_neg hj]) (fun j hj => by simp [ha, hj]) (fun p hp' => ?_) ?_
    · rw [hstate]
      split
      · rfl
      · rename_i hij
        rw [hk, Multiset.mem_cons] at hp'
        rcases hp' with rfl | hp'
        · exact absurd rfl hij
        · exact h.read p hp'
    · rw [hk, Multiset.map_cons, Multiset.nodup_cons]
      constructor
      · intro hm
        obtain ⟨p, hp', hip⟩ := Multiset.mem_map.1 hm
        exact h.ne_of_packed he hp' hip.symm
      · exact h.nodup
  | fill i data ha he _ _ hp hk =>
    refine h.readNext hs ha he hp.index (fun j hj => ?_) hk
    exact (hp.state j).trans ((state_claim_setState x.load i j _ .filled).trans (if_neg hj))
  | unpack i data page ha hk _ hp =>
    refine h.worked hs ha hk hp.index fun j hj => ?_
    exact (hp.state j).trans
      ((state_setState_setState x.load i j .filling _ .filled).trans (if_neg hj))
  | corrupt i data cause ha hk _ hp =>
    refine h.worked hs ha hk hp.index fun j hj => ?_
    exact (hp.state j).trans
      ((state_setState_setState x.load i j .filling _ .error).trans (if_neg hj))

/-- A step that puts page `i`, which had not failed before, into state `s`, and leaves all other
pages alone. -/
structure Puts (i : Nat) (s : PageState) (x y : Sweep W) : Prop where
  step : SweepStep x y
  state : ∀ j, y.load.state j = if i = j then s else x.load.state j
  sound : x.load.state i ≠ .error
  ahead : ∀ j, j ∉ y.ahead → j = i ∨ j ∉ x.ahead
  kept : ∀ p ∈ x.packed, i ≠ p.1 → p ∈ y.packed

theorem Puts.self {s : PageState} (h : Puts i s x y) : y.load.state i = s :=
  (h.state i).trans (if_pos rfl)

theorem Puts.others {s : PageState} (h : Puts i s x y) (j : Nat) (hj : i ≠ j) :
    y.load.state j = x.load.state j :=
  (h.state j).trans (if_neg hj)

theorem SweepStep.puts_next {s : PageState} (hs : SweepStep x y) (ha : x.ahead = i :: y.ahead)
    (he : x.load.state i = .empty) (hk : ∀ p ∈ x.packed, p ∈ y.packed)
    (hstate : ∀ j, y.load.state j = if i = j then s else x.load.state j) : Puts i s x y where
  step := hs
  state := hstate
  sound := by simp [he]
  ahead j hj := by
    rw [ha, List.mem_cons]
    by_cases hij : j = i
    · exact .inl hij
    · exact .inr fun h => h.elim hij hj
  kept p hp _ := hk p hp

theorem SweepStep.puts_packed {s : PageState} {d : Bytes} (hs : SweepStep x y) (ht : Tidy x)
    (ha : y.ahead = x.ahead) (hk : x.packed = (i, d) ::ₘ y.packed)
    (hstate : ∀ j, y.load.state j = if i = j then s else x.load.state j) : Puts i s x y where
  step := hs
  state := hstate
  sound := by simp [ht.read (i, d) (by simp [hk])]
  ahead j hj := .inr (ha ▸ hj)
  kept p hp hne := by
    rw [hk, Multiset.mem_cons] at hp
    rcases hp with rfl | hp
    · exact absurd rfl hne
    · exact hp

end

end RamRestore.Load
