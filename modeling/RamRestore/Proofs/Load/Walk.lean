import RamRestore.Proofs.Load.Finality

/-! # The walk over the pages

The idle callback asks for the pages in their order, for each of them at most once, and tells the
reader at most once that there are no more. Wherever the cursor stands, the pages behind it have
been asked for or were not empty any more, and no page is empty again.
-/

namespace RamRestore

/-- The order of requests: by their pages, and then the word that there are no more. -/
inductive Request.Before : Request → Request → Prop
  | pages {i j : Nat} (h : i < j) : Before (.page i) (.page j)
  | finish {i : Nat} : Before (.page i) .finish

def Request.page? : Request → Option Nat
  | .page i => some i
  | .finish => none

namespace Load

variable {W : Type}

/-- Asking in order has led to these requests, and the cursor stands behind them. -/
structure Follows (asked : List Request) (l : Load W) (c : Cursor) : Prop where
  next_le : c.next ≤ l.index.pages.size
  page : ∀ i, .page i ∈ asked → i < c.next
  finish : .finish ∈ asked → c.finished = true
  finished : c.finished = true → c.next = l.index.pages.size
  /-- No page behind the cursor is forgotten. -/
  kept : ∀ i < c.next, l.state i ≠ .empty ∨ .page i ∈ l.requests

structure Asked (asked : List Request) (l : Load W) : Prop where
  ordered : asked.Pairwise Request.Before
  within : ∀ i, .page i ∈ asked → i < l.index.pages.size
  follows : ∀ c, l.cursor = some c → Follows asked l c

/-! ### Requests -/

/-- Requests in order are for pages in order, and then say once that there are no more. -/
theorem asked_cases {asked : List Request} (h : asked.Pairwise Request.Before) :
    asked = (asked.filterMap Request.page?).map .page ∨
      asked = (asked.filterMap Request.page?).map .page ++ [.finish] := by
  induction asked with
  | nil => exact .inl rfl
  | cons r asked ih =>
    obtain ⟨hr, hrest⟩ := List.pairwise_cons.1 h
    cases r with
    | page i =>
      exact (ih hrest).imp (congrArg (Request.page i :: ·)) (congrArg (Request.page i :: ·))
    | finish =>
      have hnil : asked = [] := List.eq_nil_iff_forall_not_mem.2 fun r hm => nomatch hr r hm
      exact .inr (by rw [hnil]; rfl)

theorem pages_ordered {asked : List Request} (h : asked.Pairwise Request.Before) :
    (asked.filterMap Request.page?).Pairwise (· < ·) := by
  refine h.filterMap _ fun r r' hr i hi j hj => ?_
  cases hr with
  | pages hlt =>
    cases hi
    cases hj
    exact hlt
  | finish => cases hj

/-! ### The idle callback asks for pages -/

section

variable {asked : List Request} {l m : Load W} {c : Cursor}

theorem Follows.mono (h : Follows asked l c) (hi : m.index = l.index)
    (hk : ∀ i, l.state i ≠ .empty ∨ .page i ∈ l.requests →
      m.state i ≠ .empty ∨ .page i ∈ m.requests) : Follows asked m c where
  next_le := hi ▸ h.next_le
  page := h.page
  finish := h.finish
  finished := hi ▸ h.finished
  kept i hlt := hk i (h.kept i hlt)

theorem Asked.mono (h : Asked asked l) (hi : m.index = l.index)
    (hc : ∀ c, m.cursor = some c → l.cursor = some c)
    (hk : ∀ i, l.state i ≠ .empty ∨ .page i ∈ l.requests →
      m.state i ≠ .empty ∨ .page i ∈ m.requests) : Asked asked m where
  ordered := h.ordered
  within := hi ▸ h.within
  follows c hm := (h.follows c (hc c hm)).mono hi hk

theorem Asked.look {next : Nat} (h : Asked asked l) (hc : l.cursor = some c)
    (hle : next ≤ l.index.pages.size) (hge : c.next ≤ l.index.pages.size → c.next ≤ next)
    (hs : ∀ i, c.next ≤ i → i < next → l.state i ≠ .empty) :
    Asked asked { l with cursor := some { c with next } } := by
  have hf := h.follows c hc
  refine ⟨h.ordered, h.within, fun c' hc' => ?_⟩
  obtain rfl := Option.some.inj hc'
  refine ⟨hle, fun i hi => Nat.lt_of_lt_of_le (hf.page i hi) (hge hf.next_le), hf.finish,
    fun hfin => ?_, fun i hi => ?_⟩
  · exact Nat.le_antisymm hle (hf.finished hfin ▸ hge hf.next_le)
  · rcases Nat.lt_or_ge i c.next with hlt | hge'
    · exact hf.kept i hlt
    · exact .inl (hs i hge' hi)

theorem Asked.request (h : Asked asked l) {r : Request} {c' : Cursor}
    (hr : ∀ r' ∈ asked, r'.Before r) (hin : ∀ i, r = .page i → i < l.index.pages.size)
    (hf : Follows (asked ++ [r]) (l.request r c') c') :
    Asked (asked ++ [r]) (l.request r c') where
  ordered := List.pairwise_append.2
    ⟨h.ordered, List.pairwise_singleton .., fun r' hr' _ hm => List.mem_singleton.1 hm ▸ hr r' hr'⟩
  within i hi := by
    rcases List.mem_append.1 hi with hi | hi
    · exact h.within i hi
    · exact hin i (List.mem_singleton.1 hi).symm
  follows c hc := Option.some.inj hc ▸ hf

theorem Asked.askPage (h : Asked asked l) (hc : l.cursor = some c)
    (hlt : c.next < l.index.pages.size) :
    Asked (asked ++ [.page c.next]) (l.request (.page c.next) { c with next := c.next + 1 }) := by
  have hf := h.follows c hc
  have hopen : .finish ∉ asked := fun hm => Nat.ne_of_lt hlt (hf.finished (hf.finish hm))
  refine h.request (fun r hr => ?_) (fun i hi => Request.page.inj hi ▸ hlt) ⟨hlt, ?_, ?_, ?_, ?_⟩
  · cases r with
    | page i => exact .pages (hf.page i hr)
    | finish => exact absurd hr hopen
  · intro i hi
    rcases List.mem_append.1 hi with hi | hi
    · exact Nat.lt_succ_of_lt (hf.page i hi)
    · exact Request.page.inj (List.mem_singleton.1 hi) ▸ Nat.lt_succ_self _
  · intro hm
    rcases List.mem_append.1 hm with hm | hm
    · exact absurd hm hopen
    · cases List.mem_singleton.1 hm
  · exact fun hfin => absurd (hf.finished hfin) (Nat.ne_of_lt hlt)
  · intro i hi
    rcases Nat.lt_succ_iff_lt_or_eq.1 hi with hi | rfl
    · exact (hf.kept i hi).imp_right (List.mem_append_left _)
    · exact .inr (List.mem_append_right _ (List.mem_singleton_self _))

theorem Asked.askEnd (h : Asked asked l) (hc : l.cursor = some c)
    (hn : c.next = l.index.pages.size) (hopen : c.finished = false) :
    Asked (asked ++ [.finish]) (l.request .finish { c with finished := true }) := by
  have hf := h.follows c hc
  refine h.request (fun r hr => ?_) nofun ⟨hf.next_le, ?_, fun _ => rfl, fun _ => hn, ?_⟩
  · cases r with
    | page i => exact .finish
    | finish => simp [hf.finish hr] at hopen
  · intro i hi
    rcases List.mem_append.1 hi with hi | hi
    · exact hf.page i hi
    · cases List.mem_singleton.1 hi
  · exact fun i hi => (hf.kept i hi).imp_right (List.mem_append_left _)

end

theorem landRead_queues (l : Load W) (i : Nat) (got : Bytes) (stop : Transfer.Stop) :
    (l.landRead i got stop).requests = l.requests ∧
      (l.landRead i got stop).cursor = l.cursor := by
  unfold landRead
  split <;> exact ⟨rfl, rfl⟩

variable [Guest W] {E : Surroundings} {x y : Session W} {asked : List Request} {i : Nat}

theorem PageStep.state_ne_empty (h : PageStep x y) (hs : x.load.state i ≠ .empty) :
    y.load.state i ≠ .empty := by
  have hset : ∀ {m : Load W} {j : Nat} {s : PageState},
      (∀ i, m.state i = if j = i then s else x.load.state i) → SamePages m y.load → s ≠ .empty →
        y.load.state i ≠ .empty := by
    intro m j s hm hp hne
    rw [hp.state, hm]
    split
    · exact hne
    · exact hs
  have hfill : ∀ {j : Nat} {c : Bytes}, SamePages (x.load.fill j c).2 y.load →
      y.load.state i ≠ .empty := by
    intro j c hp
    exact hset (fun i => state_fill x.load j i c) hp (by split <;> nofun)
  cases h with
  | stay hp | advance _ _ _ _ _ _ _ hp | abandon _ _ _ hp =>
    rw [hp.state]
    exact hs
  | claim j _ _ hp => exact hset (state_claim x.load j) hp nofun
  | park j _ _ c _ _ _ _ _ _ hp => exact hset (fun i => state_park x.load j i c) hp nofun
  | fail j _ _ _ _ _ _ _ _ _ hp | lose j _ _ hp =>
    exact hset (fun i => state_setState x.load j i .error) hp nofun
  | fill _ _ _ _ _ _ _ _ _ _ hp | fillParked _ _ _ _ hp => exact hfill hp

/-- A move asks for the next page, says that there are no more, or asks for nothing. Requests that
it takes are for pages that somebody has then. -/
theorem Asked.move (h : Asked asked x.load) (hm : Move E x y) :
    Asked (asked ++ y.load.requests.drop x.load.requests.length) y.load := by
  have htakes : ∀ q, x.load.requests = q ++ y.load.requests →
      (∀ c, y.load.cursor = some c → x.load.cursor = some c) →
      (∀ i, .page i ∈ q → y.load.state i ≠ .empty) →
        Asked (asked ++ y.load.requests.drop x.load.requests.length) y.load := by
    intro q hq hc hs
    have hle : y.load.requests.length ≤ x.load.requests.length := by
      rw [hq, List.length_append]
      exact Nat.le_add_left _ _
    rw [List.drop_eq_nil_of_le hle, List.append_nil]
    refine h.mono hm.index hc fun i hi => ?_
    rw [hq, List.mem_append] at hi
    rcases hi with hi | hi | hi
    · exact .inl (hm.pageStep.state_ne_empty hi)
    · exact .inl (hs i hi)
    · exact .inr hi
  have hkeeps : y.load.requests = x.load.requests →
      (∀ c, y.load.cursor = some c → x.load.cursor = some c) →
        Asked (asked ++ y.load.requests.drop x.load.requests.length) y.load :=
    fun hq hc => htakes [] hq.symm hc fun _ hi => absurd hi List.not_mem_nil
  have hbackground : y.load.background = x.load.background →
      Asked (asked ++ y.load.requests.drop x.load.requests.length) y.load := fun hb =>
    hkeeps (congrArg Background.requests hb)
      fun c hc => (congrArg Background.cursor hb).symm.trans hc
  cases hm with
  | look hc hle hge hs =>
    rw [List.drop_length, List.append_nil]
    exact h.look hc hle hge hs
  | ask hc hlt =>
    simp only [Load.request, List.drop_left]
    exact h.askPage hc hlt
  | askEnd hc hn hf =>
    simp only [Load.request, List.drop_left]
    exact h.askEnd hc hn hf
  | skip _ hq hs =>
    exact htakes [.page _] hq (fun _ => id) fun i hi =>
      Request.page.inj (List.mem_singleton.1 hi) ▸ hs
  | @readerClaim l _ i _ _ hq =>
    refine htakes [.page i] hq (fun _ => id) fun j hj => ?_
    obtain rfl := Request.page.inj (List.mem_singleton.1 hj)
    change (l.claim j).state j ≠ .empty
    rw [state_claim, if_pos rfl]
    simp
  | echo _ hq => exact htakes [.finish] hq (fun _ => id) (by simp)
  | takeOver => exact hbackground (background_takeOver _ _)
  | land => exact hbackground (background_land _ _ _ _)
  | @readerLand l _ i _ got stop cs s =>
    obtain ⟨hq, hc⟩ := (l.note cs s).landRead_queues i got stop
    exact hkeeps hq fun _ h => hc.symm.trans h
  | @receive l _ _ r rs hc hr =>
    refine hkeeps (requests_receive { l with results := rs } r) fun c' hc' => ?_
    rcases receive_goesOn_or_shut { l with results := rs } r with hb | ⟨hs, -⟩
    · exact (congrArg Background.cursor hb).symm.trans hc'
    · cases hs.cursor.symm.trans hc'
  | gone | interrupt => exact hkeeps rfl fun _ hc => (Option.some_ne_none _ hc.symm).elim
  | _ => exact hkeeps rfl fun _ => id

end Load
end RamRestore
