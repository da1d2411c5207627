import RamRestore.Proofs.Load.Run
import RamRestore.Proofs.Transfer

/-! # What a step can do

Every step of a run comes down to a few moves of the faults, the background reader and the
idle callback, each with the condition under which it is made. Invariants are proved of
moves.
-/

namespace RamRestore

/-- How a transfer ends that is complete, or whose next read is its last. -/
inductive Transfer.Ends (t : Transfer) (s : Source) :
    Bytes → Transfer.Stop → List ReadCall → Source → Prop
  | full (h : t.size ≤ t.got.size) : Ends t s t.got .full [] s
  | stopped {c : ReadCall} {got : Bytes} {stop : Transfer.Stop}
      (h : t.call s = (c, .stopped got stop)) : Ends t s got stop [c] (s.after t.offset)

namespace Load

variable {W : Type}

def claim (l : Load W) (i : Nat) : Load W := ((l.setState i .reading).beginTransfer i).2

theorem state_claim (l : Load W) (i j : Nat) :
    (l.claim i).state j = if i = j then .reading else l.state j :=
  state_setState l i j .reading

theorem parked_claim (l : Load W) (i j : Nat) :
    (l.claim i).parked j = if i = j then none else l.parked j :=
  parked_setState l i j .reading

variable [Guest W] {E : Surroundings}

inductive Move (E : Surroundings) : Session W → Session W → Prop
  | arrive {l : Load W} {fs : Multiset Service} {a : Nat} (h : E.fault a) :
      Move E ⟨l, fs⟩ ⟨l, .at a ::ₘ fs⟩
  | unmapped {l : Load W} {fs : Multiset Service} {a : Nat} (h : l.index.locate a = none) :
      Move E ⟨l, .at a ::ₘ fs⟩ ⟨l.record (.unmapped a), fs⟩
  /-- A fault finds its page read or settled. -/
  | takeOver {l : Load W} {fs : Multiset Service} {a i : Nat} (h : l.index.locate a = some i)
      (hs : l.state i = .read ∨ l.state i = .filled ∨ l.state i = .error) :
      Move E ⟨l, .at a ::ₘ fs⟩ ⟨l.takeOver i, fs⟩
  | claim {l : Load W} {fs : Multiset Service} {a i : Nat} (h : l.index.locate a = some i)
      (hs : l.state i = .empty) :
      Move E ⟨l, .at a ::ₘ fs⟩ ⟨l.claim i, .reading i (l.transfer i) ::ₘ fs⟩
  | read {l : Load W} {fs : Multiset Service} {i : Nat} {t t' : Transfer} {c : ReadCall}
      (h : t.call l.source = (c, .going t')) :
      Move E ⟨l, .reading i t ::ₘ fs⟩
        ⟨l.note [c] (l.source.after t.offset), .reading i t' ::ₘ fs⟩
  | land {l : Load W} {fs : Multiset Service} {i : Nat} {t : Transfer} {got : Bytes}
      {stop : Transfer.Stop} {cs : List ReadCall} {s : Source}
      (h : t.Ends l.source got stop cs s) :
      Move E ⟨l, .reading i t ::ₘ fs⟩ ⟨(l.note cs s).land i got stop, fs⟩
  /-- The reader leaves a page to whoever has it. -/
  | skip {l : Load W} {fs : Multiset Service} {i : Nat} {q : List Request}
      (hr : l.reader = .waiting) (hq : l.requests = .page i :: q) (hs : l.state i ≠ .empty) :
      Move E ⟨l, fs⟩ ⟨{ l with requests := q }, fs⟩
  | readerClaim {l : Load W} {fs : Multiset Service} {i : Nat} {q : List Request}
      (hr : l.reader = .waiting) (hq : l.requests = .page i :: q) (hs : l.state i = .empty) :
      Move E ⟨l, fs⟩
        ⟨{ l.claim i with requests := q, reader := .reading i (l.transfer i) }, fs⟩
  /-- The reader passes on that there are no more pages. -/
  | echo {l : Load W} {fs : Multiset Service} {q : List Request}
      (hr : l.reader = .waiting) (hq : l.requests = .finish :: q) :
      Move E ⟨l, fs⟩ ⟨{ l with requests := q, reader := .offering .allLoaded }, fs⟩
  /-- The reader ends since nobody listens any more. -/
  | quit {l : Load W} {fs : Multiset Service} (hc : l.cursor = none)
      (hr : l.reader = .waiting ∧ l.requests = [] ∨ ∃ r, l.reader = .offering r) :
      Move E ⟨l, fs⟩ ⟨{ l with reader := .ended }, fs⟩
  | die {l : Load W} {fs : Multiset Service} {i : Nat} {t : Transfer}
      (hr : l.reader = .reading i t) :
      Move E ⟨l, fs⟩
        ⟨{ l.note [⟨t.offset, t.wanted, .died⟩] l.source with reader := .ended }, fs⟩
  | readerRead {l : Load W} {fs : Multiset Service} {i : Nat} {t t' : Transfer} {c : ReadCall}
      (hr : l.reader = .reading i t) (h : t.call l.source = (c, .going t')) :
      Move E ⟨l, fs⟩
        ⟨{ l.note [c] (l.source.after t.offset) with reader := .reading i t' }, fs⟩
  | readerLand {l : Load W} {fs : Multiset Service} {i : Nat} {t : Transfer} {got : Bytes}
      {stop : Transfer.Stop} {cs : List ReadCall} {s : Source} (hr : l.reader = .reading i t)
      (h : t.Ends l.source got stop cs s) :
      Move E ⟨l, fs⟩ ⟨(l.note cs s).landRead i got stop, fs⟩
  | deliver {l : Load W} {fs : Multiset Service} {r : Result} (hr : l.reader = .offering r)
      (hc : l.cursor ≠ none) (hroom : l.results.length < l.capacity) :
      Move E ⟨l, fs⟩
        ⟨{ l with
            results := l.results ++ [r]
            reader := if r = .allLoaded then .ended else .waiting }, fs⟩
  /-- The idle callback finds that background loading is over. -/
  | ended {l : Load W} {fs : Multiset Service} (hc : l.cursor = none) :
      Move E ⟨l, fs⟩ ⟨l.markComplete, fs⟩
  | receive {l : Load W} {fs : Multiset Service} {c : Cursor} {r : Result} {rs : List Result}
      (hc : l.cursor = some c) (hr : l.results = r :: rs) :
      Move E ⟨l, fs⟩ ⟨({ l with results := rs }.receive r).2, fs⟩
  /-- The idle callback finds the reader gone. -/
  | gone {l : Load W} {fs : Multiset Service} {c : Cursor} (hc : l.cursor = some c)
      (hq : l.results = []) (hr : l.reader = .ended) :
      Move E ⟨l, fs⟩ ⟨(l.failBackground (.io .readerStopped)).2, fs⟩
  /-- The idle callback passes pages that are not empty any more. -/
  | look {l : Load W} {fs : Multiset Service} {c : Cursor} {next : Nat} (hc : l.cursor = some c)
      (hle : next ≤ l.index.pages.size) (hge : c.next ≤ l.index.pages.size → c.next ≤ next)
      (hs : ∀ i, c.next ≤ i → i < next → l.state i ≠ .empty) :
      Move E ⟨l, fs⟩ ⟨{ l with cursor := some { c with next } }, fs⟩
  | ask {l : Load W} {fs : Multiset Service} {c : Cursor} (hc : l.cursor = some c)
      (hlt : c.next < l.index.pages.size) (hs : l.state c.next = .empty)
      (hr : l.canRequest = true) :
      Move E ⟨l, fs⟩ ⟨l.request (.page c.next) { c with next := c.next + 1 }, fs⟩
  | askEnd {l : Load W} {fs : Multiset Service} {c : Cursor} (hc : l.cursor = some c)
      (hn : c.next = l.index.pages.size) (hf : c.finished = false) (hr : l.canRequest = true) :
      Move E ⟨l, fs⟩ ⟨l.request .finish { c with finished := true }, fs⟩
  | interrupt {l : Load W} {fs : Multiset Service} (h : E.interrupts) :
      Move E ⟨l, fs⟩ ⟨l.interrupt, fs⟩
  | source {l : Load W} {fs : Multiset Service} {s : Source} (h : E.source l.source s) :
      Move E ⟨l, fs⟩ ⟨{ l with source := s }, fs⟩

abbrev Moves (E : Surroundings) : Session W → Session W → Prop := Relation.ReflTransGen (Move E)

section

variable {l l' : Load W} {fs : Multiset Service} {i a : Nat} {t t' : Transfer}

theorem encounter_settled (h : l.encounter a = .settled l') :
    l.index.locate a = none ∧ l' = l.record (.unmapped a) ∨
      ∃ i, l.index.locate a = some i ∧
        (l.state i = .read ∨ l.state i = .filled ∨ l.state i = .error) ∧ l' = l.takeOver i := by
  unfold encounter at h
  split at h
  · exact .inl ⟨‹_›, (Encounter.settled.inj h).symm⟩
  · rename_i i hl
    split at h
    · cases h
    · cases h
    · cases h
    · rename_i h₁ h₂ h₃
      refine .inr ⟨i, hl, ?_, (Encounter.settled.inj h).symm⟩
      cases hs : l.state i <;> simp_all

theorem encounter_settled_move (h : l.encounter a = .settled l') :
    Move E ⟨l, .at a ::ₘ fs⟩ ⟨l', fs⟩ := by
  obtain ⟨hl, rfl⟩ | ⟨i, hl, hs, rfl⟩ := encounter_settled h
  · exact .unmapped hl
  · exact .takeOver hl hs

theorem encounter_claimed (h : l.encounter a = .claimed i l') :
    l.index.locate a = some i ∧ l.state i = .empty ∧ l' = l.setState i .reading := by
  unfold encounter at h
  split at h
  · cases h
  · split at h
    · cases h
      exact ⟨‹_›, ‹_›, rfl⟩
    · cases h
    · cases h
    · cases h

theorem readOnce_none_ends (h : l.readOnce i t = (none, l')) :
    ∃ got stop cs s, t.Ends l.source got stop cs s ∧ l' = (l.note cs s).land i got stop := by
  unfold readOnce at h
  split at h
  · rename_i hle
    obtain ⟨-, rfl⟩ := Prod.mk.inj h
    exact ⟨_, _, _, _, .full hle, by rw [note_nil]⟩
  · split at h
    · rename_i hc
      obtain ⟨-, rfl⟩ := Prod.mk.inj h
      exact ⟨_, _, _, _, .stopped hc, rfl⟩
    · cases h

theorem readOn?_move (hr : l.reader = .reading i t) (h : l.readOn? i t = some l') :
    Move E ⟨l, fs⟩ ⟨l', fs⟩ := by
  unfold readOn? at h
  split at h
  · cases h
  · split at h
    · cases h
      exact .die hr
    · split at h
      · cases h
        exact .readerRead hr ‹_›
      · cases h
        exact .readerLand hr (.stopped ‹_›)

theorem readerStep?_move (h : l.readerStep? = some l') : Move E ⟨l, fs⟩ ⟨l', fs⟩ := by
  unfold readerStep? at h
  split at h
  · cases h
  · rename_i hr
    split at h
    · rename_i i q hq
      cases h
      unfold beginRead
      split
      · exact .readerClaim hr hq ‹_›
      · exact .skip hr hq ‹_›
    · cases h
      exact .echo hr ‹_›
    · rename_i hq
      split at h
      · cases h
      · rename_i hc
        cases h
        exact .quit (by simpa using hc) (.inl ⟨hr, hq⟩)
  · exact readOn?_move ‹_› h
  · rename_i r hr
    split at h
    · rename_i hc
      cases h
      exact .quit (by simpa using hc) (.inr ⟨r, hr⟩)
    · rename_i hc
      split at h
      · cases h
        exact .deliver hr (by simpa using hc) ‹_›
      · cases h

omit [Guest W] in
theorem nextEmpty_spec (l : Load W) (i : Nat) :
    l.nextEmpty i ≤ l.index.pages.size ∧
      (i ≤ l.index.pages.size → i ≤ l.nextEmpty i) ∧
      (∀ j, i ≤ j → j < l.nextEmpty i → l.state j ≠ .empty) ∧
      (l.nextEmpty i ≠ l.index.pages.size → l.state (l.nextEmpty i) = .empty) := by
  fun_induction nextEmpty l i with
  | case1 i hlt hs =>
    exact ⟨Nat.le_of_lt hlt, fun _ => Nat.le_refl i, fun j h₁ h₂ => by omega, fun _ => hs⟩
  | case2 i hlt hs ih =>
    obtain ⟨hle, hge, hpass, hempty⟩ := ih
    refine ⟨hle, fun _ => Nat.le_of_succ_le (hge hlt), fun j h₁ h₂ => ?_, hempty⟩
    rcases Nat.eq_or_lt_of_le h₁ with rfl | h₁
    · exact hs
    · exact hpass j h₁ h₂
  | case3 i hlt =>
    exact ⟨Nat.le_refl _, fun h => h, fun j h₁ h₂ => by omega, fun h => absurd rfl h⟩

theorem queueReads_moves (fs : Multiset Service) (n : Nat) {l : Load W} {c : Cursor}
    (hc : l.cursor = some c) : Moves E ⟨l, fs⟩ ⟨(l.queueReads c n).2, fs⟩ := by
  induction n generalizing l c with
  | zero => exact .refl
  | succ n ih =>
    obtain ⟨hle, hge, hpass, hempty⟩ := l.nextEmpty_spec c.next
    have hlook : Move E ⟨l, fs⟩
        ⟨{ l with cursor := some { c with next := l.nextEmpty c.next } }, fs⟩ :=
      .look hc hle hge hpass
    unfold queueReads
    dsimp only
    split
    · rename_i hn
      split
      · rename_i hr
        simp only [Bool.and_eq_true, Bool.not_eq_true'] at hr
        refine .head hlook (.single ?_)
        exact .askEnd (c := { c with next := l.nextEmpty c.next }) rfl hn hr.1 hr.2
      · exact .single hlook
    · rename_i hn
      split
      · rename_i hr
        have hlt : l.nextEmpty c.next < l.index.pages.size := Nat.lt_of_le_of_ne hle hn
        exact .head hlook (.head (.ask rfl hlt (hempty hn) hr) (ih rfl))
      · exact .single hlook

omit [Guest W] in
/-- What neither the requests nor the cursor say, asking for pages does not change. -/
theorem queueReads_keeps {α : Type} (f : Load W → α)
    (hf : ∀ l q c, f { l with requests := q, cursor := c } = f l) (l : Load W) (c : Cursor)
    (n : Nat) : f (l.queueReads c n).2 = f l := by
  induction n generalizing l c with
  | zero => rfl
  | succ n ih =>
    unfold queueReads
    dsimp only
    split
    · split
      · exact hf l _ _
      · exact hf l l.requests _
    · split
      · exact (ih _ _).trans (hf l _ _)
      · exact hf l l.requests _

theorem idle_moves (l : Load W) (fs : Multiset Service) : Moves E ⟨l, fs⟩ ⟨l.idle.2, fs⟩ := by
  unfold idle
  split
  · exact .single (.ended ‹_›)
  · rename_i c hc
    split
    · exact .single (.receive hc ‹_›)
    · exact .single (.gone hc ‹_› ‹_›)
    · exact queueReads_moves fs _ hc

theorem Step.moves {x y : Session W} (h : Step E x y) : Moves E x y := by
  cases h with
  | fault h => exact .single (.arrive h)
  | settle h => exact .single (encounter_settled_move h)
  | claim h =>
    obtain ⟨hl, hs, rfl⟩ := encounter_claimed h
    exact .single (.claim hl hs)
  | read h =>
    obtain ⟨c, hc, rfl⟩ := readOnce_going h
    exact .single (.read hc)
  | land h =>
    obtain ⟨got, stop, cs, s, he, rfl⟩ := readOnce_none_ends h
    exact .single (.land he)
  | idle => exact idle_moves _ _
  | reader h => exact .single (readerStep?_move h)
  | interrupt h => exact .single (.interrupt h)
  | source h => exact .single (.source h)

theorem Steps.moves {x y : Session W} (h : Steps E x y) : Moves E x y := by
  induction h with
  | refl => exact .refl
  | tail _ hs ih => exact ih.trans hs.moves

/-- What every move keeps, every run keeps, also where it is in the middle of an idle call. -/
theorem Moves.keep {P : Session W → Prop} (hP : ∀ x y, Move E x y → P x → P y) {x y : Session W}
    (h : Moves E x y) (hx : P x) : P y := by
  induction h with
  | refl => exact hx
  | tail _ hm ih => exact hP _ _ hm ih

theorem Steps.keep {P : Session W → Prop} (hP : ∀ x y, Move E x y → P x → P y) {x y : Session W}
    (h : Steps E x y) (hx : P x) : P y := h.moves.keep hP hx

end

end Load
end RamRestore
