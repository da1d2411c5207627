import RamRestore.Load

/-! # The background reader

The reader takes requests in order, reads each page that is still empty and parks its
contents. It blocks on an empty request queue while more may come, on a full result queue,
and inside a read that does not return; it ends when nobody listens any more.
-/

namespace RamRestore.Load

variable {W : Type}

/-- Ends the reader's own read of page `i`. -/
def landRead (l : Load W) (i : Nat) (got : Bytes) (stop : Transfer.Stop) : Load W :=
  match l.contents i got stop with
  | .ok contents => { l.park i contents with reader := .offering (.loaded i) }
  | .error cause => { l.setState i .error with reader := .offering (.failed cause) }

/-- One step of the reader inside a page; `none` while its read does not return. -/
def readOn? (l : Load W) (i : Nat) (t : Transfer) : Option (Load W) :=
  if l.source.held.contains t.offset then none
  else if l.source.lethal.contains t.offset then
    some { l.note [⟨t.offset, t.wanted, .died⟩] l.source with reader := .ended }
  else
    match t.call l.source with
    | (c, .going t') => some { l.note [c] (l.source.after t.offset) with reader := .reading i t' }
    | (c, .stopped got stop) => some ((l.note [c] (l.source.after t.offset)).landRead i got stop)

/-- The reader looks at page `i`: it claims it, or leaves it to whoever has it. -/
def beginRead (l : Load W) (i : Nat) : Load W :=
  if l.state i = .empty then
    let (t, l) := (l.setState i .reading).beginTransfer i
    { l with reader := .reading i t }
  else l

/-- One step of the reader, if it can take one. -/
def readerStep? (l : Load W) : Option (Load W) :=
  match l.reader with
  | .ended => none
  | .waiting =>
    match l.requests with
    | .page i :: requests => some ({ l with requests }.beginRead i)
    | .finish :: requests => some { l with requests, reader := .offering .allLoaded }
    | [] => if l.cursor.isSome then none else some { l with reader := .ended }
  | .reading i t => l.readOn? i t
  | .offering r =>
    if l.cursor.isNone then some { l with reader := .ended }
    else if l.results.length < l.capacity then
      some { l with
        results := l.results ++ [r]
        reader := if r = .allLoaded then .ended else .waiting }
    else none

def stage : Reader → Nat
  | .reading _ _ => 3
  | .offering _ => 2
  | .waiting => 1
  | .ended => 0

def lacking : Reader → Nat
  | .reading _ t => t.size - t.got.size
  | _ => 0

def obstacles (source : Source) : Reader → Nat
  | .reading _ t => source.interruptions.get t.offset
  | _ => 0

/-- Requests, stage, missing bytes, interruptions: every step of the reader lowers these. -/
def readerWork (l : Load W) : Nat × Nat × Nat × Nat :=
  (l.requests.length, stage l.reader, lacking l.reader, obstacles l.source l.reader)

abbrev WorkLt : Nat × Nat × Nat × Nat → Nat × Nat × Nat × Nat → Prop :=
  Prod.Lex (· < ·) (Prod.Lex (· < ·) (Prod.Lex (· < ·) (· < ·)))

theorem readOn?_work {l l' : Load W} {i : Nat} {t : Transfer} (hr : l.reader = .reading i t)
    (h : l.readOn? i t = some l') : WorkLt l'.readerWork l.readerWork := by
  unfold readOn? at h
  split at h
  · simp at h
  · split at h
    · simp only [Option.some.injEq] at h
      subst h
      simp only [readerWork, note, hr, stage]
      exact .right _ (.left _ _ (by decide))
    · split at h
      · rename_i c t' hc
        simp only [Option.some.injEq] at h
        subst h
        simp only [readerWork, note, hr, stage, lacking, obstacles]
        refine .right _ (.right _ ?_)
        obtain ⟨hs, ⟨h₁, h₂⟩ | ⟨rfl, h₂⟩⟩ := Transfer.call_going hc
        · exact .left _ _ (by omega)
        · refine .right _ ?_
          simp only [Source.after, Table.get_set_self]
          omega
      · simp only [Option.some.injEq] at h
        subst h
        unfold landRead
        split <;>
          (simp only [readerWork, note, park, setState, hr, stage]
           exact .right _ (.left _ _ (by decide)))

theorem readerStep?_work {l l' : Load W} (h : l.readerStep? = some l') :
    WorkLt l'.readerWork l.readerWork := by
  unfold readerStep? at h
  split at h
  · simp at h
  · split at h
    · rename_i i requests hq
      simp only [Option.some.injEq] at h
      subst h
      unfold beginRead
      split <;>
        (simp only [readerWork, setState, beginTransfer, hq, List.length_cons]
         exact .left _ _ (by omega))
    · rename_i requests hq
      simp only [Option.some.injEq] at h
      subst h
      simp only [readerWork, hq, List.length_cons]
      exact .left _ _ (by omega)
    · split at h
      · simp at h
      · have hr : l.reader = .waiting := ‹_›
        simp only [Option.some.injEq] at h
        subst h
        simp only [readerWork, hr, stage]
        exact .right _ (.left _ _ (by decide))
  · exact readOn?_work ‹_› h
  · rename_i r hr
    split at h
    · simp only [Option.some.injEq] at h
      subst h
      simp only [readerWork, hr, stage]
      exact .right _ (.left _ _ (by decide))
    · split at h
      · simp only [Option.some.injEq] at h
        subst h
        simp only [readerWork, hr]
        refine .right _ (.left _ _ ?_)
        by_cases ha : r = .allLoaded <;> simp [ha, stage]
      · simp at h

/-- Lets the reader run until it blocks or ends. -/
def settle (l : Load W) : Load W :=
  match _h : l.readerStep? with
  | none => l
  | some l' => l'.settle
termination_by l.readerWork
decreasing_by exact readerStep?_work _h

end RamRestore.Load
