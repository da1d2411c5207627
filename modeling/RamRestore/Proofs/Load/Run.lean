import Mathlib.Data.Multiset.Filter
import Mathlib.Logic.Relation
import RamRestore.Load.Fault
import RamRestore.Load.Idle

/-! # Runs of a load

Faults, idle calls and the background reader act on a load in any order, and any number of
faults may be on their way at once. A fault and the reader may be overtaken between any two
of their reads. What the library does in one go is a run of such steps.
-/

namespace RamRestore.Load

/-- What may happen around a load while it runs. -/
structure Surroundings where
  /-- The addresses at which there may be faults. -/
  fault : Nat → Prop
  /-- How the source may change between two steps, reads that are held or released included. -/
  source : Source → Source → Prop
  /-- Whether the load may be interrupted or its loader dropped. -/
  interrupts : Prop

def Surroundings.quiet : Surroundings := ⟨fun _ => False, fun _ _ => False, False⟩

/-- A load, and the faults that have begun and are not served yet. -/
structure Session (W : Type) where
  load : Load W
  faults : Multiset Service

variable {W : Type} [Guest W] {E : Surroundings}

inductive Step (E : Surroundings) : Session W → Session W → Prop
  /-- A fault begins. -/
  | fault {l : Load W} {fs : Multiset Service} {a : Nat} (h : E.fault a) :
      Step E ⟨l, fs⟩ ⟨l, .at a ::ₘ fs⟩
  /-- A fault finds nothing that it would have to read itself. -/
  | settle {l l' : Load W} {fs : Multiset Service} {a : Nat} (h : l.encounter a = .settled l') :
      Step E ⟨l, .at a ::ₘ fs⟩ ⟨l', fs⟩
  /-- A fault claims its page and begins to read it. -/
  | claim {l l' : Load W} {fs : Multiset Service} {a i : Nat}
      (h : l.encounter a = .claimed i l') :
      Step E ⟨l, .at a ::ₘ fs⟩
        ⟨(l'.beginTransfer i).2, .reading i (l'.beginTransfer i).1 ::ₘ fs⟩
  /-- A fault makes a read and goes on. -/
  | read {l l' : Load W} {fs : Multiset Service} {i : Nat} {t t' : Transfer}
      (h : l.readOnce i t = (some t', l')) :
      Step E ⟨l, .reading i t ::ₘ fs⟩ ⟨l', .reading i t' ::ₘ fs⟩
  /-- A fault makes its last read and is served. -/
  | land {l l' : Load W} {fs : Multiset Service} {i : Nat} {t : Transfer}
      (h : l.readOnce i t = (none, l')) :
      Step E ⟨l, .reading i t ::ₘ fs⟩ ⟨l', fs⟩
  /-- The idle callback is called. -/
  | idle {l : Load W} {fs : Multiset Service} : Step E ⟨l, fs⟩ ⟨l.idle.2, fs⟩
  /-- The background reader takes a step. -/
  | reader {l l' : Load W} {fs : Multiset Service} (h : l.readerStep? = some l') :
      Step E ⟨l, fs⟩ ⟨l', fs⟩
  /-- The load is interrupted, or its loader dropped. -/
  | interrupt {l : Load W} {fs : Multiset Service} (h : E.interrupts) :
      Step E ⟨l, fs⟩ ⟨l.interrupt, fs⟩
  /-- The source changes. -/
  | source {l : Load W} {fs : Multiset Service} {s : Source} (h : E.source l.source s) :
      Step E ⟨l, fs⟩ ⟨{ l with source := s }, fs⟩

abbrev Steps (E : Surroundings) : Session W → Session W → Prop := Relation.ReflTransGen (Step E)

theorem steps_settle (l : Load W) (fs : Multiset Service) : Steps E ⟨l, fs⟩ ⟨l.settle, fs⟩ := by
  fun_induction settle l with
  | case1 => exact .refl
  | case2 l l' h ih => exact .head (.reader h) ih

def readerSteps (l : Load W) : (n : Nat) → Load W
  | 0 => l
  | n + 1 =>
    match l.readerStep? with
    | none => l
    | some l' => l'.readerSteps n

theorem steps_readerSteps (l : Load W) (fs : Multiset Service) (n : Nat) :
    Steps E ⟨l, fs⟩ ⟨l.readerSteps n, fs⟩ := by
  induction n generalizing l with
  | zero => exact .refl
  | succ n ih =>
    unfold readerSteps
    split
    · exact .refl
    · exact .head (.reader ‹_›) (ih _)

theorem steps_idleSettled (l : Load W) (fs : Multiset Service) :
    Steps E ⟨l, fs⟩ ⟨l.idleSettled.2, fs⟩ :=
  .head .idle (steps_settle _ fs)

theorem steps_drive (l : Load W) (fs : Multiset Service) (n : Nat) :
    Steps E ⟨l, fs⟩ ⟨(l.drive n).2, fs⟩ := by
  induction n generalizing l with
  | zero => exact .refl
  | succ n ih =>
    have h := steps_idleSettled (E := E) l fs
    unfold drive
    split
    · rename_i l' he
      rwa [he] at h
    · rename_i r l' _ he
      rw [he] at h
      exact h.trans (ih l')

theorem steps_readFault (l : Load W) (fs : Multiset Service) (i : Nat) (t : Transfer) :
    Steps E ⟨l, .reading i t ::ₘ fs⟩
      ⟨(l.readFault i t).2, (l.readFault i t).1.toList + fs⟩ := by
  fun_induction readFault l i t with
  | case1 => exact .refl
  | case2 l t _ l' h => simpa using .single (.land h)
  | case3 l t _ t' l' h ih => exact .head (.read h) ih

/-- Serving a fault until it is over or has to wait is a run. -/
theorem steps_serve (l : Load W) (fs : Multiset Service) (f : Service) :
    Steps E ⟨l, f ::ₘ fs⟩ ⟨(l.serve f).2, (l.serve f).1.toList + fs⟩ := by
  cases f with
  | «at» a =>
    unfold serve
    cases h : l.encounter a with
    | settled l' =>
      simp only [h]
      simpa using .single (.settle h)
    | busy =>
      simp only [h]
      exact .refl
    | claimed i l' =>
      simp only [h]
      exact .head (.claim h) (steps_readFault _ fs i _)
  | reading i t => exact steps_readFault l fs i t

theorem steps_run (l : Load W) (fs : Multiset Service) (i : Nat) (t : Transfer) :
    Steps E ⟨l, .reading i t ::ₘ fs⟩
      ⟨(l.note (t.run l.source).calls (t.run l.source).source).land i
        (t.run l.source).got (t.run l.source).stop, fs⟩ := by
  generalize hs : l.source = s
  fun_induction Transfer.run t s generalizing l with
  | case1 t s hle =>
    subst hs
    rw [note_nil]
    exact .single (.land (by rw [readOnce, if_pos hle]))
  | case2 t s hle c got stop h =>
    subst hs
    exact .single (.land (by rw [readOnce, if_neg hle, h]))
  | case3 t s hle c t' h o ih =>
    subst hs
    have hread : l.readOnce i t = (some t', l.note [c] (l.source.after t.offset)) := by
      rw [readOnce, if_neg hle, h]
    refine .head (.read hread) ?_
    simpa only [note_note, List.singleton_append]
      using ih (l.note [c] (l.source.after t.offset)) rfl

/-- A fault that is served in one go is a run. -/
theorem steps_fault? {l l' : Load W} {a : Nat} (fs : Multiset Service) (ha : E.fault a)
    (h : l.fault? a = some l') : Steps E ⟨l, fs⟩ ⟨l', fs⟩ := by
  refine .head (.fault ha) ?_
  unfold fault? at h
  split at h
  · rename_i he
    obtain rfl := Option.some.inj h
    exact .single (.settle he)
  · simp at h
  · rename_i i l₁ he
    obtain rfl := Option.some.inj h
    exact .head (.claim he) (steps_run _ fs i _)

end RamRestore.Load
