import RamRestore.Proofs.Index.Ranges
import RamRestore.Proofs.Index.RoundTrip

/-! # What a lazy start watches

A lazy start registers the ranges of its index in order, and arms the watch once all of them are
accepted. When one is refused it goes no further: the ranges before it stay registered, and
neither the watch nor any page is touched again.
-/

namespace RamRestore

structure Watching where
  ranges : List (Nat × Nat) := []
  armed : Bool := false
  deriving DecidableEq

def Watching.add (x : Watching) (ranges : List (Nat × Nat)) : Watching :=
  { x with ranges := x.ranges ++ ranges }

/-- Guests that keep what their watch was told: the ranges that it accepted, and to start. -/
class WatchLog (W : Type) [Guest W] where
  told : W → Watching
  told_register {w w' : W} {start length : Nat} (h : Guest.register w start length = .ok w') :
    told w' = (told w).add [(start, length)]
  told_arm {w w' : W} (h : Guest.arm w = .ok w') : told w' = { told w with armed := true }
  told_read (w : W) (start length : Nat) : told (Guest.read w start length).2 = told w
  told_write (w : W) (start : Nat) (data : Bytes) : told (Guest.write w start data) = told w

instance : WatchLog PlainWatch where
  told w := ⟨w.ranges.toList, w.armed⟩
  told_register {w w' start length} h := by
    change w.register start length = .ok w' at h
    unfold PlainWatch.register at h
    split at h <;> cases h
    simp [Watching.add]
  told_arm {w w'} h := by
    change w.arm = .ok w' at h
    unfold PlainWatch.arm at h
    split at h <;> cases h
    rfl
  told_read _ _ _ := rfl
  told_write _ _ _ := rfl

open WatchLog

namespace Load

variable {W : Type} [Guest W] {w v : W} {ranges : List (Nat × Nat)} {k : Nat} {r : Nat × Nat}
  {cause : IoError}

inductive Registers : W → List (Nat × Nat) → W → Prop
  | nil {w : W} : Registers w [] w
  | cons {w w' v : W} {r : Nat × Nat} {ranges : List (Nat × Nat)}
      (h : Guest.register w r.1 r.2 = .ok w') (hs : Registers w' ranges v) :
      Registers w (r :: ranges) v

/-- The watch accepts `k` ranges and refuses the next one, which is `r`. -/
structure RefusesAt (w : W) (ranges : List (Nat × Nat)) (k : Nat) (r : Nat × Nat)
    (cause : IoError) (v : W) : Prop where
  at_k : ranges[k]? = some r
  before : Registers w (ranges.take k) v
  refused : Guest.register v r.1 r.2 = .error cause

theorem Registers.registerAll (h : Registers w ranges v) : registerAll w ranges = (none, v) := by
  induction h with
  | nil => rfl
  | cons h _ ih => rw [Load.registerAll, h, ← ih]

theorem RefusesAt.registerAll (h : RefusesAt w ranges k r cause v) :
    registerAll w ranges = (some (.registerRange r.1 r.2 cause), v) := by
  obtain ⟨hr, hbefore, hrefused⟩ := h
  induction ranges generalizing w k with
  | nil => cases hr
  | cons r' ranges ih =>
    cases k with
    | zero =>
      cases hr
      cases hbefore
      rw [Load.registerAll, hrefused]
    | succ k =>
      cases hbefore with
      | cons h hs => rw [Load.registerAll, h, ← ih hr hs]

theorem registers_or_refusesAt (w : W) (ranges : List (Nat × Nat)) :
    (∃ v, Registers w ranges v) ∨ ∃ k r cause v, RefusesAt w ranges k r cause v := by
  induction ranges generalizing w with
  | nil => exact .inl ⟨w, .nil⟩
  | cons r ranges ih =>
    cases h : Guest.register w r.1 r.2 with
    | error cause => exact .inr ⟨0, r, cause, w, rfl, .nil, h⟩
    | ok w' =>
      rcases ih w' with ⟨v, hv⟩ | ⟨k, q, cause, v, hq, hv, hrefused⟩
      · exact .inl ⟨v, .cons h hv⟩
      · exact .inr ⟨k + 1, q, cause, v, hq, .cons h hv, hrefused⟩

theorem Registers.told [WatchLog W] (h : Registers w ranges v) :
    told v = (told w).add ranges := by
  induction h with
  | nil => simp [Watching.add]
  | cons h _ ih => rw [ih, told_register h]; simp [Watching.add]

end Load

namespace Loader

variable {W : Type} [Guest W] [WatchLog W] {l : Loader W} {m₀ : Load W}
  {ranges : List (Nat × Nat)}

theorem told_clear (zeroChecker : Bytes → Bool) (w : W) (ranges : List (Nat × Nat)) :
    told (clear zeroChecker w ranges).2 = told w := by
  induction ranges generalizing w with
  | nil => rfl
  | cons range ranges ih =>
    simp only [clear]
    rw [ih]
    split
    · exact told_read ..
    · rw [told_write, told_read]

theorem told_opened (h : l.opened? = some m₀) : told m₀.guest = told l.guest := by
  obtain ⟨-, hguest⟩ := opened_of_registering (registering_of_opened h) h
  rw [hguest, told_clear]

/-- All ranges were accepted: the watch knows them, and starts unless it refuses to or there is no
reader. -/
structure WatchesAll (l : Loader W) (ranges : List (Nat × Nat)) (v : W) : Prop where
  told_eq : told v = (told l.guest).add ranges
  arm : match l.threads.refusesReader, Guest.arm v with
    | none, .ok w => l.start.1 = none ∧ l.start.2.guest = w ∧
        told w = { (told l.guest).add ranges with armed := true }
    | none, .error cause | some cause, _ => l.start.1 = some (.io cause) ∧ l.start.2.guest = v

/-- A range was refused. The ranges before it have been registered, and that was all: the watch was
not armed, no page was read and none has changed its state. -/
structure BreaksOff (l : Loader W) (m₀ : Load W) (before : List (Nat × Nat)) (r : Nat × Nat)
    (cause : IoError) (v : W) : Prop where
  start : l.start.1 = some (.registerRange r.1 r.2 cause)
  told_eq : told v = (told l.guest).add before
  load : l.start.2.load? = some { m₀ with guest := v }
  fresh : ({ m₀ with guest := v } : Load W).Fresh

omit [WatchLog W] in
theorem start_of_lazy (ho : l.opened? = some m₀) (hl : l.isLazy m₀.guest = true) :
    l.start.1 = (m₀.startBackground l.threads).1 ∧
      l.start.2.load? = some (m₀.startBackground l.threads).2 := by
  obtain ⟨checks, hs⟩ := start_of_opened ho
  have hl' : ({ l with zeroChecks := checks } : Loader W).isLazy m₀.guest = true := hl
  rw [hs]
  simp only [begin, hl', ↓reduceIte]
  exact ⟨trivial, rfl⟩

omit [Guest W] [WatchLog W] in
theorem guest_of_load {m : Load W} (h : l.load? = some m) : l.guest = m.guest := by
  rw [guest, phase_of_load h]

theorem watchesAll (ho : l.opened? = some m₀) (hl : l.isLazy m₀.guest = true) {v : W}
    (h : Load.Registers m₀.guest m₀.index.ranges v) : l.WatchesAll m₀.index.ranges v := by
  obtain ⟨hstart, hload⟩ := start_of_lazy ho hl
  have hranges := h.told
  rw [told_opened ho] at hranges
  refine ⟨hranges, ?_⟩
  rw [guest_of_load hload, hstart]
  cases ht : l.threads.refusesReader with
  | some cause => simp only [Load.startBackground, h.registerAll, ht, and_self]
  | none =>
    cases ha : Guest.arm v with
    | ok w =>
      simp only [Load.startBackground, h.registerAll, ht, ha, told_arm ha, hranges, and_self]
    | error cause => simp only [Load.startBackground, h.registerAll, ht, ha, and_self]

theorem breaksOff (ho : l.opened? = some m₀) (hl : l.isLazy m₀.guest = true) {k : Nat}
    {r : Nat × Nat} {cause : IoError} {v : W}
    (h : Load.RefusesAt m₀.guest m₀.index.ranges k r cause v) :
    l.BreaksOff m₀ (m₀.index.ranges.take k) r cause v := by
  obtain ⟨hstart, hload⟩ := start_of_lazy ho hl
  have hbackground : m₀.startBackground l.threads =
      (some (.registerRange r.1 r.2 cause), { m₀ with guest := v }) := by
    simp only [Load.startBackground, h.registerAll]
  rw [hbackground] at hstart hload
  have hranges := h.before.told
  rw [told_opened ho] at hranges
  exact ⟨hstart, hranges, hload, (opened_fresh ho).1.startBackground hbackground⟩

/--
A lazy start registers one range for each group of pages that have to be read and lie one behind
the other, in index order, and so watches these pages and no others. Where a range is refused the
start fails for it, and has done nothing but register the ranges before it.
-/
theorem lazy_start_watches (ha : RamBlock.Accepted l.blocks) (hb : RamBlock.Disjoint l.blocks)
    (ho : l.opened? = some m₀) (hl : l.isLazy m₀.guest = true) :
    ∃ groups, (∀ gs, m₀.index.Grouping gs ↔ gs = groups) ∧
      m₀.index.Watches (groups.map m₀.index.span) ∧
      ((∃ v, Load.Registers m₀.guest (groups.map m₀.index.span) v) ∨
        ∃ k r cause v, Load.RefusesAt m₀.guest (groups.map m₀.index.span) k r cause v) ∧
      (∀ v, Load.Registers m₀.guest (groups.map m₀.index.span) v →
        l.WatchesAll (groups.map m₀.index.span) v) ∧
      ∀ k r cause v, Load.RefusesAt m₀.guest (groups.map m₀.index.span) k r cause v →
        l.BreaksOff m₀ ((groups.map m₀.index.span).take k) r cause v := by
  obtain ⟨hread, -⟩ := opened_of_registering (registering_of_opened ho) ho
  have hx : m₀.index.Separate := Index.separate_of_read ha hread
  have hb' : RamBlock.Disjoint (m₀.index.blocks.map (·.ram)) := (opened_fresh ho).2 ▸ hb
  have hgroups : m₀.index.Grouping m₀.index.groups := Index.grouping_iff.2 rfl
  refine ⟨m₀.index.groups, fun gs => Index.grouping_iff, hgroups.watches hx hb', ?_, ?_, ?_⟩
  · exact Load.registers_or_refusesAt _ _
  · rw [← Index.ranges_eq]
    exact fun v => watchesAll ho hl
  · rw [← Index.ranges_eq]
    exact fun k r cause v => breaksOff ho hl

def adjoining : Loader PlainWatch :=
  { Loader.ofSource {} (fun _ => false) true
      (.ofBytes (Index.bytesOf 8 20 ++ [1, 2, 3, 4, 5, 6, 7, 8, 9, 10, 11, 12] ++
        Index.encode ⟨0⟩ 0
          [⟨⟨"b", 32, 12, 4⟩, [.stored 4 8, .zero, .stored 4 12], by decide⟩,
            ⟨⟨"a", 44, 4, 2⟩, [.stored 2 16, .stored 2 18], by decide⟩]).toArray)
      { memory := .filled 5, refusesRange := fun k => if k = 1 then some .endOfData else none } with
    blocks := [⟨"a", 44, 4, 2⟩, ⟨"b", 32, 12, 4⟩] }

theorem lazy_start_watches_adjoining : ∃ m₀ v,
    adjoining.opened? = some m₀ ∧ m₀.index.groups = [[0], [2, 3, 4]] ∧
      m₀.index.Watches [(32, 4), (40, 8)] ∧
      adjoining.BreaksOff m₀ [(32, 4)] (40, 8) .endOfData v := by
  let m₀ := adjoining.opened?.get (by decide +kernel)
  have ho : adjoining.opened? = some m₀ := (Option.some_get _).symm
  have ha : RamBlock.Accepted adjoining.blocks := by
    have hone : RamBlock.Accepted [⟨"a", 44, 4, 2⟩] := .snoc .nil (by decide +kernel)
    exact hone.snoc (by decide +kernel)
  have hb : RamBlock.Apart adjoining.blocks := ⟨by decide, by decide⟩
  obtain ⟨groups, hgroups, hwatches, -, -, hrefused⟩ :=
    lazy_start_watches ha hb.disjoint ho (by decide +kernel)
  have hsplit : m₀.index.groups = [[0], [2, 3, 4]] := by decide +kernel
  obtain rfl : m₀.index.groups = groups := (hgroups _).1 (Index.grouping_iff.2 rfl)
  have hranges : m₀.index.groups.map m₀.index.span = [(32, 4), (40, 8)] := by decide +kernel
  rw [hranges] at hwatches hrefused
  have hempty : m₀.guest.ranges = #[] := by decide +kernel
  have haccepts : m₀.guest.refusesRange 0 = none := by decide +kernel
  have hrefuses : m₀.guest.refusesRange 1 = some .endOfData := by decide +kernel
  let v : PlainWatch := { m₀.guest with ranges := #[(32, 4)] }
  have hfirst : Guest.register m₀.guest 32 4 = .ok v := by
    change m₀.guest.register 32 4 = _
    simp only [PlainWatch.register, hempty, List.size_toArray, List.length_nil, haccepts]
    rfl
  have hsecond : Guest.register v 40 8 = .error .endOfData := by
    change v.register 40 8 = _
    simp only [PlainWatch.register, v, List.size_toArray, List.length_singleton, hrefuses]
  exact ⟨m₀, v, ho, hsplit, hwatches,
    hrefused 1 (40, 8) .endOfData v ⟨rfl, .cons hfirst .nil, hsecond⟩⟩

end Loader
end RamRestore
