import RamRestore.Paging
import RamRestore.Proofs.Confinement
import RamRestore.Proofs.Load.Agreement
import RamRestore.Proofs.Load.Failures
import RamRestore.Proofs.Restore

/-! # Eager loads and the watch

An eager load only reads and writes memory. What the watch over that memory would do makes no
difference to it, so what eager loads come to also holds of memory that can be trapped.
-/

namespace RamRestore

/-- The same memory, under a watch that lets everything pass. -/
@[reducible]
def Guest.unwatched {W : Type} (g : Guest W) : Guest W :=
  { g with
    register := fun w _ _ => .ok w
    arm := .ok
    place := fun w address data => (none, g.write w address data) }

section

variable {W : Type} (g : Guest W)

namespace Load

theorem readInPlace_unwatched : @readInPlace W g.unwatched = @readInPlace W g := rfl

theorem unpackInPlace_unwatched : @unpackInPlace W g.unwatched = @unpackInPlace W g := rfl

theorem loadInline_unwatched (l : Load W) (is : List Nat) :
    @loadInline W g.unwatched l is = @loadInline W g l is := by
  induction is generalizing l with
  | nil => rfl
  | cons i is ih =>
    simp only [loadInline, readInPlace_unwatched, unpackInPlace_unwatched, ih]

variable {l m : Load W} {config : Config} {threads : Threads} {failure : Option LoadError}

theorem ReadsAll.unwatched {order : List Nat} {workers : Option Nat} {returned : Option LoadError}
    (h : @ReadsAll W g l order workers returned m) :
    @ReadsAll W g.unwatched l order workers returned m := by
  cases h with
  | inline h => exact @ReadsAll.inline W g.unwatched _ _ _ _ ((loadInline_unwatched g l _).trans h)
  | pooled h ho =>
    -- feeding and working are the same functions
    exact @ReadsAll.pooled W g.unwatched _ _ _ _ _ h ho

theorem LoadsEagerly.unwatched (h : @LoadsEagerly W g l config threads failure m) :
    @LoadsEagerly W g.unwatched l config threads failure m := by
  obtain ⟨order, ho, hw, returned, l', hr, hc⟩ := h
  exact ⟨order, @LoadsInOrder.mk W g.unwatched _ _ _ _ _ _ ho hw ⟨returned, l', hr.unwatched g, hc⟩⟩

end Load

namespace Loader

theorem clear_unwatched (zeroChecker : Bytes → Bool) (w : W) (ranges : List (Nat × Nat)) :
    @clear W g.unwatched zeroChecker w ranges = @clear W g zeroChecker w ranges := by
  induction ranges generalizing w with
  | nil => rfl
  | cons r ranges ih =>
    simp only [clear]
    rw [ih]
    rfl

end Loader
end

namespace Trap

/-- A trap is no lawful guest: it drops pages for memory that was given back. A load that places no
pages cannot tell. -/
@[reducible]
def plainly : Guest Trap := Guest.unwatched inferInstance

@[reducible]
def lawful : @LawfulGuest Trap plainly :=
  letI := plainly
  { byte t := t.memory.get
    byte_register h := by
      cases h
      rfl
    byte_arm h := by
      cases h
      rfl
    byte_accept {t _ a data} h := by
      cases h
      exact t.memory.get_write a data
    byte_refuse := nofun
    read_eq _ _ _ := rfl
    byte_read _ _ _ := rfl
    byte_write t a data := t.memory.get_write a data
    byte_spoil t start length data a h := by
      have hd : ((t.leftover data).extract 0 length).size ≤ length := by
        rw [Array.size_extract]
        omega
      exact Copied.outside (t.memory.get_write start _) hd h }

theorem switches_of_within {P : Nat → Nat → Prop} {t t' : Trap}
    (h : @Within Trap plainly P t t') : t'.available = t.available ∧ t'.armed = t.armed := by
  induction h with
  | refl => exact ⟨rfl, rfl⟩
  | read _ _ ih | write _ _ _ ih | spoil _ _ ih | place _ _ ih => exact ih
  | register _ _ hr ih =>
    cases hr
    exact ih
  | arm _ ha ih =>
    cases ha
    exact ih

end Trap

theorem Load.settle_of_ended {W : Type} {l : Load W} (h : l.reader = .ended) : l.settle = l := by
  have hstep : l.readerStep? = none := by
    unfold readerStep?
    rw [h]
  unfold settle
  split
  · rfl
  · rename_i hs
    rw [hstep] at hs
    cases hs

theorem Handler.settle_of_quiet {P F : Type} [Pager P F] {h : Handler P F} (hr : h.rest = h)
    (hq : h.isQuiet = true) : h.settle = h := by
  simp only [settle, hr, faults, Nat.add_comm 1, ← Nat.add_assoc, Nat.add_right_comm _ 1]
  simp only [run, hq, ↓reduceIte]

namespace Loader

variable {l : Loader Trap} {source : Source} {t : Trap} {m₀ m : Load Trap}
  {failure : Option LoadError}

theorem within_opened (hp : l.phase = .registering source t) (ho : l.opened? = some m₀) :
    @Within Trap Trap.plainly (fun _ _ => True) t m₀.guest := by
  obtain ⟨-, hg⟩ := opened_of_registering hp ho
  rw [hg, ← clear_unwatched]
  let := Trap.plainly
  exact Within.refl.clear fun _ _ => trivial

theorem StartsEagerly.within (hp : l.phase = .registering source t)
    (h : l.StartsEagerly failure m) : @Within Trap Trap.plainly (fun _ _ => True) t m.guest := by
  obtain ⟨m₀, ho, -, hm⟩ := h
  obtain ⟨hf, -⟩ := opened_fresh ho
  have hg := within_opened hp ho
  obtain ⟨order, hi, -, returned, l', hr, hc⟩ := hm.unwatched
  let := Trap.plainly
  obtain ⟨rest, hs, -⟩ := hr.sweeps
  cases hc
  exact (hs.keep (P := Load.SweepWithin _ _) (fun _ _ hs hx => hx.step hs)
    (hf.sweepWithin (fun _ _ => trivial) hg hi)).guest

theorem get_opened (hp : l.phase = .registering source t) (ho : l.opened? = some m₀)
    (hz : ∀ bytes, l.zeroChecker bytes = isZero bytes) (ht : ∀ a, t.memory.get a = 0) (a : Nat) :
    m₀.guest.memory.get a = 0 := by
  obtain ⟨-, hg⟩ := opened_of_registering hp ho
  rw [hg, ← clear_unwatched]
  let := Trap.plainly
  let := Trap.lawful
  refine (byte_clear hz t _ a).trans ?_
  split
  · rfl
  · exact ht a

/-- Nothing is left to happen after an eager load. -/
theorem StartsEagerly.settle (hp : l.phase = .registering source t) (ht : t.armed = false)
    (h : l.StartsEagerly failure m) {k : Loader Trap} (hk : k.phase = .loading m) :
    (PagedLoader.ofLoader k).settle = PagedLoader.ofLoader k := by
  obtain ⟨-, harmed⟩ := Trap.switches_of_within (h.within hp)
  have hm := Load.settle_of_ended h.unattended.reader
  apply Handler.settle_of_quiet
  · have hrest : k.onLoad Load.settle = k := by
      simp only [onLoad, hk, hm]
      rw [← hk]
    exact congrArg PagedLoader.ofLoader hrest
  · have hguest : k.guest = m.guest := by simp only [guest, hk]
    simp only [Handler.isQuiet, Handler.trap, PagedLoader.ofLoader, Pager.trap, hguest, harmed, ht,
      Bool.not_false, Bool.true_or]

end Loader
end RamRestore
