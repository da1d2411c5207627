import Mathlib.Data.List.Induction
import Mathlib.Data.List.Nodup
import RamRestore.Loader

/-! # Registered blocks

Blocks that a loader accepted have names of their own that fit into a snapshot, and page sizes
that are powers of two.
-/

namespace RamRestore

theorem Text.encode_injective {s t : String} (h : Text.encode s = Text.encode t) : s = t := by
  rw [← String.toByteArray_inj, ← String.utf8Encode_toList, ← String.utf8Encode_toList]
  exact congrArg List.toByteArray h

theorem isPageSize_iff {n : Nat} : isPageSize n = true ↔ ∃ k < 32, n = Nat.pow 2 k := by
  simp only [isPageSize, List.any_eq_true, List.mem_range, beq_iff_eq, @eq_comm _ n]

theorem isPageSize_bounds {n : Nat} (h : isPageSize n = true) : 0 < n ∧ n ≤ 0x80000000 := by
  obtain ⟨k, hk, rfl⟩ := isPageSize_iff.1 h
  have hle : 2 ^ k ≤ 2 ^ 31 := Nat.pow_le_pow_right (by decide) (by omega)
  exact ⟨Nat.two_pow_pos k, hle⟩

namespace RamBlock

/-- Blocks that were registered one after the other. -/
inductive Accepted : List RamBlock → Prop
  | nil : Accepted []
  | snoc {bs : List RamBlock} {b : RamBlock} (h : Accepted bs) (hb : b.refusal? bs = none) :
      Accepted (bs ++ [b])

variable {b : RamBlock} {bs : List RamBlock}

theorem fault_eq_none (h : b.fault? = none) :
    b.name.length ≤ 255 ∧ isPageSize b.pageSize = true ∧ b.start ≠ 0 := by
  unfold fault? at h
  split at h
  · cases h
  · rename_i hlen
    split at h
    · cases h
    · rename_i hsize
      split at h
      · cases h
      · rename_i hstart
        exact ⟨Nat.le_of_not_lt hlen, by simpa using hsize, hstart⟩

theorem refusal_eq_none (h : b.refusal? bs = none) :
    b.name.length ≤ 255 ∧ isPageSize b.pageSize = true ∧ b.start ≠ 0 ∧ ∀ c ∈ bs, c.id ≠ b.id := by
  unfold refusal? at h
  split at h
  · cases h
  · rename_i hf
    obtain ⟨hlen, hsize, hstart⟩ := fault_eq_none hf
    split at h
    · cases h
    · split at h
      · cases h
      · rename_i hid
        exact ⟨hlen, hsize, hstart, by simpa using hid⟩

theorem length_le_of_refusal (h : b.refusal? bs = none) : bs.length ≤ 65535 := by
  unfold refusal? at h
  split at h
  · cases h
  · split at h
    · cases h
    · omega

namespace Accepted

theorem refusal {as cs : List RamBlock} (h : Accepted cs) (hc : cs = as ++ b :: bs) :
    b.refusal? as = none := by
  induction h generalizing bs with
  | nil => simp at hc
  | @snoc ds d _ hd ih =>
    rcases List.eq_nil_or_concat bs with rfl | ⟨es, e, rfl⟩
    · obtain ⟨rfl, hb⟩ := List.append_inj' hc rfl
      cases hb
      exact hd
    · rw [List.concat_eq_append, ← List.cons_append, ← List.append_assoc] at hc
      exact ih (List.append_inj' hc rfl).1

theorem name_length_le (h : Accepted bs) (hb : b ∈ bs) : b.name.length ≤ 255 := by
  obtain ⟨as, cs, hc⟩ := List.append_of_mem hb
  exact (refusal_eq_none (h.refusal hc)).1

theorem isPageSize (h : Accepted bs) (hb : b ∈ bs) : isPageSize b.pageSize = true := by
  obtain ⟨as, cs, hc⟩ := List.append_of_mem hb
  exact (refusal_eq_none (h.refusal hc)).2.1

theorem ids_nodup (h : Accepted bs) : (bs.map (·.id)).Nodup := by
  induction h with
  | nil => simp
  | snoc _ hr ih =>
    simp only [List.map_append, List.map_cons, List.map_nil]
    refine List.nodup_append.2 ⟨ih, by simp, ?_⟩
    intro s hs t ht
    obtain ⟨c, hc, rfl⟩ := List.mem_map.1 hs
    obtain rfl := List.mem_singleton.1 ht
    exact (refusal_eq_none hr).2.2.2 c hc

theorem names_nodup (h : Accepted bs) : (bs.map (·.name)).Nodup := by
  have hm : bs.map (·.name) = (bs.map (·.id)).map Text.encode := by
    simp [RamBlock.name, Function.comp_def]
  rw [hm]
  exact List.Pairwise.map _ (fun s t hne he => hne (Text.encode_injective he)) h.ids_nodup

theorem nodup (h : Accepted bs) : bs.Nodup := List.Nodup.of_map _ h.ids_nodup

theorem length_le (h : Accepted bs) : bs.length ≤ 0x10000 := by
  cases h with
  | nil => decide
  | snoc _ hr =>
    have := length_le_of_refusal hr
    simp only [List.length_append, List.length_singleton]
    omega

theorem fault_eq_none (h : Accepted bs) (hb : b ∈ bs) : b.fault? = none := by
  obtain ⟨as, cs, hc⟩ := List.append_of_mem hb
  have hr := h.refusal hc
  unfold refusal? at hr
  split at hr
  · cases hr
  · assumption

/-- Blocks that are sound by themselves, have names of their own and are not too many. -/
theorem of_nodup (hf : ∀ b ∈ bs, b.fault? = none) (hn : (bs.map (·.id)).Nodup)
    (hl : bs.length ≤ 0x10000) : Accepted bs := by
  induction bs using List.reverseRecOn with
  | nil => exact .nil
  | append_singleton bs b ih =>
    rw [List.map_append, List.nodup_append] at hn
    rw [List.length_append, List.length_singleton] at hl
    have hown : bs.any (·.id == b.id) = false := by
      simp only [List.any_eq_false, beq_iff_eq]
      intro c hc he
      exact hn.2.2 c.id (List.mem_map_of_mem hc) b.id (by simp) he
    refine .snoc (ih (fun c hc => hf c (List.mem_append_left _ hc)) hn.1 (by omega)) ?_
    rw [refusal?, hf b (by simp), hown]
    simp only [if_neg (by omega : ¬ 65535 < bs.length), Bool.false_eq_true, ↓reduceIte]

theorem perm {cs : List RamBlock} (h : Accepted bs) (hp : bs.Perm cs) : Accepted cs :=
  of_nodup (fun _ hb => h.fault_eq_none (hp.mem_iff.2 hb)) ((hp.map _).nodup_iff.1 h.ids_nodup)
    (hp.length_eq ▸ h.length_le)

end Accepted
end RamBlock

namespace Loader

variable {W : Type} {l l' : Loader W} {b : RamBlock} {bs : List RamBlock}

def registerAll (l : Loader W) (bs : List RamBlock) : Except LoadError (Loader W) :=
  bs.foldlM register l

theorem register_ok (h : l.register b = .ok l') :
    l.started = false ∧ b.refusal? l.blocks = none ∧ l' = { l with blocks := l.blocks ++ [b] } := by
  unfold register at h
  split at h
  · cases h
  · rename_i hs
    split at h
    · cases h
    · rename_i hr
      cases h
      exact ⟨by simpa using hs, hr, rfl⟩

theorem registerAll_ok (hl : RamBlock.Accepted l.blocks) (h : l.registerAll bs = .ok l') :
    RamBlock.Accepted l'.blocks ∧ l' = { l with blocks := l.blocks ++ bs } := by
  unfold registerAll at h
  induction bs generalizing l with
  | nil =>
    cases h
    exact ⟨hl, by simp⟩
  | cons b bs ih =>
    rw [List.foldlM_cons] at h
    cases hr : l.register b with
    | error cause =>
      rw [hr] at h
      cases h
    | ok k =>
      rw [hr] at h
      obtain ⟨-, hb, rfl⟩ := register_ok hr
      obtain ⟨ha, rfl⟩ := ih (.snoc hl hb) h
      exact ⟨ha, by simp⟩

theorem registerAll_of_accepted (hl : RamBlock.Accepted (l.blocks ++ bs))
    (hs : l.started = false) : l.registerAll bs = .ok { l with blocks := l.blocks ++ bs } := by
  unfold registerAll
  induction bs generalizing l with
  | nil => simp [pure, Except.pure]
  | cons b bs ih =>
    have hone : l.register b = .ok { l with blocks := l.blocks ++ [b] } := by
      simp [register, hs, hl.refusal rfl]
    rw [List.foldlM_cons, hone]
    have hrest := ih (l := { l with blocks := l.blocks ++ [b] }) (by simpa using hl) hs
    simpa [bind, Except.bind] using hrest

end Loader
end RamRestore
