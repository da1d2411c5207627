import RamRestore.Proofs.Source
import RamRestore.Source.Transfer

/-! # What a transfer brings

A transfer holds nothing but data of the source from its own position on, and one that stops
full holds all that it was after. How a transfer ends hangs only on what the source replies
when it is not interrupted, so it does not matter in which steps the transfer was made.
-/

namespace RamRestore

namespace Transfer

variable {t t' : Transfer} {s s' : Source} {c : ReadCall} {got : Bytes} {stop : Stop}

/-- What a transfer is after, it has from the data at its position. -/
structure Holds (t : Transfer) (data : Bytes) : Prop where
  got_size_le : t.got.size ≤ t.size
  got_eq : t.got = data.extract t.position (t.position + t.got.size)

theorem Holds.append {data b : Bytes} (h : t.Holds data) (hb : b.size ≤ t.wanted)
    (he : b = data.extract t.offset (t.offset + b.size)) :
    Holds { t with got := t.got ++ b } data := by
  have := h.got_size_le
  unfold wanted at hb
  constructor
  · simp only [Array.size_append]
    omega
  · have hj : data.extract t.position (t.position + t.got.size) ++
        data.extract t.offset (t.offset + b.size) =
        data.extract t.position (t.position + (t.got.size + b.size)) := by
      simp only [offset, Array.extract_append_extract]
      congr 1 <;> omega
    simp only [Array.size_append]
    rw [← hj, ← h.got_eq, ← he]

theorem call_going_cases (h : t.call s = (c, .going t')) :
    t' = t ∨ ∃ b, s.reply t.offset t.wanted = .ok b ∧ b.size ≠ 0 ∧
      (t.got ++ b).size < t.size ∧ t' = { t with got := t.got ++ b } := by
  rcases s.answer_cases t.offset t.wanted with ha | ⟨cause, -, ha⟩ | ⟨b, hb, ha⟩
  · simp only [call, ha, Prod.mk.injEq, Progress.going.injEq] at h
    exact .inl h.2.symm
  · simp [call, ha] at h
  · simp only [call, ha, Prod.mk.injEq] at h
    obtain ⟨-, h⟩ := h
    split at h
    · simp at h
    · split at h
      · rename_i hz hlt
        simp only [Progress.going.injEq] at h
        exact .inr ⟨b, hb, hz, hlt, h.symm⟩
      · simp at h

theorem call_stopped_cases (h : t.call s = (c, .stopped got stop)) :
    (∃ cause, s.reply t.offset t.wanted = .error cause ∧ got = t.got ∧ stop = .failed cause) ∨
      ∃ b, s.reply t.offset t.wanted = .ok b ∧
        (b.size = 0 ∧ got = t.got ∧ stop = .short ∨
          b.size ≠ 0 ∧ t.size ≤ (t.got ++ b).size ∧ got = t.got ++ b ∧ stop = .full) := by
  rcases s.answer_cases t.offset t.wanted with ha | ⟨cause, hc, ha⟩ | ⟨b, hb, ha⟩
  · simp [call, ha] at h
  · simp only [call, ha, Prod.mk.injEq, Progress.stopped.injEq] at h
    exact .inl ⟨cause, hc, h.2.1.symm, h.2.2.symm⟩
  · refine .inr ⟨b, hb, ?_⟩
    simp only [call, ha, Prod.mk.injEq] at h
    obtain ⟨-, h⟩ := h
    split at h
    · rename_i hz
      simp only [Progress.stopped.injEq] at h
      exact .inl ⟨hz, h.1.symm, h.2.symm⟩
    · split at h
      · simp at h
      · rename_i hz hle
        simp only [Progress.stopped.injEq] at h
        exact .inr ⟨hz, Nat.le_of_not_lt hle, h.1.symm, h.2.symm⟩

theorem Holds.going (ht : t.Holds s.data) (h : t.call s = (c, .going t')) : t'.Holds s.data := by
  rcases call_going_cases h with rfl | ⟨b, hb, -, -, rfl⟩
  · exact ht
  · obtain ⟨hle, he⟩ := Source.reply_ok hb
    exact ht.append hle he

theorem size_of_full (hle : t.got.size ≤ t.size) (h : t.call s = (c, .stopped got .full)) :
    got.size = t.size := by
  rcases call_stopped_cases h with ⟨_, -, -, hf⟩ | ⟨b, hb, ⟨-, -, hf⟩ | ⟨-, hge, rfl, -⟩⟩
  · cases hf
  · cases hf
  · obtain ⟨hb', -⟩ := Source.reply_ok hb
    unfold wanted at hb'
    simp only [Array.size_append] at hge ⊢
    omega

theorem Holds.full (ht : t.Holds s.data) (h : t.call s = (c, .stopped got .full)) :
    got.size = t.size ∧ got = s.data.extract t.position (t.position + t.size) := by
  rcases call_stopped_cases h with ⟨_, -, -, hf⟩ | ⟨b, hb, ⟨-, -, hf⟩ | ⟨-, hle, rfl, -⟩⟩
  · cases hf
  · cases hf
  · obtain ⟨hle', he⟩ := Source.reply_ok hb
    have ha := ht.append hle' he
    have hs : (t.got ++ b).size = t.size := Nat.le_antisymm ha.got_size_le hle
    exact ⟨hs, hs ▸ ha.got_eq⟩

/-- How a transfer ends when none of its reads is interrupted. -/
def result (t : Transfer) (s : Source) : Bytes × Stop :=
  if t.size ≤ t.got.size then (t.got, .full)
  else match s.reply t.offset t.wanted with
    | .error cause => (t.got, .failed cause)
    | .ok b =>
      if b.size = 0 then (t.got, .short) else result { t with got := t.got ++ b } s
termination_by t.size - t.got.size
decreasing_by
  simp only [Array.size_append]
  omega

theorem result_going (h : t.call s = (c, .going t')) : t'.result s = t.result s := by
  rcases call_going_cases h with rfl | ⟨b, hb, hz, hlt, rfl⟩
  · rfl
  · have hn : ¬ t.size ≤ t.got.size := by
      simp only [Array.size_append] at hlt
      omega
    rw [result.eq_1 t, if_neg hn]
    simp only [hb, hz, ↓reduceIte]

theorem result_stopped (hn : t.got.size < t.size) (h : t.call s = (c, .stopped got stop)) :
    t.result s = (got, stop) := by
  have hn' : ¬ t.size ≤ t.got.size := Nat.not_le_of_lt hn
  rw [result, if_neg hn']
  rcases call_stopped_cases h with ⟨cause, hc, rfl, rfl⟩ | ⟨b, hb, h⟩
  · simp only [hc]
  · rcases h with ⟨hz, rfl, rfl⟩ | ⟨hz, hle, rfl, rfl⟩
    · simp only [hb, hz, ↓reduceIte]
    · simp only [hb, hz, ↓reduceIte]
      rw [result, if_pos hle]

theorem result_of_full (h : t.size ≤ t.got.size) : t.result s = (t.got, .full) := by
  rw [result, if_pos h]

theorem result_of_reply {b : Bytes} (hlt : t.got.size < t.size)
    (h : s.reply t.offset t.wanted = .ok b) (hle : t.size ≤ t.got.size + b.size) :
    t.result s = (t.got ++ b, .full) := by
  have hz : b.size ≠ 0 := by omega
  have hn : ¬ t.size ≤ t.got.size := Nat.not_le_of_lt hlt
  rw [result, if_neg hn]
  simp only [h, hz, ↓reduceIte]
  rw [result_of_full]
  rwa [Array.size_append]

theorem result_of_end (hlt : t.got.size < t.size) (h : s.reply t.offset t.wanted = .ok #[]) :
    t.result s = (t.got, .short) := by
  have hn : ¬ t.size ≤ t.got.size := Nat.not_le_of_lt hlt
  rw [result, if_neg hn]
  simp only [h]
  rfl

theorem result_congr (h : Source.SameAnswers s s') (t : Transfer) : t.result s' = t.result s := by
  fun_induction result t s with
  | case1 t hle => rw [result, if_pos hle]
  | case2 t hle cause hc => rw [result, if_neg hle, h.reply, hc]
  | case3 t hle b hb hz => rw [result, if_neg hle, h.reply, hb]; simp only [hz, ↓reduceIte]
  | case4 t hle b hb hz ih =>
    rw [result, if_neg hle, h.reply, hb]
    simp only [hz, ↓reduceIte]
    exact ih

theorem sameAnswers_run (t : Transfer) (s : Source) : Source.SameAnswers s (t.run s).source := by
  fun_induction run t s with
  | case1 => exact .refl _
  | case2 => exact Source.sameAnswers_after _ _
  | case3 t s _ c t' h o ih => exact (Source.sameAnswers_after s t.offset).trans ih

theorem size_result_le (h : t.got.size ≤ t.size) : (t.result s).1.size ≤ t.size := by
  fun_induction result t s with
  | case1 => exact h
  | case2 => exact h
  | case3 => exact h
  | case4 t hn b hb hz ih =>
    obtain ⟨hb', -⟩ := Source.reply_ok hb
    unfold wanted at hb'
    apply ih
    simp only [Array.size_append]
    omega

/-- A whole transfer ends as it would if none of its reads were interrupted. -/
theorem run_eq_result (t : Transfer) (s : Source) :
    ((t.run s).got, (t.run s).stop) = t.result s := by
  fun_induction run t s with
  | case1 t s hle => rw [result_of_full hle]
  | case2 t s hle c got stop h => rw [result_stopped (Nat.lt_of_not_le hle) h]
  | case3 t s hle c t' h o ih =>
    rw [ih, result_congr (Source.sameAnswers_after s t.offset), result_going h]

theorem Holds.result_full (ht : t.Holds s.data) (h : t.result s = (got, .full)) :
    got.size = t.size ∧ got = s.data.extract t.position (t.position + t.size) := by
  fun_induction result t s with
  | case1 t hle =>
    simp only [Prod.mk.injEq, and_true] at h
    subst h
    have hs : t.got.size = t.size := Nat.le_antisymm ht.got_size_le hle
    exact ⟨hs, hs ▸ ht.got_eq⟩
  | case2 => simp at h
  | case3 => simp at h
  | case4 t hle b hb hz ih =>
    obtain ⟨hle', he⟩ := Source.reply_ok hb
    exact ih (ht.append hle' he) h

theorem Holds.result_of_serves {data : Bytes} (ht : t.Holds data) (hs : s.Serves data)
    (hle : t.position + t.size ≤ data.size) :
    t.result s = (data.extract t.position (t.position + t.size), .full) := by
  have hreply : ∀ offset wanted, offset + wanted ≤ data.size →
      s.reply offset wanted = .ok (data.extract offset (offset + min wanted (s.most offset))) := by
    intro offset wanted h
    simp only [Source.reply, hs.failure offset wanted (by omega), hs.data]
  fun_induction result t s with
  | case1 t hfull =>
    rw [← Nat.le_antisymm ht.got_size_le hfull, ← ht.got_eq]
  | case2 t hn cause hc =>
    rw [hreply _ _ (by unfold offset wanted; omega)] at hc
    cases hc
  | case3 t hn b hb hz =>
    have hlt : t.offset < data.size := by unfold offset; omega
    have hmost := hs.most t.offset hlt
    rw [hreply _ _ (by unfold offset wanted; omega)] at hb
    cases hb
    simp only [Array.size_extract] at hz
    unfold wanted at hz
    omega
  | case4 t hn b hb hz ih =>
    obtain ⟨hle', he⟩ := Source.reply_ok hb
    rw [hs.data] at he
    exact ih (ht.append hle' he) hle

theorem delays_add (s : Source) (offset m n : Nat) :
    delays s offset (m + n) = delays s offset m + delays s (offset + m) n := by
  induction n with
  | zero => rfl
  | succ n ih =>
    rw [← Nat.add_assoc, delays, delays, ih, Nat.add_assoc offset m n]
    omega

theorem delays_mono (h : ∀ o, s'.interruptions.get o ≤ s.interruptions.get o) (offset n : Nat) :
    delays s' offset n ≤ delays s offset n := by
  induction n with
  | zero => exact Nat.le_refl 0
  | succ n ih => exact Nat.add_le_add ih (h _)

def readsLeft (t : Transfer) (s : Source) : Nat :=
  t.wanted + delays s t.offset (t.wanted + 1)

theorem readsLeft_mono (h : ∀ o, s'.interruptions.get o ≤ s.interruptions.get o)
    (t : Transfer) : t.readsLeft s' ≤ t.readsLeft s :=
  Nat.add_le_add_left (delays_mono h _ _) _

theorem readsLeft_going (h : t.call s = (c, .going t')) :
    t'.readsLeft (s.after t.offset) < t.readsLeft s := by
  have hp := position_of_going h
  obtain ⟨hs, ⟨h₁, h₂⟩ | ⟨rfl, h₂⟩⟩ := call_going h
  · -- the rest of the transfer is a part of what was left of it
    obtain ⟨d, hd⟩ := Nat.exists_eq_add_of_lt h₁
    have hoffset : t'.offset = t.offset + (d + 1) := by
      simp only [offset]
      omega
    have hwanted : t.wanted + 1 = (d + 1) + (t'.wanted + 1) := by
      simp only [wanted]
      omega
    have hafter := delays_after_le s t'.offset t.offset (t'.wanted + 1)
    have hadd := delays_add s t.offset (d + 1) (t'.wanted + 1)
    rw [← hoffset] at hadd
    unfold readsLeft
    rw [hwanted, hadd]
    omega
  · have := delays_after_lt (k := 0) (n := t'.wanted + 1) (Nat.succ_pos _) h₂
    exact Nat.add_lt_add_left this _

end Transfer
end RamRestore
