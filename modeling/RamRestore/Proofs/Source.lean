import RamRestore.Source

/-! # Answers of a source

What a source replies when it is not interrupted is the same every time, and reading from it
changes nothing but the interruptions that are left.
-/

namespace RamRestore

namespace Source

/-- What a read returns that is not interrupted. -/
def reply (s : Source) (offset wanted : Nat) : Except IoError Bytes :=
  match s.failure offset wanted with
  | some cause => .error cause
  | none => .ok (s.data.extract offset (offset + min wanted (s.most offset)))

/-- Two sources answer every read in the same way, interruptions aside. -/
structure SameAnswers (s s' : Source) : Prop where
  data : s'.data = s.data
  most : s'.most = s.most
  failure : s'.failure = s.failure

theorem SameAnswers.refl (s : Source) : SameAnswers s s := ⟨rfl, rfl, rfl⟩

theorem SameAnswers.trans {s s' s'' : Source} (h : SameAnswers s s') (h' : SameAnswers s' s'') :
    SameAnswers s s'' :=
  ⟨h'.data.trans h.data, h'.most.trans h.most, h'.failure.trans h.failure⟩

theorem SameAnswers.symm {s s' : Source} (h : SameAnswers s s') : SameAnswers s' s :=
  ⟨h.data.symm, h.most.symm, h.failure.symm⟩

theorem sameAnswers_after (s : Source) (offset : Nat) : SameAnswers s (s.after offset) :=
  ⟨rfl, rfl, rfl⟩

theorem SameAnswers.reply {s s' : Source} (h : SameAnswers s s') : s'.reply = s.reply := by
  funext offset wanted
  simp only [Source.reply, h.data, h.most, h.failure]

theorem answer_cases (s : Source) (offset wanted : Nat) :
    s.answer offset wanted = .interrupted ∨
      (∃ cause, s.reply offset wanted = .error cause ∧ s.answer offset wanted = .failed cause) ∨
      ∃ b, s.reply offset wanted = .ok b ∧ s.answer offset wanted = .bytes b := by
  unfold answer reply
  by_cases hi : 0 < s.interruptions.get offset
  · simp [hi]
  · cases s.failure offset wanted <;> simp [hi]

theorem reply_ok {s : Source} {offset wanted : Nat} {b : Bytes}
    (h : s.reply offset wanted = .ok b) :
    b.size ≤ wanted ∧ b = s.data.extract offset (offset + b.size) := by
  unfold reply at h
  split at h
  · simp at h
  · simp only [Except.ok.injEq] at h
    subst h
    have hs : (s.data.extract offset (offset + min wanted (s.most offset))).size =
        min (offset + min wanted (s.most offset)) s.data.size - offset := Array.size_extract
    refine ⟨by omega, ?_⟩
    rw [hs]
    apply Array.ext
    · simp only [Array.size_extract]
      omega
    · intro i _ _
      simp

theorem sameAnswers_afterStream (s : Source) (offset count : Nat) :
    SameAnswers s (s.afterStream offset count) := by
  fun_induction afterStream s offset count with
  | case1 => exact .refl _
  | case2 => exact ⟨rfl, rfl, rfl⟩
  | case3 s offset count hc s' hs ih =>
    have h : SameAnswers s s' := ⟨rfl, rfl, rfl⟩
    exact h.trans ih

/-- What a stream brings hangs on the answers alone. -/
theorem SameAnswers.stream {s s' : Source} (h : SameAnswers s s') (offset : Nat) :
    s'.stream offset = s.stream offset := by
  have hw : ∀ offset, s'.windowSize offset = s.windowSize offset := fun offset => by
    simp only [windowSize, h.data, h.most]
  fun_induction Source.stream s offset with
  | case1 offset cause hc =>
    rw [Source.stream, h.failure, hc]
  | case2 offset hc hz =>
    rw [Source.stream, h.failure, hc]
    simp only [hw, hz, ↓reduceIte]
  | case3 offset hc hz bytes ending hs ih =>
    rw [Source.stream, h.failure, hc]
    simp only [hw, hz, ↓reduceIte, ih, hs, h.data]

/-- A source that has these bytes, and that gives some of them whenever it is asked for them. -/
structure Serves (s : Source) (bytes : Bytes) : Prop where
  data : s.data = bytes
  most : ∀ offset < bytes.size, 0 < s.most offset
  failure : ∀ offset wanted, offset + wanted ≤ bytes.size + window → s.failure offset wanted = none

theorem serves_ofBytes (data : Bytes) : (ofBytes data).Serves data where
  data := rfl
  most _ h := Nat.zero_lt_of_lt h
  failure _ _ _ := rfl

theorem Serves.congr {s s' : Source} {data : Bytes} (h : s.Serves data) (hs : SameAnswers s s') :
    s'.Serves data where
  data := hs.data.trans h.data
  most offset hlt := by
    rw [hs.most]
    exact h.most offset hlt
  failure offset wanted hle := by
    rw [hs.failure]
    exact h.failure offset wanted hle

/-- A stream from a source that serves its bytes brings all of them. -/
theorem Serves.stream {s : Source} {data : Bytes} (h : s.Serves data) {offset : Nat}
    (hle : offset ≤ data.size) : s.stream offset = (data.toList.drop offset, .endOfData) := by
  have hw : s.windowSize offset ≤ data.size - offset := by
    rw [windowSize, h.data]
    omega
  fun_induction Source.stream s offset with
  | case1 offset cause hc =>
    rw [h.failure offset window (by omega)] at hc
    cases hc
  | case2 offset hc hz =>
    have hge : data.size ≤ offset := by
      apply Nat.le_of_not_lt
      intro hlt
      have hm := h.most offset hlt
      rw [windowSize, h.data] at hz
      unfold window at hz
      omega
    rw [List.drop_eq_nil_of_le (by simpa using hge)]
  | case3 offset hc hz bytes ending hs ih =>
    have hle' : offset + s.windowSize offset ≤ data.size := by omega
    have hrest := ih hle' (by rw [windowSize, h.data]; omega)
    rw [hs, Prod.mk.injEq] at hrest
    obtain ⟨rfl, rfl⟩ := hrest
    rw [h.data, Array.toList_extract, List.extract_eq_take_drop, Nat.add_sub_cancel_left,
      ← List.drop_drop, List.take_append_drop]

end Source
end RamRestore
