import RamRestore.Protocol

/-! # One owner at a time

Whatever the order of their steps, at most one actor has claimed a page at any time. Only an
owner parks contents or takes them, there are contents wherever they are looked for, and the
page is handed to the guest once at most.
-/

namespace RamRestore.Protocol

def Point.owning : Point → Bool
  | .reading | .failing | .parking _ | .publishing | .announcing _ => true
  | .taking | .losing | .filling _ | .storing _ => true
  | _ => false

/-- What holds of the page while an actor is here. -/
def Point.Fits (p : Point) (s : Shared) (log : List (Actor × Act)) : Prop :=
  match p with
  | .reading | .failing | .parking _ | .announcing _ =>
    s.state = .reading ∧ s.parked = none ∧ puts log = 0 ∧ takes log = 0 ∧ fills log = 0
  | .publishing => s.state = .reading ∧ s.parked ≠ none ∧ takes log = 0 ∧ fills log = 0
  | .taking => s.state = .filling ∧ s.parked ≠ none ∧ takes log = 0 ∧ fills log = 0
  | .losing => False
  | .filling _ => s.state = .filling ∧ s.parked = none ∧ fills log = 0
  | .storing _ => s.state = .filling ∧ s.parked = none
  | .returning true => s.state = .filled
  | _ => True

structure Tidy (s : Shared) (log : List (Actor × Act)) : Prop where
  empty : s.state = .empty → s.parked = none ∧ puts log = 0 ∧ takes log = 0 ∧ fills log = 0
  read : s.state = .read → s.parked ≠ none ∧ takes log = 0 ∧ fills log = 0
  puts_le : puts log ≤ 1
  takes_le : takes log ≤ 1
  fills_le : fills log ≤ 1

theorem tidy_of_ne {s : Shared} {log : List (Actor × Act)} (he : s.state ≠ .empty)
    (hr : s.state ≠ .read) (hp : puts log ≤ 1) (ht : takes log ≤ 1) (hf : fills log ≤ 1) :
    Tidy s log :=
  ⟨fun h => absurd h he, fun h => absurd h hr, hp, ht, hf⟩

@[simp] theorem puts_cons (x : Actor × Act) (log : List (Actor × Act)) :
    puts (x :: log) = puts log + if x.2.isPut then 1 else 0 := by
  simp [puts, List.countP_cons]

@[simp] theorem takes_cons (x : Actor × Act) (log : List (Actor × Act)) :
    takes (x :: log) = takes log + if x.2.isTake then 1 else 0 := by
  simp [takes, List.countP_cons]

@[simp] theorem fills_cons (x : Actor × Act) (log : List (Actor × Act)) :
    fills (x :: log) = fills log + if x.2.isFill then 1 else 0 := by
  simp [fills, List.countP_cons]

/-- What holds between a page and everybody who acts on it. -/
structure Sound (c : Scene) : Prop where
  tidy : Tidy c.shared c.log
  fits : ∀ a, (c.point a).Fits c.shared c.log
  owns : ∀ a, Owns a c.log = (c.point a).owning
  sole : ∀ a b, (c.point a).owning → (c.point b).owning → a = b

structure SameCounts (log log' : List (Actor × Act)) : Prop where
  puts : puts log' = puts log
  takes : takes log' = takes log
  fills : fills log' = fills log

theorem Point.Fits.congr {p : Point} {s s' : Shared} {log log' : List (Actor × Act)}
    (h : p.Fits s log) (hs : s'.slot = s.slot) (hl : SameCounts log log') : p.Fits s' log' := by
  simpa only [Fits, Shared.state, Shared.parked, hs, hl.puts, hl.takes, hl.fills] using h

theorem Tidy.congr {s s' : Shared} {log log' : List (Actor × Act)} (h : Tidy s log)
    (hs : s'.slot = s.slot) (hl : SameCounts log log') : Tidy s' log' where
  empty := by
    simpa only [Shared.state, Shared.parked, hs, hl.puts, hl.takes, hl.fills] using h.empty
  read := by
    simpa only [Shared.state, Shared.parked, hs, hl.takes, hl.fills] using h.read
  puts_le := hl.puts ▸ h.puts_le
  takes_le := hl.takes ▸ h.takes_le
  fills_le := hl.fills ▸ h.fills_le

theorem sound_start : Sound {} where
  tidy := ⟨fun _ => ⟨rfl, rfl, rfl, rfl⟩, nofun, Nat.zero_le _, Nat.zero_le _, Nat.zero_le _⟩
  fits _ := trivial
  owns _ := rfl
  sole a b h := by simp [Point.owning] at h

section

variable {a b : Actor} {act : Option Act} {c c' : Scene} {p : Point} {s : Shared}
  {log : List (Actor × Act)}

/-- An actor that has not claimed the page holds nobody up, unless it says that the page is
filled. -/
theorem Point.fits_of_free (ho : p.owning = false) (hr : p ≠ .returning true) : p.Fits s log := by
  cases p with
  | returning ok =>
    cases ok with
    | true => exact absurd rfl hr
    | false => trivial
  | resting | claiming | awaiting | sending | seizing | settling => trivial
  | reading | failing | parking | publishing | announcing | taking | losing | filling | storing =>
    simp [Point.owning] at ho

theorem Point.Fits.state_of_owning (h : p.Fits s log) (ho : p.owning = true) :
    s.state = .reading ∨ s.state = .filling := by
  cases p with
  | reading | failing | parking | publishing | announcing => exact .inl h.1
  | taking | filling | storing => exact .inr h.1
  | losing => exact h.elim
  | resting | claiming | awaiting | sending | seizing | settling | returning => cases ho

theorem point_after_self (c : Scene) (a : Actor) (act : Option Act) (p : Point) (s : Shared) :
    (c.after a act p s).point a = p :=
  if_pos rfl

theorem point_after_of_ne (hb : b ≠ a) : (c.after a act p s).point b = c.point b := if_neg hb

theorem owns_after_of_ne (hb : b ≠ a) :
    Owns b (c.after a act p s).log = Owns b c.log := by
  cases act with
  | none => rfl
  | some act => simp [Scene.after, Owns, Ne.symm hb]

theorem sameCounts_after {x : Act} (hp : x.isPut = false) (ht : x.isTake = false)
    (hf : x.isFill = false) : SameCounts c.log (c.after a (some x) p s).log := by
  constructor <;> simp [Scene.after, hp, ht, hf]

/-- While one actor has the page, or nobody has claimed it yet, the others are free. -/
theorem Sound.free (h : Sound c)
    (ha : (c.point a).owning = true ∨ c.shared.state = .empty ∨ c.shared.state = .read)
    (hb : b ≠ a) : (c.point b).owning = false ∧ c.point b ≠ .returning true := by
  have hstate : c.shared.state ≠ .filled := by
    rcases ha with ha | ha | ha
    · rcases (h.fits a).state_of_owning ha with hs | hs <;> simp [hs]
    · simp [ha]
    · simp [ha]
  constructor
  · rcases ha with ha | ha
    · rw [← Bool.not_eq_true]
      exact fun ho => hb (h.sole b a ho ha)
    · rw [← Bool.not_eq_true]
      intro ho
      rcases (h.fits b).state_of_owning ho with hs | hs <;> simp [hs] at ha
  · intro hr
    have := h.fits b
    rw [hr] at this
    exact hstate this

theorem Sound.quiet (h : Sound c) (hp : p.Fits c.shared c.log)
    (ho : p.owning = (c.point a).owning) (hs : s.slot = c.shared.slot)
    (hact : act = none ∨ ∃ ok, act = some (.returned ok)) : Sound (c.after a act p s) := by
  have hl : SameCounts c.log (c.after a act p s).log := by
    rcases hact with rfl | ⟨ok, rfl⟩
    · exact ⟨rfl, rfl, rfl⟩
    · exact sameCounts_after rfl rfl rfl
  refine ⟨h.tidy.congr hs hl, ?_, ?_, ?_⟩
  · intro b
    by_cases hb : b = a
    · rw [hb, point_after_self]
      exact hp.congr hs hl
    · rw [point_after_of_ne hb]
      exact (h.fits b).congr hs hl
  · intro b
    by_cases hb : b = a
    · rw [hb, point_after_self, ho, ← h.owns]
      rcases hact with rfl | ⟨ok, rfl⟩ <;> simp [Scene.after, Owns]
    · rw [point_after_of_ne hb, owns_after_of_ne hb]
      exact h.owns b
  · intro b b' hb hb'
    have howning : ∀ d, ((c.after a act p s).point d).owning = (c.point d).owning := by
      intro d
      by_cases hd : d = a
      · rw [hd, point_after_self, ho]
      · rw [point_after_of_ne hd]
    rw [howning] at hb hb'
    exact h.sole b b' hb hb'

theorem Sound.change (h : Sound c)
    (ha : (c.point a).owning = true ∨ c.shared.state = .empty ∨ c.shared.state = .read)
    (ht : Tidy s (c.after a act p s).log) (hp : p.Fits s (c.after a act p s).log)
    (ho : Owns a (c.after a act p s).log = p.owning) : Sound (c.after a act p s) := by
  have hfree : ∀ b, b ≠ a → (c.point b).owning = false ∧ c.point b ≠ .returning true :=
    fun b hb => h.free ha hb
  refine ⟨ht, ?_, ?_, ?_⟩
  · intro b
    by_cases hb : b = a
    · rw [hb, point_after_self]
      exact hp
    · rw [point_after_of_ne hb]
      exact Point.fits_of_free (hfree b hb).1 (hfree b hb).2
  · intro b
    by_cases hb : b = a
    · rw [hb, point_after_self, ho]
    · rw [point_after_of_ne hb, owns_after_of_ne hb]
      exact h.owns b
  · have hself : ∀ b, ((c.after a act p s).point b).owning = true → b = a := by
      intro b hb
      by_cases hba : b = a
      · exact hba
      · rw [point_after_of_ne hba, (hfree b hba).1] at hb
        cases hb
    intro b b' hb hb'
    rw [hself b hb, hself b' hb']

theorem Sound.move (h : Sound c)
    (ha : (c.point a).owning = true ∨ c.shared.state = .empty ∨ c.shared.state = .read) {x : Act}
    (hx : x = .claimed ∨ x = .seized ∨ ∃ s, x = .stored s) (ht : Tidy s c.log)
    (hp : p.Fits s c.log) (ho : Owns a (c.after a (some x) p s).log = p.owning) :
    Sound (c.after a (some x) p s) := by
  have hl : SameCounts c.log (c.after a (some x) p s).log := by
    rcases hx with rfl | rfl | ⟨s, rfl⟩ <;> exact sameCounts_after rfl rfl rfl
  exact h.change ha (ht.congr rfl hl) (hp.congr rfl hl) ho

theorem Tidy.store (h : Tidy s log) {state : PageState} (he : state ≠ .empty)
    (hr : state ≠ .read) : Tidy (s.store state) log :=
  ⟨fun hs => absurd hs he, fun hs => absurd hs hr, h.puts_le, h.takes_le, h.fills_le⟩

theorem Sound.turn (h : Sound c) (ht : Turn a (c.point a) c.shared act p s) :
    Sound (c.after a act p s) := by
  have hf := h.fits a
  have ho := h.owns a
  have htidy := h.tidy
  generalize hq : c.point a = q at ht hf ho
  generalize hs : c.shared = sh at ht hf htidy
  have hown : q.owning = true → (c.point a).owning = true ∨ c.shared.state = .empty ∨
      c.shared.state = .read := fun hq' => .inl (hq ▸ hq')
  cases ht with
  | call | receive | skip | join | await | awaited | beaten | settle | send =>
    exact h.quiet trivial (by simp [hq, Point.owning]) (by simp [hs]) (.inl rfl)
  | read | readOwn | readFailed =>
    exact h.quiet (hs ▸ hf) (by simp [hq, Point.owning]) (by simp [hs]) (.inl rfl)
  | settled hterm =>
    refine h.quiet ?_ (by simp [hq, Point.owning]) (by simp [hs]) (.inl rfl)
    by_cases hfilled : s.state = .filled
    · simp [Point.Fits, hfilled, hs]
    · simp [Point.Fits, hfilled]
  | @«return» _ _ ok =>
    exact h.quiet trivial (by simp [hq, Point.owning]) (by simp [hs]) (.inr ⟨ok, rfl⟩)
  | claim he =>
    exact h.move (.inr (.inl (hs ▸ he))) (.inl rfl) (htidy.store nofun nofun)
      ⟨rfl, htidy.empty he⟩ (if_pos rfl)
  | seize hr =>
    exact h.move (.inr (.inr (hs ▸ hr))) (.inr (.inl rfl)) (htidy.store nofun nofun)
      ⟨rfl, htidy.read hr⟩ (if_pos rfl)
  | publish =>
    obtain ⟨-, hp, h₂, h₃⟩ := hf
    exact h.move (hown rfl) (.inr (.inr ⟨_, rfl⟩))
      ⟨nofun, fun _ => ⟨hp, h₂, h₃⟩, htidy.puts_le, htidy.takes_le, htidy.fills_le⟩ trivial
      (if_pos rfl)
  | fail | failOwn | lose =>
    exact h.move (hown rfl) (.inr (.inr ⟨_, rfl⟩)) (htidy.store nofun nofun) trivial (if_pos rfl)
  | announce =>
    obtain ⟨-, hp, -, -, h₃⟩ := hf
    refine h.move (hown rfl) (.inr (.inr ⟨_, rfl⟩)) (htidy.store nofun nofun) ⟨rfl, hp, h₃⟩ ?_
    simp [Scene.after, Owns, ho, Point.owning]
  | @store _ _ accepted =>
    refine h.move (hown rfl) (.inr (.inr ⟨_, rfl⟩)) (htidy.store ?_ ?_) ?_ ?_
    · cases accepted <;> nofun
    · cases accepted <;> nofun
    · cases accepted with
      | true => exact rfl
      | false => trivial
    · cases accepted <;> simp [Scene.after, Owns, Point.owning]
  | put =>
    obtain ⟨hr, -, h₁, h₂, h₃⟩ := hf
    have hputs : puts ((a, .put) :: c.log) = 1 := by rw [puts_cons, h₁]; rfl
    have htakes : takes ((a, .put) :: c.log) = 0 := by rw [takes_cons, h₂]; rfl
    have hfills : fills ((a, .put) :: c.log) = 0 := by rw [fills_cons, h₃]; rfl
    refine h.change (hown rfl) (tidy_of_ne ?_ ?_ (Nat.le_of_eq hputs) ?_ ?_)
      ⟨hr, nofun, htakes, hfills⟩ ?_
    · exact fun he => by cases hr.symm.trans he
    · exact fun he => by cases hr.symm.trans he
    · exact htakes ▸ Nat.zero_le 1
    · exact hfills ▸ Nat.zero_le 1
    · simp [Scene.after, Owns, ho, Point.owning]
  | take hc =>
    obtain ⟨hr, -, h₂, h₃⟩ := hf
    have hputs : puts ((a, .took true) :: c.log) = puts c.log := by rw [puts_cons]; rfl
    have htakes : takes ((a, .took true) :: c.log) = 1 := by rw [takes_cons, h₂]; rfl
    have hfills : fills ((a, .took true) :: c.log) = 0 := by rw [fills_cons, h₃]; rfl
    refine h.change (hown rfl) (tidy_of_ne ?_ ?_ ?_ (Nat.le_of_eq htakes) ?_)
      ⟨hr, rfl, hfills⟩ ?_
    · exact fun he => by cases hr.symm.trans he
    · exact fun he => by cases hr.symm.trans he
    · exact hputs ▸ htidy.puts_le
    · exact hfills ▸ Nat.zero_le 1
    · simp [Scene.after, Owns, ho, Point.owning]
  | miss hc =>
    obtain ⟨-, hp, -⟩ := hf
    exact absurd hc hp
  | fill accepted =>
    obtain ⟨hr, hp, h₃⟩ := hf
    have hputs : puts ((a, .filled accepted) :: c.log) = puts c.log := by rw [puts_cons]; rfl
    have htakes : takes ((a, .filled accepted) :: c.log) = takes c.log := by rw [takes_cons]; rfl
    have hfills : fills ((a, .filled accepted) :: c.log) = 1 := by rw [fills_cons, h₃]; rfl
    refine h.change (hown rfl) (tidy_of_ne ?_ ?_ ?_ ?_ (Nat.le_of_eq hfills)) ⟨hr, hp⟩ ?_
    · exact fun he => by cases hr.symm.trans he
    · exact fun he => by cases hr.symm.trans he
    · exact hputs ▸ htidy.puts_le
    · exact htakes ▸ htidy.takes_le
    · simp [Scene.after, Owns, ho, Point.owning]

theorem Reachable.turn (h : Reachable c) (ht : Turn a (c.point a) c.shared act p s) :
    Reachable (c.after a act p s) :=
  h.step (.turn ht)

theorem Reachable.sound (h : Reachable c) : Sound c := by
  induction h with
  | start => exact sound_start
  | step _ hs ih =>
    cases hs with
    | turn ht => exact ih.turn ht

/-- Contents are parked as long as the page is read. Before, the reader parks them and has still to
say so; after, somebody who has claimed the page for filling has still to take them. -/
def Shelves (c : Scene) : Prop :=
  c.shared.parked ≠ none →
    c.shared.state = .read ∨ ∃ a, c.point a = .publishing ∨ c.point a = .taking

theorem Shelves.stay (h : Shelves c) (hs : s.slot = c.shared.slot)
    (hp : c.point a ≠ .publishing) (ht : c.point a ≠ .taking) : Shelves (c.after a act p s) := by
  intro hparked
  change s.slot.parked ≠ none at hparked
  rw [hs] at hparked
  rcases h hparked with hr | ⟨b, hb⟩
  · exact .inl ((congrArg Slot.state hs).trans hr)
  · have hne : b ≠ a := by
      rintro rfl
      exact hb.elim hp ht
    exact .inr ⟨b, by rwa [point_after_of_ne hne]⟩

theorem Shelves.turn (h : Shelves c) (hc : Sound c) (ht : Turn a (c.point a) c.shared act p s) :
    Shelves (c.after a act p s) := by
  have hf := hc.fits a
  have htidy := hc.tidy
  generalize hq : c.point a = q at ht hf
  generalize hs : c.shared = sh at ht hf htidy
  cases ht with
  | call | receive | skip | join | await | awaited | beaten | settle | settled | send | read
  | readOwn | readFailed | «return» | fill =>
    exact h.stay (by rw [hs]) (by rw [hq]; nofun) (by rw [hq]; nofun)
  | claim he => exact fun hn => absurd (htidy.empty he).1 hn
  | fail | failOwn | announce => exact fun hn => absurd hf.2.1 hn
  | store => exact fun hn => absurd hf.2 hn
  | lose => exact hf.elim
  | put => exact fun _ => .inr ⟨a, .inl (point_after_self ..)⟩
  | publish => exact fun _ => .inl rfl
  | seize => exact fun _ => .inr ⟨a, .inr (point_after_self ..)⟩
  | take => exact fun hn => absurd rfl hn
  | miss hn => exact absurd hn hf.2.1

theorem Reachable.shelves (h : Reachable c) : Shelves c := by
  induction h with
  | start => exact fun hn => absurd rfl hn
  | step hc hs ih =>
    cases hs with
    | turn ht => exact ih.turn hc.sound ht

/-- There are contents while the page is read, and besides only between parking them and saying so,
and between claiming the page for filling and taking them. -/
theorem Reachable.parked_iff (h : Reachable c) : c.shared.parked ≠ none ↔
    c.shared.state = .read ∨ ∃ a, c.point a = .publishing ∨ c.point a = .taking := by
  constructor
  · exact h.shelves
  · rintro (hr | ⟨a, ha⟩)
    · exact (h.sound.tidy.read hr).1
    · have hf := h.sound.fits a
      rcases ha with ha | ha <;> rw [ha] at hf <;> exact hf.2.1

/-- Nobody who has claimed the page for filling finds nothing. -/
theorem Reachable.not_losing (h : Reachable c) (a : Actor) : c.point a ≠ .losing := by
  intro ha
  have hf := h.sound.fits a
  rw [ha] at hf
  exact hf

/--
The protocol is safe in whatever order the actors take their steps, and however reading and
filling turn out: at most one actor has the page, only that one parks contents or takes them,
there are contents whenever they are taken, contents are parked once at most and taken once at
most, the page is handed to the guest once at most, and nobody returns without an error unless
the page is filled.
-/
theorem exclusive (h : Reachable c) :
    (∀ a b, Owns a c.log → Owns b c.log → a = b) ∧
      (∀ a c', Step a (some .put) c c' → Owns a c.log) ∧
      (∀ a found c', Step a (some (.took found)) c c' → Owns a c.log ∧ found = true) ∧
      (∀ a c', Step a (some (.returned true)) c c' → c.shared.state = .filled) ∧
      puts c.log ≤ 1 ∧ takes c.log ≤ 1 ∧ fills c.log ≤ 1 := by
  have hs := h.sound
  refine ⟨?_, ?_, ?_, ?_, hs.tidy.puts_le, hs.tidy.takes_le, hs.tidy.fills_le⟩
  · intro a b ha hb
    rw [hs.owns] at ha hb
    exact hs.sole a b ha hb
  · rintro a c' ⟨ht⟩
    rw [hs.owns]
    generalize hq : c.point a = q at ht
    cases ht with
    | put => rfl
  · rintro a found c' ⟨ht⟩
    rw [hs.owns]
    have hf := hs.fits a
    generalize hq : c.point a = q at ht hf
    cases ht with
    | take => exact ⟨rfl, rfl⟩
    | miss hn => exact absurd hn hf.2.1
  · rintro a c' ⟨ht⟩
    have hf := hs.fits a
    generalize hq : c.point a = q at ht hf
    cases ht with
    | «return» => exact hf

theorem exclusive_sample : ∃ c, Reachable c ∧ c.shared.state = .filled ∧
    (∀ a b, Owns a c.log → Owns b c.log → a = b) ∧ puts c.log = 1 ∧ takes c.log = 1 ∧
      fills c.log = 1 := by
  have hread := ((((Reachable.start.turn (a := .reader) (.call nofun)).turn (a := .reader)
    (.claim rfl)).turn (a := .reader) (.read #[7])).turn (a := .reader) .put).turn (a := .reader)
    .publish
  have hboth := (((hread.turn (a := .fault 0) (.call nofun)).turn (a := .fault 0)
    (.join nofun)).turn (a := .reader) .send).turn (a := .idle) (.receive rfl)
  have htaken := (((hboth.turn (a := .fault 0) (.awaited (by decide))).turn (a := .fault 0)
    (.seize rfl)).turn (a := .idle) (.beaten nofun)).turn (a := .fault 0) (.take rfl)
  have hfilled := ((htaken.turn (a := .fault 0) (.fill true)).turn (a := .fault 0) .store).turn
    (a := .idle) (.settled rfl)
  obtain ⟨hsole, -, -, -, -, -, -⟩ := exclusive hfilled
  exact ⟨_, hfilled, rfl, hsole, rfl, rfl, rfl⟩

end

end RamRestore.Protocol
