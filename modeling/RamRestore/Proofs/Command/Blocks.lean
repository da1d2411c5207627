import RamRestore.Command.Restore
import RamRestore.Proofs.Index.Moved
import RamRestore.Proofs.Load.Inline
import RamRestore.Proofs.Load.Unwatched

/-! # Restoring blocks

A restore maps the blocks of a layout, registers them and starts a load. Wherever they were placed,
blocks that were mapped do not meet. Where memory cannot be trapped the load is eager, and memory
holds the image of the snapshot once it has succeeded.
-/

namespace RamRestore

namespace Index

/-- Every page can be loaded. -/
def Loads (x : Index) (s : Source) : Prop := ∀ i ∈ x.stored, ∀ cause, ¬ x.Spoils s i cause

theorem spoilt_iff {W : Type} {m : Load W} {s : Source} (h : Source.SameAnswers s m.source) :
    Load.Spoilt m.yield m.index ↔ ¬ m.index.Loads s := by
  simp only [Load.Spoilt, Load.yield_eq_error_iff, Loads, not_forall, not_not, exists_prop]
  constructor
  · rintro ⟨i, hi, cause, hs⟩
    exact ⟨i, hi, cause, hs.congr h.symm⟩
  · rintro ⟨i, hi, cause, hs⟩
    exact ⟨i, hi, cause, hs.congr h⟩

theorem exists_spoils_movedTo {x : Index} {s : Source} {i start : Nat} :
    (∃ cause, (x.movedTo start).Spoils s i cause) ↔ ∃ cause, x.Spoils s i cause := by
  constructor
  · rintro ⟨cause, h⟩
    cases h with
    | read h => exact ⟨_, .read h⟩
    | short h => exact ⟨_, .short h⟩
    | unpack h hz hu => exact ⟨_, .unpack h hz (pageSize_movedTo ▸ hu)⟩
  · rintro ⟨cause, h⟩
    cases h with
    | read h => exact ⟨_, .read h⟩
    | short h => exact ⟨_, .short h⟩
    | unpack h hz hu => exact ⟨_, .unpack h hz (pageSize_movedTo ▸ hu)⟩

theorem loads_movedTo {x : Index} {s : Source} {start : Nat} :
    (x.movedTo start).Loads s ↔ x.Loads s := by
  simp only [Loads, ← not_exists, exists_spoils_movedTo]
  rfl

theorem Restored.dump_eq_image {x : Index} {data : Bytes} {state : Nat → PageState}
    {before : Nat → UInt8} {memory : Memory} (h : x.Restored data state before memory.get)
    (hx : x.Separate) (hb : RamBlock.Disjoint (x.blocks.map (·.ram)))
    (hf : ∀ i ∈ x.stored, state i = .filled) (hz : ∀ a, before a = 0) :
    Command.dump memory (x.blocks.map (·.ram)) = x.image data := by
  rw [Command.dump, List.foldl_map, image]
  apply List.foldl_ext
  intro bytes b hmem
  rw [Memory.read]
  congr 2
  funext o
  exact h.get_eq_imageByte hx hb hf hz hmem o.isLt

end Index

namespace Loader

variable {l : Loader Trap} {source : Source} {t : Trap} {m₀ m : Load Trap}
  {failure : Option LoadError}

/-- What an eager load into memory that holds nothing but zeroes comes to. -/
theorem StartsEagerly.restores (hp : l.phase = .registering source t)
    (ha : RamBlock.Accepted l.blocks) (hb : RamBlock.Disjoint l.blocks)
    (hz : ∀ bytes, l.zeroChecker bytes = isZero bytes) (ht : ∀ a, t.memory.get a = 0)
    (h : l.StartsEagerly failure m) : ∃ x, (Index.read l.blocks source).outcome = .ok x ∧
      (failure = none ↔ x.Loads source) ∧
      (failure = none → m.failure = none ∧
        Command.dump m.guest.memory l.blocks = x.image source.data) := by
  obtain ⟨m₀, ho, -, hm⟩ := h
  obtain ⟨hread, -⟩ := opened_of_registering hp ho
  obtain ⟨hf, hblocks⟩ := opened_fresh ho
  have hzero := get_opened hp ho hz ht
  have hsource := opened_source ho
  rw [show l.source = source by simp only [Loader.source, hp]] at hsource
  have hb' : RamBlock.Disjoint (m₀.index.blocks.map (·.ram)) := hblocks ▸ hb
  let := Trap.plainly
  let := Trap.lawful
  have hout := hm.unwatched.outcome hf hb'
  refine ⟨m₀.index, hread, ?_, fun hn => ⟨hout.quiet hn, ?_⟩⟩
  · rw [← not_iff_not, ← Index.spoilt_iff hsource, ← hout.failure_iff, Option.isSome_iff_ne_none]
  · have hr := hout.restored hn
    rw [hsource.data] at hr
    rw [← hblocks]
    exact hr.dump_eq_image (Index.separate_of_read ha hread) hb' (hout.filled hn) hzero

end Loader

namespace Command

def layoutOf (blocks : List RamBlock) : List BlockLayout :=
  blocks.map fun b => ⟨b.id, b.size, b.pageSize⟩

/-- So many bytes from an address on are a region of the address space apart from what is mapped. -/
structure Places (mapped : List (Nat × Nat)) (length start : Nat) : Prop where
  start_ne : start ≠ 0
  inside : start + length ≤ word64Count
  apart : ∀ r ∈ mapped, r.1 + r.2 ≤ start ∨ start + length ≤ r.1

/-- The host may place a mapping wherever there is room for it. -/
def Mapper.Lawful (map : Mapper) : Prop :=
  ∀ mapped length start, map mapped length = .ok start → Places mapped length start

section

variable {map : Mapper} {mapped : List (Nat × Nat)} {layout : List BlockLayout}
  {blocks blocks' : List RamBlock}

theorem le_mappedLength (size : Nat) : size ≤ mappedLength size := by
  unfold mappedLength Memory.frameSize
  omega

theorem Places.mono {mapped' : List (Nat × Nat)} {length length' start : Nat}
    (h : Places mapped length start) (hm : ∀ r ∈ mapped', r ∈ mapped) (hl : length' ≤ length) :
    Places mapped' length' start := by
  obtain ⟨hne, hin, hapart⟩ := h
  refine ⟨hne, by omega, fun r hr => ?_⟩
  have := hapart r (hm r hr)
  omega

theorem mapBehind_lawful : mapBehind.Lawful := by
  intro mapped length start h
  unfold mapBehind at h
  dsimp only at h
  split at h
  · cases h
  · rename_i hlimit
    cases h
    have hfold : firstAddress ≤ mapped.foldr (fun r limit => max (r.1 + r.2) limit) firstAddress ∧
        ∀ r ∈ mapped, r.1 + r.2 ≤
          mapped.foldr (fun r limit => max (r.1 + r.2) limit) firstAddress := by
      clear hlimit
      induction mapped with
      | nil => simp
      | cons r mapped ih =>
        simp only [List.foldr_cons, List.forall_mem_cons]
        refine ⟨Nat.le_trans ih.1 (Nat.le_max_right _ _), Nat.le_max_left _ _, fun q hq => ?_⟩
        exact Nat.le_trans (ih.2 q hq) (Nat.le_max_right _ _)
    refine ⟨Nat.ne_of_gt (Nat.lt_of_lt_of_le (by decide) hfold.1), ?_, fun r hr => .inl ?_⟩
    · exact Nat.le_trans (Nat.le_of_lt (Nat.lt_of_not_le hlimit)) (by decide)
    · exact hfold.2 r hr

theorem mapBlocks_cons_ok {b : BlockLayout} (h : mapBlocks map mapped (b :: layout) = .ok blocks) :
    ∃ start rest, map mapped (mappedLength b.size) = .ok start ∧
      mapBlocks map ((start, mappedLength b.size) :: mapped) layout = .ok rest ∧
      blocks = ⟨b.id, start, b.size, b.pageSize⟩ :: rest := by
  rw [mapBlocks] at h
  split at h
  · cases h
  · cases hs : map mapped (mappedLength b.size) with
    | error cause =>
      rw [hs] at h
      cases h
    | ok start =>
      rw [hs] at h
      cases hr : mapBlocks map ((start, mappedLength b.size) :: mapped) layout with
      | error cause =>
        simp only [bind, Except.bind, hr] at h
        cases h
      | ok rest =>
        simp only [bind, Except.bind, hr] at h
        cases h
        exact ⟨start, rest, rfl, hr, rfl⟩

/-- Mapped blocks are those of the layout, and lie apart from each other and from what was mapped
before. -/
theorem mapBlocks_ok (hl : map.Lawful) (h : mapBlocks map mapped layout = .ok blocks) :
    layoutOf blocks = layout ∧ (∀ b ∈ blocks, Places mapped b.size b.start) ∧
      blocks.Pairwise fun b c => b.start + b.size ≤ c.start ∨ c.start + c.size ≤ b.start := by
  induction layout generalizing mapped blocks with
  | nil =>
    cases h
    exact ⟨rfl, by simp, .nil⟩
  | cons b layout ih =>
    obtain ⟨start, rest, hs, hr, rfl⟩ := mapBlocks_cons_ok h
    obtain ⟨hlayout, hplaced, hp⟩ := ih hr
    have hlen := le_mappedLength b.size
    refine ⟨by rw [layoutOf, List.map_cons, ← layoutOf, hlayout], ?_, .cons ?_ hp⟩
    · intro c hc
      rcases List.mem_cons.1 hc with rfl | hc
      · exact (hl _ _ _ hs).mono (fun _ hr => hr) hlen
      · exact (hplaced c hc).mono (fun _ hr => .tail _ hr) (Nat.le_refl _)
    · intro c hc
      have := (hplaced c hc).apart _ (.head _)
      dsimp only at this ⊢
      omega

theorem disjoint_of_mapBlocks (hl : map.Lawful) (h : mapBlocks map mapped layout = .ok blocks) :
    RamBlock.Disjoint blocks := by
  obtain ⟨-, hplaced, hp⟩ := mapBlocks_ok hl h
  have ha : RamBlock.Apart blocks := ⟨fun b hb => (hplaced b hb).inside, hp⟩
  exact ha.disjoint

theorem map_movedTo (blocks : List RamBlock) (start : Nat) :
    blocks.map (·.movedTo start) =
      (layoutOf blocks).map fun b => ⟨b.id, start, b.size, b.pageSize⟩ := by
  rw [layoutOf, List.map_map]
  rfl

end

/-- The blocks are accepted, the index can be read, and every page can be loaded. -/
structure Restorable (blocks : List RamBlock) (source : Source) (x : Index) : Prop where
  accepted : RamBlock.Accepted blocks
  read : (Index.read blocks source).outcome = .ok x
  loads : x.Loads source

/-- The pages of the snapshot are compressed, and the workers for them are refused. -/
def LacksWorkers (config : Config) (threads : Threads) (source : Source) (blocks : List RamBlock) :
    Prop :=
  ∃ x workers cause, (Index.read blocks source).outcome = .ok x ∧ x.compressed = true ∧
    config.workers? threads = some workers ∧ threads.refusesPool workers = some cause

/-- Blocks that differ in their addresses alone can be restored alike. -/
theorem Restorable.moved {source : Source} {blocks blocks' : List RamBlock} {x : Index}
    (h : Restorable blocks source x) (hlayout : layoutOf blocks' = layoutOf blocks)
    (hs : ∀ b ∈ blocks, b.start ≠ 0) (hs' : ∀ b ∈ blocks', b.start ≠ 0) :
    ∃ y, Restorable blocks' source y ∧ y.image source.data = x.image source.data := by
  obtain ⟨ha, hread, hloads⟩ := h
  have hmap : blocks'.map (·.movedTo 1) = blocks.map (·.movedTo 1) := by
    rw [map_movedTo, hlayout, map_movedTo]
  have hread' := Index.read_movedTo blocks' source 1
  rw [hmap, Index.read_movedTo, hread] at hread'
  cases hy : (Index.read blocks' source).outcome with
  | error cause =>
    rw [hy] at hread'
    cases hread'
  | ok y =>
    rw [hy] at hread'
    have he : y.movedTo 1 = x.movedTo 1 := (Except.ok.inj hread').symm
    refine ⟨y, ⟨?_, hy, ?_⟩, ?_⟩
    · rwa [← RamBlock.accepted_movedTo Nat.one_ne_zero hs', hmap,
        RamBlock.accepted_movedTo Nat.one_ne_zero hs]
    · rwa [← Index.loads_movedTo, he, Index.loads_movedTo]
    · rw [← Index.image_movedTo, he, Index.image_movedTo]

def freshMemory (blocks : List RamBlock) : Trap := { mapped := mappings blocks, available := false }

/-- The loader that a restore of blocks starts. -/
def loaderOf (config : Config) (threads : Threads) (source : Source) (blocks : List RamBlock) :
    Loader Trap :=
  { Loader.ofSource config isZero true source (freshMemory blocks) threads with blocks }

section

variable {config : Config} {threads : Threads} {source : Source} {blocks : List RamBlock}
  {x : Index} {failure : Option LoadError} {m m₀ : Load Trap}

theorem registerBlocks_eq_ok_iff {l : Loader Trap} :
    registerBlocks (.ofSource config isZero true source (freshMemory blocks) threads) blocks =
        .ok l ↔
      RamBlock.Accepted blocks ∧ l = loaderOf config threads source blocks := by
  constructor
  · intro h
    obtain ⟨ha, rfl⟩ := Loader.registerAll_ok .nil h
    exact ⟨by simpa [Loader.ofSource] using ha, rfl⟩
  · rintro ⟨ha, rfl⟩
    have ha' : RamBlock.Accepted ([] ++ blocks) := ha
    exact Loader.registerAll_of_accepted ha' rfl

theorem lacksWorkers_iff (ho : (loaderOf config threads source blocks).opened? = some m₀) :
    LacksWorkers config threads source blocks ↔ ∃ cause, m₀.LacksPool config threads cause := by
  obtain ⟨hread, -⟩ := Loader.opened_of_registering rfl ho
  constructor
  · rintro ⟨x, workers, cause, hx, hz, hw, hr⟩
    cases hread.symm.trans hx
    exact ⟨cause, workers, by rw [Load.workers?, if_pos hz, hw], hr⟩
  · rintro ⟨cause, workers, hw, hr⟩
    rw [Load.workers?] at hw
    split at hw
    · exact ⟨_, workers, cause, hread, ‹_›, hw, hr⟩
    · cases hw

/-- In whatever order workers unpack its pages, a snapshot that can be restored is restored. -/
theorem loaderOf_restores (ha : RamBlock.Accepted blocks) (hb : RamBlock.Disjoint blocks)
    (h : (loaderOf config threads source blocks).StartsEagerly failure m) :
    (failure = none ↔ ∃ x, Restorable blocks source x) ∧
      ∀ x, Restorable blocks source x →
        m.failure = none ∧ dump m.guest.memory blocks = x.image source.data := by
  obtain ⟨x, hread, hloads, hrestored⟩ := h.restores rfl ha hb (fun _ => rfl) fun a =>
    Memory.get_filled 0 a
  constructor
  · constructor
    · intro hn
      exact ⟨x, ha, hread, hloads.1 hn⟩
    · rintro ⟨y, -, hy, hl⟩
      cases hread.symm.trans hy
      exact hloads.2 hl
  · rintro y ⟨-, hy, hl⟩
    cases hread.symm.trans hy
    exact hrestored (hloads.2 hl)

theorem restoreBlocks_of_refused (config : Config) (threads : Threads) (source : Source)
    (h : ¬ RamBlock.Accepted blocks) :
    ∃ cause, restoreBlocks config threads false source blocks = .error cause := by
  cases hr : registerBlocks (.ofSource config isZero true source (freshMemory blocks) threads)
      blocks with
  | error cause =>
    refine ⟨.start cause, ?_⟩
    unfold restoreBlocks
    dsimp only
    rw [← freshMemory, hr]
  | ok l => exact absurd (registerBlocks_eq_ok_iff.1 hr).1 h

theorem restoreBlocks_of_failed_start {cause : LoadError} (h : RamBlock.Accepted blocks)
    (hf : (loaderOf config threads source blocks).start.1 = some cause) :
    restoreBlocks config threads false source blocks = .error (.start cause) := by
  have hr : registerBlocks _ blocks = .ok (loaderOf config threads source blocks) :=
    registerBlocks_eq_ok_iff.2 ⟨h, rfl⟩
  unfold restoreBlocks
  dsimp only
  rw [← freshMemory, hr]
  simp only [PagedLoader.start, PagedLoader.ofLoader, hf]

theorem restoreBlocks_of_load (h : RamBlock.Accepted blocks)
    (hf : (loaderOf config threads source blocks).start.1 = none)
    (hm : (loaderOf config threads source blocks).start.2.load? = some m)
    (hs : (loaderOf config threads source blocks).StartsEagerly none m) (hn : m.failure = none) :
    restoreBlocks config threads false source blocks = .ok m.guest.memory := by
  have hr : registerBlocks _ blocks = .ok (loaderOf config threads source blocks) :=
    registerBlocks_eq_ok_iff.2 ⟨h, rfl⟩
  have hphase := Loader.phase_of_load hm
  have hsettle := hs.settle rfl rfl hphase
  have herror : (loaderOf config threads source blocks).start.2.error? = none := by
    simp only [Loader.error?, hm, Option.bind_some, hn]
  have hguest : (loaderOf config threads source blocks).start.2.guest = m.guest := by
    simp only [Loader.guest, hphase]
  unfold restoreBlocks
  dsimp only
  rw [← freshMemory, hr]
  simp only [PagedLoader.start, PagedLoader.ofLoader, hf] at hsettle ⊢
  simp only [hsettle, herror, Handler.trap, Pager.trap, hguest]

/-- Without a trap no load is lazy. -/
theorem isLazy_loaderOf (ho : (loaderOf config threads source blocks).opened? = some m₀) :
    (loaderOf config threads source blocks).isLazy m₀.guest = false := by
  obtain ⟨havailable, -⟩ := Trap.switches_of_within (Loader.within_opened rfl ho)
  have hs : Guest.valid m₀.guest = false := havailable
  simp [Loader.isLazy, hs]

/-- A restore succeeds just where the snapshot can be restored and the workers for it are there, and
then memory holds the image. -/
theorem restoreBlocks_outcome (config : Config) (threads : Threads) (source : Source)
    (hb : RamBlock.Disjoint blocks) :
    (¬ LacksWorkers config threads source blocks ∧ ∃ x memory, Restorable blocks source x ∧
        restoreBlocks config threads false source blocks = .ok memory ∧
        dump memory blocks = x.image source.data) ∨
      (LacksWorkers config threads source blocks ∨ ¬ ∃ x, Restorable blocks source x) ∧
        ∃ cause, restoreBlocks config threads false source blocks = .error cause := by
  by_cases ha : RamBlock.Accepted blocks
  · cases ho : (loaderOf config threads source blocks).opened? with
    | none =>
      obtain ⟨cause, hread, hstart⟩ := Loader.start_of_unread rfl ho
      refine .inr ⟨.inr ?_, .start cause, restoreBlocks_of_failed_start ha hstart⟩
      rintro ⟨x, -, hx, -⟩
      cases hread.symm.trans hx
    | some m₀ =>
      obtain ⟨m, hm⟩ := Loader.exists_load_of_opened ho
      have heager := isLazy_loaderOf ho
      by_cases hw : LacksWorkers config threads source blocks
      · obtain ⟨-, -, cause, hf, -⟩ :=
          Loader.startsWithoutPool_start ho heager ((lacksWorkers_iff ho).1 hw) hm
        exact .inr ⟨.inl hw, .start (.io cause), restoreBlocks_of_failed_start ha hf⟩
      · have hpool : ∀ cause, ¬ m₀.LacksPool config threads cause :=
          fun cause h => hw ((lacksWorkers_iff ho).2 ⟨cause, h⟩)
        have hs : (loaderOf config threads source blocks).StartsEagerly
            (loaderOf config threads source blocks).start.1 m :=
          ⟨m₀, ho, heager, _, Loader.loadsInOrder_start ho heager hpool hm⟩
        obtain ⟨hiff, himage⟩ := loaderOf_restores ha hb hs
        cases hf : (loaderOf config threads source blocks).start.1 with
        | some cause =>
          refine .inr ⟨.inr fun hx => ?_, .start cause, restoreBlocks_of_failed_start ha hf⟩
          rw [hiff.2 hx] at hf
          cases hf
        | none =>
          obtain ⟨x, hx⟩ := hiff.1 hf
          obtain ⟨hfailure, hdump⟩ := himage x hx
          rw [hf] at hs
          have hok := restoreBlocks_of_load ha hf hm hs hfailure
          exact .inl ⟨hw, x, m.guest.memory, hx, hok, hdump⟩
  · refine .inr ⟨.inr ?_, restoreBlocks_of_refused config threads source ha⟩
    rintro ⟨x, hx⟩
    exact ha hx.accepted

end

end Command
end RamRestore
