import Mathlib.Logic.Function.Basic
import RamRestore.Proofs.Command.Blocks

/-! # Runs of the restore command

On a host that does not let programs trap memory, the configuration and the mode only say how a
snapshot is loaded. As long as the host grants the workers that are asked for, it does not hang on
them whether a restore succeeds, nor what it writes; and wherever the blocks are mapped, it is the
same.
-/

namespace RamRestore.Command

/-- What opening the file of each path gives. -/
abbrev Files := String → Except IoError (Except IoError Bytes)

/-- A host of files, on which memory cannot be trapped and every file can be made. -/
def fileHost (map : Mapper) (threads : List (Nat × Nat) → Threads) : Host (StateM Files) where
  openFile path := fun fs => (fs path, fs)
  writeFile path bytes := fun fs => (.ok (), Function.update fs path (.ok (.ok bytes)))
  trapAvailable := false
  map := map
  threads := threads

structure Attempt where
  words : List String
  files : Files
  map : Mapper
  threads : List (Nat × Nat) → Threads

def Attempt.run (a : Attempt) : Outcome × Files :=
  (Command.run (fileHost a.map a.threads) a.words).run a.files

/-- The configuration of a restore: that of the file that is named, if there is one, with the mode
that is asked for. -/
inductive Configures (fs : Files) (args : RestoreArguments) : Config → Prop
  | plain (h : args.config = none) :
      Configures fs args { ({} : Config) with loadType := args.mode.getD ({} : Config).loadType }
  | file {path : String} {bytes : Bytes} {config : Config} (h : args.config = some path)
      (hf : fs path = .ok (.ok bytes)) (hc : Config.parse? bytes.toList = some config) :
      Configures fs args { config with loadType := args.mode.getD config.loadType }

/-- A command line for a restore whose configuration and layout are valid, on a host that can map
the layout. -/
structure Asks (a : Attempt) (args : RestoreArguments) (config : Config)
    (layout : List BlockLayout) (snapshot : Except IoError Bytes) (blocks : List RamBlock) :
    Prop where
  words : Invocation.ofArguments a.words = .restore args
  lawful : a.map.Lawful
  mapped : mapBlocks a.map [] layout = .ok blocks
  layout : ∃ bytes, a.files args.layout = .ok (.ok bytes) ∧
    parseLayout? bytes.toList = some layout
  config : Configures a.files args config
  snapshot : a.files args.snapshot = .ok snapshot

section

variable {α β : Type} {map : Mapper} {threads : List (Nat × Nat) → Threads} {fs fs' : Files}
  {x : ExceptT Failure (StateM Files) α} {f : α → ExceptT Failure (StateM Files) β}
  {value : α} {cause : Failure}

theorem run_bind_ok (h : x.run.run fs = (.ok value, fs')) :
    (x >>= f).run.run fs = (f value).run.run fs' := by
  rw [ExceptT.run_bind, StateT.run_bind, h]
  rfl

theorem run_bind_error (h : x.run.run fs = (.error cause, fs')) :
    (x >>= f).run.run fs = (.error cause, fs') := by
  rw [ExceptT.run_bind, StateT.run_bind, h]
  rfl

theorem run_liftM (y : StateM Files α) :
    (liftM y : ExceptT Failure (StateM Files) α).run.run fs =
      (.ok (y.run fs).1, (y.run fs).2) := rfl

theorem run_orFail (value : α) :
    (orFail (.ok value) : ExceptT Failure (StateM Files) α).run.run fs = (.ok value, fs) := rfl

theorem run_except (r : Except Failure α) :
    (liftM r : ExceptT Failure (StateM Files) α).run.run fs = (r, fs) := rfl

theorem run_readJson {parse? : List UInt8 → Option α} {path : String} {bytes : Bytes}
    (hp : fs path = .ok (.ok bytes)) (hv : parse? bytes.toList = some value) :
    (readJson (fileHost map threads) parse? path).run.run fs = (.ok value, fs) := by
  have hopen : ((fileHost map threads).openFile path).run fs = (.ok (.ok bytes), fs) := by
    rw [← hp]
    rfl
  rw [readJson, run_bind_ok (run_liftM _), hopen]
  dsimp only
  rw [hv]
  rfl

theorem Configures.run_readConfig {args : RestoreArguments} {config : Config}
    (h : Configures fs args config) :
    (readConfig (fileHost map threads) args).run.run fs = (.ok config, fs) := by
  cases h with
  | plain h =>
    simp only [readConfig, h]
    rfl
  | file h hf hc =>
    simp only [readConfig, h]
    rw [run_bind_ok (run_readJson hf hc)]
    rfl

end

/-- What is left to do once the layout, the configuration and the snapshot have been read. -/
def Attempt.rest (a : Attempt) (args : RestoreArguments) (config : Config)
    (snapshot : Except IoError Bytes) (blocks : List RamBlock) : Except Failure Unit × Files :=
  match restoreBlocks config (a.threads (mappings blocks)) false (sourceOfFile snapshot) blocks with
  | .error cause => (.error cause, a.files)
  | .ok memory => (.ok (), args.output.elim a.files fun path =>
      Function.update a.files path (.ok (.ok (dump memory blocks))))

section

variable {a a' : Attempt} {args args' : RestoreArguments} {config config' : Config}
  {layout : List BlockLayout} {snapshot : Except IoError Bytes} {blocks blocks' : List RamBlock}

theorem Asks.run_restore (h : Asks a args config layout snapshot blocks) :
    (restore (fileHost a.map a.threads) args).run.run a.files =
      a.rest args config snapshot blocks := by
  obtain ⟨bytes, hp, hv⟩ := h.layout
  have hopen : ((fileHost a.map a.threads).openFile args.snapshot).run a.files =
      (.ok snapshot, a.files) := by
    rw [← h.snapshot]
    rfl
  have hm : mapBlocks (fileHost a.map a.threads).map [] layout = .ok blocks := h.mapped
  rw [restore, run_bind_ok (run_readJson hp hv), run_bind_ok h.config.run_readConfig, hm,
    run_bind_ok (run_orFail blocks), run_bind_ok (run_liftM _), hopen]
  dsimp only
  rw [run_bind_ok (run_orFail snapshot),
    show (fileHost a.map a.threads).trapAvailable = false from rfl,
    show (fileHost a.map a.threads).threads = a.threads from rfl, Attempt.rest]
  cases restoreBlocks config (a.threads (mappings blocks)) false (sourceOfFile snapshot) blocks with
  | error cause => exact run_bind_error (run_except _)
  | ok memory =>
    refine (run_bind_ok (run_except _)).trans ?_
    cases args.output <;> rfl

theorem Asks.run_eq (h : Asks a args config layout snapshot blocks) :
    a.run = match a.rest args config snapshot blocks with
      | (.error cause, fs) => (.failed cause, fs)
      | (.ok (), fs) => (.done, fs) := by
  unfold Attempt.run Command.run
  rw [h.words]
  dsimp only
  rw [StateT.run_bind, h.run_restore]
  rcases a.rest args config snapshot blocks with ⟨_ | _, fs⟩ <;> rfl

theorem Asks.run_cases (h : Asks a args config layout snapshot blocks) :
    (¬ LacksWorkers config (a.threads (mappings blocks)) (sourceOfFile snapshot) blocks ∧
        ∃ x, Restorable blocks (sourceOfFile snapshot) x ∧
          a.run = (.done, args.output.elim a.files fun path =>
            Function.update a.files path (.ok (.ok (x.image (sourceOfFile snapshot).data))))) ∨
      (LacksWorkers config (a.threads (mappings blocks)) (sourceOfFile snapshot) blocks ∨
          ¬ ∃ x, Restorable blocks (sourceOfFile snapshot) x) ∧
        ∃ cause, a.run = (.failed cause, a.files) := by
  rw [h.run_eq, Attempt.rest]
  rcases restoreBlocks_outcome config (a.threads (mappings blocks)) (sourceOfFile snapshot)
    (disjoint_of_mapBlocks h.lawful h.mapped) with ⟨hw, x, memory, hx, hok, hdump⟩ | ⟨hn, cause, he⟩
  · refine .inl ⟨hw, x, hx, ?_⟩
    rw [hok, ← hdump]
  · refine .inr ⟨hn, cause, ?_⟩
    rw [he]

theorem Asks.exitCode_cases (h : Asks a args config layout snapshot blocks) :
    ((∃ x, Restorable blocks (sourceOfFile snapshot) x) ∧
        ¬ LacksWorkers config (a.threads (mappings blocks)) (sourceOfFile snapshot) blocks) ∧
        a.run.1.exitCode = 0 ∨
      ¬ ((∃ x, Restorable blocks (sourceOfFile snapshot) x) ∧
        ¬ LacksWorkers config (a.threads (mappings blocks)) (sourceOfFile snapshot) blocks) ∧
        a.run.1.exitCode = 1 := by
  rcases h.run_cases with ⟨hw, x, hx, hr⟩ | ⟨hn, cause, hr⟩
  · refine .inl ⟨⟨⟨x, hx⟩, hw⟩, ?_⟩
    rw [hr]
    rfl
  · refine .inr ⟨fun hx => ?_, ?_⟩
    · exact hn.elim hx.2 fun hn => hn hx.1
    · rw [hr]
      rfl

/-- Wherever two hosts map the blocks, they can restore the same snapshots, to the same bytes. -/
theorem Asks.restorable (h : Asks a args config layout snapshot blocks)
    (h' : Asks a' args' config' layout snapshot blocks') {x : Index}
    (hx : Restorable blocks (sourceOfFile snapshot) x) :
    ∃ y, Restorable blocks' (sourceOfFile snapshot) y ∧
      y.image (sourceOfFile snapshot).data = x.image (sourceOfFile snapshot).data := by
  obtain ⟨hlayout, hplaced, -⟩ := mapBlocks_ok h.lawful h.mapped
  obtain ⟨hlayout', hplaced', -⟩ := mapBlocks_ok h'.lawful h'.mapped
  exact hx.moved (hlayout'.trans hlayout.symm) (fun b hb => (hplaced b hb).start_ne)
    fun b hb => (hplaced' b hb).start_ne

theorem Asks.image_eq (h : Asks a args config layout snapshot blocks)
    (h' : Asks a' args' config' layout snapshot blocks') {x y : Index}
    (hx : Restorable blocks (sourceOfFile snapshot) x)
    (hy : Restorable blocks' (sourceOfFile snapshot) y) :
    y.image (sourceOfFile snapshot).data = x.image (sourceOfFile snapshot).data := by
  obtain ⟨z, hz, himage⟩ := h.restorable h' hx
  cases hy.read.symm.trans hz.read
  exact himage

theorem Asks.exitCode_eq (h : Asks a args config layout snapshot blocks)
    (h' : Asks a' args' config' layout snapshot blocks')
    (hw : ¬ LacksWorkers config (a.threads (mappings blocks)) (sourceOfFile snapshot) blocks)
    (hw' : ¬ LacksWorkers config' (a'.threads (mappings blocks')) (sourceOfFile snapshot) blocks') :
    a'.run.1.exitCode = a.run.1.exitCode := by
  rcases h.exitCode_cases with ⟨⟨⟨x, hx⟩, -⟩, hc⟩ | ⟨hn, hc⟩
  · obtain ⟨y, hy, -⟩ := h.restorable h' hx
    obtain ⟨-, hc'⟩ := h'.exitCode_cases.resolve_right fun hn => hn.1 ⟨⟨y, hy⟩, hw'⟩
    rw [hc, hc']
  · have hn' : ¬ ∃ y, Restorable blocks' (sourceOfFile snapshot) y := by
      rintro ⟨y, hy⟩
      obtain ⟨x, hx, -⟩ := h'.restorable h hy
      exact hn ⟨⟨x, hx⟩, hw⟩
    obtain ⟨-, hc'⟩ := h'.exitCode_cases.resolve_left fun hy => hn' hy.1.1
    rw [hc, hc']

/--
Where memory cannot be trapped, a restore hangs on the snapshot, on the layout, and on whether the
host grants the workers that are asked for. It succeeds if and only if the blocks are accepted, the
index can be read, every page can be loaded, and the workers, if any are needed, are there. Then the
output holds all bytes of the blocks in the order of the layout: what the snapshot has for them, and
zeroes everywhere else. A restore that fails makes no file. Every other command line for the same
snapshot and layout, on any host that maps its blocks where it likes, exits alike and writes the
same, as long as neither lacks its workers; and so would workers that unpack in any other order.
-/
theorem restore_depends_on_snapshot_and_layout (h : Asks a args config layout snapshot blocks) :
    (a.run.1.exitCode = 0 ↔ (∃ x, Restorable blocks (sourceOfFile snapshot) x) ∧
      ¬ LacksWorkers config (a.threads (mappings blocks)) (sourceOfFile snapshot) blocks) ∧
    (a.run.1.exitCode = 0 → ∀ x, Restorable blocks (sourceOfFile snapshot) x →
      layoutOf (x.blocks.map (·.ram)) = layout ∧
      a.run.2 = args.output.elim a.files fun path =>
        Function.update a.files path (.ok (.ok (x.image (sourceOfFile snapshot).data)))) ∧
    (a.run.1.exitCode ≠ 0 → a.run.1.exitCode = 1 ∧ a.run.2 = a.files) ∧
    (∀ a' args' config' blocks', Asks a' args' config' layout snapshot blocks' →
      ¬ LacksWorkers config (a.threads (mappings blocks)) (sourceOfFile snapshot) blocks →
      ¬ LacksWorkers config' (a'.threads (mappings blocks')) (sourceOfFile snapshot) blocks' →
      a'.run.1.exitCode = a.run.1.exitCode ∧
      ∀ x y, Restorable blocks (sourceOfFile snapshot) x →
        Restorable blocks' (sourceOfFile snapshot) y →
        y.image (sourceOfFile snapshot).data = x.image (sourceOfFile snapshot).data) ∧
    ∀ config threads failure m, RamBlock.Accepted blocks →
      (loaderOf config threads (sourceOfFile snapshot) blocks).StartsEagerly failure m →
      (failure = none ↔ ∃ x, Restorable blocks (sourceOfFile snapshot) x) ∧
      ∀ x, Restorable blocks (sourceOfFile snapshot) x →
        m.failure = none ∧ dump m.guest.memory blocks = x.image (sourceOfFile snapshot).data := by
  refine ⟨?_, ?_, ?_, ?_, ?_⟩
  · rcases h.exitCode_cases with ⟨hx, hc⟩ | ⟨hn, hc⟩
    · exact iff_of_true hc hx
    · exact iff_of_false (hc ▸ nofun) hn
  · intro hc x hx
    rw [(Index.read_ok hx.read).1]
    refine ⟨(mapBlocks_ok h.lawful h.mapped).1, ?_⟩
    rcases h.run_cases with ⟨-, y, hy, hr⟩ | ⟨-, cause, hr⟩
    · cases hx.read.symm.trans hy.read
      rw [hr]
    · rw [hr] at hc
      cases hc
  · intro hc
    rcases h.run_cases with ⟨-, x, -, hr⟩ | ⟨-, cause, hr⟩
    · rw [hr] at hc
      exact absurd rfl hc
    · rw [hr]
      exact ⟨rfl, rfl⟩
  · intro a' args' config' blocks' h' hw hw'
    exact ⟨h.exitCode_eq h' hw hw', fun x y hx hy => h.image_eq h' hx hy⟩
  · intro config threads failure m ha hs
    exact loaderOf_restores ha (disjoint_of_mapBlocks h.lawful h.mapped) hs

end

def sampleLayout : List BlockLayout := [⟨"a", 4, 1⟩]

/-- A snapshot of two compressed pages of the block, of which the second one is all zero. -/
def sampleSnapshot : Bytes :=
  #[0, 0, 0, 0, 0, 0, 0, 10, 16, 7, 0, 0, 0, 1, 0, 0, 0, 1, 0, 0, 0, 2, 1, 97, 0, 0, 0, 2, 2, 0, 0]

def sampleFiles : Files
  | "snapshot" => .ok (.ok sampleSnapshot)
  | "layout" => .ok (.ok (Text.encode "[[\"a\",4,1]]").toArray)
  | "config" => .ok (.ok (Text.encode "[\"lazy\",3,0]").toArray)
  | _ => .error .missingFile

/-- A restore without workers, on a host that would refuse any. -/
def sampleAttempt : Attempt where
  words :=
    ["restore", "--output", "out", "snapshot", "layout", "--config", "config", "--mode", "eager"]
  files := sampleFiles
  map := mapBehind
  threads _ := { refusesPool := fun _ => some .noThreads }

def sampleAttemptOnPool : Attempt :=
  { sampleAttempt with words := ["restore", "snapshot", "layout"] }

def sampleBlocks : List RamBlock := [⟨"a", firstAddress, 4, 1⟩]

theorem sample_asks : Asks sampleAttempt
    ⟨"snapshot", "layout", some "config", some .eager, some "out"⟩ ⟨.eager, 3, some 0⟩ sampleLayout
    (.ok sampleSnapshot) sampleBlocks where
  words := by decide +kernel
  lawful := mapBehind_lawful
  mapped := by decide +kernel
  layout := ⟨_, rfl, by decide +kernel⟩
  config := @Configures.file _ _ "config" _ ⟨.lazy, 3, some 0⟩ rfl rfl (by decide +kernel)
  snapshot := rfl

theorem sampleOnPool_asks : Asks sampleAttemptOnPool ⟨"snapshot", "layout", none, none, none⟩ {}
    sampleLayout (.ok sampleSnapshot) sampleBlocks where
  words := by decide +kernel
  lawful := mapBehind_lawful
  mapped := by decide +kernel
  layout := ⟨_, rfl, by decide +kernel⟩
  config := .plain rfl
  snapshot := rfl

theorem sample_restorable : ∃ x, Restorable sampleBlocks (.ofFile sampleSnapshot) x ∧
    x.image sampleSnapshot = #[7, 0, 0, 0] := by
  have hb : RamBlock.Accepted sampleBlocks := .snoc .nil (by decide +kernel)
  let m₀ := (loaderOf {} {} (.ofFile sampleSnapshot) sampleBlocks).opened?.get (by decide +kernel)
  have ho : (loaderOf {} {} (.ofFile sampleSnapshot) sampleBlocks).opened? = some m₀ :=
    (Option.some_get _).symm
  have hread := (Loader.opened_of_registering rfl ho).1
  have hstored : m₀.index.stored = [0] := by decide +kernel
  have hpage : m₀.index.page 0 = { block := 0, position := 8, size := 2 } := by decide +kernel
  have hreply : (Source.ofFile sampleSnapshot).reply 8 2 = .ok #[16, 7] := by decide +kernel
  refine ⟨m₀.index, ⟨hb, hread, fun i hi => ?_⟩, by decide +kernel⟩
  rw [hstored, List.mem_singleton] at hi
  subst hi
  exact Index.not_spoils_of_reply hpage Nat.two_pos hreply rfl fun _ => ⟨#[7], by decide +kernel⟩

theorem sample_not_lacksWorkers {threads : Threads} {source : Source} {blocks : List RamBlock} :
    ¬ LacksWorkers ⟨.eager, 3, some 0⟩ threads source blocks := by
  rintro ⟨x, workers, cause, -, -, hw, -⟩
  cases hw

theorem restore_depends_on_snapshot_and_layout_sample :
    sampleAttempt.run.1.exitCode = 0 ∧
      sampleAttempt.run.2 "out" = .ok (.ok #[7, 0, 0, 0]) := by
  obtain ⟨x, hx, himage⟩ := sample_restorable
  obtain ⟨hcode, hout, -⟩ := restore_depends_on_snapshot_and_layout sample_asks
  have hzero := hcode.2 ⟨⟨x, hx⟩, sample_not_lacksWorkers⟩
  refine ⟨hzero, ?_⟩
  rw [(hout hzero x hx).2, ← himage]
  rfl

/-- A host without threads to spare can restore a snapshot without workers, but not with them. -/
theorem restore_depends_on_workers :
    ¬ ∀ a a' args args' config config' layout snapshot blocks blocks',
      Asks a args config layout snapshot blocks →
      Asks a' args' config' layout snapshot blocks' →
      a'.run.1.exitCode = a.run.1.exitCode := by
  intro h
  have hpool : sampleAttemptOnPool.run.1.exitCode = 1 := by decide +kernel
  have hsame := h _ _ _ _ _ _ _ _ _ _ sample_asks sampleOnPool_asks
  obtain ⟨x, hx, -⟩ := sample_restorable
  rcases sample_asks.exitCode_cases with ⟨-, hzero⟩ | ⟨hn, -⟩
  · rw [hpool, hzero] at hsame
    cases hsame
  · exact hn ⟨⟨x, hx⟩, sample_not_lacksWorkers⟩

end RamRestore.Command
