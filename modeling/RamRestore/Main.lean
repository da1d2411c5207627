import RamRestore.Command.Restore

/-! # The program

The restore command on the files of the system. Faults cannot be trapped from here, so
every load is eager.
-/

namespace RamRestore.Command

def usage : String :=
  "Usage: ram-restore restore [--config FILE] [--mode eager|lazy] [--output FILE] SNAPSHOT LAYOUT"

def ofSystem : IO.Error → IoError
  | .noFileOrDirectory _ _ _ => .missingFile
  | .permissionDenied _ code details =>
    ⟨.permissionDenied, details ++ " (os error " ++ toString code ++ ")"⟩
  | .inappropriateType _ code details =>
    ⟨.isADirectory, details ++ " (os error " ++ toString code ++ ")"⟩
  | e => ⟨.other, toString e⟩

def attempt {α : Type} (act : IO α) : IO (Except IoError α) := do
  match ← act.toBaseIO with
  | .ok value => pure (.ok value)
  | .error e => pure (.error (ofSystem e))

def system : Host IO where
  openFile path := do
    match ← attempt (IO.FS.Handle.mk path .read) with
    | .error cause => pure (.error cause)
    | .ok file => return .ok (← attempt (do return (← file.readBinToEnd).data))
  writeFile path bytes := attempt do
    let file ← IO.FS.Handle.mk path .write
    file.write ⟨bytes⟩
    file.flush
  trapAvailable := false

end RamRestore.Command

def main (args : List String) : IO UInt32 := do
  let outcome ← RamRestore.Command.run RamRestore.Command.system args
  match outcome with
  | .done => pure ()
  | .help => IO.println RamRestore.Command.usage
  | .misuse => IO.eprintln RamRestore.Command.usage
  | .failed cause => IO.eprintln ("Error: " ++ cause.message)
  return UInt32.ofNat outcome.exitCode
