import RamRestore.Loader
import RamRestore.Trap.Handler

/-! # Loaders on trapped memory

A loader whose memory is trapped serves the faults of the trap and loads in the background
whenever there are none.
-/

namespace RamRestore

/-- A loader and the handler that runs its callbacks. -/
abbrev PagedLoader := Handler (Loader Trap) Load.Service

namespace Loader

def serve (l : Loader Trap) (s : Load.Service) : Option Load.Service × Loader Trap :=
  match l.phase with
  | .loading load =>
    let (left, load) := load.serve s
    (left, { l with phase := .loading load })
  | _ => (none, l)

def idle (l : Loader Trap) : IdleResult × Loader Trap :=
  match l.phase with
  | .loading load =>
    let (result, load) := load.idle
    (result, { l with phase := .loading load })
  | _ => (.allDone, l)

instance : Pager (Loader Trap) Load.Service where
  trap := Loader.guest
  withTrap := Loader.withGuest
  fault := .at
  serve := serve
  idle := idle
  rest l := l.onLoad Load.settle
  calls l := (l.load?.map Load.enoughCalls).getD 0

end Loader

namespace PagedLoader

def ofLoader (l : Loader Trap) : PagedLoader := { pager := l }

def onLoader (h : PagedLoader) (f : Loader Trap → Loader Trap) : PagedLoader :=
  { h with pager := f h.pager }

def start (h : PagedLoader) : Option LoadError × PagedLoader :=
  let (failure, l) := h.pager.start
  (failure, { h with pager := l })

/-- Ends the load: nobody loads in the background or watches memory any more. -/
def shutDown (h : PagedLoader) : PagedLoader :=
  (Handler.settle (h.onLoader Loader.interrupt)).close

end PagedLoader
end RamRestore
