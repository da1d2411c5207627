import RamRestore.Trap.Handler

/-! # Scripted paging

Whoever serves the faults may follow a script: which pages each fault has placed, and what
each idle call places and answers.
-/

namespace RamRestore

structure EvenPage where
  address : Nat
  length : Nat
  byte : UInt8
  deriving DecidableEq, Repr

structure PagingScript where
  trap : Trap
  /-- The pages that a fault at an address has placed. -/
  onFault : Nat → List EvenPage
  /-- What is left of the idle calls; afterwards all is done. -/
  onIdle : List (IdleResult × List EvenPage) := []
  /-- The addresses of the faults so far. -/
  faults : Array Nat := #[]
  /-- The pages so far, and what came of placing them. -/
  placements : Array (EvenPage × Option IoError) := #[]
  idleCalls : Nat := 0

namespace PagingScript

def place (s : PagingScript) (p : EvenPage) : PagingScript :=
  let (failure, trap) := s.trap.place p.address (Array.replicate p.length p.byte)
  { s with trap, placements := s.placements.push (p, failure) }

def serve (s : PagingScript) (a : Nat) : PagingScript :=
  (s.onFault a).foldl place { s with faults := s.faults.push a }

def idle (s : PagingScript) : IdleResult × PagingScript :=
  let s := { s with idleCalls := s.idleCalls + 1 }
  match s.onIdle with
  | [] => (.allDone, s)
  | (result, pages) :: onIdle => (result, pages.foldl place { s with onIdle })

instance : Pager PagingScript Nat where
  trap := PagingScript.trap
  withTrap s trap := { s with trap }
  fault a := a
  serve s a := (none, s.serve a)
  idle := idle
  rest s := s
  calls s := s.onIdle.length + 1

end PagingScript
end RamRestore
