import RamRestore.Memory

/-! # Page states

A page is empty until somebody claims it for reading, and it ends filled or failed. The
order of the states is the order in which a page can reach them.
-/

namespace RamRestore

inductive PageState where
  | empty
  | reading
  | read
  | filling
  | filled
  | error
  deriving DecidableEq, Repr

namespace PageState

def rank : PageState → Nat
  | .empty => 0
  | .reading => 1
  | .read => 2
  | .filling => 3
  | .filled => 4
  | .error => 5

instance : Ord PageState := ⟨fun s t => compare s.rank t.rank⟩

/-- A page in this state never changes its state again. -/
def isTerminal : PageState → Bool
  | .filled | .error => true
  | _ => false

end PageState

def isZero (bytes : Bytes) : Bool := bytes.all (· == 0)

def zeroPage : Bytes := Array.replicate Memory.frameSize 0

end RamRestore
