import RamRestore.Load.Reader

/-! # Idle time

Whoever hosts the watch calls the idle callback while it has nothing better to do. Each
call places one page that the reader has read, or asks the reader for more pages, or finds
that background loading is over.
-/

namespace RamRestore

namespace Load

variable {W : Type}

/-- The first page from `i` on that is still empty, or the number of pages. -/
def nextEmpty (l : Load W) (i : Nat) : Nat :=
  if h : i < l.index.pages.size then
    if l.state i = .empty then i else l.nextEmpty (i + 1)
  else l.index.pages.size
termination_by l.index.pages.size - i

/-- The request queue takes an entry: the reader is there and the queue is not full. -/
def canRequest (l : Load W) : Bool :=
  (match l.reader with | .ended => false | _ => true) && l.requests.length < l.capacity

def request (l : Load W) (r : Request) (c : Cursor) : Load W :=
  { l with requests := l.requests ++ [r], cursor := some c }

/-- Hands up to `n` empty pages to the reader, from the cursor on. -/
def queueReads (l : Load W) (c : Cursor) : (n : Nat) → IdleResult × Load W
  | 0 => (.runAgain, l)
  | n + 1 =>
    let next := l.nextEmpty c.next
    if next = l.index.pages.size then
      if !c.finished && l.canRequest then
        (.wait, l.request .finish { next, finished := true })
      else (.wait, { l with cursor := some { c with next } })
    else if l.canRequest then
      let c := { c with next := next + 1 }
      (l.request (.page next) c).queueReads c n
    else (.wait, { l with cursor := some { c with next } })

def finish (l : Load W) : IdleResult × Load W := (.allDone, l.markComplete)

def failBackground (l : Load W) (cause : LoadError) : IdleResult × Load W :=
  (l.record cause).closeQueues.finish

variable [Guest W]

/-- Acts on a result of the reader, which has left the queue. -/
def receive (l : Load W) : Result → IdleResult × Load W
  | .loaded i =>
    match l.placeParked i with
    | (none, l) => (.runAgain, l)
    | (some cause, l) => l.failBackground cause
  | .failed cause => l.failBackground cause
  | .allLoaded => l.closeQueues.finish

/-- One call of the idle callback. -/
def idle (l : Load W) : IdleResult × Load W :=
  match l.cursor with
  | none => l.finish
  | some c =>
    match l.results, l.reader with
    | r :: results, _ => { l with results }.receive r
    | [], .ended => l.failBackground (.io .readerStopped)
    | [], _ => l.queueReads c l.capacity

/-- An idle call, after which the reader runs until it blocks. -/
def idleSettled (l : Load W) : IdleResult × Load W :=
  let (r, l) := l.idle
  (r, l.settle)

def drive (l : Load W) : (n : Nat) → List IdleResult × Load W
  | 0 => ([], l)
  | n + 1 =>
    match l.idleSettled with
    | (.allDone, l) => ([.allDone], l)
    | (r, l) =>
      let (rs, l) := l.drive n
      (r :: rs, l)

def enoughCalls (l : Load W) : Nat := 2 * l.index.pages.size + 3

end Load
end RamRestore
