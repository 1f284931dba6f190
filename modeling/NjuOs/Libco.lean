import NjuOs.Runs

/-!
# Coroutines (`libco/co.c`)

Coroutines are numbered in the order of `co_start`; `main` is 0. One step is what the running
coroutine does up to its next call of the library or, in `co_wait`, up to the next look at
the status it waits for. `setjmp` and `longjmp` are in `waitsFor`: a coroutine that is resumed
goes on in `co_wait` or returns to its own code.
-/

namespace NjuOs

open Function

inductive CoStatus
  | new
  | running
  | waiting
  | dead
  deriving DecidableEq, Repr

def maxCo : Nat := 128

/-- The lists from `waited` on are histories: the calls of `co_wait`, the functions entered and
returned from, the calls of `co_wait` that have returned, and the choices of `schedule`. -/
structure Libco where
  status : Nat → CoStatus
  pool : List Nat
  current : Option Nat
  initialized : Bool
  exited : Bool
  waitsFor : Nat → Option Nat
  next : Nat
  waited : List Nat
  entered : List Nat
  returned : List Nat
  removed : List Nat
  dispatched : List Nat

def Libco.init : Libco where
  status := fun _ => .new
  pool := []
  current := none
  initialized := false
  exited := false
  waitsFor := fun _ => none
  next := 1
  waited := []
  entered := []
  returned := []
  removed := []
  dispatched := []

namespace Libco

def ensureInit (s : Libco) : Libco :=
  if s.initialized then s
  else { s with
    initialized := true, status := update s.status 0 .running, current := some 0, pool := s.pool ++ [0] }

/-! ## The scheduler -/

def runnable (s : Libco) (c : Nat) : Bool := s.status c = .new ∨ s.status c = .running

def slot (s : Libco) (cur : Nat) : Nat := if cur ∈ s.pool then s.pool.idxOf cur else 0

def cands (s : Libco) (cur : Nat) : List Nat :=
  (List.range s.pool.length).map fun off => s.pool.getD ((s.slot cur + (off + 1)) % s.pool.length) 0

def dispatch (s : Libco) (next : Nat) : Libco :=
  if s.status next = .new then
    { s with
      current := some next, dispatched := s.dispatched ++ [next],
      status := update s.status next .running, entered := s.entered ++ [next] }
  else { s with current := some next, dispatched := s.dispatched ++ [next] }

def schedule (s : Libco) : Libco :=
  match s.current with
  | none => s
  | some cur =>
    match (s.cands cur).find? s.runnable with
    | some next => s.dispatch next
    | none => if s.runnable cur then s.dispatch cur else { s with exited := true }

/-! ## The library -/

def coStart (s : Libco) : Option Libco :=
  let s := s.ensureInit
  if s.pool.length < maxCo then
    some { s with status := update s.status s.next .new, pool := s.pool ++ [s.next], next := s.next + 1 }
  else none

def coYield (s : Libco) : Libco := s.ensureInit.schedule

def setWaits (s : Libco) (c : Option Nat) : Nat → Option Nat :=
  match s.current with
  | none => s.waitsFor
  | some cur => update s.waitsFor cur c

/-- One round of the loop of `co_wait`, with what follows the last one. -/
def coWaitLoop (s : Libco) (c : Nat) : Libco :=
  if s.status c ≠ .dead then coYield { s with waitsFor := s.setWaits (some c) }
  else { s with waitsFor := s.setWaits none, pool := s.pool.erase c, removed := s.removed ++ [c] }

def coWait (s : Libco) (c : Nat) : Libco :=
  let s := s.ensureInit
  coWaitLoop { s with waited := s.waited ++ [c] } c

def coReturn (s : Libco) : Option Libco :=
  match s.current with
  | none | some 0 => none
  | some cur => some (schedule { s with status := update s.status cur .dead, returned := s.returned ++ [cur] })

/-! ## Programs -/

inductive CoAct
  | start
  | yield
  | wait (c : Nat)
  | loop
  | finish
  deriving DecidableEq, Repr

/-- A program waits for what `co_start` gave it, once, and not for itself. -/
def mayWait (s : Libco) (c : Nat) : Bool := 0 < c ∧ c < s.next ∧ c ∉ s.waited ∧ s.current ≠ some c

def step (s : Libco) (a : CoAct) : Option Libco :=
  if s.exited then none
  else match s.current.bind s.waitsFor, a with
    | some c, .loop => some (s.coWaitLoop c)
    | some _, _ => none
    | none, .start => s.coStart
    | none, .yield => some s.coYield
    | none, .wait c => if s.mayWait c then some (s.coWait c) else none
    | none, .loop => none
    | none, .finish => s.coReturn

end Libco

end NjuOs
