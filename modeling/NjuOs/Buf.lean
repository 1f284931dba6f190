import NjuOs.Sem

/-!
# The bounded buffer of the self-test

`producer` and `consumer` of `kmt.c` statement by statement, over the semaphores of `Sem`.
`buf_lock` is its holder; a thread may be preempted with the lock as well. `full` and
`clobbered` only record what happened to the slots.
-/

namespace NjuOs

open Function

inductive Role
  | producer
  | consumer
  deriving DecidableEq, Repr

inductive ProdPc
  | wait
  | lock
  | used
  | check (used : Int)
  | store
  | advance
  | count
  | unlock
  | signal
  deriving DecidableEq, Repr

inductive ConsPc
  | wait
  | lock
  | check
  | read
  | advance
  | count
  | unlock (done : Nat)
  | signal (done : Nat)
  | test (done : Nat)
  deriving DecidableEq, Repr

inductive BufPc
  | out
  | prod (i : Nat) (p : ProdPc)
  | cons (p : ConsPc)
  /-- the thread's function has returned -/
  | ended
  deriving DecidableEq, Repr

structure BufTest where
  cap : Nat
  items : Nat
  goal : Int
  role : Nat → Role

structure BufSys where
  sem : SemSys
  pc : TaskRef → BufPc
  bufLock : Option TaskRef
  buffer : Nat → Int
  bufHead : Int
  bufTail : Int
  producedTotal : Nat
  consumedTotal : Nat
  overflowSeen : Bool
  underflowSeen : Bool
  /-- slots with an item that no consumer has read -/
  full : Nat → Bool
  /-- an item was stored over one that no consumer had read -/
  clobbered : Bool

inductive BufAct
  | create (i : Nat) (ctx : Context)
  | timer (cpu : Nat) (ctx : Context)
  | yield (cpu : Nat) (ctx : Context)
  /-- the return from the `yield` in `kmt_sem_wait` -/
  | ret (cpu : Nat)
  /-- the next statement of the thread on a CPU -/
  | work (cpu : Nat)

def semEmpty : Nat := 0
def semFill : Nat := 1

/-! ## Index arithmetic -/

/-- `(buf_head - buf_tail + 2 * CAP) % (2 * CAP)` -/
def ringUsed (cap : Nat) (head tail : Int) : Except Halt Int := do
  let m ← intOf (2 * cap)
  let d ← intOf (head - tail)
  let e ← intOf (d + m)
  return e.tmod m

/-- `(i + 1) % (2 * CAP)` -/
def ringNext (cap : Nat) (i : Int) : Except Halt Int := do
  let m ← intOf (2 * cap)
  let n ← intOf (i + 1)
  return n.tmod m

def ringSlot (cap : Nat) (i : Int) : Option Nat :=
  if 0 ≤ i.tmod cap ∧ i.tmod cap < cap then some (i.tmod cap).toNat else none

/-! ## Threads -/

/-- `for (int i = 0; i < ITEMS; i++)` -/
def BufTest.item (b : BufTest) (i : Nat) : BufPc := if i < b.items then .prod i .wait else .ended

def BufTest.entry (b : BufTest) : Role → BufPc
  | .producer => b.item 0
  | .consumer => .cons .wait

def BufTest.start (b : BufTest) : BufSys where
  sem := { SemSys.start with
    k := kmtSemInit (kmtSemInit kmtInit semEmpty b.cap) semFill 0
    init := update (update (fun _ => none) semEmpty (some b.cap)) semFill (some 0) }
  pc := fun t => match t with
    | .kernel j => b.entry (b.role j)
    | _ => .out
  bufLock := none
  buffer := fun _ => 0
  bufHead := 0
  bufTail := 0
  producedTotal := 0
  consumedTotal := 0
  overflowSeen := false
  underflowSeen := false
  full := fun _ => false
  clobbered := false

def BufSys.goto (s : BufSys) (t : TaskRef) (pc : BufPc) : BufSys := { s with pc := update s.pc t pc }

/-- The thread calls `kmt_sem_wait` and goes on to `pc` unless it was queued. -/
def BufSys.wait (s : BufSys) (c : Nat) (t : TaskRef) (sem : Nat) (pc : BufPc) : Option BufSys := do
  let sem ← s.sem.step (.wait c sem)
  let s := { s with sem := sem }
  some (if sem.pc t = .run then s.goto t pc else s)

def BufSys.lock (s : BufSys) (t : TaskRef) (pc : BufPc) : BufSys :=
  if s.bufLock = none then { s.goto t pc with bufLock := some t } else s

def BufSys.unlock (s : BufSys) (t : TaskRef) (pc : BufPc) : BufSys := { s.goto t pc with bufLock := none }

def BufSys.signal (s : BufSys) (c : Nat) (t : TaskRef) (sem : Nat) (pc : BufPc) : Option BufSys := do
  let sem ← s.sem.step (.signal c sem)
  some ({ s with sem := sem }.goto t pc)

def BufSys.produce (b : BufTest) (s : BufSys) (c : Nat) (t : TaskRef) (i : Nat) : ProdPc → Option BufSys
  | .wait => s.wait c t semEmpty (.prod i .lock)
  | .lock => some (s.lock t (.prod i .used))
  | .used => do
    let used ← (ringUsed b.cap s.bufHead s.bufTail).toOption
    some (s.goto t (.prod i (.check used)))
  | .check used =>
    let s := s.goto t (.prod i .store)
    some (if b.cap ≤ used then { s with overflowSeen := true } else s)
  | .store => do
    let j ← ringSlot b.cap s.bufHead
    some { s.goto t (.prod i .advance) with
      buffer := update s.buffer j i
      full := update s.full j true
      clobbered := s.clobbered || s.full j }
  | .advance => do
    let head ← (ringNext b.cap s.bufHead).toOption
    some { s.goto t (.prod i .count) with bufHead := head }
  | .count =>
    if s.producedTotal + 1 < 2 ^ 63 then
      some { s.goto t (.prod i .unlock) with producedTotal := s.producedTotal + 1 }
    else none
  | .unlock => some (s.unlock t (.prod i .signal))
  | .signal => s.signal c t semFill (b.item (i + 1))

def BufSys.consume (b : BufTest) (s : BufSys) (c : Nat) (t : TaskRef) : ConsPc → Option BufSys
  | .wait => s.wait c t semFill (.cons .lock)
  | .lock => some (s.lock t (.cons .check))
  | .check =>
    let s := s.goto t (.cons .read)
    some (if s.bufHead = s.bufTail then { s with underflowSeen := true } else s)
  | .read => do
    let j ← ringSlot b.cap s.bufTail
    some { s.goto t (.cons .advance) with full := update s.full j false }
  | .advance => do
    let tail ← (ringNext b.cap s.bufTail).toOption
    some { s.goto t (.cons .count) with bufTail := tail }
  | .count =>
    if s.consumedTotal + 1 < 2 ^ 63 then
      some { s.goto t (.cons (.unlock (s.consumedTotal + 1))) with consumedTotal := s.consumedTotal + 1 }
    else none
  | .unlock done => some (s.unlock t (.cons (.signal done)))
  | .signal done => s.signal c t semEmpty (.cons (.test done))
  | .test done => some (s.goto t (if b.goal ≤ done then .ended else .cons .wait))

def BufSys.work (b : BufTest) (s : BufSys) (c : Nat) (t : TaskRef) : Option BufSys :=
  match s.pc t with
  | .out => none
  | .prod i p => s.produce b c t i p
  | .cons p => s.consume b c t p
  | .ended => do
    let sem ← s.sem.step (.exit c)
    some { s with sem := sem }

def BufPc.resume : BufPc → BufPc
  | .prod i .wait => .prod i .lock
  | .cons .wait => .cons .lock
  | p => p

def BufTest.step (b : BufTest) (s : BufSys) : BufAct → Option BufSys
  | .create i ctx => do
    let sem ← s.sem.step (.create i ctx)
    some { s with sem := sem }
  | .timer c ctx => do
    let sem ← s.sem.step (.timer c ctx)
    some { s with sem := sem }
  | .yield c ctx => do
    let sem ← s.sem.step (.yield c ctx)
    some { s with sem := sem }
  | .ret c => do
    let t ← s.sem.k.current c
    let sem ← s.sem.step (.ret c)
    some ({ s with sem := sem }.goto t (s.pc t).resume)
  | .work c => do
    let t ← s.sem.thread c
    s.work b c t

end NjuOs
