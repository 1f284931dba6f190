import NjuOs.Kmt
import NjuOs.Runs

/-!
# Threads that use semaphores

Kernel threads on any number of CPUs. A trap (`timer`) can strike at any point outside the
lock sections, also inside `kmt_sem_wait` between the section that queues the caller and
its `yield`; `Pc` says where a thread is. The counters and logs only record what happened.
-/

namespace NjuOs

open Function

inductive Pc
  | run
  /-- in `kmt_sem_wait`, past the section that queued it, before its `yield` -/
  | yielding (sem : Nat)
  /-- in `kmt_sem_wait`, its `yield` has trapped -/
  | yielded (sem : Nat)
  | exited
  deriving DecidableEq, Repr

structure SemSys where
  k : Kmt
  pc : TaskRef → Pc
  /-- the value a semaphore was initialised with -/
  init : Nat → Option Int
  waits : Nat → Nat
  signals : Nat → Nat
  passed : Nat → Nat
  queued : Nat → List TaskRef
  woken : Nat → List TaskRef

inductive SemAct
  | create (i : Nat) (ctx : Context)
  | semInit (sem : Nat) (v : Int)
  | timer (cpu : Nat) (ctx : Context)
  | yield (cpu : Nat) (ctx : Context)
  | wait (cpu sem : Nat)
  | ret (cpu : Nat)
  | signal (cpu sem : Nat)
  | exit (cpu : Nat)

def SemSys.start : SemSys where
  k := kmtInit
  pc := fun _ => .run
  init := fun _ => none
  waits := fun _ => 0
  signals := fun _ => 0
  passed := fun _ => 0
  queued := fun _ => []
  woken := fun _ => []

def bump (f : Nat → Nat) (i : Nat) : Nat → Nat := update f i (f i + 1)

def Pc.next : Pc → Option Pc
  | .yielding i => some (.yielded i)
  | .yielded _ => none
  | p => some p

def oldest (x : Semaphore) : List TaskRef := if x.value + 1 ≤ 0 then x.waiters.toList else []

def SemSys.thread (s : SemSys) (cpu : Nat) : Option TaskRef :=
  match s.k.current cpu with
  | some (.kernel j) => if s.pc (.kernel j) = .run then some (.kernel j) else none
  | _ => none

def SemSys.afterWait (s : SemSys) (sem : Nat) (t : TaskRef) (k : Kmt) (blocked : Bool) : SemSys :=
  match blocked with
  | false => { s with k := k, waits := bump s.waits sem, passed := bump s.passed sem }
  | true =>
    { s with
      k := k
      waits := bump s.waits sem
      pc := update s.pc t (.yielding sem)
      queued := update s.queued sem (s.queued sem ++ [t]) }

def SemSys.step (s : SemSys) : SemAct → Option SemSys
  | .create i ctx =>
    if s.k.live (.kernel i) = true then none
    else
      match kmtCreate s.k (.kernel i) (some ctx) with
      | .error _ => none
      | .ok k => some { s with k := k, pc := update s.pc (.kernel i) .run }
  | .semInit sem v =>
    if s.init sem = none ∧ 0 ≤ v ∧ v < 2 ^ 31 then
      some { s with k := kmtSemInit s.k sem v, init := update s.init sem (some v) }
    else none
  | .timer cpu ctx =>
    match kmtSchedule s.k cpu ctx with
    | .error _ => none
    | .ok (k, _) => some { s with k := k }
  | .yield cpu ctx => do
    let t ← s.k.current cpu
    let pc ← (s.pc t).next
    match kmtSchedule s.k cpu ctx with
    | .error _ => none
    | .ok (k, _) => some { s with k := k, pc := update s.pc t pc }
  | .wait cpu sem => do
    let t ← s.thread cpu
    let _ ← s.init sem
    match kmtSemWait s.k cpu sem with
    | .error _ => none
    | .ok (k, blocked) => some (s.afterWait sem t k blocked)
  | .ret cpu => do
    let t ← s.k.current cpu
    match s.pc t with
    | .yielded sem => some { s with pc := update s.pc t .run, passed := bump s.passed sem }
    | _ => none
  | .signal cpu sem => do
    let _ ← s.thread cpu
    let _ ← s.init sem
    match kmtSemSignal s.k sem with
    | .error _ => none
    | .ok k =>
      some { s with
        k := k
        signals := bump s.signals sem
        woken := update s.woken sem (s.woken sem ++ oldest (s.k.sems sem)) }
  | .exit cpu => do
    let t ← s.thread cpu
    match taskExit s.k cpu with
    | .error _ => none
    | .ok k => some { s with k := k, pc := update s.pc t .exited }

end NjuOs
