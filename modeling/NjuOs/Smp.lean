import NjuOs.Os

/-!
# Several CPUs, one lock section at a time

Switches, thread and semaphore operations, the clock and the steps of `try_reap` interleave
freely: the scan under `plock`, `kmt_teardown` under `task_lock` and the frees are separate
steps. `reaping` are the children that a scan has taken out of the table, `torn` those that
are off the scheduler's list as well. The other system calls are single steps; the writes by
which one of them changes the status of a process can also come one by one (`store`).
-/

namespace NjuOs

structure Status where
  state : TaskState
  parent : Option TaskRef
  exitStatus : Int
  xstate : Bool
  sleeping : Bool
  wakeUs : Nat
  waiting : Bool

def Task.store (x : Task) (st : Status) : Task :=
  { x with
    state := st.state
    parent := st.parent
    exitStatus := st.exitStatus
    xstate := st.xstate
    sleeping := st.sleeping
    wakeUs := st.wakeUs
    waiting := st.waiting }

structure SmpSys where
  k : Kernel
  reaping : List TaskRef
  torn : List TaskRef

inductive SmpAct
  | schedule (cpu : Nat) (ctx : Context)
  | create (i : Nat) (ctx : Context)
  | semInit (sem : Nat) (v : Int)
  | semWait (cpu sem : Nat)
  | semSignal (sem : Nat)
  | threadExit (cpu : Nat)
  | teardown (t : TaskRef)
  | store (t : TaskRef) (st : Status)
  | tick (now : Nat)
  | spawn (bin : List UInt8) (len : Nat)
  | pageFault (cpu : Nat)
  | syscall (cpu : Nat) (ctx : Context) (now : Nat) (call : Syscall)
  | waitScan (cpu : Nat)
  | reapTeardown (t : TaskRef)
  | reapFree (t : TaskRef)

def SmpSys.boot (k : Kernel) : SmpSys := ⟨k, [], []⟩

def SmpSys.user (s : SmpSys) (cpu : Nat) : Option TaskRef :=
  match s.k.current cpu with
  | none => none
  | some p => if s.k.live p = true ∧ (s.k.tasks p).isUser = true then some p else none

def SmpSys.withKernel (s : SmpSys) : Except Halt Kernel → Option SmpSys
  | .error _ => none
  | .ok k => some { s with k := k }

def SmpSys.withKmt (s : SmpSys) : Except Halt Kmt → Option SmpSys
  | .error _ => none
  | .ok m => some { s with k := { s.k with toKmt := m } }

def Syscall.isWait : Syscall → Bool
  | .wait _ => true
  | _ => false

def SmpSys.step (A : Allocator) (s : SmpSys) : SmpAct → Option SmpSys
  | .schedule cpu ctx => s.withKmt ((kmtSchedule s.k.toKmt cpu ctx).map Prod.fst)
  | .create i ctx =>
    if s.k.live (.kernel i) = true then none else s.withKmt (kmtCreate s.k.toKmt (.kernel i) (some ctx))
  | .semInit sem v => some { s with k := { s.k with toKmt := kmtSemInit s.k.toKmt sem v } }
  | .semWait cpu sem => s.withKmt ((kmtSemWait s.k.toKmt cpu sem).map Prod.fst)
  | .semSignal sem => s.withKmt (kmtSemSignal s.k.toKmt sem)
  | .threadExit cpu => s.withKmt (taskExit s.k.toKmt cpu)
  | .teardown t => if s.k.live t = true then s.withKernel (reapTeardown s.k t) else none
  | .store t st =>
    if s.k.live t = true ∧ (s.k.tasks t).isUser = true then some { s with k := s.k.modify t (Task.store · st) }
    else none
  | .tick now => some { s with k := uprocTick s.k now }
  | .spawn bin len => s.withKernel ((procSpawn A s.k bin len).map Prod.fst)
  | .pageFault cpu => do
    let p ← s.user cpu
    s.withKernel (sysExit s.k p (-1))
  | .syscall cpu ctx now call => do
    let p ← s.user cpu
    if call.isWait then none else s.withKernel ((doSyscall A s.k p ctx now call).map Prod.fst)
  | .waitScan cpu => do
    let p ← s.user cpu
    match reapScan s.k p with
    | (k, .reaped c) => some { s with k := k, reaping := c :: s.reaping }
    | (k, _) => some { s with k := k }
  | .reapTeardown t =>
    if t ∈ s.reaping then
      match reapTeardown s.k t with
      | .error _ => none
      | .ok k => some ⟨k, s.reaping.erase t, t :: s.torn⟩
    else none
  | .reapFree t =>
    if t ∈ s.torn then
      match reapFree s.k t with
      | .error _ => none
      | .ok k => some { s with k := k, torn := s.torn.erase t }
    else none

end NjuOs
