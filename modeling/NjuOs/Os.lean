import NjuOs.Uproc
import NjuOs.Runs

/-!
# The running system (`uproc_init` and the trap handlers)

System calls, page faults, clock ticks and switches are atomic steps. `uctx cpu` is the
user context the CPU was resumed with or, after a call that asks for a switch (`resched`),
the trap frame that `kmt_schedule` is about to save. A process that was rewound onto a
system call makes that call first; otherwise user code may do anything, so that its
registers at the next trap are part of the action. `born` and `waited` only record the pids
that came to be and those that `wait` returned, and to whom.
-/

namespace NjuOs

def Kernel.blank (v : Vfs) (uprogs : List (List UInt8 × List UInt8)) : Kernel :=
  { kmtInit with
    heap := ⟨[], 0⟩
    page := fun _ => []
    vfs := v
    ptable := []
    nextPid := 1
    initproc := none
    uprogs := uprogs }

def uprocInit (A : Allocator) (v : Vfs) (uprogs : List (List UInt8 × List UInt8)) : Except Halt Kernel :=
  match uprogs.find? fun u => u.1 = bytes "init" with
  | none => .error (.panic "uproc: no embedded 'init' program")
  | some u => do
    let (k, p) ← procSpawn A (Kernel.blank v uprogs) u.2 u.2.length
    return { k with initproc := some p }

structure OsSys where
  k : Kernel
  uctx : Nat → Context
  resched : Nat → Bool
  born : List Int
  waited : List (TaskRef × Int)

inductive OsAct
  | schedule (cpu : Nat) (ctx : Context)
  | tick (now : Nat)
  | syscall (cpu : Nat) (ctx : Context) (now : Nat) (call : Syscall)
  | pageFault (cpu : Nat) (ctx : Context)
  | spawn (bin : List UInt8) (len : Nat)

def OsSys.boot (k : Kernel) : OsSys where
  k := k
  uctx := fun _ => blankContext
  resched := fun _ => false
  born := k.ptable.map fun t => (k.tasks t).pid
  waited := []

def Blocking.repeats : Blocking → Syscall → Bool
  | .wait va, .wait va' => va = va'
  | .sleep n, .sleep n' => n = n'
  | _, _ => false

/-- The trap frame of an interrupt or of a switch that a system call asked for. -/
def OsSys.frame (s : OsSys) (cpu : Nat) (ctx : Context) : Context :=
  if s.resched cpu = false ∧ (s.uctx cpu).redo = none then { ctx with redo := none } else s.uctx cpu

def OsSys.callFrame (s : OsSys) (cpu : Nat) (ctx : Context) (call : Syscall) : Option Context :=
  match (s.uctx cpu).redo with
  | none => some { ctx with redo := none }
  | some b =>
    if b.repeats call then
      some { s.uctx cpu with rip := add64 (s.uctx cpu).rip syscallInstrLen, redo := none }
    else none

def OsSys.user (s : OsSys) (cpu : Nat) : Option TaskRef :=
  match s.k.current cpu with
  | none => none
  | some p => if s.resched cpu = false ∧ s.k.live p = true ∧ (s.k.tasks p).isUser = true then some p else none

def OsSys.trapped (s : OsSys) (cpu : Nat) (k : Kernel) (ctx : Context) (resched : Bool) : OsSys :=
  { s with
    k := k
    uctx := Function.update s.uctx cpu ctx
    resched := Function.update s.resched cpu resched }

def bornBy (ctx : Context) : Syscall → List Int
  | .fork => [ctx.gprx]
  | _ => []

def waitedBy (k : Kernel) (p : TaskRef) : Syscall → List (TaskRef × Int)
  | .wait _ =>
    match tryReap k p with
    | .ok (_, .reaped _, pid, _) => [(p, pid)]
    | _ => []
  | _ => []

def OsSys.step (A : Allocator) (s : OsSys) : OsAct → Option OsSys
  | .schedule cpu ctx =>
    match kmtSchedule s.k.toKmt cpu (s.frame cpu ctx) with
    | .error _ => none
    | .ok (k, rc) => some (s.trapped cpu { s.k with toKmt := k } rc false)
  | .tick now => some { s with k := uprocTick s.k now }
  | .syscall cpu ctx now call => do
    let p ← s.user cpu
    let ctx ← s.callFrame cpu ctx call
    match doSyscall A s.k p ctx now call with
    | .error _ => none
    | .ok (k, ctx, resched) =>
      some { s.trapped cpu k ctx resched with
        born := s.born ++ bornBy ctx call
        waited := s.waited ++ waitedBy s.k p call }
  | .pageFault cpu ctx => do
    let p ← s.user cpu
    if (s.uctx cpu).redo ≠ none then none
    else
      match sysExit s.k p (-1) with
      | .error _ => none
      | .ok k => some (s.trapped cpu k { ctx with redo := none } true)
  | .spawn bin len =>
    match procSpawn A s.k bin len with
    | .error _ => none
    | .ok (k, p) => some { s with k := k, born := s.born ++ [(k.tasks p).pid] }

end NjuOs
