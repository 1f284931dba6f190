import NjuOs.Vfs

/-!
# Tasks, scheduler and semaphores (`os.h`, `kmt.c`)

A pointer to a task is a `TaskRef`; `live` says which of the structs are in use, and an
access to any other one is undefined behaviour. The scheduler's list and the semaphore
queues are threaded through the tasks as in the source.
-/

namespace NjuOs

open Function

inductive TaskRef
  /-- `&idle[cpu]` -/
  | idle (cpu : Nat)
  /-- a static struct of a kernel thread -/
  | kernel (i : Nat)
  /-- a struct that `proc_alloc` took from the heap -/
  | proc (addr : Nat)
  deriving DecidableEq, Repr

inductive TaskState
  | unused
  | runnable
  | blocked
  | dead
  deriving DecidableEq, Repr

structure Vmap where
  va : Nat
  pa : Nat
  prot : Nat
  deriving DecidableEq, Repr

/-- An address space of the native VME: its `VMHead`, and each key of the hash table with the page of its node. -/
structure AddrSpace where
  ptr : Option Nat
  nodes : List (Nat × Nat)
  deriving DecidableEq, Repr

def AddrSpace.keys (s : AddrSpace) : List Nat := s.nodes.map Prod.fst

inductive Blocking
  | wait (va : Nat)
  | sleep (seconds : Int)
  deriving DecidableEq, Repr

/-- A saved user context. `redo` is the call the process makes first when it is resumed,
if `rewind_syscall` has put `rip` back on it. -/
structure Context where
  rip : Nat
  gprx : Int
  regs : List Int
  vmHead : Option Nat
  ksp : Nat
  redo : Option Blocking
  deriving DecidableEq, Repr

/-- `maps` holds the first `nmap` entries of the array at `mapsPtr`. -/
structure Task where
  context : Context
  state : TaskState
  cpu : Int
  schedNext : Option TaskRef
  semNext : Option TaskRef
  savedNcli : Int
  savedIntena : Int
  onCpu : Bool
  isUser : Bool
  pid : Int
  addrSpace : AddrSpace
  mapsPtr : Option Nat
  maps : List Vmap
  heapTop : Nat
  parent : Option TaskRef
  exitStatus : Int
  xstate : Bool
  sleeping : Bool
  wakeUs : Nat
  waiting : Bool
  files : Files

structure Semaphore where
  value : Int
  waiters : Option TaskRef
  deriving DecidableEq, Repr

/-- `nlink` counts the insertions into `task_list`; no walk along it takes more steps. -/
structure Kmt where
  tasks : TaskRef → Task
  live : TaskRef → Bool
  taskList : Option TaskRef
  current : Nat → Option TaskRef
  prevTask : Nat → Option TaskRef
  ncli : Nat → Int
  intena : Nat → Int
  sems : Nat → Semaphore
  nlink : Nat

def Kmt.deref (k : Kmt) (t : TaskRef) : Except Halt Task :=
  if k.live t = true then .ok (k.tasks t) else .error .undefined

def Kmt.set (k : Kmt) (t : TaskRef) (x : Task) : Kmt := { k with tasks := update k.tasks t x }

/-! ## Scheduler -/

/-- `t->sched_next ? t->sched_next : task_list` -/
def Kmt.succ (k : Kmt) (x : Task) : Option TaskRef :=
  match x.schedNext with
  | some n => some n
  | none => k.taskList

def eligible (x : Task) : Bool := x.state = .runnable ∧ x.cpu = -1 ∧ x.onCpu = false

def pickLoop (k : Kmt) (start : Option TaskRef) : Nat → Option TaskRef → Except Halt (Option TaskRef)
  | 0, _ => .ok none
  | _ + 1, none => .ok none
  | steps + 1, some t => do
    let x ← k.deref t
    if eligible x then return some t
    if k.succ x = start then return none
    pickLoop k start steps (k.succ x)

def maxSteps : Nat := 200001

def pickNext (k : Kmt) (after : Option TaskRef) : Except Halt (Option TaskRef) := do
  match after with
  | none => pickLoop k k.taskList maxSteps k.taskList
  | some a =>
    let start := k.succ (← k.deref a)
    pickLoop k start maxSteps start

/-- Deferred release of the task that ran before the previous switch. -/
def releasePrev (k : Kmt) (cpu : Nat) : Except Halt Kmt :=
  match k.prevTask cpu with
  | none => .ok k
  | some q =>
    if k.current cpu = some q then .ok k
    else do
      let x ← k.deref q
      return { k.set q { x with onCpu := false } with prevTask := update k.prevTask cpu none }

/-- The running task gives up the CPU but keeps `on_cpu`. -/
def Task.save (x : Task) (ctx : Context) (ncli intena : Int) (isIdle : Bool) : Task :=
  { x with
    context := ctx
    savedNcli := ncli
    savedIntena := intena
    cpu := -1
    state := if isIdle = false ∧ x.state ≠ .blocked ∧ x.state ≠ .dead then .runnable else x.state }

def saveCurrent (k : Kmt) (cpu : Nat) (ctx : Context) : Except Halt Kmt :=
  match k.current cpu with
  | none => .ok k
  | some t => do return k.set t ((← k.deref t).save ctx (k.ncli cpu) (k.intena cpu) (t = .idle cpu))

def switchTo (k : Kmt) (cpu : Nat) (next : TaskRef) : Except Halt (Kmt × Context) := do
  let x ← k.deref next
  let k' := k.set next { x with cpu := cpu, onCpu := true }
  return ({ k' with
    current := update k.current cpu (some next)
    ncli := update k.ncli cpu x.savedNcli
    intena := update k.intena cpu x.savedIntena
    prevTask := update k.prevTask cpu
      (if k.current cpu ≠ some next then k.current cpu else none) }, x.context)

def kmtSchedule (k : Kmt) (cpu : Nat) (ctx : Context) : Except Halt (Kmt × Context) := do
  let k ← releasePrev k cpu
  let k ← saveCurrent k cpu ctx
  let after := if k.current cpu = some (.idle cpu) then none else k.current cpu
  let next ← pickNext k after
  switchTo k cpu (next.getD (.idle cpu))

/-! ## Threads -/

def kmtRegister (k : Kmt) (t : TaskRef) : Kmt :=
  { k.set t { k.tasks t with schedNext := k.taskList } with taskList := some t, nlink := k.nlink + 1 }

/-- `startup` is the context that `kcontext` builds; `none` when there is no memory for
the startup block. -/
def kmtCreate (k : Kmt) (t : TaskRef) (startup : Option Context) : Except Halt Kmt :=
  match startup with
  | none => .error (.panic "kmt_create: out of memory")
  | some ctx =>
    let x := { k.tasks t with
      state := .runnable
      cpu := -1
      semNext := none
      onCpu := false
      savedNcli := 0
      savedIntena := 1
      context := ctx }
    .ok (kmtRegister { k.set t x with live := update k.live t true } t)

/-- The walk of `kmt_teardown`; `pp` is the task whose `sched_next` is looked at, `none`
the list head. -/
def unlinkLoop (k : Kmt) (t : TaskRef) : Nat → Option TaskRef → Except Halt Kmt
  | 0, _ => .error .diverge
  | fuel + 1, none =>
    match k.taskList with
    | none => .ok k
    | some n =>
      if n = t then do return { k with taskList := (← k.deref t).schedNext }
      else unlinkLoop k t fuel (some n)
  | fuel + 1, some q => do
    let x ← k.deref q
    match x.schedNext with
    | none => return k
    | some n =>
      if n = t then return k.set q { x with schedNext := (← k.deref t).schedNext }
      else unlinkLoop k t fuel (some n)

def kmtTeardown (k : Kmt) (t : TaskRef) : Except Halt Kmt := unlinkLoop k t (k.nlink + 1) none

def taskExit (k : Kmt) (cpu : Nat) : Except Halt Kmt :=
  match k.current cpu with
  | none => .error .undefined
  | some t => do return k.set t { ← k.deref t with state := .dead }

/-! ## Semaphores -/

def Kmt.setSem (k : Kmt) (s : Nat) (x : Semaphore) : Kmt := { k with sems := update k.sems s x }

def kmtSemInit (k : Kmt) (s : Nat) (value : Int) : Kmt := k.setSem s ⟨value, none⟩

/-- `while (t->sem_next) t = t->sem_next` -/
def lastWaiter (k : Kmt) : Nat → TaskRef → Except Halt TaskRef
  | 0, _ => .error .diverge
  | fuel + 1, t => do
    match (← k.deref t).semNext with
    | none => return t
    | some n => lastWaiter k fuel n

def enqueueWaiter (k : Kmt) (s : Nat) (self : TaskRef) : Except Halt Kmt := do
  let k := k.set self { ← k.deref self with semNext := none }
  match (k.sems s).waiters with
  | none => return k.setSem s { k.sems s with waiters := some self }
  | some w =>
    let t ← lastWaiter k (k.nlink + 1) w
    return k.set t { k.tasks t with semNext := some self }

/-- The section under `sem->lock`. The flag says that the task goes on to `yield`. -/
def kmtSemWait (k : Kmt) (cpu s : Nat) : Except Halt (Kmt × Bool) := do
  let value ← intOf ((k.sems s).value - 1)
  let k := k.setSem s { k.sems s with value := value }
  if 0 ≤ value then return (k, false)
  match k.current cpu with
  | none => .error .undefined
  | some self =>
    let k ← enqueueWaiter k s self
    return (k.set self { k.tasks self with state := .blocked }, true)

def kmtSemSignal (k : Kmt) (s : Nat) : Except Halt Kmt := do
  let value ← intOf ((k.sems s).value + 1)
  let k := k.setSem s { k.sems s with value := value }
  match (k.sems s).waiters with
  | none => return k
  | some w =>
    if 0 < value then return k
    let x ← k.deref w
    let k := k.setSem s { k.sems s with waiters := x.semNext }
    return k.set w { x with semNext := none, state := .runnable }

/-! ## Initialisation -/

def blankContext : Context := ⟨0, 0, [], none, 0, none⟩

def zeroTask : Task where
  context := blankContext
  state := .unused
  cpu := 0
  schedNext := none
  semNext := none
  savedNcli := 0
  savedIntena := 0
  onCpu := false
  isUser := false
  pid := 0
  addrSpace := ⟨none, []⟩
  mapsPtr := none
  maps := []
  heapTop := 0
  parent := none
  exitStatus := 0
  xstate := false
  sleeping := false
  wakeUs := 0
  waiting := false
  files := ⟨fun _ => none, []⟩

def idleTask : Task := { zeroTask with state := .runnable, cpu := -1, savedIntena := 1 }

def kmtInit : Kmt where
  tasks := fun t => match t with
    | .idle _ => idleTask
    | _ => zeroTask
  live := fun t => match t with
    | .idle _ => true
    | _ => false
  taskList := none
  current := fun _ => none
  prevTask := fun _ => none
  ncli := fun _ => 0
  intena := fun _ => 0
  sems := fun _ => ⟨0, none⟩
  nlink := 0

end NjuOs
