import NjuOs.Kmt
import NjuOs.Runs

/-!
# Spinlocks, statement by statement

`kmt_spin_lock` and `kmt_spin_unlock` with `push_off` and `pop_off`, on any number of
CPUs. A CPU executes its current task or, in a trap, the handlers; both may take
spinlocks. The timer can strike before any statement that is executed with interrupts
enabled. `ie` is the interrupt flag of a CPU, `mask` the one in the saved context of a task.
-/

namespace NjuOs

open Function

inductive Agent
  | task (t : TaskRef)
  | trap (cpu : Nat)
  deriving DecidableEq, Repr

/-- The statement an agent executes next; `cpu` and `was` are the locals of `push_off` and
`pop_off`. -/
inductive SpinPc
  | out
  | readCpu (l : Nat)
  | readIe (l cpu : Nat)
  | disable (l cpu : Nat) (was : Bool)
  | saveIe (l cpu : Nat) (was : Bool)
  | incNcli (l cpu : Nat)
  | checkHeld (l : Nat)
  | spin (l : Nat)
  | setCpu (l : Nat)
  | checkOwner (l : Nat)
  | clearCpu (l : Nat)
  | release (l : Nat)
  | popCpu
  | decNcli (cpu : Nat)
  | enable (cpu : Nat)
  deriving DecidableEq, Repr

/-- `held` lists the locks between `raw_lock` and `raw_unlock`; `before` is the interrupt
flag at the call of the outermost `kmt_spin_lock`. -/
structure SpinThread where
  pc : SpinPc
  held : List Nat
  before : Bool
  deriving DecidableEq, Repr

structure Spinlock where
  locked : Bool
  cpu : Option Nat
  deriving DecidableEq, Repr

structure SpinSys where
  k : Kmt
  ie : Nat → Bool
  inTrap : Nat → Bool
  mask : TaskRef → Bool
  locks : Nat → Spinlock
  thread : Agent → SpinThread
  /-- a `panic_on` has fired -/
  panicked : Bool

inductive SpinAct
  | create (i : Nat) (ctx : Context)
  /-- a section under `task_lock` that writes the state of a task -/
  | mark (t : TaskRef) (st : TaskState)
  | lock (cpu l : Nat)
  | unlock (cpu l : Nat)
  | stmt (cpu : Nat)
  | timer (cpu : Nat)
  | yield (cpu : Nat)
  | sched (cpu : Nat) (ctx : Context)
  | iret (cpu : Nat)

def SpinSys.start : SpinSys where
  k := kmtInit
  ie := fun _ => true
  inTrap := fun _ => false
  mask := fun _ => true
  locks := fun _ => ⟨false, none⟩
  thread := fun _ => ⟨.out, [], true⟩
  panicked := false

def SpinSys.agent (s : SpinSys) (cpu : Nat) : Option Agent :=
  if s.inTrap cpu then some (.trap cpu) else (s.k.current cpu).map .task

def SpinSys.setThread (s : SpinSys) (a : Agent) (x : SpinThread) : SpinSys :=
  { s with thread := update s.thread a x }

def SpinSys.goto (s : SpinSys) (a : Agent) (pc : SpinPc) : SpinSys := s.setThread a { s.thread a with pc := pc }

def SpinSys.setLock (s : SpinSys) (l : Nat) (x : Spinlock) : SpinSys :=
  { s with locks := update s.locks l x }

def SpinSys.setIe (s : SpinSys) (cpu : Nat) (b : Bool) : SpinSys := { s with ie := update s.ie cpu b }

def SpinSys.setNcli (s : SpinSys) (cpu : Nat) (n : Int) : SpinSys :=
  { s with k := { s.k with ncli := update s.k.ncli cpu n } }

def SpinSys.setIntena (s : SpinSys) (cpu : Nat) (b : Bool) : SpinSys :=
  { s with k := { s.k with intena := update s.k.intena cpu (if b then 1 else 0) } }

def SpinSys.exec (s : SpinSys) (c : Nat) (a : Agent) : Option SpinSys :=
  match (s.thread a).pc with
  | .out => none
  | .readCpu l => some (s.goto a (.readIe l c))
  | .readIe l cpu => some (s.goto a (.disable l cpu (s.ie c)))
  | .disable l cpu was => some ((s.goto a (.saveIe l cpu was)).setIe c false)
  | .saveIe l cpu was =>
    if s.k.ncli cpu = 0 then some ((s.goto a (.incNcli l cpu)).setIntena cpu was)
    else some (s.goto a (.incNcli l cpu))
  | .incNcli l cpu =>
    match intOf (s.k.ncli cpu + 1) with
    | .error _ => none
    | .ok n => some ((s.goto a (.checkHeld l)).setNcli cpu n)
  | .checkHeld l =>
    if (s.locks l).cpu = some c then some { s with panicked := true } else some (s.goto a (.spin l))
  | .spin l =>
    if (s.locks l).locked then some s
    else
      some ((s.setThread a ⟨.setCpu l, l :: (s.thread a).held, (s.thread a).before⟩).setLock l
        { s.locks l with locked := true })
  | .setCpu l => some ((s.goto a .out).setLock l { s.locks l with cpu := some c })
  | .checkOwner l =>
    if (s.locks l).cpu ≠ some c then some { s with panicked := true } else some (s.goto a (.clearCpu l))
  | .clearCpu l => some ((s.goto a (.release l)).setLock l { s.locks l with cpu := none })
  | .release l =>
    some ((s.setThread a ⟨.popCpu, (s.thread a).held.erase l, (s.thread a).before⟩).setLock l
      { s.locks l with locked := false })
  | .popCpu => some (s.goto a (.decNcli c))
  | .decNcli cpu =>
    if 0 < s.k.ncli cpu then some ((s.goto a (.enable cpu)).setNcli cpu (s.k.ncli cpu - 1))
    else some (s.goto a (.enable cpu))
  | .enable cpu =>
    if s.k.ncli cpu = 0 ∧ s.k.intena cpu ≠ 0 then some ((s.goto a .out).setIe c true) else some (s.goto a .out)

/-- The CPU enters the handlers; the context it leaves keeps the interrupt flag. -/
def SpinSys.trapped (s : SpinSys) (c : Nat) : SpinSys :=
  { s with
    inTrap := update s.inTrap c true
    ie := update s.ie c false
    mask := match s.k.current c with
      | none => s.mask
      | some t => update s.mask t (s.ie c)
    thread := update s.thread (.trap c) ⟨.out, [], false⟩ }

def SpinSys.iret (s : SpinSys) (c : Nat) : SpinSys :=
  { s with
    inTrap := update s.inTrap c false
    ie := update s.ie c (match s.k.current c with
      | none => true
      | some t => s.mask t) }

def SpinSys.created (s : SpinSys) (i : Nat) (k : Kmt) : SpinSys :=
  { s with
    k := k
    mask := update s.mask (.kernel i) true
    thread := update s.thread (.task (.kernel i)) ⟨.out, [], true⟩ }

def SpinThread.idle (x : SpinThread) : Prop := x.pc = .out ∧ x.held = []

instance (x : SpinThread) : Decidable x.idle := inferInstanceAs (Decidable (_ ∧ _))

def SpinSys.step (s : SpinSys) (act : SpinAct) : Option SpinSys :=
  if s.panicked then none
  else
    match act with
    | .create i ctx =>
      if s.k.live (.kernel i) = true then none
      else
        match kmtCreate s.k (.kernel i) (some ctx) with
        | .error _ => none
        | .ok k => some (s.created i k)
    | .mark t st => some { s with k := s.k.set t { s.k.tasks t with state := st } }
    | .lock c l => do
      let a ← s.agent c
      let x := s.thread a
      if x.pc = .out then some (s.setThread a ⟨.readCpu l, x.held, if x.held = [] then s.ie c else x.before⟩)
      else none
    | .unlock c l => do
      let a ← s.agent c
      if (s.thread a).pc = .out ∧ l ∈ (s.thread a).held then some (s.goto a (.checkOwner l)) else none
    | .stmt c => do
      let a ← s.agent c
      s.exec c a
    | .timer c => if s.inTrap c = false ∧ s.ie c = true then some (s.trapped c) else none
    | .yield c =>
      if s.inTrap c = false ∧ ∀ t ∈ s.k.current c, (s.thread (.task t)).idle then some (s.trapped c) else none
    | .sched c ctx =>
      if s.inTrap c = true ∧ (s.thread (.trap c)).idle then
        match kmtSchedule s.k c ctx with
        | .error _ => none
        | .ok (k, _) => some { s with k := k }
      else none
    | .iret c => if s.inTrap c = true ∧ (s.thread (.trap c)).idle then some (s.iret c) else none

/-! ## The counter test -/

/-- The statement of `counter_worker` that comes next; `shared_counter++` is a load and a
store. -/
inductive CountPc
  | enter
  | load
  | store (v : Int)
  | leave
  deriving DecidableEq, Repr

structure CountSys where
  spin : SpinSys
  pc : TaskRef → CountPc
  sharedCounter : Int
  done : Nat

inductive CountAct
  /-- the next statement of the worker on a CPU -/
  | work (cpu : Nat)
  /-- anything else: no other code takes `counter_lock` -/
  | sys (act : SpinAct)

def CountSys.start : CountSys := ⟨.start, fun _ => .enter, 0, 0⟩

def counterLock : Nat := 0

def CountSys.work (s : CountSys) (c : Nat) (t : TaskRef) : Option CountSys :=
  match s.pc t with
  | .enter => do
    let spin ← s.spin.step (.lock c counterLock)
    some { s with spin := spin, pc := update s.pc t .load }
  | .load => some { s with pc := update s.pc t (.store s.sharedCounter) }
  | .store v =>
    if v + 1 < 2 ^ 63 then
      some { s with pc := update s.pc t .leave, sharedCounter := v + 1, done := s.done + 1 }
    else none
  | .leave => do
    let spin ← s.spin.step (.unlock c counterLock)
    some { s with spin := spin, pc := update s.pc t .enter }

def CountSys.step (s : CountSys) : CountAct → Option CountSys
  | .work c =>
    match s.spin.agent c with
    | some (.task (.kernel i)) =>
      if s.spin.panicked = false ∧ (s.spin.thread (.task (.kernel i))).pc = .out then s.work c (.kernel i) else none
    | _ => none
  | .sys (.lock ..) => none
  | .sys (.unlock ..) => none
  | .sys (.create i ctx) => do
    let spin ← s.spin.step (.create i ctx)
    some { s with spin := spin, pc := update s.pc (.kernel i) .enter }
  | .sys act => do
    let spin ← s.spin.step act
    some { s with spin := spin }

end NjuOs
