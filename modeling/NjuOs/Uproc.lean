import NjuOs.Kmt

/-!
# User processes (`uproc.c`)

The allocator is a parameter: what `pmm->alloc` answers may depend on everything that
happened before, and all that is known of a block is that it is apart from the live ones.
`page` is the contents of physical pages. Access to a freed task through `parent` is
undefined behaviour; entries of the process table are in use.
-/

namespace NjuOs

open Function

def pgsize : Nat := 4096
def userBase : Nat := 0x40000000
def userEnd : Nat := 0xc0000000
def userHeap : Nat := 0x50000000
def stkPages : Nat := 32
def bssSlack : Nat := 128 * 1024
def maxproc : Nat := 64
def procMaxmap : Nat := 1024

/-- `sizeof(task_t)` -/
def taskBytes : Nat := 65888

/-- `sizeof(struct vmap) * PROC_MAXMAP` -/
def mapsBytes : Nat := 24 * procMaxmap

/-- Blocks `(address, size)` handed out and not freed, and the number of calls so far. -/
structure Heap where
  live : List (Nat × Nat)
  calls : Nat

structure Allocator where
  alloc : Heap → Nat → Option Nat
  pos : ∀ {h size a}, alloc h size = some a → 0 < size
  apart : ∀ {h size a}, alloc h size = some a → ∀ b ∈ h.live, a + size ≤ b.1 ∨ b.1 + b.2 ≤ a

structure Kernel extends Kmt where
  heap : Heap
  page : Nat → List UInt8
  vfs : Vfs
  ptable : List TaskRef
  nextPid : Int
  initproc : Option TaskRef
  /-- names and images of the embedded programs -/
  uprogs : List (List UInt8 × List UInt8)

def Kernel.set (k : Kernel) (t : TaskRef) (x : Task) : Kernel := { k with toKmt := k.toKmt.set t x }

def Kernel.modify (k : Kernel) (t : TaskRef) (f : Task → Task) : Kernel := k.set t (f (k.tasks t))

section
variable (A : Allocator)

def pmmAlloc (k : Kernel) (size : Nat) : Kernel × Option Nat :=
  match A.alloc k.heap size with
  | none => ({ k with heap := { k.heap with calls := k.heap.calls + 1 } }, none)
  | some a => ({ k with heap := ⟨(a, size) :: k.heap.live, k.heap.calls + 1⟩ }, some a)

/-- Freeing a pointer that is not a live block is undefined. -/
def pmmFree (k : Kernel) (a : Nat) : Except Halt Kernel :=
  match k.heap.live.find? (·.1 = a) with
  | none => .error .undefined
  | some b => .ok { k with heap := { k.heap with live := k.heap.live.erase b } }

def allocOr (k : Kernel) (size : Nat) (msg : String) : Except Halt (Kernel × Nat) :=
  match pmmAlloc A k size with
  | (_, none) => .error (.panic msg)
  | (k, some a) => .ok (k, a)

/-! ## Address spaces -/

def protect (k : Kernel) (p : TaskRef) : Except Halt Kernel := do
  let (k, h) ← allocOr A k pgsize "assertion: h != NULL"
  return k.modify p fun x => { x with addrSpace := ⟨some h, []⟩ }

/-- AM's `map`: a page for the node when the address has none yet. -/
def amMap (k : Kernel) (p : TaskRef) (va pa : Nat) : Except Halt Kernel :=
  if ¬(userBase ≤ va ∧ va < userEnd) then .error (.panic "assertion: IN_RANGE(va, USER_SPACE)")
  else if va % pgsize ≠ 0 then .error (.panic "assertion: va % __am_pgsize == 0")
  else if pa % pgsize ≠ 0 then .error (.panic "assertion: pa % __am_pgsize == 0")
  else if va ∈ (k.tasks p).addrSpace.keys then .ok k
  else
    match pmmAlloc A k pgsize with
    | (_, none) => .error .undefined
    | (k, some q) =>
      .ok (k.modify p fun x => { x with addrSpace := { x.addrSpace with nodes := (va, q) :: x.addrSpace.nodes } })

def upMap (k : Kernel) (p : TaskRef) (va pa prot : Nat) : Except Halt Kernel :=
  if procMaxmap ≤ (k.tasks p).maps.length then .error (.panic "too many user mappings")
  else
    match (k.tasks p).mapsPtr with
    | none => .error .undefined
    | some _ => amMap A (k.modify p fun x => { x with maps := x.maps ++ [⟨va, pa, prot⟩] }) p va pa

def mmapRead : Nat := 1
def mmapWrite : Nat := 2

def Kernel.setPage (k : Kernel) (pa : Nat) (d : List UInt8) : Kernel :=
  { k with page := update k.page pa d }

/-! ## Process life cycle -/

def ptableAdd (k : Kernel) (p : TaskRef) : Except Halt Kernel :=
  if maxproc ≤ k.ptable.length then .error (.panic "too many processes")
  else .ok { k with ptable := k.ptable ++ [p] }

def freshTask (mapsPtr : Nat) (pid : Int) : Task :=
  { zeroTask with
    isUser := true
    state := .runnable
    cpu := -1
    savedIntena := 1
    heapTop := userHeap
    mapsPtr := some mapsPtr
    pid := pid
    files := freshFiles }

def procAlloc (k : Kernel) : Except Halt (Kernel × TaskRef) := do
  let (k, a) ← allocOr A k taskBytes "proc_alloc: out of memory"
  let (k, m) ← allocOr A k mapsBytes "proc_alloc: out of memory (maps)"
  let pid := k.nextPid
  let nextPid ← intOf (pid + 1)
  let k := k.set (.proc a) (freshTask m pid)
  let k := { k with nextPid := nextPid, live := update k.live (.proc a) true }
  return (← protect A k (.proc a), .proc a)

def freeMaps : List Vmap → Kernel → Except Halt Kernel
  | [], k => .ok k
  | m :: ms, k => do freeMaps ms (← pmmFree k m.pa)

def procFreeMem (k : Kernel) (p : TaskRef) : Except Halt Kernel := do
  let k ← freeMaps (k.tasks p).maps k
  let k := k.modify p fun x => { x with maps := [] }
  match (k.tasks p).mapsPtr with
  | none => return k
  | some m => pmmFree k m

def imageChunk (bin : List UInt8) (len i : Nat) : Except Halt (List UInt8) :=
  if i * pgsize < len then do
    let c := if pgsize < len - i * pgsize then pgsize else len - i * pgsize
    let d ← slice bin (i * pgsize : Nat) c
    return d ++ List.replicate (pgsize - c) 0
  else .ok (List.replicate pgsize 0)

def loadPages (bin : List UInt8) (len : Nat) (p : TaskRef) : List Nat → Kernel → Except Halt Kernel
  | [], k => .ok k
  | i :: is, k => do
    let (k, pa) ← allocOr A k pgsize "load: out of memory"
    let k := k.setPage pa (← imageChunk bin len i)
    loadPages bin len p is (← upMap A k p (userBase + i * pgsize) pa (mmapRead ||| mmapWrite))

def loadStack (p : TaskRef) : List Nat → Kernel → Except Halt Kernel
  | [], k => .ok k
  | i :: is, k => do
    let (k, pa) ← allocOr A k pgsize "load: out of stack memory"
    let k := k.setPage pa (List.replicate pgsize 0)
    loadStack p is (← upMap A k p (userEnd - (i + 1) * pgsize) pa (mmapRead ||| mmapWrite))

def imagePages (len : Nat) : Nat := ((len + bssSlack) % 2 ^ 32 + pgsize - 1) % 2 ^ 32 / pgsize

def procLoadImage (k : Kernel) (p : TaskRef) (bin : List UInt8) (len : Nat) : Except Halt Kernel := do
  let k ← loadPages A bin len p (List.range (imagePages len)) k
  loadStack A p (List.range stkPages) k

def kstackEnd : TaskRef → Nat
  | .proc a => a + taskBytes
  | _ => 0

def ucontext (x : Task) (p : TaskRef) (entry : Nat) : Context :=
  ⟨entry, 0, [], x.addrSpace.ptr, kstackEnd p, none⟩

def Kernel.setFiles (k : Kernel) (p : TaskRef) (r : Vfs × Files) : Kernel :=
  { k.modify p fun x => { x with files := r.2 } with vfs := r.1 }

def procSpawn (k : Kernel) (bin : List UInt8) (len : Nat) : Except Halt (Kernel × TaskRef) := do
  let (k, p) ← procAlloc A k
  let k ← procLoadImage A k p bin len
  let k := k.modify p fun x => { x with context := ucontext x p userBase }
  let k := k.setFiles p (vfsSetupStdio k.vfs (k.tasks p).files)
  let k ← ptableAdd k p
  return ({ k with toKmt := kmtRegister k.toKmt p }, p)

/-! ## System calls on memory and images -/

def protRead : Nat := 2
def protWrite : Nat := 4
def mapUnmap : Nat := 3

def mmapPages (p : TaskRef) (base prot : Nat) : List Nat → Kernel → Except Halt (Kernel × Bool)
  | [], k => .ok (k, true)
  | i :: is, k =>
    match pmmAlloc A k pgsize with
    | (k, none) => .ok (k, false)
    | (k, some pa) => do
      let k := k.setPage pa (List.replicate pgsize 0)
      mmapPages p base prot is (← upMap A k p (add64 base (i * pgsize)) pa prot)

/-- The base of the mapping; `none` is the return value -1. -/
def sysMmap (k : Kernel) (p : TaskRef) (addr : Nat) (length : Int) (prot flags : Nat) :
    Except Halt (Kernel × Option Nat) := do
  if length ≤ 0 then return (k, none)
  let r := if prot &&& protRead ≠ 0 then mmapRead else 0
  let w := if prot &&& protWrite ≠ 0 then mmapWrite else 0
  let amprot := if r ||| w = 0 then mmapRead else r ||| w
  let base := (if addr ≠ 0 then addr else (k.tasks p).heapTop) / pgsize * pgsize
  let npg := (length.toNat + pgsize - 1) / pgsize
  if flags = mapUnmap then return (k, none)
  let (k, done) ← mmapPages A p base amprot (List.range npg) k
  if done = false then return (k, none)
  if addr = 0 then
    return (k.modify p fun x => { x with heapTop := add64 base (npg * pgsize) }, some base)
  return (k, some base)

def forkPages (child : TaskRef) : List Vmap → Kernel → Except Halt Kernel
  | [], k => .ok k
  | m :: ms, k => do
    let (k, pa) ← allocOr A k pgsize "fork: out of memory"
    let k := k.setPage pa (k.page m.pa)
    forkPages child ms (← upMap A k child m.va pa m.prot)

def sysFork (k : Kernel) (parent : TaskRef) (ctx : Context) : Except Halt (Kernel × Int) := do
  let (k, child) ← procAlloc A k
  let k := k.modify child fun x => { x with parent := some parent }
  let k ← forkPages A child (k.tasks parent).maps k
  let k := k.modify child fun x => { x with heapTop := (k.tasks parent).heapTop }
  let k := k.setFiles child (vfsFork k.vfs (k.tasks parent).files (k.tasks child).files)
  let k := k.modify child fun x => { x with
    context := { ctx with gprx := 0, vmHead := x.addrSpace.ptr, ksp := kstackEnd child } }
  let k ← ptableAdd k child
  return ({ k with toKmt := kmtRegister k.toKmt child }, (k.tasks child).pid)

def userOk (va n : Nat) : Bool := userBase ≤ va ∧ add64 va n ≤ userEnd ∧ va ≤ add64 va n

def progName (path : List UInt8) : List UInt8 :=
  match path with
  | [] => []
  | c :: rest =>
    if c = slash then if bytes "bin/" <+: rest then rest.drop 4 else rest else c :: rest

def execImage (k : Kernel) (name : List UInt8) : Option (List UInt8 × Nat) :=
  match vfsProgData k.vfs name with
  | some (some d, len) => some (d, len.toNat)
  | _ => (k.uprogs.find? fun u => u.1 = name).map fun u => (u.2, u.2.length)

/-- The flag is `true` when the image was replaced, `false` for the return value -1. -/
def sysExec (k : Kernel) (p : TaskRef) (va : Nat) (path : CStr) : Except Halt (Kernel × Bool) := do
  if userOk va 1 = false then return (k, false)
  match execImage k (progName path.str) with
  | none => return (k, false)
  | some (bin, len) =>
    let (k, m) := pmmAlloc A k mapsBytes
    let k := k.modify p fun x => { x with mapsPtr := m, maps := [], heapTop := userHeap }
    let k ← protect A k p
    let k ← procLoadImage A k p bin len
    return (k.modify p fun x => { x with context := ucontext x p userBase }, true)

end

/-! ## Death and reaping -/

def mapTable (f : Task → Task) : List TaskRef → Kernel → Kernel
  | [], k => k
  | t :: ts, k => mapTable f ts (k.modify t f)

def reparentChildren (k : Kernel) (dead : TaskRef) : Kernel :=
  mapTable (fun x => if x.parent = some dead then { x with parent := k.initproc } else x) k.ptable k

def wakeParent (k : Kernel) (p : TaskRef) : Except Halt Kernel :=
  match (k.tasks p).parent with
  | none => .ok k
  | some q => do
    if (← k.deref q).waiting = false then return k
    return k.modify q fun x => { x with waiting := false, state := .runnable }

/-- What `sys_exit` and `sys_kill` do to the dying process after closing its files. -/
def zombify (k : Kernel) (p : TaskRef) (status : Int) : Except Halt Kernel := do
  let k := k.modify p fun x => { x with exitStatus := status, xstate := true }
  let k := reparentChildren k p
  let k ← wakeParent k p
  return k.modify p fun x => { x with state := .blocked }

def sysExit (k : Kernel) (p : TaskRef) (status : Int) : Except Halt Kernel :=
  let k := k.setFiles p (vfsCloseAll k.vfs (k.tasks p).files)
  if k.initproc = some p then .error (.halted status) else zombify k p status

def sysKill (k : Kernel) (p : TaskRef) (pid : Int) : Except Halt (Kernel × Int) :=
  match k.ptable.find? fun t => (k.tasks t).pid = pid with
  | none => .ok (k, -1)
  | some target =>
    if target = p then .ok (k, -1)
    else do
      let k := k.setFiles target (vfsCloseAll k.vfs (k.tasks target).files)
      return (← zombify k target (-1), 0)

inductive WaitResult
  | none
  | block
  | retry
  | reaped (child : TaskRef)
  deriving DecidableEq, Repr

def reapScan (k : Kernel) (p : TaskRef) : Kernel × WaitResult :=
  match k.ptable.findIdx? fun c => (k.tasks c).parent = some p ∧ (k.tasks c).xstate ∧ (k.tasks c).onCpu = false with
  | some i =>
    match k.ptable[i]? with
    | some c => ({ k with ptable := swapRemove k.ptable i }, .reaped c)
    | none => (k, .none)
  | none =>
    if k.ptable.any fun c => (k.tasks c).parent = some p ∧ (k.tasks c).xstate then (k, .retry)
    else if k.ptable.any fun c => (k.tasks c).parent = some p then (k, .block)
    else (k, .none)

/-- `proc_free_mem(c); pmm->free(c)` -/
def reapFree (k : Kernel) (c : TaskRef) : Except Halt Kernel := do
  let k ← procFreeMem k c
  match c with
  | .proc a => return { ← pmmFree k a with live := update k.live c false }
  | _ => .error .undefined

def reapTeardown (k : Kernel) (c : TaskRef) : Except Halt Kernel := do
  return { k with toKmt := ← kmtTeardown k.toKmt c }

def tryReap (k : Kernel) (p : TaskRef) : Except Halt (Kernel × WaitResult × Int × Int) :=
  match reapScan k p with
  | (k, .reaped c) => do
    let x := k.tasks c
    let k ← reapTeardown k c
    let k ← reapFree k c
    return (k, .reaped c, x.pid, x.exitStatus)
  | (k, r) => .ok (k, r, -1, 0)

/-! ## Dispatch -/

inductive Syscall
  | kputc (ch : UInt8)
  | getpid
  | uptime
  | mmap (addr : Nat) (length : Int) (prot flags : Nat)
  | fork
  | kill (pid : Int)
  | exec (va : Nat) (path : CStr)
  | exit (status : Int)
  | wait (va : Nat)
  | sleep (seconds : Int)
  | vfs (c : VfsCall)
  | unknown (num : Int)

def syscallInstrLen : Nat := 7

def rewindSyscall (ctx : Context) (b : Blocking) : Context :=
  { ctx with rip := sub64 ctx.rip syscallInstrLen, redo := some b }

/-- `now + (uint64_t)(int)a0 * 1000000ULL` -/
def wakeTime (now : Nat) (seconds : Int) : Nat :=
  ((now : Int) + seconds * 1000000) % 2 ^ 64 |>.toNat

def sysSleep (k : Kernel) (p : TaskRef) (ctx : Context) (now : Nat) (seconds : Int) :
    Kernel × Context × Bool :=
  if (k.tasks p).sleeping = false then
    (k.modify p fun x => { x with sleeping := true, wakeUs := wakeTime now seconds, state := .blocked },
      rewindSyscall ctx (.sleep seconds), true)
  else if (k.tasks p).wakeUs ≤ now then
    (k.modify p fun x => { x with sleeping := false }, { ctx with gprx := 0 }, false)
  else (k.modify p fun x => { x with state := .blocked }, rewindSyscall ctx (.sleep seconds), true)

def sysWait (k : Kernel) (p : TaskRef) (ctx : Context) (va : Nat) : Except Halt (Kernel × Context × Bool) := do
  match ← tryReap k p with
  | (k, .block, _) =>
    return (k.modify p fun x => { x with waiting := true, state := .blocked }, rewindSyscall ctx (.wait va), true)
  | (k, .retry, _) => return (k, rewindSyscall ctx (.wait va), true)
  | (k, .none, _) => return (k, { ctx with gprx := -1 }, false)
  | (k, .reaped _, pid, _) => return (k, { ctx with gprx := pid }, false)

/-- The kernel, the trap frame and `resched`. `now` is `uptime_us()`. -/
def doSyscall (A : Allocator) (k : Kernel) (p : TaskRef) (ctx : Context) (now : Nat) :
    Syscall → Except Halt (Kernel × Context × Bool)
  | .kputc ch => .ok ({ k with vfs := { k.vfs with console := k.vfs.console ++ [ch] } }, { ctx with gprx := 0 }, false)
  | .getpid => .ok (k, { ctx with gprx := (k.tasks p).pid }, false)
  | .uptime => .ok (k, { ctx with gprx := now / 1000 }, false)
  | .mmap addr length prot flags => do
    let (k, r) ← sysMmap A k p addr length prot flags
    return (k, { ctx with gprx := match r with | some b => b | none => -1 }, false)
  | .fork => do
    let (k, pid) ← sysFork A k p ctx
    return (k, { ctx with gprx := pid }, false)
  | .kill pid => do
    let (k, r) ← sysKill k p pid
    return (k, { ctx with gprx := r }, false)
  | .exec va path => do
    let (k, done) ← sysExec A k p va path
    -- the trap frame lies where ucontext builds the new context
    if done then return (k, (k.tasks p).context, true)
    return (k, { ctx with gprx := -1 }, false)
  | .exit status => do return (← sysExit k p status, ctx, true)
  | .wait va => sysWait k p ctx va
  | .sleep seconds => .ok (sysSleep k p ctx now seconds)
  | .vfs c => do
    let (v, f, r) ← vfsCall k.vfs (k.tasks p).files c
    return (k.setFiles p (v, f), { ctx with gprx := r }, false)
  | .unknown _ => .ok (k, { ctx with gprx := -1 }, false)

def uprocTick (k : Kernel) (now : Nat) : Kernel :=
  mapTable (fun x =>
    if x.isUser ∧ x.sleeping ∧ x.state = .blocked ∧ x.wakeUs ≤ now then { x with state := .runnable } else x)
    k.ptable k

end NjuOs
