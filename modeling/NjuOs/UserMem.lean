import NjuOs.Access
import NjuOs.Uproc

/-!
# Argument pointers of the system calls

`do_syscall` takes a number and four arguments from the registers and hands pointers on
as they are. The memory is one array of bytes, pointers wrap at `2 ^ 64`, and each byte
that is loaded or stored through an argument is an access. What a call does to the kernel
is `doSyscall` on the decoded arguments.
-/

namespace NjuOs

abbrev UserM := MemM Nat UInt8

def addrs : Nat := 2 ^ 64

/-! ## Strings -/

def skipslashAt : Nat → Nat → UserM Nat
  | 0, p => pure p
  | fuel + 1, p => do
    if (← load p) = slash then skipslashAt fuel (add64 p 1) else return p

/-- The second loop of `nextcomp`, with `n` places left in `name`; the byte is looked at
before the number of places. -/
def scanName : Nat → Nat → UserM (List UInt8 × Nat)
  | 0, p => do
    let _ ← load p
    return ([], p)
  | n + 1, p => do
    let c ← load p
    if c = 0 ∨ c = slash then return ([], p)
    let (name, q) ← scanName n (add64 p 1)
    return (c :: name, q)

def nextcompAt (p : Nat) : UserM (List UInt8 × Nat) := do
  scanName (nameLen - 1) (← skipslashAt addrs p)

/-- `strncmp(p, s, strlen(s)) == 0` -/
def strncmpAt : Nat → List UInt8 → UserM Bool
  | _, [] => pure true
  | p, c :: s => do
    if (← load p) = c then strncmpAt (add64 p 1) s else return false

/-- `strcmp(s, p) == 0` -/
def strcmpAt (p : Nat) (s : List UInt8) : UserM Bool := do
  if ← strncmpAt p s then return (← load (add64 p s.length)) = 0
  return false

/-- `strncpy(…, p, n)` -/
def strncpyAt : Nat → Nat → UserM (List UInt8)
  | _, 0 => pure []
  | p, n + 1 => do
    let c ← load p
    if c = 0 then return []
    return c :: (← strncpyAt (add64 p 1) n)

/-! ## Paths -/

def bestMountAt (path : Nat) : List (List UInt8 × Nat) → Nat × Nat → UserM (Nat × Nat)
  | [], best => pure best
  | (mp, root) :: ms, (bestRoot, bestlen) => do
    let mp := cstring mp
    let l := mp.length
    if ← strncmpAt path mp then
      let c ← load (add64 path l)
      if (c = slash ∨ c = 0) ∧ bestlen < l then bestMountAt path ms (root, l)
      else bestMountAt path ms (bestRoot, bestlen)
    else bestMountAt path ms (bestRoot, bestlen)

def resolveMountAt (v : Vfs) (path : Nat) : UserM (Nat × Nat) := do
  let root := (v.mounts.head?.map (·.2)).getD 0
  let (ip, bestlen) ← bestMountAt path v.mounts.tail (root, 1)
  return (ip, ← skipslashAt addrs (add64 path bestlen))

def nameiLoopAt (v : Vfs) : Nat → Nat → Nat → UserM (Option Nat)
  | 0, ip, _ => pure (some ip)
  | fuel + 1, ip, rest => do
    if (← load rest) = 0 then return some ip
    let (name, rest) ← nextcompAt rest
    if name = [] then return some ip
    if (v.inodes ip).type ≠ .dir then return none
    match dirLookup v ip name with
    | none => return none
    | some ip => nameiLoopAt v fuel ip rest

def nameiAt (v : Vfs) (path : Nat) : UserM (Option Nat) := do
  let (ip, rest) ← resolveMountAt v path
  nameiLoopAt v addrs ip rest

def nameiParentLoopAt (v : Vfs) : Nat → Nat → Nat → UserM (Option (Nat × List UInt8))
  | 0, _, _ => pure none
  | fuel + 1, ip, rest => do
    let (name, rest) ← nextcompAt rest
    let n ← skipslashAt addrs rest
    if (← load n) = 0 then return some (ip, name)
    if (v.inodes ip).type ≠ .dir then return none
    match dirLookup v ip name with
    | none => return none
    | some ip => nameiParentLoopAt v fuel ip n

def nameiParentAt (v : Vfs) (path : Nat) : UserM (Option (Nat × List UInt8)) := do
  let (ip, rest) ← resolveMountAt v path
  let rest ← skipslashAt addrs rest
  if (← load rest) = 0 then return none
  nameiParentLoopAt v addrs ip rest

/-! ## Accesses of the calls -/

def vfsOpenAt (v : Vfs) (path flags : Nat) : UserM PUnit := do
  match ← nameiAt v path with
  | some _ => return ⟨⟩
  | none => if flags &&& oCreate = 0 then return ⟨⟩ else let _ ← nameiParentAt v path

def vfsMkdirAt (v : Vfs) (path : Nat) : UserM PUnit := do
  match ← nameiAt v path with
  | some _ => return ⟨⟩
  | none => let _ ← nameiParentAt v path

def vfsLinkAt (v : Vfs) (a b : Nat) : UserM PUnit := do
  match ← nameiAt v a with
  | none => return ⟨⟩
  | some ip => if (v.inodes ip).type = .dir then return ⟨⟩ else let _ ← nameiParentAt v b

def vfsUnlinkAt (v : Vfs) (path : Nat) : UserM PUnit := do
  let _ ← nameiParentAt v path

def vfsChdirAt (v : Vfs) (path : Nat) : UserM PUnit := do
  match ← nameiAt v path with
  | none => return ⟨⟩
  | some ip => if (v.inodes ip).type ≠ .dir then return ⟨⟩ else let _ ← strncpyAt path 63

def copied (d : List UInt8) (off len n : Int) : List UInt8 :=
  if len ≤ off then [] else (d.drop off.toNat).take (if n < len - off then n else len - off).toNat

def readBytes (v : Vfs) (p : Files) (e : ProcEnv) (fd n : Int) : List UInt8 :=
  match getfile p fd with
  | none => []
  | some f =>
    if (v.ftable f).readable = false ∨ n < 0 then []
    else
      match (v.ftable f).ip with
      | none => []
      | some i =>
        let ip := v.inodes i
        let off := (v.ftable f).off
        match ip.type with
        | .dev => (ip.devRead.map fun d => (d.run v.rng n).2.2).getD []
        | .proc => (ip.procGen.map fun g => copied (g.text e) off (g.text e).length n).getD []
        | .file => copied (ip.data.getD []) off ip.size n
        | .dir => []

def vfsReadAt (v : Vfs) (p : Files) (e : ProcEnv) (fd : Int) (buf : Nat) (n : Int) : UserM PUnit :=
  storeAll (add64 buf) 0 (readBytes v p e fd n)

def writeLength (v : Vfs) (p : Files) (mem : Mem) (fd n : Int) : Nat :=
  match getfile p fd with
  | none => 0
  | some f =>
    if (v.ftable f).writable = false ∨ n < 0 then 0
    else
      match (v.ftable f).ip with
      | none => 0
      | some i =>
        match (v.inodes i).type with
        | .dev => if (v.inodes i).devWrite = some .tty then n.toNat else 0
        | .file =>
          match intOf ((v.ftable f).off + n) >>= igrow (v.inodes i) mem with
          | .error _ => 0
          | .ok _ => n.toNat
        | _ => 0

def vfsWriteAt (v : Vfs) (p : Files) (mem : Mem) (fd : Int) (buf : Nat) (n : Int) : UserM PUnit := do
  let _ ← loadAll (add64 buf) 0 (writeLength v p mem fd n)

def intBytes (x : Int) : List UInt8 :=
  (List.range 4).map fun i => UInt8.ofNat ((x % 2 ^ 32).toNat / 256 ^ i)

def Ustat.bytes (s : Ustat) : List UInt8 := intBytes s.type ++ intBytes s.size ++ intBytes s.ino

def vfsFstatAt (v : Vfs) (p : Files) (fd : Int) (st : Nat) : UserM PUnit :=
  match vfsFstat v p fd (st = 0) with
  | .ok (_, some s) => storeAll (add64 st) 0 s.bytes
  | _ => return ⟨⟩

def progNameAt (path : Nat) : UserM Nat := do
  if (← load path) = slash then
    if ← strncmpAt (add64 path 1) (bytes "bin/") then return add64 path 5
    return add64 path 1
  return path

def uprogFindAt (name : Nat) : List (List UInt8 × List UInt8) → UserM (Option (List UInt8 × List UInt8))
  | [] => pure none
  | u :: us => do
    if ← strcmpAt name (cstring u.1) then return some u
    uprogFindAt name us

def execImageAt (k : Kernel) (path : Nat) : UserM (Option (List UInt8 × Nat)) := do
  let name ← progNameAt path
  match vfsProgData k.vfs (← strncpyAt name 58) with
  | some (some d, len) => return some (d, len.toNat)
  | _ => return (← uprogFindAt name k.uprogs).map fun u => (u.2, u.2.length)

def sysExecAt (k : Kernel) (path : Nat) : UserM PUnit := do
  if userOk path 1 = false then return ⟨⟩
  let _ ← execImageAt k path

/-- `if (r >= 0 && a0 && user_ok(a0, sizeof(int))) *(int*)a0 = st` -/
def sysWaitAt (k : Kernel) (p : TaskRef) (va : Nat) : UserM PUnit :=
  match tryReap k p with
  | .ok (_, .reaped _, pid, st) =>
    if 0 ≤ pid ∧ va ≠ 0 ∧ userOk va 4 then storeAll (add64 va) 0 (intBytes st) else return ⟨⟩
  | _ => return ⟨⟩

/-! ## Registers -/

structure Regs where
  num : UInt64
  a0 : UInt64
  a1 : UInt64
  a2 : UInt64
  a3 : UInt64
  deriving DecidableEq

inductive SysNo
  | kputc
  | fork
  | exit
  | wait
  | read
  | kill
  | exec
  | fstat
  | chdir
  | dup
  | getpid
  | mmap
  | sleep
  | uptime
  | open
  | write
  | unlink
  | link
  | mkdir
  | close
  | lseek
  deriving DecidableEq, Repr

/-- The `SYS_` numbers that have a `case`; `SYS_pipe` (5) has none. -/
def sysNo : Nat → Option SysNo
  | 1 => some .kputc
  | 2 => some .fork
  | 3 => some .exit
  | 4 => some .wait
  | 6 => some .read
  | 7 => some .kill
  | 8 => some .exec
  | 9 => some .fstat
  | 10 => some .chdir
  | 11 => some .dup
  | 12 => some .getpid
  | 13 => some .mmap
  | 14 => some .sleep
  | 15 => some .uptime
  | 16 => some .open
  | 17 => some .write
  | 18 => some .unlink
  | 19 => some .link
  | 20 => some .mkdir
  | 21 => some .close
  | 22 => some .lseek
  | _ => none

/-- `(int)a` -/
def toInt32 (a : UInt64) : Int := i32 a.toNat

def toBits32 (a : UInt64) : Nat := a.toNat % 2 ^ 32

def strAt (m : Nat → UInt8) : Nat → Nat → List UInt8
  | 0, _ => []
  | fuel + 1, p => if m p = 0 then [] else m p :: strAt m fuel (add64 p 1)

/-- The string at `p` and the one behind its first byte, for paths whose first byte is the terminator. -/
def cstrAt (m : Nat → UInt8) (p : UInt64) : CStr :=
  ⟨strAt m addrs p.toNat, strAt m addrs (add64 p.toNat 1)⟩

def bufAt (m : Nat → UInt8) (p : UInt64) (n : Int) (i : Nat) : UInt8 :=
  if i < n.toNat then m (add64 p.toNat i) else 0

/-- `mem` is what `pmm->alloc` answers in the call and `e` what procfs shows. -/
def decode (e : ProcEnv) (mem : Mem) (m : Nat → UInt8) (r : Regs) : Syscall :=
  match sysNo r.num.toNat with
  | some .kputc => .kputc r.a0.toUInt8
  | some .getpid => .getpid
  | some .uptime => .uptime
  | some .mmap => .mmap r.a0.toNat (toInt32 r.a1) (toBits32 r.a2) (toBits32 r.a3)
  | some .fork => .fork
  | some .kill => .kill (toInt32 r.a0)
  | some .exec => .exec r.a0.toNat (cstrAt m r.a0)
  | some .exit => .exit (toInt32 r.a0)
  | some .wait => .wait r.a0.toNat
  | some .sleep => .sleep (toInt32 r.a0)
  | some .open => .vfs (.sysOpen mem (cstrAt m r.a0) (toBits32 r.a1))
  | some .read => .vfs (.sysRead e (toInt32 r.a0) (toInt32 r.a2))
  | some .write => .vfs (.sysWrite mem (toInt32 r.a0) (bufAt m r.a1 (toInt32 r.a2)) (toInt32 r.a2))
  | some .close => .vfs (.sysClose (toInt32 r.a0))
  | some .lseek => .vfs (.sysLseek (toInt32 r.a0) (toInt32 r.a1) (toInt32 r.a2))
  | some .fstat => .vfs (.sysFstat (toInt32 r.a0) (r.a1.toNat = 0))
  | some .dup => .vfs (.sysDup (toInt32 r.a0))
  | some .mkdir => .vfs (.sysMkdir mem (cstrAt m r.a0))
  | some .link => .vfs (.sysLink (cstrAt m r.a0) (cstrAt m r.a1))
  | some .unlink => .vfs (.sysUnlink (cstrAt m r.a0))
  | some .chdir => .vfs (.sysChdir (cstrAt m r.a0))
  | none => .unknown r.num.toNat

/-- The accesses through arguments; the other calls make none. -/
def argAccess (k : Kernel) (p : TaskRef) (e : ProcEnv) (mem : Mem) (r : Regs) : UserM PUnit :=
  let files := (k.tasks p).files
  match sysNo r.num.toNat with
  | some .exec => sysExecAt k r.a0.toNat
  | some .wait => sysWaitAt k p r.a0.toNat
  | some .open => vfsOpenAt k.vfs r.a0.toNat (toBits32 r.a1)
  | some .read => vfsReadAt k.vfs files e (toInt32 r.a0) r.a1.toNat (toInt32 r.a2)
  | some .write => vfsWriteAt k.vfs files mem (toInt32 r.a0) r.a1.toNat (toInt32 r.a2)
  | some .fstat => vfsFstatAt k.vfs files (toInt32 r.a0) r.a1.toNat
  | some .mkdir => vfsMkdirAt k.vfs r.a0.toNat
  | some .link => vfsLinkAt k.vfs r.a0.toNat r.a1.toNat
  | some .unlink => vfsUnlinkAt k.vfs r.a0.toNat
  | some .chdir => vfsChdirAt k.vfs r.a0.toNat
  | _ => return ⟨⟩

def doSyscallAt (A : Allocator) (k : Kernel) (p : TaskRef) (ctx : Context) (now : Nat) (e : ProcEnv) (mem : Mem)
    (r : Regs) : UserM (Except Halt (Kernel × Context × Bool)) := fun m =>
  { argAccess k p e mem r m with val := doSyscall A k p ctx now (decode e mem m r) }

end NjuOs
