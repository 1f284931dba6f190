import NjuOs.CBase
import NjuOs.Runs

/-!
# The file system (`vfs.c`)

Inodes are numbered in the order `ialloc` makes them and are never freed; a pointer to
an inode or to an entry of `ftable` is its number. A call that may take memory gets
`mem`, what `pmm->alloc` answers: `none` is `NULL`, otherwise the contents of the fresh
block. A C string argument comes with the string behind its terminator, because
`resolve_mount` steps over the first byte of a path without looking at it.
-/

namespace NjuOs

open Function

def nameLen : Nat := 28
def maxDirent : Nat := 32
def nfile : Nat := 128
def procNofile : Nat := 16

abbrev Mem := Option (Nat → UInt8)

structure CStr where
  str : List UInt8
  after : List UInt8

inductive IType
  | dir
  | file
  | dev
  | proc
  deriving DecidableEq, Repr

inductive DevRead
  | zero
  | null
  | rand
  | tty
  deriving DecidableEq, Repr

inductive DevWrite
  | zero
  | tty
  deriving DecidableEq, Repr

inductive ProcGen
  | meminfo
  | uptime
  | self
  deriving DecidableEq, Repr

structure Inode where
  type : IType
  ino : Int
  size : Int
  data : Option (List UInt8)
  cap : Int
  nlink : Int
  ent : List (List UInt8 × Nat)
  devRead : Option DevRead
  devWrite : Option DevWrite
  procGen : Option ProcGen
  deriving DecidableEq

structure File where
  ip : Option Nat
  off : Int
  readable : Bool
  writable : Bool
  ref : Int
  deriving DecidableEq, Repr

structure Vfs where
  inodes : Nat → Inode
  ninode : Nat
  mounts : List (List UInt8 × Nat)
  ftable : Nat → File
  nextIno : Int
  rng : UInt32
  /-- what `putch` has printed -/
  console : List UInt8

structure Files where
  ofile : Nat → Option Nat
  cwd : List UInt8

structure ProcEnv where
  heapStart : Nat
  heapEnd : Nat
  uptimeMs : Nat

def Vfs.setInode (v : Vfs) (i : Nat) (ip : Inode) : Vfs :=
  { v with inodes := update v.inodes i ip }

def Vfs.setFile (v : Vfs) (f : Nat) (x : File) : Vfs := { v with ftable := update v.ftable f x }

def Files.setFd (p : Files) (fd : Nat) (f : Option Nat) : Files :=
  { p with ofile := update p.ofile fd f }

/-! ## Inodes and directories -/

def freshInode (type : IType) (ino : Int) : Inode := ⟨type, ino, 0, none, 0, 1, [], none, none, none⟩

def ialloc (v : Vfs) (mem : Mem) (type : IType) : Except Halt (Vfs × Nat) :=
  match mem with
  | none => .error (.panic "vfs: out of memory (inode)")
  | some _ =>
    .ok ({ v.setInode v.ninode (freshInode type v.nextIno) with
      ninode := v.ninode + 1, nextIno := v.nextIno + 1 }, v.ninode)

/-- `while (newcap < need) newcap *= 2`; the doubling leaves the `int` range within 32 rounds. -/
def growCap (need : Int) : Nat → Int → Except Halt Int
  | 0, _ => .error .diverge
  | fuel + 1, newcap =>
    if newcap < need then do growCap need fuel (← intOf (newcap * 2)) else .ok newcap

def igrow (ip : Inode) (mem : Mem) (need : Int) : Except Halt Inode := do
  if need ≤ ip.cap then return ip
  let newcap ← growCap need 32 (if ip.cap ≠ 0 then ip.cap else 256)
  match mem with
  | none => .error (.panic "vfs: out of memory (file grow)")
  | some junk =>
    let nd := (List.range newcap.toNat).map junk
    match ip.data with
    | none => return { ip with data := some nd, cap := newcap }
    | some d => return { ip with data := some (← blit nd 0 (← slice d 0 ip.size)), cap := newcap }

def dirLookup (v : Vfs) (dir : Nat) (name : List UInt8) : Option Nat :=
  if (v.inodes dir).type ≠ .dir then none
  else ((v.inodes dir).ent.find? fun e => e.1 = name).map (·.2)

def dirAdd (v : Vfs) (dir : Nat) (name : List UInt8) (ip : Nat) : Except Halt Vfs :=
  let d := v.inodes dir
  if maxDirent ≤ d.ent.length then .error (.panic "vfs: directory full")
  else .ok (v.setInode dir { d with ent := d.ent ++ [(name.take (nameLen - 1), ip)] })

/-! ## Path resolution -/

def slash : UInt8 := 47

def skipslash (p : List UInt8) : List UInt8 := p.dropWhile (· = slash)

/-- The component copied out, cut at `NAMELEN - 1` bytes, and the rest of the path. -/
def nextcomp (p : List UInt8) : List UInt8 × List UInt8 :=
  let p := skipslash p
  let name := (p.takeWhile (· ≠ slash)).take (nameLen - 1)
  (name, p.drop name.length)

def bestMount (path : List UInt8) : List (List UInt8 × Nat) → Nat × Nat → Nat × Nat
  | [], best => best
  | (mp, root) :: ms, (bestRoot, bestlen) =>
    let l := mp.length
    if mp <+: path ∧ (path.drop l).head?.all (· = slash) ∧ bestlen < l then bestMount path ms (root, l)
    else bestMount path ms (bestRoot, bestlen)

/-- `path + n`, which runs into the bytes behind the terminator. -/
def CStr.advance (path : CStr) (n : Nat) : List UInt8 :=
  if n ≤ path.str.length then path.str.drop n else path.after

def resolveMount (v : Vfs) (path : CStr) : Nat × List UInt8 :=
  match v.mounts with
  | [] => (0, [])
  | (_, root) :: ms =>
    let (ip, bestlen) := bestMount path.str ms (root, 1)
    (ip, skipslash (path.advance bestlen))

/-- The loop of `namei`; every round takes at least one byte. -/
def nameiLoop (v : Vfs) : Nat → Nat → List UInt8 → Option Nat
  | 0, ip, _ => some ip
  | fuel + 1, ip, rest =>
    if rest = [] then some ip
    else
      let (name, rest) := nextcomp rest
      if name = [] then some ip
      else if (v.inodes ip).type ≠ .dir then none
      else
        match dirLookup v ip name with
        | none => none
        | some ip => nameiLoop v fuel ip rest

def namei (v : Vfs) (path : CStr) : Option Nat :=
  let (ip, rest) := resolveMount v path
  nameiLoop v rest.length ip rest

def nameiParentLoop (v : Vfs) : Nat → Nat → List UInt8 → Option (Nat × List UInt8)
  | 0, _, _ => none
  | fuel + 1, ip, rest =>
    let (name, rest) := nextcomp rest
    let n := skipslash rest
    if n = [] then some (ip, name)
    else if (v.inodes ip).type ≠ .dir then none
    else
      match dirLookup v ip name with
      | none => none
      | some ip => nameiParentLoop v fuel ip n

def nameiParent (v : Vfs) (path : CStr) : Option (Nat × List UInt8) :=
  let (ip, rest) := resolveMount v path
  let rest := skipslash rest
  if rest = [] then none else nameiParentLoop v rest.length ip rest

/-! ## File table and descriptors -/

def falloc (v : Vfs) : Vfs × Option Nat :=
  match (List.range nfile).find? fun i => (v.ftable i).ref = 0 with
  | none => (v, none)
  | some i => (v.setFile i ⟨none, 0, false, false, 1⟩, some i)

def fdalloc (p : Files) (f : Nat) : Files × Option Nat :=
  match (List.range procNofile).find? fun fd => p.ofile fd = none with
  | none => (p, none)
  | some fd => (p.setFd fd (some f), some fd)

def getfile (p : Files) (fd : Int) : Option Nat :=
  if fd < 0 ∨ procNofile ≤ fd then none else p.ofile fd.toNat

def fclose (v : Vfs) (f : Nat) : Vfs :=
  let x := v.ftable f
  v.setFile f { x with ref := x.ref - 1, ip := if x.ref - 1 ≤ 0 then none else x.ip }

def inodeOf (v : Vfs) (f : Nat) : Except Halt Nat :=
  match (v.ftable f).ip with
  | none => .error .undefined
  | some i => .ok i

/-! ## Devices and generated files -/

def rngNext (r : UInt32) : UInt32 :=
  let r := r ^^^ (r <<< 13)
  let r := r ^^^ (r >>> 17)
  r ^^^ (r <<< 5)

def devRandRead : Nat → UInt32 → UInt32 × List UInt8
  | 0, r => (r, [])
  | k + 1, r =>
    let r := rngNext r
    let (r', l) := devRandRead k r
    (r', r.toUInt8 :: l)

def DevRead.run (d : DevRead) (rng : UInt32) (n : Int) : UInt32 × Int × List UInt8 :=
  match d with
  | .zero => (rng, n, List.replicate n.toNat 0)
  | .null => (rng, 0, [])
  | .rand => let (r, l) := devRandRead n.toNat rng; (r, n, l)
  | .tty => (rng, 0, [])

def DevWrite.run (d : DevWrite) (buf : List UInt8) (n : Int) : Int × List UInt8 :=
  match d with
  | .zero => (n, [])
  | .tty => (n, buf)

def twoDigits (x : Int) : String := if x < 10 then "0" ++ toString x else toString x

def ProcGen.text (g : ProcGen) (e : ProcEnv) : List UInt8 :=
  match g with
  | .meminfo => bytes ("MemTotal: " ++ toString ((e.heapEnd - e.heapStart) / 1024) ++ " kB\nPageSize: 4 kB\n")
  | .uptime => bytes (toString (i32 (e.uptimeMs / 1000 : Nat)) ++ "." ++
      twoDigits (i32 (e.uptimeMs % 1000 / 10 : Nat)) ++ "\n")
  | .self => bytes "vfs: ramfs(/) devfs(/dev) procfs(/proc)\n"

/-! ## Calls on files -/

def oWronly : Nat := 0x001
def oRdwr : Nat := 0x002
def oCreate : Nat := 0x200
def oTrunc : Nat := 0x400

/-- The inode that `vfs_open` opens, made on demand; `none` is the return value -1. -/
def openInode (v : Vfs) (mem : Mem) (path : CStr) (flags : Nat) : Except Halt (Vfs × Option Nat) :=
  match namei v path with
  | some ip => .ok (v, some ip)
  | none =>
    if flags &&& oCreate = 0 then .ok (v, none)
    else
      match nameiParent v path with
      | none => .ok (v, none)
      | some (dir, name) =>
        if (v.inodes dir).type ≠ .dir then .ok (v, none)
        else do
          let (v, ip) ← ialloc v mem .file
          let v ← dirAdd v dir name ip
          return (v, some ip)

/-- `if ((flags & O_TRUNC) && ip->type == I_FILE) ip->size = 0` -/
def truncInode (v : Vfs) (ip flags : Nat) : Vfs :=
  if flags &&& oTrunc ≠ 0 ∧ (v.inodes ip).type = .file then
    v.setInode ip { v.inodes ip with size := 0 }
  else v

def openFile (v : Vfs) (p : Files) (ip flags : Nat) : Vfs × Files × Int :=
  match falloc v with
  | (v, none) => (v, p, -1)
  | (v, some f) =>
    let acc := flags &&& 3
    let x : File := ⟨some ip, 0, acc = 0 ∨ acc = oRdwr, acc = oWronly ∨ acc = oRdwr, (v.ftable f).ref⟩
    match fdalloc p f with
    | (p, none) => (v.setFile f { x with ref := 0 }, p, -1)
    | (p, some fd) => (v.setFile f x, p, fd)

def vfsOpen (v : Vfs) (p : Files) (mem : Mem) (path : CStr) (flags : Nat) :
    Except Halt (Vfs × Files × Int) := do
  match ← openInode v mem path flags with
  | (v, none) => return (v, p, -1)
  | (v, some ip) =>
    if (v.inodes ip).type = .dir ∧ flags &&& (oWronly ||| oRdwr) ≠ 0 then return (v, p, -1)
    return openFile (truncInode v ip flags) p ip flags

/-- `f->off += r` after a transfer of `r` bytes. -/
def advanceOff (v : Vfs) (f : Nat) (r : Int) : Except Halt Vfs := do
  let off ← intOf ((v.ftable f).off + r)
  return v.setFile f { v.ftable f with off := off }

def vfsRead (v : Vfs) (p : Files) (e : ProcEnv) (fd n : Int) : Except Halt (Vfs × Int × List UInt8) := do
  match getfile p fd with
  | none => return (v, -1, [])
  | some f =>
    if (v.ftable f).readable = false ∨ n < 0 then return (v, -1, [])
    let i ← inodeOf v f
    let ip := v.inodes i
    let off := (v.ftable f).off
    match ip.type with
    | .dev =>
      match ip.devRead with
      | none => .error .undefined
      | some d =>
        let (rng, r, out) := d.run v.rng n
        let v := { v with rng := rng }
        if 0 < r then return (← advanceOff v f r, r, out) else return (v, r, out)
    | .proc =>
      match ip.procGen with
      | none => .error .undefined
      | some g =>
        let tmp := g.text e
        if tmp.length ≤ off then return (v, 0, [])
        let c := if n < tmp.length - off then n else tmp.length - off
        let out ← slice tmp off c
        return (← advanceOff v f c, c, out)
    | .file =>
      if ip.size ≤ off then return (v, 0, [])
      let c := if n < ip.size - off then n else ip.size - off
      let out ← slice (ip.data.getD []) off c
      return (← advanceOff v f c, c, out)
    | .dir => return (v, -1, [])

def writeFile (v : Vfs) (mem : Mem) (f i : Nat) (buf : Nat → UInt8) (n : Int) :
    Except Halt (Vfs × Int) := do
  let off := (v.ftable f).off
  let ip ← igrow (v.inodes i) mem (← intOf (off + n))
  let data ← blit (ip.data.getD []) off ((List.range n.toNat).map buf)
  let ip := { ip with data := ip.data.map fun _ => data }
  let v ← advanceOff v f n
  let off := (v.ftable f).off
  return (v.setInode i (if ip.size < off then { ip with size := off } else ip), n)

def vfsWrite (v : Vfs) (p : Files) (mem : Mem) (fd : Int) (buf : Nat → UInt8) (n : Int) :
    Except Halt (Vfs × Int) := do
  match getfile p fd with
  | none => return (v, -1)
  | some f =>
    if (v.ftable f).writable = false ∨ n < 0 then return (v, -1)
    let i ← inodeOf v f
    let ip := v.inodes i
    match ip.type with
    | .dev =>
      match ip.devWrite with
      | none => .error .undefined
      | some d =>
        let (r, out) := d.run ((List.range n.toNat).map buf) n
        let v := { v with console := v.console ++ out }
        if 0 < r then return (← advanceOff v f r, r) else return (v, r)
    | .file => writeFile v mem f i buf n
    | _ => return (v, -1)

def vfsClose (v : Vfs) (p : Files) (fd : Int) : Vfs × Files × Int :=
  match getfile p fd with
  | none => (v, p, -1)
  | some f => (fclose v f, p.setFd fd.toNat none, 0)

def seekSet : Int := 0
def seekCur : Int := 1
def seekEnd : Int := 2

/-- `base` of `vfs_lseek`; `none` when `whence` is none of the three. -/
def seekBase (v : Vfs) (f : Nat) (whence : Int) : Except Halt (Option Int) :=
  if whence = seekSet then .ok (some 0)
  else if whence = seekCur then .ok (some (v.ftable f).off)
  else if whence = seekEnd then do
    let ip := v.inodes (← inodeOf v f)
    return some (if ip.type = .file then ip.size else 0)
  else .ok none

def vfsLseek (v : Vfs) (p : Files) (fd off whence : Int) : Except Halt (Vfs × Int) := do
  match getfile p fd with
  | none => return (v, -1)
  | some f =>
    match ← seekBase v f whence with
    | none => return (v, -1)
    | some base =>
      let np ← intOf (base + off)
      if np < 0 then return (v, -1)
      return (v.setFile f { v.ftable f with off := np }, np)

def IType.code : IType → Int
  | .dir => 1
  | .file => 2
  | .dev => 3
  | .proc => 4

structure Ustat where
  type : Int
  size : Int
  ino : Int
  deriving DecidableEq, Repr

def vfsFstat (v : Vfs) (p : Files) (fd : Int) (stNull : Bool) : Except Halt (Int × Option Ustat) := do
  match getfile p fd with
  | none => return (-1, none)
  | some f =>
    if stNull then return (-1, none)
    let ip := v.inodes (← inodeOf v f)
    return (0, some ⟨ip.type.code, if ip.type = .file then ip.size else 0, ip.ino⟩)

def fdup (v : Vfs) (f : Nat) : Vfs := v.setFile f { v.ftable f with ref := (v.ftable f).ref + 1 }

def vfsDup (v : Vfs) (p : Files) (fd : Int) : Vfs × Files × Int :=
  match getfile p fd with
  | none => (v, p, -1)
  | some f =>
    match fdalloc p f with
    | (p, none) => (v, p, -1)
    | (p, some nfd) => (fdup v f, p, nfd)

/-! ## Calls on directories -/

def vfsMkdir (v : Vfs) (mem : Mem) (path : CStr) : Except Halt (Vfs × Int) :=
  match namei v path with
  | some _ => .ok (v, -1)
  | none =>
    match nameiParent v path with
    | none => .ok (v, -1)
    | some (dir, name) =>
      if (v.inodes dir).type ≠ .dir then .ok (v, -1)
      else do
        let (v, ip) ← ialloc v mem .dir
        return (← dirAdd v dir name ip, 0)

def vfsLink (v : Vfs) (a b : CStr) : Except Halt (Vfs × Int) :=
  match namei v a with
  | none => .ok (v, -1)
  | some ip =>
    if (v.inodes ip).type = .dir then .ok (v, -1)
    else
      match nameiParent v b with
      | none => .ok (v, -1)
      | some (dir, name) => do
        let v ← dirAdd v dir name ip
        return (v.setInode ip { v.inodes ip with nlink := (v.inodes ip).nlink + 1 }, 0)

def vfsUnlink (v : Vfs) (path : CStr) : Vfs × Int :=
  match nameiParent v path with
  | none => (v, -1)
  | some (dir, name) =>
    match (v.inodes dir).ent.findIdx? fun e => e.1 = name with
    | none => (v, -1)
    | some i =>
      match (v.inodes dir).ent[i]? with
      | none => (v, -1)
      | some (_, ip) =>
        let v := v.setInode ip { v.inodes ip with nlink := (v.inodes ip).nlink - 1 }
        (v.setInode dir { v.inodes dir with ent := swapRemove (v.inodes dir).ent i }, 0)

def vfsChdir (v : Vfs) (p : Files) (path : CStr) : Files × Int :=
  match namei v path with
  | none => (p, -1)
  | some ip => if (v.inodes ip).type ≠ .dir then (p, -1) else ({ p with cwd := path.str.take 63 }, 0)

/-! ## Process hooks -/

def freshFiles : Files := ⟨fun _ => none, [slash]⟩

def forkRefs (parent : Files) : List Nat → Vfs → Vfs
  | [], v => v
  | fd :: fds, v =>
    match parent.ofile fd with
    | none => forkRefs parent fds v
    | some f => forkRefs parent fds (fdup v f)

def vfsFork (v : Vfs) (parent child : Files) : Vfs × Files :=
  (forkRefs parent (List.range procNofile) v,
    { child with ofile := fun fd => if fd < procNofile then parent.ofile fd else child.ofile fd })

def closeFds : List Nat → Vfs → Files → Vfs × Files
  | [], v, p => (v, p)
  | fd :: fds, v, p =>
    match p.ofile fd with
    | none => closeFds fds v p
    | some f => closeFds fds (fclose v f) (p.setFd fd none)

def vfsCloseAll (v : Vfs) (p : Files) : Vfs × Files := closeFds (List.range procNofile) v p

def stdioFds (tty : Nat) : List Nat → Vfs → Files → Vfs × Files
  | [], v, p => (v, p)
  | fd :: fds, v, p =>
    match falloc v with
    | (v, none) => (v, p)
    | (v, some f) =>
      stdioFds tty fds (v.setFile f ⟨some tty, 0, fd = 0, fd ≠ 0, (v.ftable f).ref⟩) (p.setFd fd (some f))

def vfsSetupStdio (v : Vfs) (p : Files) : Vfs × Files :=
  match namei v ⟨bytes "/dev/tty", []⟩ with
  | none => (v, p)
  | some tty => stdioFds tty [0, 1, 2] v p

def vfsProgData (v : Vfs) (name : List UInt8) : Option (Option (List UInt8) × Int) :=
  match namei v ⟨bytes "/bin/" ++ name.take 58, []⟩ with
  | none => none
  | some ip =>
    if (v.inodes ip).type ≠ .file then none else some ((v.inodes ip).data, (v.inodes ip).size)

/-! ## Initialisation -/

def vfsBlank : Vfs where
  inodes := fun _ => freshInode .dir 0
  ninode := 0
  mounts := []
  ftable := fun _ => ⟨none, 0, false, false, 0⟩
  nextIno := 1
  rng := 0x2545F491
  console := []

/-- The answers of `pmm->alloc` during `vfs_init`: `mem (2 * k)` for inode `k` and
`mem (2 * k + 1)` for its contents. -/
def initInode (mem : Nat → Mem) (v : Vfs) (type : IType) : Except Halt (Vfs × Nat) :=
  ialloc v (mem (2 * v.ninode)) type

def addDir (mem : Nat → Mem) (v : Vfs) (dir : Nat) (name : List UInt8) : Except Halt (Vfs × Nat) := do
  let (v, ip) ← initInode mem v .dir
  return (← dirAdd v dir name ip, ip)

def addProg (mem : Nat → Mem) (v : Vfs) (bin : Nat) (name data : List UInt8) : Except Halt Vfs := do
  let (v, f) ← initInode mem v .file
  let ip ← igrow (v.inodes f) (mem (2 * f + 1)) (i32 data.length)
  let d ← blit (ip.data.getD []) 0 data
  let v := v.setInode f { ip with data := ip.data.map fun _ => d, size := i32 data.length }
  dirAdd v bin name f

def addProgs (mem : Nat → Mem) (bin : Nat) : List (List UInt8 × List UInt8) → Vfs → Except Halt Vfs
  | [], v => .ok v
  | (name, data) :: ps, v => do addProgs mem bin ps (← addProg mem v bin name data)

/-- `dir_add(dir, name, mkdev(rd, wr))` -/
def mkdev (mem : Nat → Mem) (v : Vfs) (dir : Nat) (name : List UInt8) (rd : DevRead) (wr : DevWrite) :
    Except Halt Vfs := do
  let (v, ip) ← initInode mem v .dev
  dirAdd (v.setInode ip { v.inodes ip with devRead := some rd, devWrite := some wr }) dir name ip

/-- `dir_add(dir, name, mkproc(gen))` -/
def mkproc (mem : Nat → Mem) (v : Vfs) (dir : Nat) (name : List UInt8) (g : ProcGen) :
    Except Halt Vfs := do
  let (v, ip) ← initInode mem v .proc
  dirAdd (v.setInode ip { v.inodes ip with procGen := some g }) dir name ip

def mount (v : Vfs) (path : List UInt8) (root : Nat) : Vfs :=
  { v with mounts := v.mounts ++ [(path, root)] }

def vfsInit (mem : Nat → Mem) (progs : List (List UInt8 × List UInt8)) : Except Halt Vfs := do
  let (v, root) ← initInode mem vfsBlank .dir
  let v := mount v (bytes "/") root
  let (v, _) ← addDir mem v root (bytes "tmp")
  let (v, bin) ← addDir mem v root (bytes "bin")
  let (v, _) ← addDir mem v root (bytes "dev")
  let (v, _) ← addDir mem v root (bytes "proc")
  let v ← addProgs mem bin progs v
  let (v, dev) ← initInode mem v .dir
  let v ← mkdev mem v dev (bytes "zero") .zero .zero
  let v ← mkdev mem v dev (bytes "null") .null .zero
  let v ← mkdev mem v dev (bytes "random") .rand .zero
  let v ← mkdev mem v dev (bytes "tty") .tty .tty
  let v := mount v (bytes "/dev") dev
  let (v, proc) ← initInode mem v .dir
  let v ← mkproc mem v proc (bytes "meminfo") .meminfo
  let v ← mkproc mem v proc (bytes "uptime") .uptime
  let v ← mkproc mem v proc (bytes "self") .self
  return mount v (bytes "/proc") proc

/-! ## The file system as a system

Processes are numbers; every call is atomic. `hist` logs, for every inode, the writes
since it was last truncated; the contents it starts with count as a write. -/

inductive VfsCall
  | sysOpen (mem : Mem) (path : CStr) (flags : Nat)
  | sysRead (e : ProcEnv) (fd n : Int)
  | sysWrite (mem : Mem) (fd : Int) (buf : Nat → UInt8) (n : Int)
  | sysClose (fd : Int)
  | sysLseek (fd off whence : Int)
  | sysFstat (fd : Int) (stNull : Bool)
  | sysDup (fd : Int)
  | sysMkdir (mem : Mem) (path : CStr)
  | sysLink (a b : CStr)
  | sysUnlink (path : CStr)
  | sysChdir (path : CStr)

def vfsCall (v : Vfs) (p : Files) : VfsCall → Except Halt (Vfs × Files × Int)
  | .sysOpen mem path flags => vfsOpen v p mem path flags
  | .sysRead e fd n => do let (v, r, _) ← vfsRead v p e fd n; return (v, p, r)
  | .sysWrite mem fd buf n => do let (v, r) ← vfsWrite v p mem fd buf n; return (v, p, r)
  | .sysClose fd => .ok (vfsClose v p fd)
  | .sysLseek fd off whence => do let (v, r) ← vfsLseek v p fd off whence; return (v, p, r)
  | .sysFstat fd stNull => do let (r, _) ← vfsFstat v p fd stNull; return (v, p, r)
  | .sysDup fd => .ok (vfsDup v p fd)
  | .sysMkdir mem path => do let (v, r) ← vfsMkdir v mem path; return (v, p, r)
  | .sysLink a b => do let (v, r) ← vfsLink v a b; return (v, p, r)
  | .sysUnlink path => .ok ((vfsUnlink v path).1, p, (vfsUnlink v path).2)
  | .sysChdir path => .ok (v, vfsChdir v p path)

abbrev Hist := Nat → List (Nat × List UInt8)

def logCall (v : Vfs) (p : Files) (hist : Hist) : VfsCall → Hist
  | .sysOpen mem path flags =>
    match openInode v mem path flags with
    | .ok (v, some ip) =>
      if (v.inodes ip).type = .dir ∧ flags &&& (oWronly ||| oRdwr) ≠ 0 then hist
      else if flags &&& oTrunc ≠ 0 ∧ (v.inodes ip).type = .file then update hist ip []
      else hist
    | _ => hist
  | .sysWrite _ fd buf n =>
    match getfile p fd with
    | none => hist
    | some f =>
      match (v.ftable f).ip with
      | none => hist
      | some i =>
        if (v.ftable f).writable = true ∧ 0 ≤ n ∧ (v.inodes i).type = .file then
          update hist i (((v.ftable f).off.toNat, (List.range n.toNat).map buf) :: hist i)
        else hist
  | _ => hist

structure VfsSys where
  vfs : Vfs
  procs : List Nat
  files : Nat → Files
  /-- the last call of the process was `vfs_close_all` -/
  closed : Nat → Bool
  hist : Hist

inductive VfsAct
  | call (p : Nat) (c : VfsCall)
  | spawn (p : Nat)
  | fork (p child : Nat)
  | closeAll (p : Nat)
  | discard (p : Nat)

def initLog (ip : Inode) : List (Nat × List UInt8) :=
  if ip.type = .file then [(0, (ip.data.getD []).take ip.size.toNat)] else []

def VfsSys.init (v : Vfs) : VfsSys where
  vfs := v
  procs := []
  files := fun _ => freshFiles
  closed := fun _ => false
  hist := fun i => initLog (v.inodes i)

def VfsSys.set (s : VfsSys) (p : Nat) (v : Vfs) (f : Files) (closed : Bool) : VfsSys :=
  { s with vfs := v, files := update s.files p f, closed := update s.closed p closed }

/-- A process may be discarded only right after `vfs_close_all`; a new one gets a number
that is not in use. -/
def VfsSys.step (s : VfsSys) : VfsAct → Option VfsSys
  | .call p c =>
    if p ∈ s.procs then
      match vfsCall s.vfs (s.files p) c with
      | .error _ => none
      | .ok (v, f, _) => some { s.set p v f false with hist := logCall s.vfs (s.files p) s.hist c }
    else none
  | .spawn p =>
    if p ∈ s.procs then none
    else
      let (v, f) := vfsSetupStdio s.vfs freshFiles
      some { s.set p v f false with procs := p :: s.procs }
  | .fork p child =>
    if p ∈ s.procs ∧ child ∉ s.procs then
      let (v, f) := vfsFork s.vfs (s.files p) freshFiles
      some { s.set child v f false with procs := child :: s.procs }
    else none
  | .closeAll p =>
    if p ∈ s.procs then
      let (v, f) := vfsCloseAll s.vfs (s.files p)
      some (s.set p v f true)
    else none
  | .discard p =>
    if p ∈ s.procs ∧ s.closed p = true then some { s with procs := s.procs.erase p } else none

end NjuOs
