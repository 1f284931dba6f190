import NjuOs.Strtod

/-!
# Reading `/proc` (`pstree.c`)

The directory is a list of entries, each with the text that its `stat` file holds when it is
opened, or none if the process is gone by then. `read_stat` fills the entry `procs[nproc]` before
it knows whether it will keep it.
-/

namespace NjuOs

def maxProc : Nat := 65536

def procNameLen : Nat := 256

structure StatEntry where
  pid : Int
  ppid : Int
  name : List UInt8
  deriving DecidableEq

structure ProcTable where
  procs : Nat → StatEntry
  nproc : Nat

def ProcTable.empty : ProcTable := ⟨fun _ => ⟨0, 0, []⟩, 0⟩

def isNumber (s : List UInt8) : Bool := s ≠ [] ∧ s.all isdigit

/-! ## Strings -/

def strchr (c : UInt8) (s : List UInt8) : Option Nat := s.findIdx? (· = c)

def clampLong (v : Int) : Int := max (-2 ^ 63) (min v (2 ^ 63 - 1))

/-- `%d` behind blanks: the number is read as a `long` and stored as an `int`. -/
def scanInt (s : List UInt8) : Option Int :=
  let (neg, t) := Strtod.sign s
  let (ds, _) := Strtod.digits 10 t
  if ds = [] then none
  else some (i32 (clampLong (if neg then -(Strtod.number 10 ds : Int) else Strtod.number 10 ds)))

def sscanfStat (s : List UInt8) : Option (UInt8 × Int) :=
  match s.dropWhile isspace with
  | [] => none
  | state :: s => (scanInt (s.dropWhile isspace)).map fun ppid => (state, ppid)

def atoi (s : List UInt8) : Int := (scanInt (s.dropWhile isspace)).getD 0

/-! ## The table -/

def readStat (t : ProcTable) (pid : Int) (file : Option (List UInt8)) : Except Halt (ProcTable × Int) :=
  match file with
  | none => .ok (t, -1)
  | some content =>
    let read := content.take 8191
    if read.length = 0 then .ok (t, -1)
    else
      let buf := cstring read
      match strchr 40 buf, strrchr 41 buf with
      | some lp, some rp =>
        if rp < lp then .ok (t, -1)
        else if t.nproc ≥ maxProc then .error .undefined
        else
          let nameLen := if rp - lp - 1 ≥ procNameLen then procNameLen - 1 else rp - lp - 1
          let p := { t.procs t.nproc with pid := pid, name := (buf.drop (lp + 1)).take nameLen }
          match sscanfStat (buf.drop (rp + 1)) with
          | none => .ok (⟨Function.update t.procs t.nproc p, t.nproc⟩, -1)
          | some (_, ppid) => .ok (⟨Function.update t.procs t.nproc { p with ppid := ppid }, t.nproc + 1⟩, 0)
      | _, _ => .ok (t, -1)

def scanProcs : ProcTable → List (List UInt8 × Option (List UInt8)) → Except Halt ProcTable
  | t, [] => .ok t
  | t, (name, file) :: es =>
    if isNumber name = true ∧ t.nproc < maxProc then do
      let (t, _) ← readStat t (atoi name) file
      scanProcs t es
    else scanProcs t es

end NjuOs
