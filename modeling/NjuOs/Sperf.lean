import NjuOs.Strtod

/-!
# The profile of sperf

`parse_line` takes the name of a system call and its duration off one line of
`strace -T -f`, and adds the duration to the row that `get_stat` finds for the name. Lines
are the bytes before the terminator; the durations are exact.
-/

namespace NjuOs

def maxSys : Nat := 1024

structure SyscallStat where
  name : List UInt8
  time : Num

structure Sperf where
  stats : List SyscallStat
  totalTime : Num

def Sperf.init : Sperf := ⟨[], 0⟩

def getStat (stats : List SyscallStat) (name : List UInt8) : List SyscallStat × Option Nat :=
  match stats.findIdx? fun s => s.name = name with
  | some i => (stats, some i)
  | none => if stats.length < maxSys then (stats ++ [⟨name.take 63, 0⟩], some stats.length) else (stats, none)

/-! ## One line -/

def skipPid (line : List UInt8) : List UInt8 :=
  if line.take 4 = bytes "[pid" then
    -- strchr(p, ']')
    let p := match line.dropWhile (· ≠ 93) with
      | [] => line
      | _ :: p => p
    p.dropWhile (· = 32)
  else line

def isNameStart (c : UInt8) : Bool := isalpha c || c = 95

def isNameChar (c : UInt8) : Bool := isalnum c || c = 95

def scanIdent : Nat → List UInt8 → List UInt8 × List UInt8
  | i + 1, c :: p => if isNameChar c then (c :: (scanIdent i p).1, (scanIdent i p).2) else ([], c :: p)
  | _, p => ([], p)

def lastAngle (line : List UInt8) : Option (List UInt8) := do
  let lt ← strrchr 60 line
  let gt ← strrchr 62 line
  guard (lt ≤ gt)
  guard (gt - lt - 1 < 64)
  return (line.drop (lt + 1)).take (gt - lt - 1)

def duration (line : List UInt8) : Option Num := do
  let dur ← lastAngle line
  let (t, rest) ← strtod dur
  guard (rest = [])
  return t

def timedCall (line : List UInt8) : Option (List UInt8 × Num) := do
  let p := skipPid line
  guard (p.head?.any isNameStart)
  let (name, p) := scanIdent 63 p
  guard (p.head? = some 40)
  let t ← duration line
  return (name, t)

def parseLine (s : Sperf) (line : List UInt8) : Sperf :=
  match timedCall line with
  | none => s
  | some (name, t) =>
    match getStat s.stats name with
    | (stats, some i) => ⟨stats.modify i fun st => { st with time := st.time + t }, s.totalTime + t⟩
    | (stats, none) => ⟨stats, s.totalTime⟩

def sperf (lines : List (List UInt8)) : Sperf := lines.foldl parseLine Sperf.init

end NjuOs
