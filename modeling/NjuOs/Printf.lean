import NjuOs.Access
import NjuOs.CBase

/-!
# The user library's `printf` (`ulib.h`)

The format is read byte by byte, through a pointer that is here the distance from its first
byte; memory goes on behind the terminator. The result is what was handed to `kputc`.
-/

namespace NjuOs

inductive VArg
  | word (w : BitVec 32)
  | ptr (p : BitVec 64)
  | str (s : Option (List UInt8))

def percent : UInt8 := 37

/-! ## Numbers -/

/-- `while (u)`: the digits from the last one on, into a buffer with `n` places left. -/
def digitLoop (low next : Nat → Nat) (byte : Nat → UInt8) : Nat → Nat → Except Halt (List UInt8)
  | _, 0 => .ok []
  | 0, _ + 1 => .error .undefined
  | n + 1, u + 1 => do return byte (low (u + 1)) :: (← digitLoop low next byte n (next (u + 1)))

def putNumber (low next : Nat → Nat) (byte : Nat → UInt8) (u : Nat) : Except Halt (List UInt8) := do
  let buf ← if u = 0 then pure [48] else digitLoop low next byte 32 u
  return buf.reverse

def putDecimal (u : Nat) : Except Halt (List UInt8) :=
  putNumber (· % 10) (· / 10) (fun d => UInt8.ofNat (48 + d)) u

def putHex (u : Nat) : Except Halt (List UInt8) :=
  putNumber (· &&& 0xf) (· >>> 4) (fun d => if d < 10 then UInt8.ofNat (48 + d) else UInt8.ofNat (97 + d - 10)) u

/-! ## The format -/

def directive (c : UInt8) (args : List VArg) : Except Halt (List UInt8 × List VArg) :=
  if c = 100 then
    match args with
    | .word w :: args => do
      let v := w.toInt
      if v < 0 then return (45 :: (← putDecimal (-v).toNat), args)
      else return (← putDecimal v.toNat, args)
    | _ => .error .undefined
  else if c = 120 then
    match args with
    | .word w :: args => do return (← putHex w.toNat, args)
    | _ => .error .undefined
  else if c = 112 then
    match args with
    | .ptr p :: args => do return (48 :: 120 :: (← putHex p.toNat), args)
    | _ => .error .undefined
  else if c = 99 then
    match args with
    | .word w :: args => .ok ([UInt8.ofNat w.toNat], args)
    | _ => .error .undefined
  else if c = 115 then
    match args with
    | .str s :: args => .ok (s.getD (bytes "(null)"), args)
    | _ => .error .undefined
  else if c = percent then .ok ([percent], args)
  else .ok (if c ≠ 0 then [percent, c] else [percent], args)

def printfLoop : Nat → Nat → List VArg → MemM Nat UInt8 (Except Halt (List UInt8))
  | 0, _, _ => pure (.error .diverge)
  | n + 1, p, args => do
    let c ← load p
    if c = 0 then return .ok []
    if c ≠ percent then return (← printfLoop n (p + 1) args).map (c :: ·)
    let d ← load (p + 1)
    match directive d args with
    | .error e => return .error e
    | .ok (out, args) =>
      -- the step of the loop, also when the byte just looked at was the terminator
      return (← printfLoop n (p + 2) args).map (out ++ ·)

def printf (n : Nat) (args : List VArg) : MemM Nat UInt8 (Except Halt (List UInt8)) := printfLoop n 0 args

end NjuOs
