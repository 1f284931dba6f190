import NjuOs.Access
import NjuOs.CBase
import NjuOs.Sha1

/-!
# Recovery of deleted bitmaps (`frecov.c`)

The image file is mapped at `img`; a load is logged with its address, inside the mapping
or not. Sums of a checked pointer and a small offset are plain sums, what is computed from
fields of the image wraps as `u32` or `u64` does.
-/

namespace NjuOs

abbrev ImgM := MemM Nat UInt8

/-- A mapped image file. `mmap` gives out neither the first page nor the upper half of the
address space; `rest` is what lies in memory outside the mapping. -/
structure Disk where
  file : List UInt8
  img : Nat
  rest : Nat → UInt8
  img_low : 4096 ≤ img
  img_high : img + file.length ≤ 2 ^ 63

def Disk.cells (d : Disk) (a : Nat) : UInt8 :=
  if d.img ≤ a ∧ a < d.img + d.file.length then d.file.getD (a - d.img) 0 else d.rest a

def leNat : List UInt8 → Nat
  | [] => 0
  | b :: bs => b.toNat + 256 * leNat bs

/-! ## The header -/

/-- A little-endian field of `struct fat32hdr`; the page behind a short file is zero. -/
def Disk.field (d : Disk) (off n : Nat) : Nat := leNat ((List.range n).map fun i => d.file.getD (off + i) 0)

section
variable (d : Disk)

def Disk.bytsPerSec : Nat := d.field 11 2
def Disk.secPerClus : Nat := d.field 13 1
def Disk.rsvdSecCnt : Nat := d.field 14 2
def Disk.numFats : Nat := d.field 16 1
def Disk.totSec32 : Nat := d.field 32 4
def Disk.fatSz32 : Nat := d.field 36 4
def Disk.signatureWord : Nat := d.field 510 2

def Disk.clusSize : Nat := d.bytsPerSec * d.secPerClus % 2 ^ 32
def Disk.imgSize : Nat := mul64 d.totSec32 d.bytsPerSec
def Disk.dataStartSec : Nat := (d.rsvdSecCnt + d.numFats * d.fatSz32) % 2 ^ 32
def Disk.dataBase : Nat := add64 d.img (mul64 d.dataStartSec d.bytsPerSec)

/-- What `map_disk` lets pass; an empty file cannot be mapped. -/
def Disk.Mapped : Prop := d.file ≠ [] ∧ d.signatureWord = 0xaa55 ∧ d.imgSize = d.file.length

instance : Decidable d.Mapped := inferInstanceAs (Decidable (_ ∧ _))

def Disk.clusterPtr (n : Nat) : Nat := add64 d.dataBase (mul64 ((n + (2 ^ 32 - 2)) % 2 ^ 32) d.clusSize)

end

/-! ## Directory entries -/

def loadLE (a n : Nat) : ImgM Nat := do return leNat (← loadAll (a + ·) 0 n)

def attrVolumeId : UInt8 := 0x08
def attrDirectory : UInt8 := 0x10
def attrLongName : UInt8 := 0x0f
def lastLongEntry : UInt8 := 0x40

def lfnOffsets : List Nat := [1, 3, 5, 7, 9, 14, 16, 18, 20, 22, 24, 28, 30]

def lfnChars (l : Nat) : List Nat → ImgM (List UInt8)
  | [] => pure []
  | o :: os => do
    let ch ← loadLE (l + o) 2
    if ch = 0 ∨ ch = 0xffff then return []
    return (if ch < 128 then UInt8.ofNat ch else 63) :: (← lfnChars l os)

def lfnRun (base : Nat) : Nat → Nat → ImgM (List UInt8)
  | 0, _ => pure []
  | guard + 1, cur => do
    if cur < base then return []
    if (← load (cur + 11)) ≠ attrLongName then return []
    if (← load cur) = 0xe5 then return []
    let name ← lfnChars cur lfnOffsets
    if (← load cur) &&& lastLongEntry ≠ 0 then return name
    return name ++ (← lfnRun base guard (cur - 32))

/-- `for (i = …; i < … && sd->DIR_Name[i] != ' '; i++)` -/
def nameChars (sd : Nat) : Nat → Nat → ImgM (List UInt8)
  | 0, _ => pure []
  | n + 1, i => do
    let c ← load (sd + i)
    if c = 32 then return []
    return c :: (← nameChars sd n (i + 1))

def shortName (sd : Nat) : ImgM (List UInt8) := do
  let name ← nameChars sd 8 0
  if (← load (sd + 8)) = 32 then return name
  return name ++ 46 :: (← nameChars sd 3 8)

def isBmpName (name : List UInt8) : Bool :=
  5 ≤ name.length ∧ (name.drop (name.length - 4)).map tolower = bytes ".bmp"

def entryName (base sd : Nat) : ImgM (List UInt8) := do
  let long ← lfnRun base 32 (sd - 32)
  if long = [] then shortName sd else return long

def readBmpEntry (d : Disk) (base sd : Nat) : ImgM (Option (List UInt8 × Nat × Nat)) := do
  let attr ← load (sd + 11)
  if attr &&& attrLongName = attrLongName then return none
  if attr &&& (attrDirectory ||| attrVolumeId) ≠ 0 then return none
  let hi ← loadLE (sd + 20) 2
  let lo ← loadLE (sd + 26) 2
  let first := hi * 2 ^ 16 + lo
  let fsize ← loadLE (sd + 28) 4
  if first < 2 ∨ fsize = 0 ∨ d.imgSize < fsize then return none
  let name := cstring (← entryName base sd)
  if isBmpName name then return some (name, first, fsize)
  return none

/-! ## The name buffer

`lname` of `read_bmp_entry` is an array on the stack. The functions again, with `lname` its
address and the position in it instead of the name. -/

def lfnCharsAt (l dst : Nat) : List Nat → Nat → ImgM Nat
  | [], pos => pure pos
  | o :: os, pos => do
    let ch ← loadLE (l + o) 2
    if ch = 0 ∨ ch = 0xffff then return pos
    store (dst + pos) (if ch < 128 then UInt8.ofNat ch else 63)
    lfnCharsAt l dst os (pos + 1)

def lfnRunAt (base lname : Nat) : Nat → Nat → Nat → ImgM Nat
  | 0, _, pos => pure pos
  | guard + 1, cur, pos => do
    if cur < base then return pos
    if (← load (cur + 11)) ≠ attrLongName then return pos
    if (← load cur) = 0xe5 then return pos
    let pos ← lfnCharsAt cur lname lfnOffsets pos
    if (← load cur) &&& lastLongEntry ≠ 0 then return pos
    lfnRunAt base lname guard (cur - 32) pos

def nameCharsAt (sd lname : Nat) : Nat → Nat → Nat → ImgM Nat
  | 0, _, k => pure k
  | n + 1, i, k => do
    let c ← load (sd + i)
    if c = 32 then return k
    store (lname + k) c
    nameCharsAt sd lname n (i + 1) (k + 1)

def shortNameAt (sd lname : Nat) : ImgM Nat := do
  let k ← nameCharsAt sd lname 8 0 0
  if (← load (sd + 8)) = 32 then return k
  store (lname + k) 46
  nameCharsAt sd lname 3 8 (k + 1)

def entryNameAt (base sd lname : Nat) : ImgM PUnit := do
  let pos ← lfnRunAt base lname 32 (sd - 32) 0
  let pos ← if pos = 0 then shortNameAt sd lname else pure pos
  store (lname + pos) 0

def loadCString (a : Nat) : Nat → ImgM (List UInt8)
  | 0 => pure []
  | fuel + 1 => do
    let c ← load a
    if c = 0 then return []
    return c :: (← loadCString (a + 1) fuel)

def readBmpEntryAt (d : Disk) (base sd lname : Nat) : ImgM (Option (List UInt8 × Nat × Nat)) := do
  let attr ← load (sd + 11)
  if attr &&& attrLongName = attrLongName then return none
  if attr &&& (attrDirectory ||| attrVolumeId) ≠ 0 then return none
  let hi ← loadLE (sd + 20) 2
  let lo ← loadLE (sd + 26) 2
  let first := hi * 2 ^ 16 + lo
  let fsize ← loadLE (sd + 28) 4
  if first < 2 ∨ fsize = 0 ∨ d.imgSize < fsize then return none
  entryNameAt base sd lname
  let name ← loadCString lname 512
  if isBmpName name then return some (name, first, fsize)
  return none

/-! ## Recovery -/

def bmpTrueSize (d : Disk) (data dirSize : Nat) : ImgM Nat := do
  if (← load data) ≠ 66 then return dirSize
  if (← load (data + 1)) ≠ 77 then return dirSize
  let bf ← loadLE (data + 2) 4
  if bf = 0 ∨ (dirSize + d.clusSize) % 2 ^ 32 < bf then return dirSize
  return bf

structure Recovered where
  hex : List Char
  name : List UInt8
  size : Nat
  real : Nat
  deriving DecidableEq

def Disk.outside (d : Disk) (start size : Nat) : Prop := start < d.img ∨ add64 d.img d.imgSize < add64 start size

instance (d : Disk) (start size : Nat) : Decidable (d.outside start size) := inferInstanceAs (Decidable (_ ∨ _))

def recoverEntry (d : Disk) (off : Nat) : ImgM (Option Recovered) := do
  let sd := d.img + off
  if (← load sd) = 0 then return none
  match ← readBmpEntry d d.img sd with
  | none => return none
  | some (name, clus, size) =>
    let start := d.clusterPtr clus
    if d.outside start size then return none
    let real ← bmpTrueSize d start size
    let data ← loadAll (start + ·) 0 real
    return some ⟨sha1Hex data, name, size, real⟩

def recoverFrom (d : Disk) : Nat → Nat → ImgM (List Recovered)
  | 0, _ => pure []
  | fuel + 1, off => do
    if d.imgSize < off + 32 then return []
    let r ← recoverEntry d off
    return r.toList ++ (← recoverFrom d fuel (off + 32))

def recover (d : Disk) : ImgM (List Recovered) := recoverFrom d (d.imgSize / 32 + 1) 0

end NjuOs
