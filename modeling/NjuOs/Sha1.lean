import Mathlib.Tactic

/-!
# SHA-1 of `frecov.c`

`h` and the working variables are five words under the names of the source. `buf` holds
the bytes below `idx`.
-/

namespace NjuOs

structure Sha1Words where
  a : UInt32
  b : UInt32
  d : UInt32
  e : UInt32
  f : UInt32
  deriving DecidableEq, Repr

structure Sha1Ctx where
  h : Sha1Words
  len : UInt64
  buf : List UInt8

def rol (v : UInt32) (b : UInt32) : UInt32 := (v <<< b) ||| (v >>> (32 - b))

def blockWord (p : List UInt8) (i : Nat) : UInt32 :=
  let byte (j : Nat) : UInt32 := (p.getD (i * 4 + j) 0).toUInt32
  (byte 0 <<< 24) ||| (byte 1 <<< 16) ||| (byte 2 <<< 8) ||| byte 3

def extendWords : Nat → List UInt32 → List UInt32
  | 0, w => w
  | n + 1, w =>
    let i := w.length
    extendWords n (w ++ [rol (w.getD (i - 3) 0 ^^^ w.getD (i - 8) 0 ^^^ w.getD (i - 14) 0 ^^^ w.getD (i - 16) 0) 1])

def sha1Words (p : List UInt8) : List UInt32 := extendWords 64 ((List.range 16).map (blockWord p))

def sha1Round (w : List UInt32) (s : Sha1Words) (i : Nat) : Sha1Words :=
  let (fn, k) : UInt32 × UInt32 :=
    if i < 20 then ((s.b &&& s.d) ||| (~~~s.b &&& s.e), 0x5A827999)
    else if i < 40 then (s.b ^^^ s.d ^^^ s.e, 0x6ED9EBA1)
    else if i < 60 then ((s.b &&& s.d) ||| (s.b &&& s.e) ||| (s.d &&& s.e), 0x8F1BBCDC)
    else (s.b ^^^ s.d ^^^ s.e, 0xCA62C1D6)
  let t := rol s.a 5 + fn + s.f + k + w.getD i 0
  ⟨t, s.a, rol s.b 30, s.d, s.e⟩

def sha1Block (h : Sha1Words) (p : List UInt8) : Sha1Words :=
  let s := (List.range 80).foldl (sha1Round (sha1Words p)) h
  ⟨h.a + s.a, h.b + s.b, h.d + s.d, h.e + s.e, h.f + s.f⟩

def sha1Init : Sha1Ctx := ⟨⟨0x67452301, 0xEFCDAB89, 0x98BADCFE, 0x10325476, 0xC3D2E1F0⟩, 0, []⟩

def sha1Byte (c : Sha1Ctx) (x : UInt8) : Sha1Ctx :=
  let buf := c.buf ++ [x]
  if buf.length = 64 then { c with h := sha1Block c.h buf, buf := [] } else { c with buf := buf }

def sha1Update (c : Sha1Ctx) (p : List UInt8) : Sha1Ctx :=
  p.foldl sha1Byte { c with len := c.len + UInt64.ofNat p.length }

def sha1Pad : Nat → Sha1Ctx → Sha1Ctx
  | 0, c => c
  | fuel + 1, c => if c.buf.length ≠ 56 then sha1Pad fuel (sha1Update c [0]) else c

def wordBytes (v : UInt32) : List UInt8 := [(v >>> 24).toUInt8, (v >>> 16).toUInt8, (v >>> 8).toUInt8, v.toUInt8]

def sha1Final (c : Sha1Ctx) : List UInt8 :=
  let bits := c.len * 8
  let c := sha1Pad 64 (sha1Update c [0x80])
  let c := sha1Update c ((List.range 8).map fun i => (bits >>> UInt64.ofNat (56 - 8 * i)).toUInt8)
  wordBytes c.h.a ++ wordBytes c.h.b ++ wordBytes c.h.d ++ wordBytes c.h.e ++ wordBytes c.h.f

def hexByte (x : UInt8) : List Char := [Nat.digitChar (x.toNat / 16), Nat.digitChar (x.toNat % 16)]

def sha1Hex (data : List UInt8) : List Char := (sha1Final (sha1Update sha1Init data)).flatMap hexByte

end NjuOs
