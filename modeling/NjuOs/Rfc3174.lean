import Mathlib.Tactic

/-!
# SHA-1 as RFC 3174 defines it

A message is a bit string. It is padded to whole blocks of 512 bits, and the blocks are
processed in order by the first method of the RFC (section 6.1), under its names.
-/

namespace NjuOs.Rfc3174

open List

/-! ## Bits and words -/

def bitsOf (bytes : List UInt8) : List Bool :=
  bytes.flatMap fun b => (List.range 8).map fun i => b.toNat.testBit (7 - i)

def natOf (bits : List Bool) : Nat := bits.foldl (fun n b => 2 * n + b.toNat) 0

def word (bits : List Bool) : BitVec 32 := BitVec.ofNat 32 (natOf bits)

def twoWords (l : Nat) : List Bool := (List.range 64).map fun i => l.testBit (63 - i)

/-! ## The digest -/

/-- Section 4: a one, zeros up to 448 modulo 512, and the length of the message. -/
def pad (m : List Bool) : List Bool :=
  m ++ (true :: List.replicate ((959 - m.length % 512) % 512) false) ++ twoWords m.length

def rotl (n : Nat) (x : BitVec 32) : BitVec 32 := (x <<< n) ||| (x >>> (32 - n))

def f (t : Nat) (b c d : BitVec 32) : BitVec 32 :=
  if t < 20 then (b &&& c) ||| (~~~b &&& d)
  else if t < 40 then b ^^^ c ^^^ d
  else if t < 60 then (b &&& c) ||| (b &&& d) ||| (c &&& d)
  else b ^^^ c ^^^ d

def k (t : Nat) : BitVec 32 :=
  if t < 20 then 0x5A827999 else if t < 40 then 0x6ED9EBA1 else if t < 60 then 0x8F1BBCDC else 0xCA62C1D6

def w (m : Nat → BitVec 32) (t : Nat) : BitVec 32 :=
  if t < 16 then m t else rotl 1 (w m (t - 3) ^^^ w m (t - 8) ^^^ w m (t - 14) ^^^ w m (t - 16))

structure Buffer where
  a : BitVec 32
  b : BitVec 32
  c : BitVec 32
  d : BitVec 32
  e : BitVec 32
  deriving DecidableEq, Repr

def initial : Buffer := ⟨0x67452301, 0xEFCDAB89, 0x98BADCFE, 0x10325476, 0xC3D2E1F0⟩

def round (m : Nat → BitVec 32) (x : Buffer) (t : Nat) : Buffer :=
  ⟨rotl 5 x.a + f t x.b x.c x.d + x.e + w m t + k t, x.a, rotl 30 x.b, x.c, x.d⟩

def block (h : Buffer) (m : Nat → BitVec 32) : Buffer :=
  let x := (List.range 80).foldl (round m) h
  ⟨h.a + x.a, h.b + x.b, h.c + x.c, h.d + x.d, h.e + x.e⟩

def messageWord (m : List Bool) (i t : Nat) : BitVec 32 := word ((m.drop (512 * i + 32 * t)).take 32)

def blocks (m : List Bool) (n : Nat) : Buffer :=
  (List.range n).foldl (fun h i => block h (messageWord m i)) initial

def digest (m : List Bool) : Buffer := blocks (pad m) ((pad m).length / 512)

def hexWord (x : BitVec 32) : List Char :=
  (List.range 8).map fun i => Nat.digitChar (x.toNat / 16 ^ (7 - i) % 16)

def hexDigest (m : List Bool) : List Char :=
  let h := digest m
  hexWord h.a ++ hexWord h.b ++ hexWord h.c ++ hexWord h.d ++ hexWord h.e

/-! ## Byte strings -/

@[simp] theorem bitsOf_append (m p : List UInt8) : bitsOf (m ++ p) = bitsOf m ++ bitsOf p := flatMap_append

@[simp] theorem bitsOf_length (m : List UInt8) : (bitsOf m).length = 8 * m.length := by
  induction m with
  | nil => rfl
  | cons b m ih =>
    rw [bitsOf, flatMap_cons, length_append, ← bitsOf, ih, length_map, length_range,
      length_cons]
    omega

theorem bitsOf_drop (m : List UInt8) (n : Nat) : bitsOf (m.drop n) = (bitsOf m).drop (8 * n) := by
  by_cases hn : n ≤ m.length
  · have hsplit : bitsOf m = bitsOf (m.take n) ++ bitsOf (m.drop n) := by rw [← bitsOf_append, take_append_drop]
    rw [hsplit, drop_left' (by rw [bitsOf_length, length_take, Nat.min_eq_left hn])]
  · rw [drop_eq_nil_of_le (by omega), drop_eq_nil_of_le (by rw [bitsOf_length]; omega)]
    rfl

theorem bitsOf_take (m : List UInt8) (n : Nat) : bitsOf (m.take n) = (bitsOf m).take (8 * n) := by
  by_cases hn : n ≤ m.length
  · have hsplit : bitsOf m = bitsOf (m.take n) ++ bitsOf (m.drop n) := by rw [← bitsOf_append, take_append_drop]
    rw [hsplit, take_left' (by rw [bitsOf_length, length_take, Nat.min_eq_left hn])]
  · rw [take_of_length_le (by omega), take_of_length_le (by rw [bitsOf_length]; omega)]

theorem bitsOf_zeros (n : Nat) : bitsOf (List.replicate n 0) = List.replicate (8 * n) false := by
  induction n with
  | zero => rfl
  | succ n ih =>
    rw [replicate_succ, ← singleton_append, bitsOf_append, ih,
      show bitsOf [0] = List.replicate 8 false by decide, replicate_append_replicate]
    congr 1
    omega

theorem natOf_append (x y : List Bool) : natOf (x ++ y) = natOf x * 2 ^ y.length + natOf y := by
  induction y using List.reverseRecOn with
  | nil => simp [natOf]
  | append_singleton y b ih =>
    have hsnoc : ∀ z : List Bool, natOf (z ++ [b]) = 2 * natOf z + b.toNat := fun z => by
      simp [natOf, foldl_append]
    rw [← append_assoc, hsnoc, hsnoc, ih, length_append, length_singleton]
    ring

theorem natOf_byte (b : UInt8) : natOf (bitsOf [b]) = b.toNat := by
  have hall : ∀ n < 256, natOf ((List.range 8).map fun i => n.testBit (7 - i)) = n := by decide +kernel
  rw [bitsOf, flatMap_singleton]
  exact hall b.toNat b.toNat_lt

theorem natOf_bytes (m : List UInt8) (b : UInt8) : natOf (bitsOf (m ++ [b])) = natOf (bitsOf m) * 256 + b.toNat := by
  rw [bitsOf_append, natOf_append, natOf_byte, bitsOf_length]
  rfl

theorem bitsOf_twoWords (l : Nat) :
    bitsOf ((List.range 8).map fun i => UInt8.ofNat (l >>> (56 - 8 * i))) = twoWords l := by
  have hbit : ∀ i < 8, ∀ j < 8, (UInt8.ofNat (l >>> (56 - 8 * i))).toNat.testBit (7 - j) =
      l.testBit (63 - (8 * i + j)) := by
    intro i hi j hj
    rw [UInt8.toNat_ofNat', Nat.testBit_mod_two_pow, Nat.testBit_shiftRight, decide_eq_true (by omega),
      Bool.true_and]
    congr 1
    omega
  have hsplit : twoWords l =
      (List.range 8).flatMap fun i => (List.range 8).map fun j => l.testBit (63 - (8 * i + j)) := rfl
  rw [hsplit, bitsOf, flatMap_map]
  refine flatMap_congr fun i hi => map_congr_left fun j hj => ?_
  exact hbit i (mem_range.mp hi) j (mem_range.mp hj)

/-! ## Blocks -/

theorem messageWord_append {m : List Bool} {i n t : Nat} (hm : 512 * n ≤ m.length) (hi : i < n) (ht : t < 16)
    (p : List Bool) : messageWord (m ++ p) i t = messageWord m i t := by
  unfold messageWord
  rw [drop_append_of_le_length (by omega), take_append_of_le_length]
  rw [length_drop]
  omega

theorem w_start (m : Nat → BitVec 32) {t : Nat} (ht : t < 16) : w m t = m t := by
  unfold w
  rw [if_pos ht]

theorem w_next (m : Nat → BitVec 32) (t : Nat) :
    w m (16 + t) = rotl 1 (w m (13 + t) ^^^ w m (8 + t) ^^^ w m (2 + t) ^^^ w m t) := by
  rw [w, if_neg (by omega), show 16 + t - 3 = 13 + t by omega, show 16 + t - 8 = 8 + t by omega,
    show 16 + t - 14 = 2 + t by omega, show 16 + t - 16 = t by omega]

theorem w_congr {m m' : Nat → BitVec 32} (h : ∀ t < 16, m t = m' t) (t : Nat) : w m t = w m' t := by
  induction t using Nat.strongRecOn with
  | ind t ih =>
    by_cases ht : t < 16
    · rw [w_start m ht, w_start m' ht, h t ht]
    · obtain ⟨s, rfl⟩ := Nat.exists_eq_add_of_le (Nat.le_of_not_lt ht)
      rw [w_next, w_next, ih (13 + s) (by omega), ih (8 + s) (by omega), ih (2 + s) (by omega), ih s (by omega)]

theorem block_congr {m m' : Nat → BitVec 32} (h : ∀ t < 16, m t = m' t) (x : Buffer) : block x m = block x m' := by
  have hround : round m = round m' := by
    funext x t
    unfold round
    rw [w_congr h]
  rw [block, block, hround]

theorem blocks_append {m : List Bool} {n : Nat} (hm : 512 * n ≤ m.length) (p : List Bool) :
    blocks (m ++ p) n = blocks m n := by
  refine foldl_ext _ _ _ fun x i hi => block_congr (fun t ht => ?_) x
  exact messageWord_append hm (mem_range.mp hi) ht p

theorem blocks_succ (m : List Bool) (n : Nat) : blocks m (n + 1) = block (blocks m n) (messageWord m n) := by
  rw [blocks, range_succ, foldl_append]
  rfl

end NjuOs.Rfc3174
