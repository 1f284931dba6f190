import Mathlib.Algebra.Field.Rat
import Mathlib.Data.Nat.Digits.Lemmas
import NjuOs.CBase

/-!
# `strtod`

What C reads as a floating-point number: decimal and hexadecimal forms, infinities and
NaN. Finite values are exact, so no rounding or overflow takes place.
-/

namespace NjuOs

open List

/-! ## Exact numbers -/

inductive Num
  | fin (q : ℚ)
  | inf (neg : Bool)
  | nan
  deriving DecidableEq

namespace Num

protected def add : Num → Num → Num
  | fin a, fin b => fin (a + b)
  | fin _, inf s => inf s
  | inf s, fin _ => inf s
  | inf s, inf s' => if s = s' then inf s else nan
  | nan, _ => nan
  | _, nan => nan

instance : Zero Num := ⟨fin 0⟩

instance : Add Num := ⟨Num.add⟩

theorem fin_add_fin (a b : ℚ) : fin a + fin b = fin (a + b) := rfl

theorem zero_eq : (0 : Num) = fin 0 := rfl

protected theorem add_comm (x y : Num) : x + y = y + x := by
  rcases x with a | (_ | _) | _ <;> rcases y with b | (_ | _) | _ <;> first | rfl | exact congrArg fin (add_comm _ _)

protected theorem zero_add (x : Num) : 0 + x = x := by
  show Num.add (fin 0) x = x
  cases x <;> simp [Num.add]

protected theorem add_assoc (x y z : Num) : x + y + z = x + (y + z) := by
  rcases x with a | (_ | _) | _ <;> rcases y with b | (_ | _) | _ <;> rcases z with c | (_ | _) | _ <;>
    first | rfl | exact congrArg fin (add_assoc _ _ _)

instance : AddCommMonoid Num where
  add_assoc := Num.add_assoc
  zero_add := Num.zero_add
  add_zero x := (Num.add_comm x 0).trans (Num.zero_add x)
  add_comm := Num.add_comm
  nsmul := nsmulRec

theorem fin_add_inj {a : ℚ} {x y : Num} : fin a + x = fin a + y ↔ x = y := by
  refine ⟨fun h => ?_, fun h => h ▸ rfl⟩
  have hback : fin (-a) + (fin a + x) = fin (-a) + (fin a + y) := by rw [h]
  rwa [← add_assoc, ← add_assoc, fin_add_fin, neg_add_cancel, ← zero_eq, zero_add, zero_add] at hback

end Num

/-! ## The conversion -/

def isspace (c : UInt8) : Bool := c = 32 ∨ 9 ≤ c ∧ c ≤ 13

def isdigit (c : UInt8) : Bool := 48 ≤ c ∧ c ≤ 57

def isalpha (c : UInt8) : Bool := 97 ≤ tolower c ∧ tolower c ≤ 122

def isalnum (c : UInt8) : Bool := isalpha c || isdigit c

namespace Strtod

def sign : List UInt8 → Bool × List UInt8
  | 45 :: s => (true, s)
  | 43 :: s => (false, s)
  | s => (false, s)

def afterWord (w s : List UInt8) : Option (List UInt8) :=
  if (s.take w.length).map tolower = w then some (s.drop w.length) else none

def afterNan (s : List UInt8) : List UInt8 :=
  match s with
  | 40 :: t =>
    match t.dropWhile fun c => isalnum c || c = 95 with
    | 41 :: u => u
    | _ => s
  | _ => s

def digit (base : Nat) (c : UInt8) : Option Nat :=
  let d := if isdigit c then c.toNat - 48 else if isalpha c then (tolower c).toNat - 87 else base
  if d < base then some d else none

def digits (base : Nat) : List UInt8 → List Nat × List UInt8
  | [] => ([], [])
  | c :: s =>
    match digit base c with
    | some d => (d :: (digits base s).1, (digits base s).2)
    | none => ([], c :: s)

def number (base : Nat) (ds : List Nat) : Nat := Nat.ofDigits base ds.reverse

def mantissa (base : Nat) (s : List UInt8) : Option (ℚ × List UInt8) :=
  let whole := digits base s
  let frac := match whole.2 with
    | 46 :: t => digits base t
    | t => ([], t)
  if whole.1 = [] ∧ frac.1 = [] then none
  else some (number base (whole.1 ++ frac.1) / base ^ frac.1.length, frac.2)

def exponent (letter : UInt8) : List UInt8 → Int × List UInt8
  | [] => (0, [])
  | c :: s =>
    let e := digits 10 (sign s).2
    if tolower c = letter ∧ e.1 ≠ [] then (if (sign s).1 then -number 10 e.1 else number 10 e.1, e.2)
    else (0, c :: s)

def scaled (base : Nat) (letter : UInt8) (radix : ℚ) (s : List UInt8) : Option (ℚ × List UInt8) := do
  let (m, t) ← mantissa base s
  return (m * radix ^ (exponent letter t).1, (exponent letter t).2)

end Strtod

open Strtod in
/-- The number and what `endptr` points to, or `none` where no conversion can be made. -/
def strtod (s : List UInt8) : Option (Num × List UInt8) :=
  let (neg, t) := sign (s.dropWhile isspace)
  ((afterWord (bytes "infinity") t).map fun u => (.inf neg, u)) <|>
  ((afterWord (bytes "inf") t).map fun u => (.inf neg, u)) <|>
  ((afterWord (bytes "nan") t).map fun u => (.nan, afterNan u)) <|>
  (((afterWord (bytes "0x") t).bind (scaled 16 112 2)) <|> scaled 10 101 10 t).map fun (q, u) =>
    (.fin (if neg then -q else q), u)

/-! ## Printed decimals -/

def zeroPadded (w n : Nat) : List UInt8 := (Nat.digitsAppend 10 w n).reverse.map fun d => UInt8.ofNat (48 + d)

namespace Strtod

theorem digit_ofNat : ∀ d < 10, digit 10 (UInt8.ofNat (48 + d)) = some d := by decide

theorem digits_map (ds : List Nat) (hds : ∀ d ∈ ds, d < 10) {s : List UInt8}
    (hs : ∀ c ∈ s.head?, digit 10 c = none) :
    digits 10 (ds.map (fun d => UInt8.ofNat (48 + d)) ++ s) = (ds, s) := by
  induction ds with
  | nil =>
    cases s with
    | nil => rfl
    | cons c s => simp [digits, hs c rfl]
  | cons d ds ih =>
    have htail := ih fun e he => hds e (mem_cons_of_mem _ he)
    simp only [map_cons, cons_append, digits, digit_ofNat d (hds d mem_cons_self), htail]

theorem lt_of_mem_digits {w n d : Nat} (h : d ∈ (Nat.digitsAppend 10 w n).reverse) : d < 10 :=
  Nat.lt_of_mem_digitsAppend (by decide) w d (mem_reverse.mp h)

theorem number_append {w : Nat} (a : Nat) {b : Nat} (hb : b < 10 ^ w) :
    number 10 ((Nat.digitsAppend 10 1 a).reverse ++ (Nat.digitsAppend 10 w b).reverse) = b + 10 ^ w * a := by
  rw [number, reverse_append, reverse_reverse, reverse_reverse, Nat.ofDigits_append,
    Nat.length_digitsAppend (by decide) w hb, Nat.digitsAppend, Nat.digitsAppend,
    Nat.ofDigits_append_replicate_zero, Nat.ofDigits_append_replicate_zero, Nat.ofDigits_digits, Nat.ofDigits_digits]

theorem afterWord_eq_none {w s : List UInt8} {c : UInt8} (hw : c ∈ w) (hs : c ∉ s.map tolower) :
    afterWord w s = none := by
  refine if_neg fun h => hs ?_
  rw [← h, mem_map] at hw
  obtain ⟨b, hb, rfl⟩ := hw
  exact mem_map_of_mem (mem_of_mem_take hb)

end Strtod

theorem mem_zeroPadded {w n : Nat} {c : UInt8} (h : c ∈ zeroPadded w n) : isdigit c := by
  have hdigit : ∀ d < 10, isdigit (UInt8.ofNat (48 + d)) := by decide
  obtain ⟨d, hd, rfl⟩ := mem_map.mp h
  exact hdigit d (Strtod.lt_of_mem_digits hd)

theorem zeroPadded_ne_nil {w : Nat} (hw : 0 < w) (n : Nat) : zeroPadded w n ≠ [] := by
  intro h
  have hlen := congrArg List.length h
  simp only [zeroPadded, Nat.digitsAppend, length_map, length_reverse, length_append,
    length_replicate, length_nil] at hlen
  omega

def decimal (a w b : Nat) : List UInt8 := zeroPadded 1 a ++ 46 :: zeroPadded w b

theorem mem_decimal {a w b : Nat} {c : UInt8} (h : c ∈ decimal a w b) : isdigit c ∨ c = 46 := by
  rcases mem_append.mp h with h | h
  · exact Or.inl (mem_zeroPadded h)
  · rcases mem_cons.mp h with rfl | h
    · exact Or.inr rfl
    · exact Or.inl (mem_zeroPadded h)

theorem not_isalpha_tolower {c : UInt8} (h : isdigit c ∨ c = 46) : ¬isalpha (tolower c) := by
  simp only [isdigit, isalpha, tolower, decide_eq_true_eq, UInt8.le_iff_toNat_le, ← UInt8.toNat_inj] at h ⊢
  simp at h ⊢
  grind

theorem decimal_cons (a w b : Nat) : ∃ c t, decimal a w b = c :: t ∧ isdigit c := by
  obtain ⟨c, t, h⟩ := exists_cons_of_ne_nil (zeroPadded_ne_nil Nat.one_pos a)
  refine ⟨c, t ++ 46 :: zeroPadded w b, ?_, mem_zeroPadded (h ▸ mem_cons_self)⟩
  rw [decimal, h, cons_append]

namespace Strtod

theorem afterWord_decimal (a w b : Nat) {v : List UInt8} (hv : ∃ x ∈ v, isalpha x) :
    afterWord v (decimal a w b) = none := by
  obtain ⟨x, hx, halpha⟩ := hv
  refine afterWord_eq_none hx fun hmem => ?_
  obtain ⟨c, hc, rfl⟩ := mem_map.mp hmem
  exact not_isalpha_tolower (mem_decimal hc) halpha

theorem mantissa_decimal (a : Nat) {w b : Nat} (hb : b < 10 ^ w) :
    mantissa 10 (decimal a w b) = some (((b + 10 ^ w * a : Nat) : ℚ) / 10 ^ w, []) := by
  have hwhole : digits 10 (decimal a w b) = ((Nat.digitsAppend 10 1 a).reverse, 46 :: zeroPadded w b) :=
    digits_map _ (fun d => lt_of_mem_digits) fun c hc => by
      cases Option.mem_some_iff.mp hc
      rfl
  have hfrac : digits 10 (zeroPadded w b) = ((Nat.digitsAppend 10 w b).reverse, []) := by
    have h := digits_map (Nat.digitsAppend 10 w b).reverse (fun d => lt_of_mem_digits) (s := []) fun c hc => nomatch hc
    rwa [append_nil] at h
  have hne : (Nat.digitsAppend 10 1 a).reverse ≠ [] := by
    intro h
    apply zeroPadded_ne_nil Nat.one_pos a
    rw [zeroPadded, h, map_nil]
  simp only [mantissa, hwhole, hfrac, hne, false_and, if_false]
  rw [number_append a hb, length_reverse, Nat.length_digitsAppend (by decide) w hb]
  rfl

end Strtod

/-- A printed decimal reads back as its value, and nothing is left over. -/
theorem strtod_decimal (a : Nat) {w b : Nat} (hb : b < 10 ^ w) :
    strtod (decimal a w b) = some (.fin (((b + 10 ^ w * a : Nat) : ℚ) / 10 ^ w), []) := by
  have hstart : Strtod.sign ((decimal a w b).dropWhile isspace) = (false, decimal a w b) := by
    obtain ⟨c, t, h, hc⟩ := decimal_cons a w b
    have hsp : isspace c = false := by
      simp only [isdigit, isspace, decide_eq_true_eq, decide_eq_false_iff_not, UInt8.le_iff_toNat_le,
        ← UInt8.toNat_inj] at hc ⊢
      simp at hc ⊢
      omega
    rw [h, dropWhile_cons_of_neg (by rw [hsp]; decide)]
    unfold Strtod.sign
    split
    next h => cases h; cases hc
    next h => cases h; cases hc
    next => rfl
  unfold strtod
  rw [hstart]
  simp only [Strtod.afterWord_decimal a w b (v := bytes "infinity") (by decide),
    Strtod.afterWord_decimal a w b (v := bytes "inf") (by decide),
    Strtod.afterWord_decimal a w b (v := bytes "nan") (by decide),
    Strtod.afterWord_decimal a w b (v := bytes "0x") (by decide), Strtod.scaled, Strtod.mantissa_decimal a hb]
  simp [Strtod.exponent]

end NjuOs
