import Mathlib.Tactic

/-!
# Integers, memory and stops of the C sources

`uintptr_t`, `size_t` and `uint64_t` values are naturals below `2 ^ 64`, `unsigned`
values naturals below `2 ^ 32` and `int` values integers in `[-2 ^ 31, 2 ^ 31)`.
Unsigned arithmetic reduces its result; signed arithmetic that leaves the range, and a
copy outside its buffer, is undefined behaviour.
-/

namespace NjuOs

open List

def add64 (a b : Nat) : Nat := (a + b) % 2 ^ 64

def sub64 (a b : Nat) : Nat := (a + (2 ^ 64 - b % 2 ^ 64)) % 2 ^ 64

def mul64 (a b : Nat) : Nat := a * b % 2 ^ 64

theorem add64_eq {a b : Nat} (h : a + b < 2 ^ 64) : add64 a b = a + b := Nat.mod_eq_of_lt h

theorem sub64_eq {a b : Nat} (ha : a < 2 ^ 64) (h : b ≤ a) : sub64 a b = a - b := by
  unfold sub64; omega

theorem mul64_eq {a b : Nat} (h : a * b < 2 ^ 64) : mul64 a b = a * b := Nat.mod_eq_of_lt h

/-- Conversion to `int`, which wraps. -/
def i32 (x : Int) : Int := (x + 2 ^ 31) % 2 ^ 32 - 2 ^ 31

inductive Halt
  | panic (msg : String)
  | undefined
  | diverge
  | halted (code : Int)
  deriving DecidableEq, Repr

theorem bind_ok {α β : Type} {x : Except Halt α} {f : α → Except Halt β} {b : β} (h : (x >>= f) = .ok b) :
    ∃ a, x = .ok a ∧ f a = .ok b := by
  cases x with
  | error e => cases h
  | ok a => exact ⟨a, rfl, h⟩

theorem ok_bind {α β : Type} {x : Except Halt α} {f : α → Except Halt β} {a : α} {b : β} (hx : x = .ok a)
    (hf : f a = .ok b) : (x >>= f) = .ok b := by
  rw [hx]
  exact hf

theorem pure_eq_ok {α : Type} {a b : α} : (pure a : Except Halt α) = .ok b ↔ a = b :=
  ⟨fun h => by cases h; rfl, fun h => h ▸ rfl⟩

def intOf (x : Int) : Except Halt Int :=
  if -2 ^ 31 ≤ x ∧ x < 2 ^ 31 then .ok x else .error .undefined

theorem intOf_ok {x y : Int} (h : intOf x = .ok y) : y = x ∧ -2 ^ 31 ≤ x ∧ x < 2 ^ 31 := by
  unfold intOf at h
  split at h
  · cases h; exact ⟨rfl, ‹_›⟩
  · cases h

theorem intOf_eq {x : Int} (h1 : -2 ^ 31 ≤ x) (h2 : x < 2 ^ 31) : intOf x = .ok x := if_pos ⟨h1, h2⟩

theorem toOption_some {α : Type} {e : Except Halt α} {a : α} (h : e.toOption = some a) : e = .ok a := by
  cases e with
  | error _ => cases h
  | ok b => cases h; rfl

/-- A state that passes a test, and a call from it that returns and passes another. -/
theorem any_call {σ α : Type} {o : Option σ} {f : σ → Except Halt α} {P : σ → Prop} {Q : α → Prop} [DecidablePred P]
    [DecidablePred Q] (h : (o.any fun s => P s ∧ (f s).toOption.any fun r => Q r) = true) :
    ∃ s r, o = some s ∧ P s ∧ f s = .ok r ∧ Q r := by
  obtain ⟨s, hs, h⟩ := (Option.any_eq_true _ _).mp h
  obtain ⟨hp, h⟩ := of_decide_eq_true h
  obtain ⟨r, hr, hq⟩ := (Option.any_eq_true _ _).mp h
  exact ⟨s, r, hs, hp, toOption_some hr, of_decide_eq_true hq⟩

def errorOf {α : Type} : Except Halt α → Option Halt
  | .error e => some e
  | .ok _ => none

theorem errorOf_some {α : Type} {x : Except Halt α} {e : Halt} (h : errorOf x = some e) : x = .error e := by
  cases x with
  | error e' => exact congrArg Except.error (Option.some.inj h)
  | ok a => cases h

/-! ## Buffers -/

def slice (d : List UInt8) (off n : Int) : Except Halt (List UInt8) :=
  if 0 ≤ off ∧ 0 ≤ n ∧ off + n ≤ d.length then .ok ((d.drop off.toNat).take n.toNat)
  else .error .undefined

/-- `memcpy(d + off, src, …)` -/
def blit (d : List UInt8) (off : Int) (src : List UInt8) : Except Halt (List UInt8) :=
  if 0 ≤ off ∧ off + src.length ≤ d.length then
    .ok (d.take off.toNat ++ src ++ d.drop (off.toNat + src.length))
  else .error .undefined

/-- `a[i] = a[--n]` -/
def swapRemove {α : Type*} (l : List α) (i : Nat) : List α :=
  match l.getLast? with
  | none => []
  | some x => (l.set i x).dropLast

def bytes (s : String) : List UInt8 := s.toList.map fun c => UInt8.ofNat c.toNat

def cstring (s : List UInt8) : List UInt8 := s.takeWhile (· ≠ 0)

def strrchr (c : UInt8) : List UInt8 → Option Nat
  | [] => none
  | b :: s =>
    match strrchr c s with
    | some i => some (i + 1)
    | none => if b = c then some 0 else none

def tolower (c : UInt8) : UInt8 := if 65 ≤ c ∧ c ≤ 90 then c + 32 else c

section
variable {d r : List UInt8} {off n : Int}

theorem slice_ok (h0 : 0 ≤ off) (hn : 0 ≤ n) (h : off + n ≤ d.length) :
    slice d off n = .ok ((d.drop off.toNat).take n.toNat) := if_pos ⟨h0, hn, h⟩

theorem slice_inv (h : slice d off n = .ok r) : r = (d.drop off.toNat).take n.toNat := by
  unfold slice at h
  split at h
  · cases h; rfl
  · cases h

theorem blit_ok {src : List UInt8} (h0 : 0 ≤ off) (h : off + src.length ≤ d.length) :
    blit d off src = .ok (d.take off.toNat ++ src ++ d.drop (off.toNat + src.length)) := if_pos ⟨h0, h⟩

theorem blit_inv {src : List UInt8} (h : blit d off src = .ok r) :
    0 ≤ off ∧ off + src.length ≤ d.length ∧
      r = d.take off.toNat ++ src ++ d.drop (off.toNat + src.length) := by
  unfold blit at h
  split at h
  · cases h; rename_i hc; exact ⟨hc.1, hc.2, rfl⟩
  · cases h

theorem length_blit {src : List UInt8} (h : blit d off src = .ok r) : r.length = d.length := by
  obtain ⟨h0, hle, rfl⟩ := blit_inv h
  simp only [length_append, length_take, length_drop]
  omega

theorem getElem?_blit {src : List UInt8} (h : blit d off src = .ok r) (i : Nat) :
    r[i]? = if off.toNat ≤ i ∧ i < off.toNat + src.length then src[i - off.toNat]? else d[i]? := by
  obtain ⟨h0, hle, rfl⟩ := blit_inv h
  have htake : (d.take off.toNat).length = off.toNat := by
    rw [length_take]; omega
  rw [append_assoc, getElem?_append, htake]
  by_cases h1 : i < off.toNat
  · rw [if_pos h1, getElem?_take_of_lt h1, if_neg (by omega)]
  · rw [if_neg h1, getElem?_append]
    by_cases h2 : i < off.toNat + src.length
    · rw [if_pos (by omega), if_pos (by omega)]
    · rw [if_neg (by omega), if_neg (by omega), getElem?_drop]
      congr 1; omega

theorem getElem?_slice (h : slice d off n = .ok r) (i : Nat) :
    r[i]? = if i < n.toNat then d[off.toNat + i]? else none := by
  rw [slice_inv h, getElem?_take, getElem?_drop]

end

theorem strrchr_eq_none {c : UInt8} {s : List UInt8} (h : c ∉ s) : strrchr c s = none := by
  induction s with
  | nil => rfl
  | cons b s ih =>
    rw [mem_cons, not_or] at h
    rw [strrchr, ih h.2]
    exact if_neg (Ne.symm h.1)

theorem swapRemove_perm {α : Type*} {l : List α} {i : Nat} {c : α} (h : l[i]? = some c) :
    (c :: swapRemove l i).Perm l := by
  obtain ⟨hi, rfl⟩ := List.getElem?_eq_some_iff.mp h
  unfold swapRemove
  cases hl : l.getLast? with
  | none => rw [getLast?_eq_none_iff] at hl; subst hl; cases hi
  | some x =>
    obtain ⟨l', rfl⟩ := getLast?_eq_some_iff.mp hl
    by_cases hlast : i = l'.length
    · -- the last entry is removed by itself
      subst hlast
      simp only [getElem_append_right (Nat.le_refl _), Nat.sub_self, getElem_singleton,
        set_append_right _ _ (Nat.le_refl _), set_cons_zero, dropLast_concat]
      exact (perm_append_singleton x l').symm
    · have hi' : i < l'.length := by
        rw [length_append, length_singleton] at hi
        omega
      rw [getElem_append_left hi']
      simp only [set_append_left _ _ hi', dropLast_concat]
      have h1 := (set_perm_cons_eraseIdx hi' x).cons l'[i]
      have h2 := (getElem_cons_eraseIdx_perm hi').cons x
      exact (h1.trans (List.Perm.swap ..)).trans (h2.trans (perm_append_singleton x l').symm)

end NjuOs
