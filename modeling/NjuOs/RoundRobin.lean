import Mathlib.Data.List.Rotate
import Mathlib.Data.List.TakeWhile
import Mathlib.Tactic

/-!
# Round robin

A ring of members is a list without duplicates. `turn x l` is the order in which the members
are looked at after `x`, up to `x` itself, and `ahead x c l` are those looked at before `c`.
Members may join at the end of the list and leave from anywhere; neither changes who else is
ahead of `c`.
-/

namespace NjuOs

open List

section
variable {α : Type*} [DecidableEq α]

def turn (x : α) (l : List α) : List α := (l.dropWhile (· ≠ x)).tail ++ l.takeWhile (· ≠ x) ++ [x]

def ahead (x c : α) (l : List α) : List α := (turn x l).takeWhile (· ≠ c)

variable {x y c d n r : α} {l A B u v : List α}

/-! ## Turns -/

theorem takeWhile_ne (hx : x ∉ A) (B : List α) : (A ++ x :: B).takeWhile (· ≠ x) = A := by
  rw [takeWhile_append_of_pos, takeWhile_cons]
  · simp
  · intro a ha
    exact decide_eq_true fun h => hx (h ▸ ha)

theorem turn_split (hx : x ∉ A) (B : List α) : turn x (A ++ x :: B) = B ++ A ++ [x] := by
  have hdrop : (A ++ x :: B).dropWhile (· ≠ x) = x :: B := by
    have h := takeWhile_append_dropWhile (p := (· ≠ x)) (l := A ++ x :: B)
    rw [takeWhile_ne hx] at h
    exact append_cancel_left h
  rw [turn, hdrop, takeWhile_ne hx, tail_cons]

theorem turn_eq_rotate (hx : x ∉ A) (B : List α) :
    turn x (A ++ x :: B) = (A ++ x :: B).rotate (A.length + 1) := by
  have h := rotate_append_length_eq (A ++ [x]) B
  rw [length_append, length_singleton, append_assoc, singleton_append] at h
  rw [turn_split hx, h, append_assoc]

theorem turn_cons (hl : (x :: l).Nodup) (hy : y ∈ x :: l) : turn y (l ++ [x]) = turn y (x :: l) := by
  have hxl := (nodup_cons.mp hl).1
  by_cases hyx : y = x
  · have h := turn_split (A := []) (x := x) not_mem_nil l
    rw [nil_append, append_nil] at h
    rw [hyx, turn_split hxl, h, nil_append]
  · obtain ⟨A, B, rfl, hA⟩ := eq_append_cons_of_mem ((mem_cons.mp hy).resolve_left hyx)
    have hA' : y ∉ x :: A := by
      rw [mem_cons, not_or]
      exact ⟨hyx, hA⟩
    have h := turn_split hA' B
    rw [append_assoc, cons_append, turn_split hA]
    rw [cons_append] at h
    rw [h]
    simp

theorem turn_rotate (hl : l.Nodup) (hy : y ∈ l) (k : Nat) : turn y (l.rotate k) = turn y l := by
  induction k with
  | zero => rw [rotate_zero]
  | succ k ih =>
    rw [← ih, ← rotate_rotate]
    have hl' : (l.rotate k).Nodup := nodup_rotate.mpr hl
    have hy' : y ∈ l.rotate k := mem_rotate.mpr hy
    cases hr : l.rotate k with
    | nil => rfl
    | cons a t =>
      rw [hr] at hl' hy'
      rw [rotate_cons_succ, rotate_zero, turn_cons hl' hy']

theorem exists_rotate (hx : x ∈ l) : ∃ k, turn x l = l.rotate k := by
  obtain ⟨A, B, rfl, hA⟩ := eq_append_cons_of_mem hx
  exact ⟨_, turn_eq_rotate hA B⟩

theorem mem_turn (hx : x ∈ l) : d ∈ turn x l ↔ d ∈ l := by
  obtain ⟨k, hk⟩ := exists_rotate hx
  rw [hk, mem_rotate]

theorem turn_nodup (hl : l.Nodup) (hx : x ∈ l) : (turn x l).Nodup := by
  obtain ⟨k, hk⟩ := exists_rotate hx
  rw [hk]
  exact nodup_rotate.mpr hl

/-- The turn of `y` goes on where that of `x` came to `y`. -/
theorem turn_next (hl : l.Nodup) (hx : x ∈ l) (h : turn x l = u ++ y :: v) : turn y l = v ++ u ++ [y] := by
  have hn := turn_nodup hl hx
  have hy : y ∈ l := by
    rw [← mem_turn hx, h]
    exact mem_append_right _ mem_cons_self
  obtain ⟨k, hk⟩ := exists_rotate hx
  rw [h] at hn
  have hyu : y ∉ u := fun hu => (nodup_append.mp hn).2.2 y hu y mem_cons_self rfl
  rw [← turn_rotate hl hy k, ← hk, h, turn_split hyu]

/-! ## Who is ahead -/

theorem mem_ahead_self (hc : c ∈ l) (hl : l.Nodup) : d ∈ ahead c c l ↔ d ∈ l ∧ d ≠ c := by
  obtain ⟨A, B, rfl, hA⟩ := eq_append_cons_of_mem hc
  obtain ⟨hcB, -⟩ := nodup_cons.mp (List.Nodup.of_append_right hl)
  have hcBA : c ∉ B ++ A := by
    rw [mem_append, not_or]
    exact ⟨hcB, hA⟩
  rw [ahead, turn_split hA, takeWhile_ne hcBA]
  constructor
  · intro hd
    refine ⟨?_, fun hdc => hcBA (hdc ▸ hd)⟩
    rcases mem_append.mp hd with hd | hd
    · exact mem_append_right _ (mem_cons_of_mem _ hd)
    · exact mem_append_left _ hd
  · intro ⟨hd, hne⟩
    rcases mem_append.mp hd with hd | hd
    · exact mem_append_right _ hd
    · exact mem_append_left _ ((mem_cons.mp hd).resolve_left hne)

omit [DecidableEq α] in
theorem mem_takeWhile_insert {p : α → Bool} (hn : p n = true) (hd : d ≠ n) : ∀ u v : List α,
    d ∈ (u ++ n :: v).takeWhile p ↔ d ∈ (u ++ v).takeWhile p
  | [], v => by
    rw [nil_append, takeWhile_cons, if_pos hn, mem_cons, or_iff_right hd, nil_append]
  | a :: u, v => by
    rw [cons_append, cons_append, takeWhile_cons, takeWhile_cons]
    by_cases ha : p a = true
    · rw [if_pos ha, if_pos ha, mem_cons, mem_cons, mem_takeWhile_insert hn hd u v]
    · rw [if_neg ha, if_neg ha]

theorem mem_ahead_append (hx : x ∈ l) (hn : n ≠ c) (hd : d ≠ n) : d ∈ ahead x c (l ++ [n]) ↔ d ∈ ahead x c l := by
  obtain ⟨A, B, rfl, hA⟩ := eq_append_cons_of_mem hx
  have hturn : turn x (A ++ x :: B ++ [n]) = B ++ n :: (A ++ [x]) := by
    rw [append_assoc, cons_append, turn_split hA]
    simp
  rw [ahead, ahead, hturn, turn_split hA, append_assoc]
  exact mem_takeWhile_insert (p := fun a => a ≠ c) (decide_eq_true hn) hd B (A ++ [x])

theorem mem_ahead_erase (hl : l.Nodup) (hx : x ∈ l) (hrx : r ≠ x) (hrc : r ≠ c) (hd : d ≠ r) :
    d ∈ ahead x c (l.erase r) ↔ d ∈ ahead x c l := by
  by_cases hr : r ∈ l
  · obtain ⟨u, v, huv⟩ := append_of_mem ((mem_turn hx).mpr hr)
    have herase : turn x (l.erase r) = u ++ v := by
      obtain ⟨A, B, rfl, hA⟩ := eq_append_cons_of_mem hx
      have hn := turn_nodup hl hx
      rw [huv] at hn
      have hru : r ∉ u := fun hu => (nodup_append.mp hn).2.2 r hu r mem_cons_self rfl
      have hBA : (B ++ A ++ [x]).erase r = u ++ v := by
        rw [← turn_split hA, huv, erase_append_right _ hru, erase_cons_head]
      by_cases hrA : r ∈ A
      · have hrB : r ∉ B := fun hB =>
          (nodup_append.mp hl).2.2 r hrA r (mem_cons_of_mem _ hB) rfl
        have hA' : x ∉ A.erase r := fun h => hA (mem_of_mem_erase h)
        rw [erase_append_left _ hrA, turn_split hA', ← hBA, append_assoc, append_assoc,
          erase_append_right _ hrB, erase_append_left _ hrA]
      · have hrB : r ∈ B := by
          rcases mem_append.mp hr with h | h
          · exact absurd h hrA
          · exact (mem_cons.mp h).resolve_left hrx
        rw [erase_append_right _ hrA, erase_cons_tail (by simpa using fun h : x = r => hrx h.symm),
          turn_split hA, ← hBA, append_assoc, append_assoc, erase_append_left _ hrB]
    rw [ahead, ahead, herase, huv]
    exact (mem_takeWhile_insert (p := fun a => a ≠ c) (decide_eq_true hrc) hd u v).symm
  · rw [erase_of_not_mem hr]

/-- When the next live member gets its turn, those passed over are not live. -/
theorem ahead_next {live : α → Bool} (hl : l.Nodup) (hx : x ∈ l) (hc : c ∈ l) (hlive : live c = true)
    (h : (turn x l).find? live = some y) :
    ∃ u, (∀ a ∈ u, live a = false) ∧ ahead x c l = u ++ if y = c then [] else y :: ahead y c l := by
  obtain ⟨-, u, v, huv, hdead⟩ := find?_eq_some_iff_append.mp h
  have hdead : ∀ a ∈ u, live a = false := fun a ha => by simpa using hdead a ha
  have hcu : c ∉ u := fun hu => by
    rw [hdead c hu] at hlive
    cases hlive
  have hpass : ∀ a ∈ u, decide (a ≠ c) = true := fun a ha => decide_eq_true fun hac => hcu (hac ▸ ha)
  refine ⟨u, hdead, ?_⟩
  by_cases hyc : y = c
  · rw [if_pos hyc, append_nil, ahead, huv, hyc, takeWhile_ne hcu]
  · have hcv : c ∈ v := by
      have hmem := (mem_turn hx).mpr hc
      rw [huv] at hmem
      rcases mem_append.mp hmem with h | h
      · exact absurd h hcu
      · exact (mem_cons.mp h).resolve_left fun h => hyc h.symm
    obtain ⟨v1, v2, rfl, hv1⟩ := eq_append_cons_of_mem hcv
    have hnext : ahead y c l = v1 := by
      rw [ahead, turn_next hl hx huv, append_assoc, append_assoc, cons_append, takeWhile_ne hv1]
    rw [if_neg hyc, hnext, ahead, huv, takeWhile_append_of_pos hpass, takeWhile_cons,
      if_pos (decide_eq_true hyc), takeWhile_ne hv1]

/-! ## Joining and leaving a ring -/

omit [DecidableEq α] in
theorem length_takeWhile_insert {p : α → Bool} (n : α) : ∀ u v : List α,
    ((u ++ n :: v).takeWhile p).length ≤ ((u ++ v).takeWhile p).length + 1
  | [], v => by
    rw [nil_append, takeWhile_cons]
    split
    · simp
    · simp
  | a :: u, v => by
    have ih := length_takeWhile_insert (p := p) n u v
    rw [cons_append, cons_append, takeWhile_cons, takeWhile_cons]
    split
    · simp only [length_cons]
      omega
    · simp

omit [DecidableEq α] in
/-- Taking members out brings the first one that stops the scan closer. -/
theorem length_takeWhile_filter {p q : α → Bool} (h : ∀ a, p a = false → q a = true) : ∀ l : List α,
    ((l.filter q).takeWhile p).length ≤ (l.takeWhile p).length
  | [] => by simp
  | a :: l => by
    have ih := length_takeWhile_filter h l
    rw [filter_cons, takeWhile_cons]
    cases hp : p a with
    | false => simp [h a hp, hp]
    | true =>
      cases hq : q a with
      | false =>
        simp only [Bool.false_eq_true, if_false, if_true, length_cons]
        omega
      | true =>
        simp only [if_true, takeWhile_cons, hp, length_cons]
        omega

theorem turn_cons_split (hx : x ∈ l) (hn : n ≠ x) :
    ∃ u v, turn x l = u ++ v ∧ turn x (n :: l) = u ++ n :: v := by
  obtain ⟨A, B, rfl, hA⟩ := eq_append_cons_of_mem hx
  have hA' : x ∉ n :: A := by simp [hA, Ne.symm hn]
  refine ⟨B, A ++ [x], ?_, ?_⟩
  · rw [turn_split hA, append_assoc]
  · have h := turn_split hA' B
    rw [cons_append] at h
    rw [h]
    simp

theorem turn_erase (hl : l.Nodup) (hx : x ∈ l) (hr : r ≠ x) : turn x (l.erase r) = (turn x l).filter (· != r) := by
  obtain ⟨A, B, rfl, hA⟩ := eq_append_cons_of_mem hx
  have hkeep : (x != r) = true := by simpa using Ne.symm hr
  rw [hl.erase_eq_filter, filter_append, filter_cons, if_pos hkeep,
    turn_split fun h => hA (mem_of_mem_filter h), turn_split hA]
  simp [filter_append, Ne.symm hr]

end

end NjuOs
