import Mathlib.Tactic

/-!
# Files as logs of writes

A file is the list of writes `(offset, data)` made to it, newest first. What it holds is
read off the log: its end, and at every position that was written the value written last.
-/

namespace NjuOs

section
variable {α : Type*}

def writeEnd : List (Nat × List α) → Nat
  | [] => 0
  | (o, b) :: l => max (o + b.length) (writeEnd l)

def lastByte : List (Nat × List α) → Nat → Option α
  | [], _ => none
  | (o, b) :: l, i => if o ≤ i ∧ i < o + b.length then b[i - o]? else lastByte l i

@[simp] theorem writeEnd_nil : writeEnd ([] : List (Nat × List α)) = 0 := rfl

@[simp] theorem writeEnd_cons (o : Nat) (b : List α) (l : List (Nat × List α)) :
    writeEnd ((o, b) :: l) = max (o + b.length) (writeEnd l) := rfl

@[simp] theorem lastByte_nil (i : Nat) : lastByte ([] : List (Nat × List α)) i = none := rfl

theorem lastByte_cons (o : Nat) (b : List α) (l : List (Nat × List α)) (i : Nat) :
    lastByte ((o, b) :: l) i = if o ≤ i ∧ i < o + b.length then b[i - o]? else lastByte l i := rfl

/-- Only positions below the end were written. -/
theorem lt_writeEnd : ∀ {l : List (Nat × List α)} {i : Nat} {x : α}, lastByte l i = some x → i < writeEnd l
  | [], _, _, h => nomatch h
  | (o, b) :: l, i, x, h => by
    rw [lastByte_cons] at h
    rw [writeEnd_cons]
    split at h
    · omega
    · have := lt_writeEnd h
      omega

end

end NjuOs
