import Mathlib.Tactic

/-!
# Rings of slots

Items are numbered in the order in which they are stored; item `n` lies in slot `n % cap`.
The items from `r` on, up to `w`, are stored and not yet taken.
-/

namespace NjuOs

open Function

def Window (cap r w : Nat) (full : Nat → Bool) : Prop := ∀ j, full j = true ↔ ∃ n, r ≤ n ∧ n < w ∧ n % cap = j

section
variable {cap r w n : Nat} {full : Nat → Bool}

theorem slots_distinct (hlt : n < w) (hcap : w < n + cap) : n % cap ≠ w % cap := by
  intro hmod
  have hdvd : cap ∣ w - n := (Nat.modEq_iff_dvd' hlt.le).mp hmod
  have hle := Nat.le_of_dvd (by omega) hdvd
  omega

theorem Window.free (h : Window cap r w full) (hcap : w < r + cap) : full (w % cap) = false := by
  apply Bool.eq_false_iff.mpr
  intro hfull
  obtain ⟨n, hr, hw, hmod⟩ := (h _).mp hfull
  exact slots_distinct hw (by omega) hmod

theorem Window.store (h : Window cap r w full) (hle : r ≤ w) :
    Window cap r (w + 1) (update full (w % cap) true) := by
  intro j
  by_cases hj : j = w % cap
  · subst hj
    rw [update_self]
    simp only [true_iff]
    exact ⟨w, hle, Nat.lt_succ_self w, rfl⟩
  · rw [update_of_ne hj, h j]
    constructor
    · intro hn
      obtain ⟨n, hr, hw, hmod⟩ := hn
      exact ⟨n, hr, by omega, hmod⟩
    · intro hn
      obtain ⟨n, hr, hw, hmod⟩ := hn
      have hne : n ≠ w := by
        intro he
        rw [he] at hmod
        exact hj hmod.symm
      exact ⟨n, hr, by omega, hmod⟩

theorem Window.take (h : Window cap r w full) (hcap : w ≤ r + cap) :
    Window cap (r + 1) w (update full (r % cap) false) := by
  intro j
  by_cases hj : j = r % cap
  · subst hj
    rw [update_self]
    simp only [Bool.false_eq_true, false_iff]
    intro hn
    obtain ⟨n, hr, hw, hmod⟩ := hn
    exact slots_distinct hr (by omega) hmod.symm
  · rw [update_of_ne hj, h j]
    constructor
    · intro hn
      obtain ⟨n, hr, hw, hmod⟩ := hn
      have hne : n ≠ r := by
        intro he
        rw [he] at hmod
        exact hj hmod.symm
      exact ⟨n, by omega, hw, hmod⟩
    · intro hn
      obtain ⟨n, hr, hw, hmod⟩ := hn
      exact ⟨n, by omega, hw, hmod⟩

/-- Indices that are kept modulo `m` still tell how many items there are. -/
theorem ring_sub {m : Nat} (hle : r ≤ w) (hlt : w < r + m) :
    (((w % m : Nat) : Int) - (r % m : Nat)) % m = w - r := by
  rw [Int.natCast_mod, Int.natCast_mod, ← Int.sub_emod]
  exact Int.emod_eq_of_lt (by omega) (by omega)

end

end NjuOs
