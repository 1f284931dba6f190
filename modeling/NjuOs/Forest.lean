import Mathlib.Data.Fintype.Card
import Mathlib.Data.List.Nodup
import Mathlib.Tactic

/-!
# Forests given by parents

`parent` may have cycles; `Below parent r x` says that the chain of parents of `x` passes `r`,
and `Depth parent x k` that it ends after `k` steps, at a root. `InPreorder kids is L` says that `L`
lists the trees under `is` one after the other, each node before its own trees.
-/

namespace NjuOs

open List

section
variable {α : Type*} (parent : α → Option α)

inductive Below (r : α) : α → Prop
  | refl : Below r r
  | step {p x : α} : parent x = some p → Below r p → Below r x

inductive Depth : α → Nat → Prop
  | root {x : α} : parent x = none → Depth x 0
  | child {p x : α} {k : Nat} : parent x = some p → Depth p k → Depth x (k + 1)

inductive InPreorder (kids : α → List α) : List α → List α → Prop
  | nil : InPreorder kids [] []
  | cons {i : α} {is L M : List α} : InPreorder kids (kids i) L → InPreorder kids is M →
      InPreorder kids (i :: is) (i :: L ++ M)

variable {parent} {kids : α → List α} {is js L M : List α} {r r' x p : α} {k m : Nat}

/-! ## Depth -/

theorem Depth.unique (h : Depth parent x k) : ∀ {m : Nat}, Depth parent x m → k = m := by
  induction h with
  | root hx =>
    intro m h'
    cases h' with
    | root => rfl
    | child hp => cases hx.symm.trans hp
  | child hx _ ih =>
    intro m h'
    cases h' with
    | root hn => cases hx.symm.trans hn
    | child hp hk =>
      cases hx.symm.trans hp
      rw [ih hk]

/-- There is a node at every depth on the way up. -/
theorem Depth.above {s : Finset α} (hs : ∀ x ∈ s, ∀ p, parent x = some p → p ∈ s) (h : Depth parent x k) :
    x ∈ s → ∀ m, m ≤ k → ∃ y ∈ s, Depth parent y m := by
  induction h with
  | root hx =>
    intro hxs m hm
    rw [Nat.le_zero.mp hm]
    exact ⟨_, hxs, .root hx⟩
  | child hx hp ih =>
    intro hxs m hm
    rcases Nat.le_succ_iff.mp hm with hm | rfl
    · exact ih (hs _ hxs _ hx) m hm
    · exact ⟨_, hxs, .child hx hp⟩

/-- Nodes of different depth are different, so a chain is no longer than the forest is large. -/
theorem Depth.lt_card {s : Finset α} (hs : ∀ x ∈ s, ∀ p, parent x = some p → p ∈ s) (h : Depth parent x k)
    (hx : x ∈ s) : k < s.card := by
  choose f hfs hf using h.above hs hx
  let g : Fin (k + 1) → s := fun m => ⟨f m (Nat.le_of_lt_succ m.isLt), hfs m _⟩
  have hg : Function.Injective g := by
    intro a b hab
    have ha := hf a (Nat.le_of_lt_succ a.isLt)
    have hb := hf b (Nat.le_of_lt_succ b.isLt)
    have heq : f a (Nat.le_of_lt_succ a.isLt) = f b (Nat.le_of_lt_succ b.isLt) := congrArg Subtype.val hab
    rw [heq] at ha
    exact Fin.ext (ha.unique hb)
  have hcard := Fintype.card_le_of_injective g hg
  rw [Fintype.card_fin, Fintype.card_coe] at hcard
  exact hcard

theorem Below.depth (h : Below parent r x) (hr : Depth parent r k) : ∃ m, Depth parent x (k + m) := by
  induction h with
  | refl => exact ⟨0, hr⟩
  | step hp _ ih =>
    obtain ⟨m, hm⟩ := ih
    exact ⟨m + 1, .child hp hm⟩

/-- Only one node of a depth is above `x`. -/
theorem Below.unique (h : Below parent r x) (h' : Below parent r' x) (hr : Depth parent r k)
    (hr' : Depth parent r' k) : r = r' := by
  induction h with
  | refl =>
    cases h' with
    | refl => rfl
    | step hp hb =>
      obtain ⟨m, hm⟩ := hb.depth hr'
      have := hr.unique (.child hp hm)
      omega
  | step hp hb ih =>
    cases h' with
    | refl =>
      obtain ⟨m, hm⟩ := hb.depth hr
      have := hr'.unique (.child hp hm)
      omega
    | step hp' hb' =>
      cases hp.symm.trans hp'
      exact ih hb'

theorem Below.trans (h : Below parent r p) (hx : Below parent p x) : Below parent r x := by
  induction hx with
  | refl => exact h
  | step hp _ ih => exact .step hp ih

theorem below_iff : Below parent r x ↔ x = r ∨ ∃ c, parent c = some r ∧ Below parent c x := by
  constructor
  · intro h
    induction h with
    | refl => exact Or.inl rfl
    | @step p x hp _ ih =>
      rcases ih with rfl | ⟨c, hc, hb⟩
      · exact Or.inr ⟨x, hp, .refl⟩
      · exact Or.inr ⟨c, hc, .step hp hb⟩
  · rintro (rfl | ⟨c, hc, hb⟩)
    · exact .refl
    · exact Below.trans (.step hc .refl) hb

/-! ## Preorder -/

theorem InPreorder.append (h : InPreorder kids is L) (h' : InPreorder kids js M) :
    InPreorder kids (is ++ js) (L ++ M) := by
  induction h with
  | nil => exact h'
  | cons hk _ _ ih =>
    rw [append_assoc]
    exact .cons hk ih

section
variable (hkids : ∀ p c, c ∈ kids p ↔ parent c = some p)
include hkids

theorem InPreorder.mem (h : InPreorder kids is L) : x ∈ L ↔ ∃ r ∈ is, Below parent r x := by
  induction h with
  | nil => simp
  | @cons i is L M _ _ ihk ih =>
    have hi : Below parent i x ↔ x = i ∨ ∃ c ∈ kids i, Below parent c x := by
      simp only [below_iff (r := i), hkids]
    simp only [cons_append, mem_cons, mem_append, ihk, ih, exists_eq_or_imp, hi, or_assoc]

/-- Nothing is listed twice if the trees start at one depth. -/
theorem InPreorder.nodup (hn : ∀ p, (kids p).Nodup) (h : InPreorder kids is L) :
    ∀ {k : Nat}, is.Nodup → (∀ i ∈ is, Depth parent i k) → L.Nodup := by
  induction h with
  | nil => exact fun _ _ => nodup_nil
  | @cons i is L M hL hM ihk ih =>
    intro k his hdepth
    obtain ⟨hi, his⟩ := nodup_cons.mp his
    have hik := hdepth i mem_cons_self
    have hrest : ∀ j ∈ is, Depth parent j k := fun j hj => hdepth j (mem_cons_of_mem _ hj)
    have hdown : ∀ c ∈ kids i, Depth parent c (k + 1) := fun c hc => .child ((hkids i c).mp hc) hik
    have hLbelow : ∀ y ∈ L, Below parent i y ∧ y ≠ i := by
      intro y hy
      obtain ⟨c, hc, hb⟩ := (hL.mem hkids).mp hy
      refine ⟨below_iff.mpr (Or.inr ⟨c, (hkids i c).mp hc, hb⟩), ?_⟩
      rintro rfl
      obtain ⟨m, hm⟩ := hb.depth (hdown c hc)
      have := hik.unique hm
      omega
    have hMnot : ∀ y ∈ M, ¬Below parent i y := by
      intro y hy hb
      obtain ⟨j, hj, hbj⟩ := (hM.mem hkids).mp hy
      exact hi (hb.unique hbj hik (hrest j hj) ▸ hj)
    rw [cons_append, nodup_cons, nodup_append]
    refine ⟨?_, ihk (hn i) hdown, ih his hrest, ?_⟩
    · rw [mem_append, not_or]
      exact ⟨fun hy => (hLbelow i hy).2 rfl, fun hy => hMnot i hy .refl⟩
    · rintro y hy z hz rfl
      exact hMnot y hz (hLbelow y hy).1

end

end

end NjuOs
