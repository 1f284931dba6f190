import Mathlib.Tactic

/-!
# Lists threaded through their members

`Linked next o l`: following `next` from `o` visits exactly the members of `l`, in order,
and ends. The members are then distinct.
-/

namespace NjuOs

open Function List

section
variable {α : Type*} {next next' : α → Option α}

def Linked (next : α → Option α) : Option α → List α → Prop
  | o, [] => o = none
  | o, a :: l => o = some a ∧ Linked next (next a) l

theorem Linked.unique : ∀ {l l' : List α} {o : Option α}, Linked next o l → Linked next o l' → l = l'
  | [], [], _, _, _ => rfl
  | [], _ :: _, _, h, h' => by cases h.symm.trans h'.1
  | _ :: _, [], _, h, h' => by cases h.1.symm.trans h'
  | a :: l, b :: l', _, h, h' => by
    cases h.1.symm.trans h'.1
    rw [Linked.unique h.2 h'.2]

theorem Linked.congr : ∀ {l : List α} {o : Option α}, Linked next o l → (∀ a ∈ l, next' a = next a) →
    Linked next' o l
  | [], _, h, _ => h
  | a :: l, _, h, hn => by
    refine ⟨h.1, ?_⟩
    rw [hn a (by simp)]
    exact h.2.congr fun b hb => hn b (by simp [hb])

theorem Linked.suffix {a : α} {l' : List α} : ∀ {l : List α} {o : Option α}, Linked next o (l ++ a :: l') →
    Linked next (next a) l'
  | [], _, h => h.2
  | _ :: _, _, h => Linked.suffix h.2

theorem Linked.nodup : ∀ {l : List α} {o : Option α}, Linked next o l → l.Nodup
  | [], _, _ => nodup_nil
  | a :: l, o, h => by
    refine nodup_cons.mpr ⟨?_, Linked.nodup h.2⟩
    intro ha
    -- what follows the second occurrence would have to be as long as what follows the first
    obtain ⟨l₁, l₂, rfl⟩ := append_of_mem ha
    have he := congrArg List.length (Linked.unique h.2 h.2.suffix)
    rw [length_append, length_cons] at he
    omega

theorem Linked.entered {a : α} : ∀ {l : List α} {o : Option α},
    Linked next o l → a ∈ l → o = some a ∨ ∃ b ∈ l, next b = some a
  | b :: l, o, h, ha => by
    rcases mem_cons.mp ha with rfl | ha
    · exact Or.inl h.1
    · rcases h.2.entered ha with hb | ⟨d, hd, he⟩
      · exact Or.inr ⟨b, mem_cons_self, hb⟩
      · exact Or.inr ⟨d, mem_cons_of_mem b hd, he⟩

theorem Linked.within {S : α → Prop} (hS : ∀ a, S a → ∀ b, next a = some b → S b) :
    ∀ {l : List α} {o : Option α}, Linked next o l → (∀ a, o = some a → S a) → ∀ a ∈ l, S a
  | [], _, _, _ => by simp
  | b :: l, _, h, ho => by
    have hb := ho b h.1
    intro a ha
    rcases mem_cons.mp ha with rfl | ha
    · exact hb
    · exact h.2.within hS (hS b hb) a ha

theorem Linked.pushed [DecidableEq α] {a : α} {o : Option α} {l : List α} :
    Linked (update next a o) (some a) l ↔ ∃ l', l = a :: l' ∧ Linked next o l' ∧ a ∉ l' := by
  constructor
  · intro h
    cases l with
    | nil => cases h
    | cons b l =>
      obtain ⟨ha, hl⟩ := nodup_cons.mp h.nodup
      cases h.1
      have hnext := h.2
      rw [update_self] at hnext
      refine ⟨l, rfl, hnext.congr fun b hb => ?_, ha⟩
      rw [update_of_ne (ne_of_mem_of_not_mem hb ha)]
  · rintro ⟨l, rfl, h, ha⟩
    refine ⟨rfl, ?_⟩
    rw [update_self]
    exact h.congr fun b hb => update_of_ne (ne_of_mem_of_not_mem hb ha) _ _

theorem Linked.snoc {a z : α} (ha : next' a = none) (hz : next' z = some a) :
    ∀ {l : List α} {o : Option α}, Linked next o (l ++ [z]) → (∀ b ∈ l, next' b = next b) →
    Linked next' o (l ++ [z] ++ [a])
  | [], _, h, _ => ⟨h.1, hz, ha⟩
  | b :: l, _, h, hl => by
    refine ⟨h.1, ?_⟩
    rw [hl b (by simp)]
    exact Linked.snoc ha hz h.2 fun c hc => hl c (by simp [hc])

end

/-! ## Walks with any end -/

def Walk {α : Type*} (next : α → Option α) (e : Option α) : Option α → List α → Prop
  | o, [] => o = e
  | o, a :: l => o = some a ∧ Walk next e (next a) l

section
variable {α : Type*} {next : α → Option α} {e m o : Option α}

theorem Walk.append {v : List α} (hv : Walk next e m v) : ∀ {u : List α} {o : Option α}, Walk next m o u →
    Walk next e o (u ++ v)
  | [], _, hu => by
    cases hu
    exact hv
  | _ :: _, _, hu => ⟨hu.1, Walk.append hv hu.2⟩

theorem Walk.split {a : α} {v : List α} : ∀ {u : List α} {o : Option α}, Walk next e o (u ++ a :: v) →
    Walk next (some a) o u ∧ Walk next e (next a) v
  | [], _, h => h
  | _ :: _, _, h => ⟨⟨h.1, (Walk.split h.2).1⟩, (Walk.split h.2).2⟩

theorem Linked.walk (head : Option α) : ∀ {l : List α} {o : Option α}, Linked next o l →
    Walk (fun a => (next a).or head) head (o.or head) l
  | [], _, h => by
    cases h
    rfl
  | a :: l, _, h => by
    refine ⟨?_, Linked.walk head h.2⟩
    rw [h.1, Option.some_or]

end

end NjuOs
