import Mathlib.Algebra.BigOperators.Group.Finset.Piecewise
import Mathlib.Data.List.Nodup

/-!
# Ledgers

Amounts booked under keys one after the other, and a table with one row per key that
holds the sum of its amounts. A table with `cap` rows has room as long as the keys are
among `cap`.
-/

namespace NjuOs

open List

section
variable {κ α : Type} [DecidableEq κ] [AddCommMonoid α]

def total (k : κ) (es : List (κ × α)) : α := ((es.filter fun e => e.1 = k).map Prod.snd).sum

@[simp]
theorem total_nil (k : κ) : total k ([] : List (κ × α)) = 0 := rfl

theorem total_cons (k : κ) (e : κ × α) (es : List (κ × α)) :
    total k (e :: es) = (if e.1 = k then e.2 else 0) + total k es := by
  unfold total
  by_cases h : e.1 = k <;> simp [h]

theorem total_append (k : κ) (es fs : List (κ × α)) : total k (es ++ fs) = total k es + total k fs := by
  simp [total]

theorem total_flatMap {β : Type} {f g h : β → List (κ × α)} {k : κ}
    (hline : ∀ l, total k (f l) = total k (g l) + total k (h l)) (ls : List β) :
    total k (ls.flatMap f) = total k (ls.flatMap g) + total k (ls.flatMap h) := by
  induction ls with
  | nil => simp
  | cons l ls ih =>
    simp only [flatMap_cons, total_append, hline, ih]
    exact add_add_add_comm _ _ _ _

theorem total_eq_zero {k : κ} {es : List (κ × α)} (h : k ∉ es.map Prod.fst) : total k es = 0 := by
  have hnone : es.filter (fun e => e.1 = k) = [] := by
    rw [filter_eq_nil_iff]
    intro e he hk
    exact h (mem_map.mpr ⟨e, he, of_decide_eq_true hk⟩)
  rw [total, hnone, map_nil, sum_nil]

theorem sum_eq_sum_total (ks : Finset κ) (es : List (κ × α)) (h : ∀ e ∈ es, e.1 ∈ ks) :
    (es.map Prod.snd).sum = ∑ k ∈ ks, total k es := by
  induction es with
  | nil => simp
  | cons e es ih =>
    simp only [total_cons, Finset.sum_add_distrib]
    rw [Finset.sum_ite_eq, if_pos (h e mem_cons_self), map_cons, sum_cons,
      ih fun f hf => h f (mem_cons_of_mem _ hf)]

theorem sum_eq_of_total_eq {es fs : List (κ × α)} (h : ∀ k, total k es = total k fs) :
    (es.map Prod.snd).sum = (fs.map Prod.snd).sum := by
  have hes : ∀ e ∈ es, e.1 ∈ ((es ++ fs).map Prod.fst).toFinset := by
    intro e he
    simp only [mem_toFinset, map_append, mem_append]
    exact Or.inl (mem_map_of_mem he)
  have hfs : ∀ e ∈ fs, e.1 ∈ ((es ++ fs).map Prod.fst).toFinset := by
    intro e he
    simp only [mem_toFinset, map_append, mem_append]
    exact Or.inr (mem_map_of_mem he)
  rw [sum_eq_sum_total _ es hes, sum_eq_sum_total _ fs hfs]
  exact Finset.sum_congr rfl fun k _ => h k

/-! ## The table -/

structure Sums (table es : List (κ × α)) : Prop where
  nodup : (table.map Prod.fst).Nodup
  key_iff : ∀ k, k ∈ table.map Prod.fst ↔ k ∈ es.map Prod.fst
  total_eq : ∀ k, total k table = total k es

theorem Sums.nil : Sums ([] : List (κ × α)) [] := ⟨nodup_nil, fun _ => Iff.rfl, fun _ => rfl⟩

variable {table es : List (κ × α)} {k : κ}

theorem Sums.addRow (h : Sums table es) (hk : k ∉ table.map Prod.fst) (v : α) :
    Sums (table ++ [(k, v)]) (es ++ [(k, v)]) := by
  refine ⟨?_, ?_, ?_⟩
  · rw [map_append]
    exact h.nodup.append (nodup_singleton k) (by simpa using hk)
  · intro k'
    simp only [map_append, mem_append, h.key_iff]
  · intro k'
    rw [total_append, total_append, h.total_eq]

theorem total_modify {i : Nat} (hi : i < table.length) (k : κ) (v : α) :
    total k (table.modify i fun e => (e.1, e.2 + v)) = total k table + if table[i].1 = k then v else 0 := by
  induction table generalizing i with
  | nil => cases hi
  | cons e table ih =>
    cases i with
    | zero =>
      rw [modify_zero_cons, total_cons, total_cons]
      by_cases h : e.1 = k <;> simp [h, add_right_comm]
    | succ i =>
      rw [modify_succ_cons, total_cons, total_cons, ih (Nat.lt_of_succ_lt_succ hi), add_assoc]
      rfl

theorem Sums.addTo (h : Sums table es) {i : Nat} (hi : i < table.length) (hk : table[i].1 = k) (v : α) :
    Sums (table.modify i fun e => (e.1, e.2 + v)) (es ++ [(k, v)]) := by
  have hkeys : (table.modify i fun e => (e.1, e.2 + v)).map Prod.fst = table.map Prod.fst := by
    apply ext_getElem
    · simp
    · intro j _ _
      rw [getElem_map, getElem_modify, getElem_map]
      split <;> rfl
  refine ⟨hkeys ▸ h.nodup, ?_, ?_⟩
  · intro k'
    rw [hkeys, h.key_iff, map_append, mem_append]
    refine ⟨Or.inl, fun h' => h'.elim id fun hlast => ?_⟩
    rw [← h.key_iff, mem_singleton.mp hlast]
    exact mem_map.mpr ⟨table[i], getElem_mem hi, hk⟩
  · intro k'
    rw [total_modify hi, hk, h.total_eq, total_append, total_cons, total_nil, add_zero]

theorem Sums.length_lt (h : Sums table es) {ks : Finset κ} (hks : ∀ k ∈ es.map Prod.fst, k ∈ ks) (hk : k ∈ ks)
    (hnew : k ∉ table.map Prod.fst) : table.length < ks.card := by
  have hsub : insert k (table.map Prod.fst).toFinset ⊆ ks := by
    intro x hx
    rcases Finset.mem_insert.mp hx with rfl | hx
    · exact hk
    · exact hks x ((h.key_iff x).mp (mem_toFinset.mp hx))
  have hcard := Finset.card_le_card hsub
  rw [Finset.card_insert_of_notMem (mt mem_toFinset.mp hnew), toFinset_card_of_nodup h.nodup,
    length_map] at hcard
  exact hcard

theorem total_eq_lookup (h : (table.map Prod.fst).Nodup) (k : κ) :
    total k table = ((table.find? fun e => e.1 = k).map Prod.snd).getD 0 := by
  induction table with
  | nil => rfl
  | cons e table ih =>
    rw [map_cons, nodup_cons] at h
    rw [total_cons]
    by_cases hk : e.1 = k
    · rw [if_pos hk, total_eq_zero (hk ▸ h.1), add_zero]
      simp [hk]
    · rw [if_neg hk, zero_add, ih h.2]
      simp [hk]

end

end NjuOs
