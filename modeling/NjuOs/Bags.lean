import Mathlib.Tactic
import Mathlib.Algebra.BigOperators.Group.Finset.Basic
import Mathlib.Data.Set.Card

/-!
# Bookkeeping with multisets

A resource that is split among owners is a sum of multisets; when the sum has no
duplicates the owners are disjoint.
-/

namespace NjuOs

open Function List

theorem sum_update_add {ι β M : Type*} [DecidableEq ι] [AddCommMonoid M] (s : Finset ι)
    (g : ι → β → M) (f : ι → β) {i : ι} (hi : i ∈ s) (v : β) :
    (∑ j ∈ s, g j (update f i v j)) + g i (f i) = (∑ j ∈ s, g j (f j)) + g i v := by
  have hrest : ∑ j ∈ s.erase i, g j (update f i v j) = ∑ j ∈ s.erase i, g j (f j) := by
    apply Finset.sum_congr rfl
    intro j hj
    rw [update_of_ne (Finset.ne_of_mem_erase hj)]
  rw [← Finset.add_sum_erase _ _ hi, ← Finset.add_sum_erase _ (fun j => g j (f j)) hi, hrest,
    update_self]
  abel

section
variable {α β : Type*}

def bag (f : α → Multiset β) (l : List α) : Multiset β := (l.map f).sum

variable (f : α → Multiset β)

@[simp] theorem bag_nil : bag f [] = 0 := rfl

@[simp] theorem bag_cons (a : α) (l : List α) : bag f (a :: l) = f a + bag f l := by
  simp [bag]

theorem bag_append (l l' : List α) : bag f (l ++ l') = bag f l + bag f l' := by
  simp [bag]

theorem bag_map {γ : Type*} (g : γ → α) (l : List γ) : bag f (l.map g) = bag (fun c => f (g c)) l := by
  simp [bag, Function.comp_def]

theorem bag_flatMap {γ : Type*} (g : γ → List α) (l : List γ) :
    bag f (l.flatMap g) = bag (fun a => bag f (g a)) l := by
  induction l with
  | nil => rfl
  | cons a l ih => rw [flatMap_cons, bag_append, ih, bag_cons]

theorem bag_range (f : Nat → Multiset β) (n : Nat) :
    bag f (List.range n) = ∑ k ∈ Finset.range n, f k := by
  induction n with
  | zero => rfl
  | succ n ih => rw [range_succ, bag_append, ih, Finset.sum_range_succ, bag_cons, bag_nil, add_zero]

theorem bag_erase [BEq α] [LawfulBEq α] {a : α} {l : List α} (h : a ∈ l) :
    bag f l = f a + bag f (l.erase a) := by
  unfold bag
  rw [((perm_cons_erase h).map _).sum_eq, map_cons, sum_cons]

theorem mem_bag {b : β} {l : List α} : b ∈ bag f l ↔ ∃ a ∈ l, b ∈ f a := by
  induction l with
  | nil => simp
  | cons a l ih => simp [ih]

theorem bag_congr {g : α → Multiset β} {l : List α} (h : ∀ a ∈ l, f a = g a) : bag f l = bag g l := by
  unfold bag
  rw [map_congr_left h]

theorem bag_update_notMem {γ δ : Type*} [DecidableEq δ] (g : γ → Multiset β) (k : δ → γ) {a : δ} {l : List δ}
    (h : a ∉ l) (x : γ) : bag (fun d => g (update k a x d)) l = bag (fun d => g (k d)) l := by
  apply bag_congr
  intro d hd
  have hne : d ≠ a := fun he => h (he ▸ hd)
  rw [update_of_ne hne]

theorem bag_update {γ δ : Type*} [DecidableEq δ] (g : γ → Multiset β) (k : δ → γ) {a : δ} {l : List δ}
    (hnd : l.Nodup) (h : a ∈ l) (x : γ) :
    bag (fun d => g (update k a x d)) l + g (k a) = bag (fun d => g (k d)) l + g x := by
  have hn : a ∉ l.erase a := fun hm => (List.Nodup.mem_erase_iff hnd).mp hm |>.1 rfl
  rw [bag_erase _ h, bag_erase (fun d => g (k d)) h, bag_update_notMem g k hn, update_self]
  abel

theorem pairwise_of_nodup_bag {l : List α} (h : (bag f l).Nodup) :
    l.Pairwise fun a b => Disjoint (f a) (f b) := by
  induction l with
  | nil => exact List.Pairwise.nil
  | cons a l ih =>
    rw [bag_cons] at h
    obtain ⟨-, h2, h3⟩ := Multiset.nodup_add.mp h
    refine List.Pairwise.cons ?_ (ih h2)
    intro b hb
    rw [Multiset.disjoint_left] at h3 ⊢
    intro x hx hy
    exact h3 hx ((mem_bag f).mpr ⟨b, hb, hy⟩)

theorem disjoint_of_nodup_bag {l : List α} (h : (bag f l).Nodup) {a b : α} (ha : a ∈ l) (hb : b ∈ l)
    (hne : a ≠ b) : Disjoint (f a) (f b) := by
  classical
  rw [bag_erase f ha] at h
  have hb' : b ∈ l.erase a := (mem_erase_of_ne hne.symm).mpr hb
  rw [bag_erase f hb', ← add_assoc] at h
  exact (Multiset.nodup_add.mp (Multiset.nodup_add.mp h).1).2.2

theorem nodup_bag {l : List α} (h : ∀ a ∈ l, (f a).Nodup)
    (hp : l.Pairwise fun a b => Disjoint (f a) (f b)) : (bag f l).Nodup := by
  induction hp with
  | nil => exact Multiset.nodup_zero
  | @cons a l ha _ ih =>
    rw [bag_cons]
    refine Multiset.nodup_add.mpr ⟨h a (by simp), ih fun b hb => h b (by simp [hb]), ?_⟩
    rw [Multiset.disjoint_left]
    intro x hx hb
    obtain ⟨b, hb, hxb⟩ := (mem_bag f).mp hb
    exact Multiset.disjoint_left.mp (ha b hb) hx hxb

theorem coe_eq_cons_erase [BEq β] [LawfulBEq β] {b : β} {l : List β} (h : b ∈ l) :
    (l : Multiset β) = b ::ₘ (l.erase b : List β) :=
  Multiset.coe_eq_coe.mpr (perm_cons_erase h)

/-- An owner that occurs twice owns its members twice. -/
theorem count_le_count_bag [BEq α] [LawfulBEq α] [DecidableEq β] {a : α} {b : β} (hb : b ∈ f a)
    (l : List α) : l.count a ≤ (bag f l).count b := by
  induction l with
  | nil => simp
  | cons c l ih =>
    rw [bag_cons, Multiset.count_add, count_cons]
    by_cases h : c == a
    · have := Multiset.one_le_count_iff_mem.mpr hb
      rw [eq_of_beq h] at *
      simp only [beq_self_eq_true, ite_true]; omega
    · simp only [h, Bool.false_eq_true, ite_false]; omega

end

/-! ## Tallies -/

/-- `b` is more than `a` by the number of indices `i` that `g` marks with `r` where they stand. -/
def Tally {α β γ : Type*} (g : β → Option γ) (r : γ) (f : α → β) (a b : Nat) : Prop :=
  {i | g (f i) = some r}.encard + a = b

section
variable {α β γ : Type*} {g : β → Option γ} {r : γ} {f : α → β} {i : α} {a b : Nat}

theorem tally_none (h : ∀ i, g (f i) = none) (a : Nat) : Tally g r f a a := by
  have hempty : {i | g (f i) = some r} = ∅ := by
    apply Set.eq_empty_iff_forall_notMem.mpr
    intro i hi
    cases (h i).symm.trans hi
  unfold Tally
  rw [hempty, Set.encard_empty, zero_add]

theorem Tally.le (h : Tally g r f a b) : a ≤ b := by
  have hle : (a : ℕ∞) ≤ b := by
    rw [← h]
    exact le_add_self
  exact_mod_cast hle

theorem Tally.lt (h : Tally g r f a b) (hi : g (f i) = some r) : a < b := by
  have hone : 1 ≤ {i | g (f i) = some r}.encard := Set.one_le_encard_iff_nonempty.mpr ⟨i, hi⟩
  have hle : ((a + 1 : Nat) : ℕ∞) ≤ b := by
    rw [← h, Nat.cast_succ, add_comm (a : ℕ∞)]
    gcongr
  exact_mod_cast hle

variable [DecidableEq α] {x : β}

theorem Tally.same (h : Tally g r f a b) (hg : g x = some r ↔ g (f i) = some r) :
    Tally g r (update f i x) a b := by
  have heq : ∀ j, g (update f i x j) = some r ↔ g (f j) = some r := by
    intro j
    by_cases hj : j = i
    · rw [hj, update_self, hg]
    · rw [update_of_ne hj]
  unfold Tally
  simp only [heq]
  exact h

theorem Tally.enter (h : Tally g r f a b) (hno : g (f i) ≠ some r) (hg : g x = some r) :
    Tally g r (update f i x) a (b + 1) := by
  have heq : {j | g (update f i x j) = some r} = insert i {j | g (f j) = some r} := by
    ext j
    by_cases hj : j = i
    · subst hj
      simp [hg]
    · simp [hj]
  unfold Tally at h ⊢
  rw [heq, Set.encard_insert_of_notMem (show i ∉ {j | g (f j) = some r} from hno), add_right_comm, h, Nat.cast_succ]

theorem Tally.leave (h : Tally g r f a b) (hg : g (f i) = some r) (hno : g x ≠ some r) :
    Tally g r (update f i x) (a + 1) b := by
  have heq : {j | g (update f i x j) = some r} = {j | g (f j) = some r} \ {i} := by
    ext j
    by_cases hj : j = i
    · subst hj
      simp [hno]
    · simp [hj]
  unfold Tally at h ⊢
  rw [heq, ← h, ← Set.encard_sdiff_singleton_add_one (show i ∈ {j | g (f j) = some r} from hg), Nat.cast_succ,
    add_assoc, add_comm (a : ℕ∞)]

variable {κ : Type*} [DecidableEq κ] {k : γ → κ}

/-- One member joins a class; the totals are kept under the keys `k` of the classes. -/
theorem Tally.enters {a : γ → Nat} {b : κ → Nat} (hk : Function.Injective k) (h : ∀ r, Tally g r f (a r) (b (k r)))
    (hno : g (f i) = none) (hg : g x = some r) (r' : γ) :
    Tally g r' (update f i x) (a r') (update b (k r) (b (k r) + 1) (k r')) := by
  by_cases hr : r' = r
  · rw [hr, update_self]
    refine (h r).enter ?_ hg
    rw [hno]
    exact (Option.some_ne_none r).symm
  · rw [update_of_ne (hk.ne hr)]
    refine (h r').same ?_
    simp [hg, hno, Ne.symm hr]

theorem Tally.leaves {a : κ → Nat} {b : γ → Nat} (hk : Function.Injective k) (h : ∀ r, Tally g r f (a (k r)) (b r))
    (hg : g (f i) = some r) (hno : g x = none) (r' : γ) :
    Tally g r' (update f i x) (update a (k r) (a (k r) + 1) (k r')) (b r') := by
  by_cases hr : r' = r
  · rw [hr, update_self]
    refine (h r).leave hg ?_
    rw [hno]
    exact (Option.some_ne_none r).symm
  · rw [update_of_ne (hk.ne hr)]
    refine (h r').same ?_
    simp [hg, hno, Ne.symm hr]

end

end NjuOs
