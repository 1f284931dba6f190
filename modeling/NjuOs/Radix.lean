import NjuOs.Bags

/-!
# Radix tables in a flat memory

A tree of tables, one table a page. `live` entries point somewhere, `own` entries to a table of this tree,
and `full` ones are what the tree puts there itself. An address has one index for each level; what is stored
for it is the entry of the last table on its path.
-/

namespace NjuOs

open Function List

structure Level (A : Type*) where
  idx : A → Nat
  size : Nat
  idx_lt : ∀ a, idx a < size

structure Radix (W : Type*) where
  word : Nat
  pgsize : Nat
  zero : W
  live : W → Bool
  own : W → Bool
  full : W → Bool
  ptr : W → Nat
  word_pos : 0 < word
  zero_dead : live zero = false
  own_live : ∀ w, own w = true → live w = true
  full_own : ∀ w, full w = true → own w = true

namespace Radix

section
variable {A W : Type*} (R : Radix W)

def slot (pt i : Nat) : Nat := pt + i * R.word

def page (x : Nat) : Nat := x / R.pgsize * R.pgsize

def below (mem : Nat → W) : List (Level A) → Nat → Multiset Nat
  | [], _ => 0
  | [_], _ => 0
  | l :: l' :: ls, pt => bag (fun i =>
      if R.own (mem (R.slot pt i)) = true then
        R.ptr (mem (R.slot pt i)) ::ₘ below mem (l' :: ls) (R.ptr (mem (R.slot pt i)))
      else 0) (List.range l.size)

def held (mem : Nat → W) (ls : List (Level A)) (pt : Nat) : Multiset Nat := pt ::ₘ R.below mem ls pt

def walk (mem : Nat → W) : List (Level A) → Nat → A → Option Nat
  | [], _, _ => none
  | [l], pt, a => some (R.slot pt (l.idx a))
  | l :: l' :: ls, pt, a =>
    if R.own (mem (R.slot pt (l.idx a))) = true then walk mem (l' :: ls) (R.ptr (mem (R.slot pt (l.idx a)))) a
    else none

def value (mem : Nat → W) (ls : List (Level A)) (pt : Nat) (a : A) : W :=
  match R.walk mem ls pt a with
  | none => R.zero
  | some e => mem e

def Straight (mem : Nat → W) : List (Level A) → Nat → A → Prop
  | [], _, _ => True
  | [_], _, _ => True
  | l :: l' :: ls, pt, a => R.live (mem (R.slot pt (l.idx a))) = true →
    R.full (mem (R.slot pt (l.idx a))) = true ∧ Straight mem (l' :: ls) (R.ptr (mem (R.slot pt (l.idx a)))) a

def Fits (ls : List (Level A)) : Prop := ∀ l ∈ ls, l.size * R.word ≤ R.pgsize

structure Sound (mem : Nat → W) (ls : List (Level A)) (pt : Nat) : Prop where
  nodup : (R.held mem ls pt).Nodup
  aligned : ∀ q ∈ R.held mem ls pt, R.pgsize ∣ q

variable {R} {mem mem' : Nat → W} {l l' : Level A} {ls : List (Level A)} {pt i j q x : Nat} {a b : A} {w : W}

theorem slot_inj (h : R.slot pt i = R.slot pt j) : i = j :=
  Nat.eq_of_mul_eq_mul_right R.word_pos (Nat.add_left_cancel h)

theorem page_add (hq : R.pgsize ∣ q) (hx : x < R.pgsize) : R.page (q + x) = q := by
  obtain ⟨k, rfl⟩ := hq
  rw [page, Nat.mul_add_div (by omega), Nat.div_eq_of_lt hx, add_zero, mul_comm]

theorem page_slot (hpt : R.pgsize ∣ pt) (hl : l.size * R.word ≤ R.pgsize) (hi : i < l.size) :
    R.page (R.slot pt i) = pt := by
  refine page_add hpt (lt_of_lt_of_le ?_ hl)
  exact Nat.mul_lt_mul_of_pos_right hi R.word_pos

def sub (R : Radix W) (mem : Nat → W) (ls : List (Level A)) (w : W) : Multiset Nat :=
  if R.own w = true then R.held mem ls (R.ptr w) else 0

theorem below_last : R.below mem [l] pt = 0 := rfl

theorem below_cons : R.below mem (l :: l' :: ls) pt =
    bag (fun i => R.sub mem (l' :: ls) (mem (R.slot pt i))) (List.range l.size) := rfl

theorem sub_own (hw : R.own w = true) : R.sub mem ls w = R.held mem ls (R.ptr w) := if_pos hw

theorem sub_not_own (hw : ¬R.own w = true) : R.sub mem ls w = 0 := if_neg hw

theorem below_split (hi : i < l.size) : R.below mem (l :: l' :: ls) pt = R.sub mem (l' :: ls) (mem (R.slot pt i)) +
    bag (fun i => R.sub mem (l' :: ls) (mem (R.slot pt i))) ((List.range l.size).erase i) := by
  rw [below_cons, bag_erase _ (mem_range.mpr hi)]

theorem sub_le (hi : i < l.size) : R.sub mem (l' :: ls) (mem (R.slot pt i)) ≤ R.below mem (l :: l' :: ls) pt := by
  rw [below_split hi]
  exact Multiset.le_add_right _ _

theorem mem_held_of_child (hi : i < l.size) (ho : R.own (mem (R.slot pt i)) = true)
    (hq : q ∈ R.held mem (l' :: ls) (R.ptr (mem (R.slot pt i)))) : q ∈ R.held mem (l :: l' :: ls) pt := by
  refine Multiset.mem_cons_of_mem (Multiset.mem_of_le (sub_le hi) ?_)
  rw [sub_own ho]
  exact hq

theorem Sound.child (h : R.Sound mem (l :: l' :: ls) pt) (hi : i < l.size) (ho : R.own (mem (R.slot pt i)) = true) :
    R.Sound mem (l' :: ls) (R.ptr (mem (R.slot pt i))) := by
  refine ⟨?_, fun q hq => h.aligned q (mem_held_of_child hi ho hq)⟩
  rw [← sub_own ho]
  exact Multiset.nodup_of_le (sub_le hi) (Multiset.nodup_cons.mp h.nodup).2

theorem Sound.root_notMem (h : R.Sound mem (l :: l' :: ls) pt) (hi : i < l.size)
    (ho : R.own (mem (R.slot pt i)) = true) : pt ∉ R.held mem (l' :: ls) (R.ptr (mem (R.slot pt i))) := by
  intro hm
  rw [← sub_own ho] at hm
  exact (Multiset.nodup_cons.mp h.nodup).1 (Multiset.mem_of_le (sub_le hi) hm)

theorem Sound.apart (h : R.Sound mem (l :: l' :: ls) pt) (hi : i < l.size) (hj : j < l.size) (hne : i ≠ j)
    (hoi : R.own (mem (R.slot pt i)) = true) (hoj : R.own (mem (R.slot pt j)) = true)
    (hq : q ∈ R.held mem (l' :: ls) (R.ptr (mem (R.slot pt i)))) :
    q ∉ R.held mem (l' :: ls) (R.ptr (mem (R.slot pt j))) := by
  have hnd := (Multiset.nodup_cons.mp h.nodup).2
  rw [below_cons] at hnd
  have hd := disjoint_of_nodup_bag _ hnd (mem_range.mpr hi) (mem_range.mpr hj) hne
  rw [sub_own hoi, sub_own hoj, Multiset.disjoint_left] at hd
  exact hd hq

theorem Fits.tail (h : R.Fits (l :: ls)) : R.Fits ls := fun m hm => h m (mem_cons_of_mem l hm)

/-! ## Memory outside the tables -/

structure Same (R : Radix W) (mem mem' : Nat → W) (ls : List (Level A)) (pt : Nat) : Prop where
  below : R.below mem' ls pt = R.below mem ls pt
  walk : ∀ a, R.walk mem' ls pt a = R.walk mem ls pt a
  straight : ∀ a, R.Straight mem ls pt a → R.Straight mem' ls pt a

theorem Same.sub (h : R.Same mem mem' ls (R.ptr w)) : R.sub mem' ls w = R.sub mem ls w := by
  rw [Radix.sub, Radix.sub, held, held, h.below]

theorem Same.table (hslot : ∀ i < l.size, mem' (R.slot pt i) = mem (R.slot pt i))
    (hchild : ∀ i < l.size, R.own (mem (R.slot pt i)) = true → R.Same mem mem' (l' :: ls) (R.ptr (mem (R.slot pt i)))) :
    R.Same mem mem' (l :: l' :: ls) pt := by
  constructor
  · rw [below_cons, below_cons]
    apply bag_congr
    intro i hi
    have hi := mem_range.mp hi
    rw [hslot i hi]
    by_cases ho : R.own (mem (R.slot pt i)) = true
    · exact (hchild i hi ho).sub
    · rw [sub_not_own ho, sub_not_own ho]
  · intro a
    have hi := l.idx_lt a
    simp only [Radix.walk, hslot _ hi]
    by_cases ho : R.own (mem (R.slot pt (l.idx a))) = true
    · rw [if_pos ho, if_pos ho, (hchild _ hi ho).walk]
    · rw [if_neg ho, if_neg ho]
  · intro a hs
    have hi := l.idx_lt a
    simp only [Straight, hslot _ hi] at hs ⊢
    intro hl
    obtain ⟨hfull, hs⟩ := hs hl
    exact ⟨hfull, (hchild _ hi (R.full_own _ hfull)).straight a hs⟩

theorem same_of_held (hf : R.Fits ls) (ha : ∀ q ∈ R.held mem ls pt, R.pgsize ∣ q)
    (heq : ∀ x, R.page x ∈ R.held mem ls pt → mem' x = mem x) : R.Same mem mem' ls pt := by
  induction ls generalizing pt with
  | nil => exact ⟨rfl, fun _ => rfl, fun _ _ => trivial⟩
  | cons l ls ih =>
    cases ls with
    | nil => exact ⟨rfl, fun _ => rfl, fun _ _ => trivial⟩
    | cons l' ls =>
      have hpt : R.pgsize ∣ pt := ha pt (Multiset.mem_cons_self ..)
      refine Same.table (fun i hi => heq _ ?_) fun i hi ho => ih hf.tail ?_ ?_
      · rw [page_slot hpt (hf l (mem_cons_self ..)) hi]
        exact Multiset.mem_cons_self ..
      · exact fun q hq => ha q (mem_held_of_child hi ho hq)
      · exact fun x hx => heq x (mem_held_of_child hi ho hx)

theorem walk_page (hf : R.Fits ls) (h : R.Sound mem ls pt) (hw : R.walk mem ls pt a = some x) :
    R.page x ∈ R.held mem ls pt := by
  induction ls generalizing pt with
  | nil => cases hw
  | cons l ls ih =>
    have hpt : R.pgsize ∣ pt := h.aligned pt (Multiset.mem_cons_self ..)
    cases ls with
    | nil =>
      cases hw
      rw [page_slot hpt (hf l (mem_cons_self ..)) (l.idx_lt a)]
      exact Multiset.mem_cons_self ..
    | cons l' ls =>
      simp only [walk] at hw
      by_cases ho : R.own (mem (R.slot pt (l.idx a))) = true
      · rw [if_pos ho] at hw
        exact mem_held_of_child (l.idx_lt a) ho (ih hf.tail (h.child (l.idx_lt a) ho) hw)
      · rw [if_neg ho] at hw
        cases hw

theorem value_congr (hf : R.Fits ls) (h : R.Sound mem ls pt)
    (heq : ∀ x, R.page x ∈ R.held mem ls pt → mem' x = mem x) (a : A) :
    R.value mem' ls pt a = R.value mem ls pt a := by
  have hwalk := (same_of_held hf h.aligned heq).walk a
  rw [value, value, hwalk]
  cases hw : R.walk mem ls pt a with
  | none => rfl
  | some e => exact heq e (walk_page hf h hw)

/-! ## New tables on the path of an address -/

/-- Tables `N` have been put below the table at `pt`, on the path of `a`; nothing that is stored has changed. -/
structure Grown (R : Radix W) (mem : Nat → W) (ls : List (Level A)) (pt : Nat) (a : A) (N : Multiset Nat)
    (mem' : Nat → W) : Prop where
  frame : ∀ x, R.page x ∉ R.held mem ls pt → R.page x ∉ N → mem' x = mem x
  others : ∀ l ∈ ls.head?, ∀ i < l.size, i ≠ l.idx a → mem' (R.slot pt i) = mem (R.slot pt i)
  below : R.below mem' ls pt = R.below mem ls pt + N
  straight : ∀ b, R.Straight mem ls pt b → R.Straight mem' ls pt b
  value : ∀ b, R.Straight mem ls pt b → R.value mem' ls pt b = R.value mem ls pt b

theorem Grown.refl (mem : Nat → W) (ls : List (Level A)) (pt : Nat) (a : A) : R.Grown mem ls pt a 0 mem where
  frame := fun _ _ _ => rfl
  others := fun _ _ _ _ _ => rfl
  below := (add_zero _).symm
  straight := fun _ => id
  value := fun _ _ => rfl

theorem Grown.held {N : Multiset Nat} (h : R.Grown mem ls pt a N mem') : R.held mem' ls pt = R.held mem ls pt + N := by
  rw [Radix.held, h.below, Radix.held, Multiset.cons_add]

theorem Grown.sound {N : Multiset Nat} (h : R.Grown mem ls pt a N mem') (hs : R.Sound mem ls pt) (hN : N.Nodup)
    (hd : ∀ q ∈ N, q ∉ R.held mem ls pt ∧ R.pgsize ∣ q) : R.Sound mem' ls pt := by
  refine ⟨?_, fun q hq => ?_⟩
  · rw [h.held, Multiset.nodup_add]
    exact ⟨hs.nodup, hN, Multiset.disjoint_right.mpr fun hq => (hd _ hq).1⟩
  · rw [h.held] at hq
    rcases Multiset.mem_add.mp hq with hq | hq
    · exact hs.aligned q hq
    · exact (hd q hq).2

theorem Grown.trans {N N' : Multiset Nat} {mem'' : Nat → W} (h : R.Grown mem ls pt a N mem')
    (h' : R.Grown mem' ls pt a N' mem'') : R.Grown mem ls pt a (N + N') mem'' where
  frame := fun x hx hN => by
    obtain ⟨hN, hN'⟩ := not_or.mp fun hor => hN (Multiset.mem_add.mpr hor)
    have hx' : R.page x ∉ R.held mem' ls pt := by
      rw [h.held]
      exact fun hm => (Multiset.mem_add.mp hm).elim hx hN
    rw [h'.frame x hx' hN', h.frame x hx hN]
  others := fun l hl i hi hne => (h'.others l hl i hi hne).trans (h.others l hl i hi hne)
  below := by rw [h'.below, h.below, add_assoc]
  straight := fun b hb => h'.straight b (h.straight b hb)
  value := fun b hb => (h'.value b (h.straight b hb)).trans (h.value b hb)

theorem grown_of_entry {N : Multiset Nat} (hf : R.Fits (l :: l' :: ls)) (hs : R.Sound mem (l :: l' :: ls) pt)
    (hframe : ∀ x, R.page x ∉ R.held mem (l :: l' :: ls) pt → R.page x ∉ N → mem' x = mem x)
    (hslot : ∀ i < l.size, i ≠ l.idx a → mem' (R.slot pt i) = mem (R.slot pt i))
    (hkept : ∀ i < l.size, i ≠ l.idx a → R.own (mem (R.slot pt i)) = true →
      ∀ x, R.page x ∈ R.held mem (l' :: ls) (R.ptr (mem (R.slot pt i))) → mem' x = mem x)
    (hsub : R.sub mem' (l' :: ls) (mem' (R.slot pt (l.idx a))) = R.sub mem (l' :: ls) (mem (R.slot pt (l.idx a))) + N)
    (hpath : ∀ b, l.idx b = l.idx a → R.Straight mem (l :: l' :: ls) pt b →
      R.Straight mem' (l :: l' :: ls) pt b ∧ R.value mem' (l :: l' :: ls) pt b = R.value mem (l :: l' :: ls) pt b) :
    R.Grown mem (l :: l' :: ls) pt a N mem' := by
  have hsame : ∀ i < l.size, i ≠ l.idx a → R.own (mem (R.slot pt i)) = true →
      R.Same mem mem' (l' :: ls) (R.ptr (mem (R.slot pt i))) := fun i hi hne ho =>
    same_of_held hf.tail (hs.child hi ho).aligned (hkept i hi hne ho)
  have hother : ∀ b, l.idx b ≠ l.idx a → R.Straight mem (l :: l' :: ls) pt b →
      R.Straight mem' (l :: l' :: ls) pt b ∧ R.value mem' (l :: l' :: ls) pt b = R.value mem (l :: l' :: ls) pt b := by
    intro b hne hb
    have hib := l.idx_lt b
    simp only [Straight, Radix.value, walk, hslot _ hib hne] at hb ⊢
    refine ⟨fun hl => ?_, ?_⟩
    · obtain ⟨hfull, hb⟩ := hb hl
      exact ⟨hfull, (hsame _ hib hne (R.full_own _ hfull)).straight b hb⟩
    · by_cases ho : R.own (mem (R.slot pt (l.idx b))) = true
      · rw [if_pos ho, if_pos ho]
        exact value_congr hf.tail (hs.child hib ho) (hkept _ hib hne ho) b
      · rw [if_neg ho, if_neg ho]
  have hall : ∀ b, R.Straight mem (l :: l' :: ls) pt b → _ := fun b hb =>
    (em (l.idx b = l.idx a)).elim (fun he => hpath b he hb) fun hne => hother b hne hb
  refine ⟨hframe, fun m hm i hi hne => ?_, ?_, fun b hb => (hall b hb).1, fun b hb => (hall b hb).2⟩
  · cases hm
    exact hslot i hi hne
  · have hrest : bag (fun i => R.sub mem' (l' :: ls) (mem' (R.slot pt i))) ((List.range l.size).erase (l.idx a)) =
        bag (fun i => R.sub mem (l' :: ls) (mem (R.slot pt i))) ((List.range l.size).erase (l.idx a)) := by
      apply bag_congr
      intro i hi
      obtain ⟨hne, hi⟩ := (List.Nodup.mem_erase_iff nodup_range).mp hi
      have hi := mem_range.mp hi
      rw [hslot i hi hne]
      by_cases ho : R.own (mem (R.slot pt i)) = true
      · exact (hsame i hi hne ho).sub
      · rw [sub_not_own ho, sub_not_own ho]
    rw [below_split (l.idx_lt a), below_split (l.idx_lt a), hrest, hsub]
    abel

theorem Grown.slot {N : Multiset Nat} (hf : R.Fits (l :: l' :: ls)) (hs : R.Sound mem (l :: l' :: ls) pt)
    (ho : R.own (mem (R.slot pt (l.idx a))) = true) (hN : ∀ q ∈ N, q ∉ R.held mem (l :: l' :: ls) pt)
    (h : R.Grown mem (l' :: ls) (R.ptr (mem (R.slot pt (l.idx a)))) a N mem') (hi : i < l.size) :
    mem' (R.slot pt i) = mem (R.slot pt i) := by
  have hpt : R.pgsize ∣ pt := hs.aligned pt (Multiset.mem_cons_self ..)
  have hpage := page_slot hpt (hf l (mem_cons_self ..)) hi
  refine h.frame _ ?_ ?_
  · rw [hpage]
    exact hs.root_notMem (l.idx_lt a) ho
  · rw [hpage]
    exact fun hm => hN pt hm (Multiset.mem_cons_self ..)

theorem Grown.lift {N : Multiset Nat} (hf : R.Fits (l :: l' :: ls)) (hs : R.Sound mem (l :: l' :: ls) pt)
    (ho : R.own (mem (R.slot pt (l.idx a))) = true) (hN : ∀ q ∈ N, q ∉ R.held mem (l :: l' :: ls) pt)
    (h : R.Grown mem (l' :: ls) (R.ptr (mem (R.slot pt (l.idx a)))) a N mem') :
    R.Grown mem (l :: l' :: ls) pt a N mem' := by
  have hia := l.idx_lt a
  have hslot : ∀ i < l.size, mem' (R.slot pt i) = mem (R.slot pt i) := fun i hi => h.slot hf hs ho hN hi
  refine grown_of_entry hf hs (fun x hx => h.frame x fun hm => hx (mem_held_of_child hia ho hm))
    (fun i hi _ => hslot i hi) (fun i hi hne hoi x hx => ?_) ?_ fun b hb hst => ?_
  · exact h.frame x (hs.apart hi hia hne hoi ho hx) fun hm => hN _ hm (mem_held_of_child hi hoi hx)
  · rw [hslot _ hia, sub_own ho, sub_own ho, h.held]
  · simp only [Straight, Radix.value, walk, hb, hslot _ hia, if_pos ho] at hst ⊢
    obtain ⟨hfull, hst⟩ := hst (R.own_live _ ho)
    exact ⟨fun _ => ⟨hfull, h.straight b hst⟩, h.value b hst⟩

theorem not_own_of_dead (hw : R.live w = false) : ¬R.own w = true := fun ho => by
  have := R.own_live w ho
  rw [hw] at this
  cases this

theorem below_not_own (hn : ∀ l ∈ ls.head?, ∀ i < l.size, ¬R.own (mem (R.slot q i)) = true) : R.below mem ls q = 0 := by
  cases ls with
  | nil => rfl
  | cons l ls =>
    cases ls with
    | nil => rfl
    | cons l' ls =>
      rw [below_cons, bag_congr _ (g := fun _ => 0) fun i hi => sub_not_own (hn l rfl i (mem_range.mp hi))]
      simp [bag]

theorem value_dead (hd : R.live (mem (R.slot pt (l.idx b))) = false) :
    R.value mem (l :: l' :: ls) pt b = R.zero ∧ R.Straight mem (l :: l' :: ls) pt b := by
  refine ⟨?_, fun hl => ?_⟩
  · rw [value, walk, if_neg (not_own_of_dead hd)]
  · rw [hd] at hl
    cases hl

theorem value_zero (hz : ∀ l ∈ ls.head?, ∀ i < l.size, mem (R.slot q i) = R.zero) (b : A) :
    R.value mem ls q b = R.zero ∧ R.Straight mem ls q b := by
  cases ls with
  | nil => exact ⟨rfl, trivial⟩
  | cons l ls =>
    have hzb := hz l rfl (l.idx b) (l.idx_lt b)
    cases ls with
    | nil => exact ⟨hzb, trivial⟩
    | cons l' ls =>
      apply value_dead
      rw [hzb]
      exact R.zero_dead

/-- A page filled with zeros and hung into an entry that was not in use. -/
theorem grown_fresh (hf : R.Fits (l :: l' :: ls)) (hs : R.Sound mem (l :: l' :: ls) pt)
    (hdead : R.live (mem (R.slot pt (l.idx a))) = false) (hq : R.pgsize ∣ q)
    (hnew : q ∉ R.held mem (l :: l' :: ls) pt) (hw : R.full w = true) (hptr : R.ptr w = q)
    (hz : ∀ x, R.page x = q → mem' x = R.zero) (hset : mem' (R.slot pt (l.idx a)) = w)
    (heq : ∀ x, R.page x ≠ q → x ≠ R.slot pt (l.idx a) → mem' x = mem x) :
    R.Grown mem (l :: l' :: ls) pt a {q} mem' := by
  have hia := l.idx_lt a
  have hpt : R.pgsize ∣ pt := hs.aligned pt (Multiset.mem_cons_self ..)
  have hpq : pt ≠ q := fun he => hnew (he ▸ Multiset.mem_cons_self ..)
  have hpage : ∀ i < l.size, R.page (R.slot pt i) = pt := fun i hi => page_slot hpt (hf l (mem_cons_self ..)) hi
  have hzero : ∀ m ∈ (l' :: ls).head?, ∀ i < m.size, mem' (R.slot q i) = R.zero := fun m hm i hi => by
    cases hm
    exact hz _ (page_slot hq (hf l' (by simp)) hi)
  have hempty : R.below mem' (l' :: ls) q = 0 := below_not_own fun m hm i hi => by
    rw [hzero m hm i hi]
    exact not_own_of_dead R.zero_dead
  have hown := R.full_own w hw
  refine grown_of_entry hf hs (fun x hx hxq => ?_) (fun i hi hne => ?_) (fun i hi _ hoi x hx => ?_) ?_ fun b hb hst => ?_
  · refine heq x (fun he => hxq (he ▸ Multiset.mem_singleton_self q)) fun he => ?_
    rw [he, hpage _ hia] at hx
    exact hx (Multiset.mem_cons_self ..)
  · exact heq _ (by rw [hpage i hi]; exact hpq) fun he => hne (slot_inj he)
  · refine heq x (fun he => ?_) fun he => ?_
    · rw [he] at hx
      exact hnew (mem_held_of_child hi hoi hx)
    · rw [he, hpage _ hia] at hx
      exact hs.root_notMem hi hoi hx
  · rw [hset, sub_own hown, sub_not_own (not_own_of_dead hdead), Radix.held, hptr, hempty, zero_add, Multiset.cons_zero]
  · simp only [Straight, Radix.value, walk, hb, hset, hptr, if_pos hown, if_neg (not_own_of_dead hdead)]
    exact ⟨fun _ => ⟨hw, (value_zero hzero b).2⟩, (value_zero hzero b).1⟩

/-! ## Writing the entry of an address -/

theorem walk_own (hw : R.walk mem (l :: l' :: ls) pt a = some x) : R.own (mem (R.slot pt (l.idx a))) = true ∧
    R.walk mem (l' :: ls) (R.ptr (mem (R.slot pt (l.idx a)))) a = some x := by
  simp only [walk] at hw
  split at hw
  · next ho => exact ⟨ho, hw⟩
  · cases hw

theorem walk_same (h : ∀ l ∈ ls, l.idx b = l.idx a) : R.walk mem ls pt b = R.walk mem ls pt a := by
  induction ls generalizing pt with
  | nil => rfl
  | cons l ls ih =>
    obtain ⟨hl, h⟩ := forall_mem_cons.mp h
    cases ls with
    | nil => rw [walk, walk, hl]
    | cons l' ls =>
      simp only [walk, hl]
      rw [ih h]

/-- Two addresses with one entry have the same indices. -/
theorem walk_inj (hf : R.Fits ls) (hs : R.Sound mem ls pt) (ha : R.walk mem ls pt a = some x)
    (hb : R.walk mem ls pt b = some x) : ∀ l ∈ ls, l.idx b = l.idx a := by
  induction ls generalizing pt with
  | nil => exact fun l hl => absurd hl (not_mem_nil)
  | cons l ls ih =>
    cases ls with
    | nil =>
      cases ha
      intro m hm
      cases mem_singleton.mp hm
      exact slot_inj (Option.some.inj hb)
    | cons l' ls =>
      obtain ⟨hoa, ha⟩ := walk_own ha
      obtain ⟨hob, hb⟩ := walk_own hb
      have hia := l.idx_lt a
      have hib := l.idx_lt b
      have heq : l.idx b = l.idx a := by
        by_contra hne
        exact hs.apart hib hia hne hob hoa (walk_page hf.tail (hs.child hib hob) hb)
          (walk_page hf.tail (hs.child hia hoa) ha)
      rw [heq] at hb
      intro m hm
      rcases mem_cons.mp hm with rfl | hm
      · exact heq
      · exact ih hf.tail (hs.child hia hoa) ha hb m hm

theorem store_walk (hf : R.Fits ls) (hs : R.Sound mem ls pt) (ha : R.walk mem ls pt a = some x) (w : W) :
    R.Same mem (update mem x w) ls pt ∧
      ∀ l ∈ ls.head?, ∀ i < l.size, i ≠ l.idx a → update mem x w (R.slot pt i) = mem (R.slot pt i) := by
  induction ls generalizing pt with
  | nil => cases ha
  | cons l ls ih =>
    cases ls with
    | nil =>
      cases ha
      refine ⟨⟨rfl, fun _ => rfl, fun _ _ => trivial⟩, fun m hm i _ hne => ?_⟩
      cases hm
      exact update_of_ne (fun he => hne (slot_inj he)) ..
    | cons l' ls =>
      obtain ⟨hoa, ha⟩ := walk_own ha
      have hia := l.idx_lt a
      have hpt : R.pgsize ∣ pt := hs.aligned pt (Multiset.mem_cons_self ..)
      have hx := walk_page hf.tail (hs.child hia hoa) ha
      have hslot : ∀ i < l.size, update mem x w (R.slot pt i) = mem (R.slot pt i) := fun i hi => by
        refine update_of_ne (fun he => ?_) ..
        rw [← he, page_slot hpt (hf l (mem_cons_self ..)) hi] at hx
        exact hs.root_notMem hia hoa hx
      refine ⟨Same.table hslot fun i hi hoi => ?_, fun m hm i hi _ => ?_⟩
      · -- the written entry is below one child only
        by_cases hne : i = l.idx a
        · subst hne
          exact (ih hf.tail (hs.child hia hoa) ha).1
        · refine same_of_held hf.tail (hs.child hi hoi).aligned fun y hy => update_of_ne (fun he => ?_) ..
          rw [he] at hy
          exact hs.apart hi hia hne hoi hoa hy hx
      · cases hm
        exact hslot i hi

theorem value_store (hf : R.Fits ls) (hs : R.Sound mem ls pt) (ha : R.walk mem ls pt a = some x) (w : W) :
    (∀ b, (∀ l ∈ ls, l.idx b = l.idx a) → R.value (update mem x w) ls pt b = w) ∧
      ∀ b, (∃ l ∈ ls, l.idx b ≠ l.idx a) → R.value (update mem x w) ls pt b = R.value mem ls pt b := by
  have hwalk := (store_walk hf hs ha w).1.walk
  refine ⟨fun b hb => ?_, fun b hb => ?_⟩
  · rw [value, hwalk, walk_same hb, ha]
    exact update_self ..
  · rw [value, hwalk, value]
    cases hwb : R.walk mem ls pt b with
    | none => rfl
    | some y =>
      refine update_of_ne (fun he => ?_) ..
      obtain ⟨l, hl, hne⟩ := hb
      exact hne (walk_inj hf hs ha (he ▸ hwb) l hl)

-- unifying two uses of `below` must not run through the entries of a table
attribute [irreducible] below

end

end Radix

end NjuOs
