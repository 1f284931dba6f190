import NjuOs.X86Vme
import NjuOs.Radix

/-!
# What the x86-64 page tables translate

The tables of every address space hold what was mapped in it and nothing else; each table is in a page of
its own, so that no call on one space is seen in another one, and `unprotect` gives back exactly the pages
that the space has taken. The kernel is mapped in all of them, out of reach of user code.
-/

namespace NjuOs.X86

open Function List

/-! ## Bits -/

theorem and_mask (a s b : Nat) : a &&& ((2 ^ b - 1) * 2 ^ s) = a / 2 ^ s % 2 ^ b * 2 ^ s := by
  apply Nat.eq_of_testBit_eq
  intro i
  simp only [Nat.testBit_and, Nat.testBit_mul_two_pow, Nat.testBit_two_pow_sub_one, Nat.testBit_mod_two_pow,
    Nat.testBit_div_two_pow]
  by_cases hi : s ≤ i
  · rw [show i - s + s = i by omega]
    simp [hi, Bool.and_comm]
  · simp [hi]

theorem and_low (x : Nat) {b : Nat} (hb : b < 2 ^ 12) : x &&& b = x % 2 ^ 12 &&& b := by
  apply Nat.eq_of_testBit_eq
  intro i
  simp only [Nat.testBit_and, Nat.testBit_mod_two_pow]
  by_cases hi : i < 12
  · simp [hi]
  · rw [Nat.testBit_lt_two_pow (lt_of_lt_of_le hb (Nat.pow_le_pow_right (by decide) (by omega)))]
    simp

theorem or_flags {p f : Nat} (hp : p % pgsize = 0) (hf : f < 2 ^ 12) : p ||| f = p + f := by
  have h := Nat.two_pow_add_eq_or_of_lt hf (p / 2 ^ 12)
  have hp' : 2 ^ 12 * (p / 2 ^ 12) = p := by
    unfold pgsize at hp
    omega
  rw [hp'] at h
  exact h.symm

theorem flags_and {p f b : Nat} (hp : p % pgsize = 0) (hf : f < 2 ^ 12) (hb : b < 2 ^ 12) :
    (p ||| f) &&& b = f &&& b := by
  rw [or_flags hp hf, and_low _ hb, show (p + f) % 2 ^ 12 = f by unfold pgsize at hp; omega]

theorem baseof_eq {a : Nat} (h : a < 2 ^ 64) : baseof a = a / pgsize * pgsize := by
  have hmask : 2 ^ 64 - pgsize = (2 ^ 52 - 1) * 2 ^ 12 := rfl
  rw [baseof, hmask, and_mask, Nat.mod_eq_of_lt (by omega)]
  rfl

theorem baseof_flags {p f : Nat} (hp : p % pgsize = 0) (hlt : p < 2 ^ 64) (hf : f < 2 ^ 12) : baseof (p ||| f) = p := by
  rw [or_flags hp hf]
  unfold pgsize at hp
  rw [baseof_eq (by omega)]
  unfold pgsize
  omega

/-! ## Levels -/

def shifts : List Nat := [39, 30, 21, 12]

def ptinfo (s : Nat) : PtInfo := ⟨(2 ^ 9 - 1) * 2 ^ s, s, 9⟩

theorem pgtables_eq : pgtables = ⟨0, 0, 0⟩ :: shifts.map ptinfo := rfl

theorem indexof_eq (a s : Nat) : indexof a (ptinfo s) = a / 2 ^ s % 2 ^ 9 := by
  rw [indexof, ptinfo, and_mask, Nat.shiftRight_eq_div_pow, Nat.mul_div_cancel _ (Nat.two_pow_pos s)]

def level (s : Nat) : Level Nat where
  idx := fun a => indexof a (ptinfo s)
  size := 2 ^ 9
  idx_lt := fun a => by
    rw [indexof_eq]
    exact Nat.mod_lt _ (by decide)

theorem idx_eq (s a : Nat) : (level s).idx a = a / 2 ^ s % 2 ^ 9 := indexof_eq a s

/-- How the tables are read: what `teardown` follows has `PTE_P` and `PTE_U`. -/
def radix : Radix Nat where
  word := 8
  pgsize := pgsize
  zero := 0
  live := fun e => e &&& pteP ≠ 0
  own := fun e => e &&& pteP ≠ 0 ∧ e &&& pteU ≠ 0
  full := fun e => (e &&& pteP ≠ 0 ∧ e &&& pteU ≠ 0) ∧ e &&& pteW ≠ 0 ∧ e &&& ptePS = 0
  ptr := baseof
  word_pos := by decide
  zero_dead := rfl
  own_live := fun w h => by simp_all
  full_own := fun w h => by simp_all

theorem fits (ss : List Nat) : radix.Fits (ss.map level) := by
  intro l hl
  obtain ⟨s, -, rfl⟩ := mem_map.mp hl
  exact le_of_eq rfl

theorem radix_live {e : Nat} : radix.live e = true ↔ e &&& pteP ≠ 0 := decide_eq_true_iff

theorem radix_own {e : Nat} : radix.own e = true ↔ e &&& pteP ≠ 0 ∧ e &&& pteU ≠ 0 := decide_eq_true_iff

theorem radix_full {e : Nat} : radix.full e = true ↔
    (e &&& pteP ≠ 0 ∧ e &&& pteU ≠ 0) ∧ e &&& pteW ≠ 0 ∧ e &&& ptePS = 0 := decide_eq_true_iff

theorem aligned_iff {q : Nat} : radix.pgsize ∣ q ↔ q % pgsize = 0 := Nat.dvd_iff_mod_eq_zero

theorem dir_entry {q : Nat} (hq : q % pgsize = 0) (hlt : q < 2 ^ 64) :
    radix.full (q ||| pteP ||| (pteW ||| pteU)) = true ∧ baseof (q ||| pteP ||| (pteW ||| pteU)) = q := by
  rw [Nat.or_assoc]
  refine ⟨radix_full.mpr ?_, baseof_flags hq hlt (by decide)⟩
  rw [flags_and hq (by decide) (by decide), flags_and hq (by decide) (by decide), flags_and hq (by decide) (by decide),
    flags_and hq (by decide) (by decide)]
  decide

/-! ## Walking -/

section
variable {va pt e : Nat} {v v' : Vm} {ss pages pages' : List Nat}

theorem page_iff {q x : Nat} (hq : q % pgsize = 0) : radix.page x = q ↔ q ≤ x ∧ x < q + pgsize := by
  show x / pgsize * pgsize = q ↔ _
  unfold pgsize at *
  omega

structure Spare (mem : Nat → Nat) (ss : List Nat) (pt : Nat) (pages : List Nat) : Prop where
  nodup : pages.Nodup
  aligned : ∀ p ∈ pages, p % pgsize = 0 ∧ p < 2 ^ 64
  fresh : ∀ p ∈ pages, p ∉ radix.held mem (ss.map level) pt

structure Walked (va : Nat) (ss : List Nat) (pt : Nat) (v v' : Vm) (e : Nat) (new : List Nat) : Prop where
  grown : radix.Grown v.mem (ss.map level) pt va new v'.mem
  walk : radix.walk v'.mem (ss.map level) pt va = some e
  used : (v'.used : Multiset Nat) = new + v.used
  kpt : v'.kpt = v.kpt

theorem Walked.lift {s s' : Nat} {new : List Nat} (hs : radix.Sound v.mem ((s :: s' :: ss).map level) pt)
    (ho : radix.own (v.mem (radix.slot pt ((level s).idx va))) = true)
    (hnew : ∀ p ∈ new, p ∉ radix.held v.mem ((s :: s' :: ss).map level) pt)
    (h : Walked va (s' :: ss) (radix.ptr (v.mem (radix.slot pt ((level s).idx va)))) v v' e new) :
    Walked va (s :: s' :: ss) pt v v' e new := by
  have hf := fits (s :: s' :: ss)
  have hN : ∀ p ∈ (new : Multiset Nat), p ∉ radix.held v.mem ((s :: s' :: ss).map level) pt := fun p hp =>
    hnew p (Multiset.mem_coe.mp hp)
  refine ⟨h.grown.lift hf hs ho hN, ?_, h.used, h.kpt⟩
  show (if radix.own (v'.mem (radix.slot pt ((level s).idx va))) = true then _ else _) = _
  rw [h.grown.slot hf hs ho hN ((level s).idx_lt va), if_pos ho]
  exact h.walk

def newTable (v : Vm) (slot q : Nat) : Vm :=
  Vm.store { v with mem := fun a => if q ≤ a ∧ a < q + pgsize then 0 else v.mem a, used := q :: v.used } slot
    (q ||| pteP ||| (pteW ||| pteU))

theorem newTable_grown {s s' q : Nat} (hs : radix.Sound v.mem ((s :: s' :: ss).map level) pt)
    (hp : v.mem (radix.slot pt ((level s).idx va)) &&& pteP = 0) (hq : q % pgsize = 0) (hlt : q < 2 ^ 64)
    (hqn : q ∉ radix.held v.mem ((s :: s' :: ss).map level) pt) :
    radix.Grown v.mem ((s :: s' :: ss).map level) pt va {q} (newTable v (radix.slot pt ((level s).idx va)) q).mem := by
  have hf := fits (s :: s' :: ss)
  have hia := (level s).idx_lt va
  obtain ⟨hfull, hbase⟩ := dir_entry hq hlt
  have hslot : radix.page (radix.slot pt ((level s).idx va)) = pt :=
    Radix.page_slot (hs.aligned pt (Multiset.mem_cons_self ..)) (hf _ (mem_cons_self ..)) hia
  have hpq : pt ≠ q := fun he => hqn (he ▸ Multiset.mem_cons_self ..)
  refine Radix.grown_fresh hf hs ?_ (aligned_iff.mpr hq) hqn hfull hbase ?_ ?_ ?_
  · rw [Bool.eq_false_iff]
    exact fun hl => radix_live.mp hl hp
  · intro x hx
    have hne : x ≠ radix.slot pt ((level s).idx va) := fun he => hpq (by rw [← hslot, ← he, hx])
    exact (update_of_ne hne ..).trans (if_pos ((page_iff hq).mp hx))
  · exact update_self ..
  · intro x hx hne
    exact (update_of_ne hne ..).trans (if_neg fun h => hx ((page_iff hq).mpr h))

theorem ptwalk_walked : ∀ {ss : List Nat} {pt : Nat} {v : Vm} {pages : List Nat},
    radix.Sound v.mem (ss.map level) pt → radix.Straight v.mem (ss.map level) pt va → Spare v.mem ss pt pages →
    ptwalk va (pteW ||| pteU) (ss.map ptinfo) pt v pages = .ok (v', e, pages') →
    ∃ new, pages = new ++ pages' ∧ Walked va ss pt v v' e new
  | [], _, _, _, _, _, _, h => by cases h
  | [s], pt, v, pages, _, _, _, h => by
    cases h
    exact ⟨[], rfl, Radix.Grown.refl .., rfl, by simp, rfl⟩
  | s :: s' :: ss, pt, v, pages, hs, hst, hsp, h => by
    have hia := (level s).idx_lt va
    have hentry : (if v.mem (radix.slot pt ((level s).idx va)) &&& pteP = 0 then
        pgallocz v pages >>= fun r => ptwalk va (pteW ||| pteU) ((s' :: ss).map ptinfo) r.2.1
          (r.1.store (radix.slot pt ((level s).idx va)) (r.2.1 ||| pteP ||| (pteW ||| pteU))) r.2.2
        else ptwalk va (pteW ||| pteU) ((s' :: ss).map ptinfo) (baseof (v.mem (radix.slot pt ((level s).idx va)))) v
          pages) = .ok (v', e, pages') := h
    by_cases hp : v.mem (radix.slot pt ((level s).idx va)) &&& pteP = 0
    · rw [if_pos hp] at hentry
      cases pages with
      | nil => cases hentry
      | cons q pages =>
        obtain ⟨hq, hlt⟩ := hsp.aligned q (mem_cons_self ..)
        obtain ⟨hqp, hnd⟩ := nodup_cons.mp hsp.nodup
        have hqn := hsp.fresh q (mem_cons_self ..)
        obtain ⟨hfull, hbase⟩ := dir_entry hq hlt
        have hg := newTable_grown hs hp hq hlt hqn
        obtain ⟨v1, hv1⟩ : ∃ v1, v1 = newTable v (radix.slot pt ((level s).idx va)) q := ⟨_, rfl⟩
        rw [← hv1] at hg
        have hset : v1.mem (radix.slot pt ((level s).idx va)) = q ||| pteP ||| (pteW ||| pteU) := by
          rw [hv1]
          exact update_self ..
        have hs1 : radix.Sound v1.mem ((s :: s' :: ss).map level) pt :=
          hg.sound hs (Multiset.nodup_singleton q) fun p hp => by
            cases Multiset.mem_singleton.mp hp
            exact ⟨hqn, aligned_iff.mpr hq⟩
        have ho : radix.own (v1.mem (radix.slot pt ((level s).idx va))) = true := by
          rw [hset]
          exact radix.full_own _ hfull
        have hptr : radix.ptr (v1.mem (radix.slot pt ((level s).idx va))) = q := by
          rw [hset]
          exact hbase
        have hfresh : ∀ p ∈ pages, p ∉ radix.held v1.mem ((s :: s' :: ss).map level) pt := fun p hp hm => by
          rw [hg.held] at hm
          rcases Multiset.mem_add.mp hm with hm | hm
          · exact hsp.fresh p (mem_cons_of_mem q hp) hm
          · exact hqp (Multiset.mem_singleton.mp hm ▸ hp)
        have hst' := (hg.straight va hst (radix_live.mpr (radix_own.mp ho).1)).2
        have hsp' : Spare v1.mem (s' :: ss) (radix.ptr (v1.mem (radix.slot pt ((level s).idx va)))) pages :=
          ⟨hnd, fun p hp => hsp.aligned p (mem_cons_of_mem q hp), fun p hp hm =>
            hfresh p hp (Radix.mem_held_of_child hia ho hm)⟩
        have hrest : ptwalk va (pteW ||| pteU) ((s' :: ss).map ptinfo)
            (radix.ptr (v1.mem (radix.slot pt ((level s).idx va)))) v1 pages = .ok (v', e, pages') := by
          rw [hptr, hv1]
          exact hentry
        obtain ⟨new, rfl, hw⟩ := ptwalk_walked (hs1.child hia ho) hst' hsp' hrest
        have hw := hw.lift hs1 ho fun p hp => hfresh p (mem_append_left _ hp)
        refine ⟨q :: new, rfl, hg.trans hw.grown, hw.walk, ?_, ?_⟩
        · rw [hw.used, hv1]
          show (new : Multiset Nat) + (q :: v.used : List Nat) = ((q :: new : List Nat) : Multiset Nat) + v.used
          rw [← Multiset.cons_coe, ← Multiset.cons_coe, Multiset.add_cons, Multiset.cons_add]
        · rw [hw.kpt, hv1]
          rfl
    · rw [if_neg hp] at hentry
      obtain ⟨hfull, hchild⟩ := hst (radix_live.mpr hp)
      have ho := radix.full_own _ hfull
      have hsp' : Spare v.mem (s' :: ss) (baseof (v.mem (radix.slot pt ((level s).idx va)))) pages :=
        ⟨hsp.nodup, hsp.aligned, fun p hpp hm => hsp.fresh p hpp (Radix.mem_held_of_child hia ho hm)⟩
      obtain ⟨new, rfl, hw⟩ := ptwalk_walked (hs.child hia ho) hchild hsp' hentry
      exact ⟨new, rfl, hw.lift hs ho fun p hp => hsp.fresh p (mem_append_left _ hp)⟩

/-- One page for each level is enough. -/
theorem ptwalk_total : ∀ {ss : List Nat} {pt : Nat} {v : Vm} {pages : List Nat}, ss ≠ [] →
    ss.length ≤ pages.length + 1 → ∃ r, ptwalk va (pteW ||| pteU) (ss.map ptinfo) pt v pages = .ok r
  | [], _, _, _, hne, _ => absurd rfl hne
  | [s], pt, v, pages, _, _ => ⟨_, rfl⟩
  | s :: s' :: ss, pt, v, pages, _, hlen => by
    show ∃ r : Vm × Nat × List Nat, (if v.mem (pt + indexof va (ptinfo s) * 8) &&& pteP = 0 then _ else _) = Except.ok r
    by_cases hp : v.mem (pt + indexof va (ptinfo s) * 8) &&& pteP = 0
    · rw [if_pos hp]
      cases pages with
      | nil => simp at hlen
      | cons q pages => exact ptwalk_total (cons_ne_nil s' ss) (Nat.le_of_succ_le_succ hlen)
    · rw [if_neg hp]
      exact ptwalk_total (cons_ne_nil s' ss) (Nat.le_of_succ_le hlen)

end

/-! ## Tearing down -/

structure Freed (v : Vm) (N : Multiset Nat) (v' : Vm) : Prop where
  mem : v'.mem = v.mem
  kpt : v'.kpt = v.kpt
  used : (v.used : Multiset Nat) = N + v'.used

section
variable {N N' : Multiset Nat} {v v' v'' : Vm} {f : Nat → Multiset Nat} {m : Nat → Nat} {pt lvl s : Nat}
  {infos : List PtInfo}

theorem Freed.refl (v : Vm) : Freed v 0 v := ⟨rfl, rfl, (zero_add _).symm⟩

theorem Freed.trans (h : Freed v N v') (h' : Freed v' N' v'') : Freed v (N + N') v'' :=
  ⟨h'.mem.trans h.mem, h'.kpt.trans h.kpt, by rw [h.used, h'.used, add_assoc]⟩

theorem Freed.rest (h : Freed v N v') (hle : N + N' ≤ v.used) : N' ≤ v'.used := by
  rw [h.used] at hle
  exact le_of_add_le_add_left hle

theorem pgfree_freed {p : Nat} (h : p ∈ v.used) : ∃ v', pgfree v p = .ok v' ∧ Freed v {p} v' := by
  refine ⟨_, if_pos h, rfl, rfl, ?_⟩
  rw [coe_eq_cons_erase h, ← Multiset.singleton_add]

theorem foldlM_freed {g : Vm → Nat → Except Halt Vm}
    (hg : ∀ v i, v.mem = m → f i ≤ v.used → ∃ v', g v i = .ok v' ∧ Freed v (f i) v') :
    ∀ (is : List Nat) (v : Vm), v.mem = m → bag f is ≤ v.used → ∃ v', is.foldlM g v = .ok v' ∧ Freed v (bag f is) v'
  | [], v, _, _ => ⟨v, rfl, Freed.refl v⟩
  | i :: is, v, hm, hle => by
    rw [bag_cons] at hle ⊢
    obtain ⟨v1, h1, hf1⟩ := hg v i hm (le_trans (Multiset.le_add_right ..) hle)
    obtain ⟨v2, h2, hf2⟩ := foldlM_freed hg is v1 (hf1.mem.trans hm) (hf1.rest hle)
    refine ⟨v2, ?_, hf1.trans hf2⟩
    rw [foldlM_cons, h1]
    exact h2

/-- One table: the pages below its entries, then its own. -/
theorem teardown_table {is : List Nat} (his : List.range (2 ^ 9) = is) (hlvl : 1 ≤ lvl) (hle : bag f is + {pt} ≤ v.used)
    (hchild : ∀ v' i, v'.mem = v.mem → radix.own (v.mem (radix.slot pt i)) = true → f i ≤ v'.used →
      ∃ v'', teardown (lvl + 1) infos (radix.ptr (v.mem (radix.slot pt i))) v' = .ok v'' ∧ Freed v' (f i) v'')
    (hnone : ∀ i, ¬radix.own (v.mem (radix.slot pt i)) = true → f i = 0) :
    ∃ v', teardown lvl (ptinfo s :: infos) pt v = .ok v' ∧ Freed v (bag f is + {pt}) v' := by
  obtain ⟨g, hg⟩ : ∃ g : Vm → Nat → Except Halt Vm, g = fun v index =>
      let e := v.mem (pt + index * 8)
      if e &&& pteP ≠ 0 ∧ e &&& pteU ≠ 0 then teardown (lvl + 1) infos (baseof e) v else .ok v := ⟨_, rfl⟩
  have hstep : ∀ v' i, v'.mem = v.mem → f i ≤ v'.used → ∃ v'', g v' i = .ok v'' ∧ Freed v' (f i) v'' := by
    intro v' i hm hle
    by_cases ho : radix.own (v.mem (radix.slot pt i)) = true
    · obtain ⟨v'', h, hf⟩ := hchild v' i hm ho hle
      refine ⟨v'', ?_, hf⟩
      rw [hg, ← h, ← hm]
      rw [← hm] at ho
      exact if_pos (radix_own.mp ho)
    · rw [hnone i ho]
      refine ⟨v', ?_, Freed.refl v'⟩
      rw [← hm] at ho
      rw [hg]
      exact if_neg fun h => ho (radix_own.mpr h)
  obtain ⟨v1, h1, hf1⟩ := foldlM_freed hstep is v rfl (le_trans (Multiset.le_add_right ..) hle)
  obtain ⟨v2, h2, hf2⟩ := pgfree_freed (Multiset.singleton_le.mp (hf1.rest hle))
  refine ⟨v2, ?_, hf1.trans hf2⟩
  rw [hg] at h1
  rw [← h2, teardown, ptinfo, his, h1]
  exact if_pos hlvl

theorem teardown_freed : ∀ {ss : List Nat} {lvl pt : Nat} {v : Vm}, ss ≠ [] → 1 ≤ lvl →
    radix.held v.mem (ss.map level) pt ≤ v.used →
    ∃ v', teardown lvl (ss.map ptinfo) pt v = .ok v' ∧ Freed v (radix.held v.mem (ss.map level) pt) v'
  | [], _, _, _, hne, _, _ => absurd rfl hne
  | [s], lvl, pt, v, _, hlvl, hle => by
    obtain ⟨is, his⟩ : ∃ is, List.range (2 ^ 9) = is := ⟨_, rfl⟩
    have hheld : radix.held v.mem ([s].map level) pt = bag (fun _ => 0) is + {pt} := by
      simp [Radix.held, Radix.below_last, bag]
    rw [hheld] at hle ⊢
    exact teardown_table his hlvl hle (fun v' _ _ _ _ => ⟨v', rfl, Freed.refl v'⟩) fun _ _ => rfl
  | s :: s' :: ss, lvl, pt, v, _, hlvl, hle => by
    obtain ⟨is, his⟩ : ∃ is, List.range (level s).size = is := ⟨_, rfl⟩
    have hheld : radix.held v.mem ((s :: s' :: ss).map level) pt =
        bag (fun i => radix.sub v.mem ((s' :: ss).map level) (v.mem (radix.slot pt i))) is + {pt} := by
      rw [add_comm, Multiset.singleton_add, ← his]
      exact congrArg (pt ::ₘ ·) Radix.below_cons
    rw [hheld] at hle ⊢
    refine teardown_table his hlvl hle (fun v' i hm ho hlei => ?_) fun i ho => Radix.sub_not_own ho
    rw [Radix.sub_own ho, ← hm] at hlei ⊢
    exact teardown_freed (cons_ne_nil s' ss) (Nat.le_succ_of_le hlvl) hlei

end

/-! ## The walk of the CPU -/

def leaf (va : Nat) (user write : Bool) (e : Nat) : Option Access :=
  if e &&& pteP = 0 then none
  else some ⟨e / pgsize * pgsize + va % pgsize, user && decide (e &&& pteU ≠ 0), write && decide (e &&& pteW ≠ 0)⟩

theorem leaf_zero (va : Nat) (user write : Bool) : leaf va user write 0 = none := if_pos (Nat.zero_and pteP)

section
variable {mem : Nat → Nat} {va s : Nat} {user write : Bool} {infos : List PtInfo}

theorem walkFrom_cons {pt e : Nat} (he : mem (radix.slot pt ((level s).idx va)) = e) :
    walkFrom mem va (ptinfo s :: infos) pt user write =
      if e &&& pteP = 0 then none
      else if infos.isEmpty ∨ e &&& ptePS ≠ 0 then
        some ⟨e / 2 ^ s * 2 ^ s + va % 2 ^ s, user && decide (e &&& pteU ≠ 0), write && decide (e &&& pteW ≠ 0)⟩
      else walkFrom mem va infos (baseof e) (user && decide (e &&& pteU ≠ 0)) (write && decide (e &&& pteW ≠ 0)) := by
  rw [← he]
  rfl

/-- The entries on the way take nothing away from the last one. -/
theorem walkFrom_straight : ∀ {ss : List Nat} {pt : Nat}, radix.Straight mem ((ss ++ [12]).map level) pt va →
    walkFrom mem va ((ss ++ [12]).map ptinfo) pt user write =
      leaf va user write (radix.value mem ((ss ++ [12]).map level) pt va)
  | [], _, _ => rfl
  | s :: ss, pt, h => by
    obtain ⟨s', ss', hss⟩ : ∃ s' ss', ss ++ [12] = s' :: ss' := exists_cons_of_ne_nil (by simp)
    have ih : ∀ pt, radix.Straight mem ((ss ++ [12]).map level) pt va →
        walkFrom mem va ((ss ++ [12]).map ptinfo) pt user write =
          leaf va user write (radix.value mem ((ss ++ [12]).map level) pt va) := fun _ => walkFrom_straight
    rw [cons_append, hss] at h ⊢
    rw [hss] at ih
    obtain ⟨e, he⟩ : ∃ e, mem (radix.slot pt ((level s).idx va)) = e := ⟨_, rfl⟩
    simp only [map_cons, Radix.Straight, he] at h ih
    simp only [map_cons, Radix.value, Radix.walk, he]
    rw [walkFrom_cons he]
    by_cases hl : e &&& pteP = 0
    · rw [if_pos hl, if_neg fun ho => (radix_own.mp ho).1 hl]
      exact (leaf_zero va user write).symm
    · obtain ⟨hfull, h⟩ := h (radix_live.mpr hl)
      obtain ⟨⟨-, hu⟩, hw, hps⟩ := radix_full.mp hfull
      rw [if_neg hl, if_pos (radix.full_own _ hfull), if_neg (by simp [hps]), decide_eq_true hu, decide_eq_true hw,
        Bool.and_true, Bool.and_true]
      exact ih _ h

end

end NjuOs.X86
