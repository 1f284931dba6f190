import Mathlib.Data.List.GetD
import NjuOs.Forest
import NjuOs.Pstree

/-!
# The printed tree

`build_tree` gives every process that is not a root to one parent, so what is below the
roots is a forest even if the parents of other processes form cycles. Sorting and printing
go through it once, along chains that are no longer than the table.
-/

namespace NjuOs

open Function List

/-! ## The forest of a snapshot -/

section
variable (procs : List Proc)

def IsChild (p c : Nat) : Prop :=
  p < procs.length ∧ c < procs.length ∧ (procAt procs p).pid = (procAt procs c).ppid ∧
    (procAt procs c).ppid ≠ (procAt procs c).pid

def IsRoot (i : Nat) : Prop :=
  i < procs.length ∧ ((∀ p < procs.length, (procAt procs p).pid ≠ (procAt procs i).ppid) ∨
    (procAt procs i).ppid = (procAt procs i).pid)

inductive LeadsToRoot : Nat → Prop
  | root {i : Nat} : IsRoot procs i → LeadsToRoot i
  | child {p i : Nat} : IsChild procs p i → LeadsToRoot p → LeadsToRoot i

def sortKey (numeric : Bool) (i : Nat) : List Nat ×ₗ Int :=
  toLex (if numeric then [] else (procAt procs i).name.map UInt8.toNat, (procAt procs i).pid)

def IsLine (o : PsOpts) (l : PsLine) : Prop :=
  ∃ pre isLast isRoot, (isRoot = true ↔ IsRoot procs l.idx) ∧ l = psLine procs o l.idx pre isLast isRoot

def parentOf (i : Nat) : Option Nat :=
  if i < procs.length ∧ (procAt procs i).ppid ≠ (procAt procs i).pid then findIndex procs (procAt procs i).ppid
  else none

end

section
variable {procs : List Proc}

theorem procAt_eq {i : Nat} (hi : i < procs.length) : procAt procs i = procs[i] := getD_eq_getElem _ _ hi

theorem findIndex_eq_some (hpids : (procs.map Proc.pid).Nodup) {pid : Int} {p : Nat} :
    findIndex procs pid = some p ↔ p < procs.length ∧ (procAt procs p).pid = pid := by
  unfold findIndex
  rw [findIdx?_eq_some_iff_getElem]
  constructor
  · rintro ⟨hp, heq, -⟩
    rw [procAt_eq hp]
    exact ⟨hp, of_decide_eq_true heq⟩
  · rintro ⟨hp, heq⟩
    rw [procAt_eq hp] at heq
    refine ⟨hp, decide_eq_true heq, fun j hj hj' => ?_⟩
    -- a second process with this pid
    have hpid : procs[j].pid = procs[p].pid := (of_decide_eq_true hj').trans heq.symm
    have hsame := inj_on_of_nodup_map hpids (getElem_mem _) (getElem_mem hp) hpid
    exact Nat.ne_of_lt hj (hpids.of_map.getElem_inj_iff.mp hsame)

theorem linkProc_eq {i : Nat} (hi : i < procs.length) (t : (Nat → List Nat) × List Nat) :
    linkProc procs t i = match parentOf procs i with
      | some p => (addChild t.1 p i, t.2)
      | none => (t.1, t.2 ++ [i]) := by
  unfold linkProc parentOf
  by_cases hself : (procAt procs i).ppid = (procAt procs i).pid
  · rw [if_neg fun h => h.2 hself]
    cases findIndex procs (procAt procs i).ppid with
    | none => rfl
    | some p => simp [hself]
  · rw [if_pos ⟨hi, hself⟩]
    cases findIndex procs (procAt procs i).ppid with
    | none => rfl
    | some p => simp [hself]

variable (procs) in
def childList (p : Nat) : List Nat := (List.range procs.length).filter fun i => parentOf procs i = some p

variable (procs) in
def rootList : List Nat := (List.range procs.length).filter fun i => parentOf procs i = none

theorem linkProcs_eq (k : Nat) (hk : k ≤ procs.length) :
    (List.range k).foldl (linkProc procs) (fun _ => [], []) =
      (fun p => (List.range k).filter fun i => parentOf procs i = some p,
        (List.range k).filter fun i => parentOf procs i = none) := by
  induction k with
  | zero => rfl
  | succ k ih =>
    rw [range_succ, foldl_append, ih (Nat.le_of_succ_le hk), foldl_cons, foldl_nil, linkProc_eq hk]
    simp only [filter_append]
    cases hp : parentOf procs k with
    | none => simp [hp]
    | some p =>
      simp only [addChild, Prod.mk.injEq]
      refine ⟨?_, by simp [hp]⟩
      funext q
      by_cases hq : q = p
      · simp [hq, hp]
      · simp [hq, hp, Ne.symm hq]

theorem buildTree_eq : buildTree procs = (childList procs, rootList procs) := linkProcs_eq procs.length (Nat.le_refl _)

theorem parentOf_eq_some (hpids : (procs.map Proc.pid).Nodup) {p c : Nat} :
    parentOf procs c = some p ↔ IsChild procs p c := by
  unfold parentOf IsChild
  split
  next h =>
    rw [findIndex_eq_some hpids]
    tauto
  next h =>
    simp only [reduceCtorEq, false_iff]
    tauto

theorem parentOf_eq_none {i : Nat} (hi : i < procs.length) : parentOf procs i = none ↔ IsRoot procs i := by
  have hnone : findIndex procs (procAt procs i).ppid = none ↔
      ∀ p < procs.length, (procAt procs p).pid ≠ (procAt procs i).ppid := by
    unfold findIndex
    rw [findIdx?_eq_none_iff]
    constructor
    · intro h p hp heq
      have hno := h procs[p] (getElem_mem hp)
      rw [procAt_eq hp] at heq
      rw [decide_eq_true heq] at hno
      cases hno
    · intro h q hq
      obtain ⟨p, hp, rfl⟩ := mem_iff_getElem.mp hq
      have hne := h p hp
      rw [procAt_eq hp] at hne
      exact decide_eq_false hne
  unfold parentOf IsRoot
  by_cases hself : (procAt procs i).ppid = (procAt procs i).pid
  · rw [if_neg fun h => h.2 hself]
    exact iff_of_true rfl ⟨hi, Or.inr hself⟩
  · rw [if_pos ⟨hi, hself⟩, hnone]
    tauto

/-! ## Order -/

theorem i32_pids (p q : Proc) : i32 (p.pid - q.pid) = p.pid - q.pid := by
  have := p.pid_nonneg
  have := p.pid_lt
  have := q.pid_nonneg
  have := q.pid_lt
  unfold i32
  omega

theorem strcmp_spec : ∀ {a b : List UInt8}, 0 ∉ a → 0 ∉ b →
    (strcmp a b < 0 ↔ a.map UInt8.toNat < b.map UInt8.toNat) ∧
      (strcmp a b = 0 ↔ a.map UInt8.toNat = b.map UInt8.toNat)
  | [], [], _, _ => by simp [strcmp]
  | [], b :: bs, _, hb => by
    have hpos : b.toNat ≠ 0 := by
      intro h
      obtain rfl : b = 0 := UInt8.toNat_inj.mp h
      exact hb mem_cons_self
    simp only [strcmp, map_nil, map_cons, nil_lt_cons, reduceCtorEq, iff_true, iff_false]
    omega
  | a :: as, [], ha, _ => by
    have hpos : a.toNat ≠ 0 := by
      intro h
      obtain rfl : a = 0 := UInt8.toNat_inj.mp h
      exact ha mem_cons_self
    simp only [strcmp, map_nil, map_cons, not_lt_nil, reduceCtorEq, iff_false]
    omega
  | a :: as, b :: bs, ha, hb => by
    have ih := strcmp_spec (fun h => ha (mem_cons_of_mem _ h)) fun h => hb (mem_cons_of_mem _ h)
    rw [strcmp]
    by_cases hab : a = b
    · rw [if_pos hab, hab, map_cons, map_cons, cons_lt_cons_iff, List.cons.injEq]
      simp [ih]
    · have hne : a.toNat ≠ b.toNat := fun h => hab (UInt8.toNat_inj.mp h)
      rw [if_neg hab, map_cons, map_cons, cons_lt_cons_iff, List.cons.injEq]
      omega

theorem cmpBy_le (numeric : Bool) (a b : Nat) :
    cmpBy procs numeric a b ≤ 0 ↔ sortKey procs numeric a ≤ sortKey procs numeric b := by
  obtain ⟨hlt, heq⟩ := strcmp_spec (procAt procs a).name_nul (procAt procs b).name_nul
  unfold cmpBy sortKey
  rw [Prod.Lex.toLex_le_toLex]
  cases numeric with
  | true =>
    simp only [if_true, cmpByPid, i32_pids]
    simp
  | false =>
    simp only [cmpByName, i32_pids, Bool.false_eq_true, if_false]
    by_cases hc : strcmp (procAt procs a).name (procAt procs b).name = 0
    · rw [if_neg (not_not.mpr hc), heq.mp hc]
      simp
    · rw [if_pos hc, ← hlt, ← heq]
      omega

section
variable (procs) (numeric : Bool)

instance : Std.Total fun a b => cmpBy procs numeric a b ≤ 0 :=
  ⟨fun a b => by simpa only [cmpBy_le] using le_total (sortKey procs numeric a) (sortKey procs numeric b)⟩

instance : IsTrans Nat fun a b => cmpBy procs numeric a b ≤ 0 :=
  ⟨fun a b c => by simpa only [cmpBy_le] using le_trans (a := sortKey procs numeric a)⟩

def kidList (p : Nat) : List Nat := qsort (cmpBy procs numeric) (childList procs p)

end

theorem qsort_sorted (numeric : Bool) (l : List Nat) :
    (qsort (cmpBy procs numeric) l).Pairwise fun a b => cmpBy procs numeric a b ≤ 0 :=
  pairwise_insertionSort _ l

theorem mem_qsort {cmp : Nat → Nat → Int} {l : List Nat} {i : Nat} : i ∈ qsort cmp l ↔ i ∈ l :=
  mem_insertionSort _

theorem qsort_strict (hpids : (procs.map Proc.pid).Nodup) (numeric : Bool) {l : List Nat} (hl : l.Nodup)
    (hlt : ∀ i ∈ l, i < procs.length) :
    (qsort (cmpBy procs numeric) l).Pairwise fun a b => sortKey procs numeric a < sortKey procs numeric b := by
  have hn : (qsort (cmpBy procs numeric) l).Nodup := (perm_insertionSort _ l).nodup_iff.mpr hl
  refine ((qsort_sorted numeric l).and hn).imp_of_mem fun {a b} ha hb h => ?_
  refine lt_of_le_of_ne ((cmpBy_le numeric a b).mp h.1) fun hkey => h.2 ?_
  have hpid : (procAt procs a).pid = (procAt procs b).pid := congrArg (fun k => (ofLex k).2) hkey
  have ha := hlt a (mem_qsort.mp ha)
  have hb := hlt b (mem_qsort.mp hb)
  rw [procAt_eq ha, procAt_eq hb] at hpid
  have hsame := inj_on_of_nodup_map hpids (getElem_mem ha) (getElem_mem hb) hpid
  exact hpids.of_map.getElem_inj_iff.mp hsame

theorem nodup_of_keys {numeric : Bool} {l : List Nat}
    (h : l.Pairwise (sortKey procs numeric · < sortKey procs numeric ·)) : l.Nodup := by
  apply h.imp
  intro a b hlt heq
  subst b
  exact lt_irrefl _ hlt

theorem parentOf_lt {p c : Nat} (h : parentOf procs c = some p) : c < procs.length := by
  unfold parentOf at h
  split at h
  next hc => exact hc.1
  next => cases h

theorem mem_kidList {numeric : Bool} {p c : Nat} : c ∈ kidList procs numeric p ↔ parentOf procs c = some p := by
  rw [kidList, mem_qsort, childList, mem_filter, mem_range, decide_eq_true_eq]
  exact and_iff_right_of_imp parentOf_lt

/-- The nodes that the loops over the children of `p` go to. -/
theorem parentOf_kid {numeric : Bool} {p i : Nat} (hi : i < (kidList procs numeric p).length) :
    parentOf procs ((kidList procs numeric p).getD i 0) = some p := by
  rw [getD_eq_getElem _ _ hi]
  exact mem_kidList.mp (getElem_mem hi)

theorem depth_lt (hpids : (procs.map Proc.pid).Nodup) {i k : Nat} (h : Depth (parentOf procs) i k)
    (hi : i < procs.length) : k < procs.length := by
  have hup : ∀ x ∈ Finset.range procs.length, ∀ p, parentOf procs x = some p → p ∈ Finset.range procs.length := by
    intro x _ p hp
    exact Finset.mem_range.mpr ((parentOf_eq_some hpids).mp hp).1
  have hlt := h.lt_card hup (Finset.mem_range.mpr hi)
  rwa [Finset.card_range] at hlt

/-! ## Sorting -/

variable (procs) in
def PartlySorted (numeric : Bool) (children : Nat → List Nat) : Prop :=
  ∀ p, children p = childList procs p ∨ children p = kidList procs numeric p

variable (procs) in
def StaysSorted (numeric : Bool) (children children' : Nat → List Nat) : Prop :=
  ∀ p, children p = kidList procs numeric p → children' p = kidList procs numeric p

variable (procs) in
def SortsTree (numeric : Bool) (idx : Nat) (children : Nat → List Nat) (r : Option (Nat → List Nat)) : Prop :=
  ∃ children', r = some children' ∧ PartlySorted procs numeric children' ∧
    StaysSorted procs numeric children children' ∧
    ∀ x, Below (parentOf procs) idx x → children' x = kidList procs numeric x

theorem sort_trees (numeric : Bool) {α : Type} {f : (Nat → List Nat) → α → Option (Nat → List Nat)} (node : α → Nat)
    (start : Nat → List Nat) : ∀ (l : List α) (children : Nat → List Nat),
    (∀ a ∈ l, ∀ children, PartlySorted procs numeric children → StaysSorted procs numeric start children →
      SortsTree procs numeric (node a) children (f children a)) →
    PartlySorted procs numeric children → StaysSorted procs numeric start children →
    ∃ children', l.foldlM f children = some children' ∧ PartlySorted procs numeric children' ∧
      StaysSorted procs numeric children children' ∧
      ∀ a ∈ l, ∀ x, Below (parentOf procs) (node a) x → children' x = kidList procs numeric x
  | [], children, _, hp, _ => ⟨children, rfl, hp, fun _ h => h, fun _ ha => nomatch ha⟩
  | a :: l, children, hf, hp, hs => by
    obtain ⟨c1, h1, hp1, hs1, hb1⟩ := hf a mem_cons_self children hp hs
    have hstart : StaysSorted procs numeric start c1 := fun p h => hs1 p (hs p h)
    obtain ⟨c2, h2, hp2, hs2, hb2⟩ :=
      sort_trees numeric node start l c1 (fun b hb => hf b (mem_cons_of_mem _ hb)) hp1 hstart
    refine ⟨c2, ?_, hp2, fun p h => hs2 p (hs1 p h), ?_⟩
    · rw [foldlM_cons, h1]
      exact h2
    · intro b hb x hx
      rcases mem_cons.mp hb with rfl | hb
      · exact hs2 x (hb1 x hx)
      · exact hb2 b hb x hx

/-- The call of `qsort` in `sort_children`, which is left out for lists of one element. -/
theorem sort_one {numeric : Bool} {children children' : Nat → List Nat} {idx : Nat}
    (hp : PartlySorted procs numeric children)
    (h : children' = if 1 < (children idx).length then
        update children idx (qsort (cmpBy procs numeric) (children idx)) else children) :
    PartlySorted procs numeric children' ∧ StaysSorted procs numeric children children' ∧
      children' idx = kidList procs numeric idx := by
  have hsorted : qsort (cmpBy procs numeric) (children idx) = kidList procs numeric idx := by
    rcases hp idx with hc | hk
    · rw [hc, kidList]
    · rw [hk]
      exact (qsort_sorted numeric (childList procs idx)).insertionSort_eq
  have hidx : children' idx = kidList procs numeric idx := by
    rw [h]
    split
    next => rw [update_self, hsorted]
    next hlen =>
      rw [← hsorted]
      refine (List.Pairwise.insertionSort_eq ?_).symm
      match children idx, hlen with
      | [], _ => exact List.Pairwise.nil
      | [a], _ => exact pairwise_singleton _ a
      | a :: b :: l, hlen => exact absurd (Nat.succ_lt_succ (Nat.succ_pos l.length)) hlen
  have hother : ∀ p, p ≠ idx → children' p = children p := by
    intro p hne
    rw [h]
    split
    next => exact update_of_ne hne _ _
    next => rfl
  refine ⟨fun p => ?_, fun p hk => ?_, hidx⟩
  · by_cases hpi : p = idx
    · exact Or.inr (hpi ▸ hidx)
    · rw [hother p hpi]
      exact hp p
  · by_cases hpi : p = idx
    · exact hpi ▸ hidx
    · rw [hother p hpi]
      exact hk

/-- The recursion ends because it goes down from a node that has a depth. -/
theorem sortChildren_spec (hpids : (procs.map Proc.pid).Nodup) (numeric : Bool) : ∀ (fuel : Nat) {idx k : Nat}
    {children : Nat → List Nat}, Depth (parentOf procs) idx k → idx < procs.length → procs.length ≤ fuel + k →
    PartlySorted procs numeric children →
    SortsTree procs numeric idx children (sortChildren procs numeric fuel idx children)
  | 0, idx, k, children, hd, hi, hf, _ => by
    have := depth_lt hpids hd hi
    omega
  | fuel + 1, idx, k, children, hd, hi, hf, hp => by
    obtain ⟨hp1, hs1, hidx⟩ := sort_one hp rfl
    rw [sortChildren]
    generalize (if 1 < (children idx).length then
        update children idx (qsort (cmpBy procs numeric) (children idx)) else children) = c1
      at hp1 hs1 hidx ⊢
    have hloop := sort_trees numeric
      (f := fun children i => sortChildren procs numeric fuel ((children idx).getD i 0) children)
      (fun i => (kidList procs numeric idx).getD i 0) c1 (List.range (c1 idx).length) c1 ?_ hp1 fun _ h => h
    · obtain ⟨c2, h2, hp2, hs2, hb2⟩ := hloop
      refine ⟨c2, h2, hp2, fun p h => hs2 p (hs1 p h), fun x hx => ?_⟩
      rcases below_iff.mp hx with rfl | ⟨c, hc, hb⟩
      · exact hs2 x hidx
      · obtain ⟨i, hlt, hget⟩ := mem_iff_getElem.mp (mem_kidList.mpr hc)
        refine hb2 i ?_ x ?_
        · rw [mem_range, hidx]
          exact hlt
        · rw [getD_eq_getElem _ _ hlt, hget]
          exact hb
    · intro i hlt c hpc hsc
      rw [mem_range, hidx] at hlt
      rw [hsc idx hidx]
      have hpar := parentOf_kid hlt
      exact sortChildren_spec hpids numeric fuel (.child hpar hd) (parentOf_lt hpar) (by omega) hpc

/-! ## Printing -/

def Prints (procs : List Proc) (o : PsOpts) (is : List Nat) (lines : List PsLine) : Prop :=
  InPreorder (kidList procs o.numeric) is (lines.map PsLine.idx) ∧ ∀ l ∈ lines, IsLine procs o l

theorem print_trees (procs : List Proc) (o : PsOpts) {α : Type} {g : α → Option (List PsLine)} (node : α → Nat) :
    ∀ l : List α, (∀ a ∈ l, ∃ ls, g a = some ls ∧ Prints procs o [node a] ls) →
      ∃ lss, l.mapM g = some lss ∧ Prints procs o (l.map node) lss.flatten
  | [], _ => ⟨[], rfl, .nil, fun _ h => nomatch h⟩
  | a :: l, hg => by
    obtain ⟨ls, h1, hp1, hl1⟩ := hg a mem_cons_self
    obtain ⟨lss, h2, hp2, hl2⟩ := print_trees procs o node l fun b hb => hg b (mem_cons_of_mem _ hb)
    refine ⟨ls :: lss, ?_, ?_, ?_⟩
    · rw [mapM_cons, h1, h2]
      rfl
    · rw [flatten_cons, map_append]
      exact hp1.append hp2
    · rw [flatten_cons, forall_mem_append]
      exact ⟨hl1, hl2⟩

theorem printTree_spec (hpids : (procs.map Proc.pid).Nodup) (o : PsOpts)
    {children : Nat → List Nat} : ∀ (fuel : Nat) {idx k : Nat} (pre : List UInt8) (isLast : Bool) {isRoot : Bool},
    Depth (parentOf procs) idx k → idx < procs.length → procs.length ≤ fuel + k →
    (isRoot = true ↔ parentOf procs idx = none) →
    (∀ x, Below (parentOf procs) idx x → children x = kidList procs o.numeric x) →
    ∃ ls, printTree procs o children fuel idx pre isLast isRoot = some ls ∧ Prints procs o [idx] ls
  | 0, idx, k, _, _, _, hd, hi, hf, _, _ => by
    have := depth_lt hpids hd hi
    omega
  | fuel + 1, idx, k, pre, isLast, isRoot, hd, hi, hf, hroot, hs => by
    have hidx := hs idx .refl
    have hmap : (List.range (children idx).length).map (fun i => (kidList procs o.numeric idx).getD i 0) =
        kidList procs o.numeric idx := by
      rw [hidx]
      refine ext_getElem (by simp) fun i _ hlt => ?_
      rw [getElem_map, getElem_range, getD_eq_getElem _ _ hlt]
    have hkids := print_trees procs o
      (g := fun i => printTree procs o children fuel ((children idx).getD i 0) (childPrefix pre isLast isRoot)
        (i = (children idx).length - 1) false)
      (fun i => (kidList procs o.numeric idx).getD i 0) (List.range (children idx).length) ?_
    · obtain ⟨lss, h, hp, hl⟩ := hkids
      rw [hmap] at hp
      have hline : IsLine procs o (psLine procs o idx pre isLast isRoot) :=
        ⟨pre, isLast, isRoot, hroot.trans (parentOf_eq_none hi), rfl⟩
      refine ⟨psLine procs o idx pre isLast isRoot :: lss.flatten, ?_, ?_, forall_mem_cons.mpr ⟨hline, hl⟩⟩
      · simp only [printTree, h, Option.bind_eq_bind, Option.bind_some, Option.pure_def]
      · have hnode := InPreorder.cons hp .nil
        rw [append_nil] at hnode
        exact hnode
    · intro i hlt
      rw [mem_range, hidx] at hlt
      have hpar := parentOf_kid hlt
      rw [hidx]
      have hnone : parentOf procs ((kidList procs o.numeric idx).getD i 0) ≠ none := hpar ▸ Option.some_ne_none idx
      refine printTree_spec hpids o fuel _ _ (.child hpar hd) (parentOf_lt hpar) (by omega)
        (iff_of_false Bool.false_ne_true hnone) fun x hx => ?_
      exact hs x (below_iff.mpr (Or.inr ⟨_, hpar, hx⟩))

/-! ## The whole program -/

theorem mem_rootList {i : Nat} : i ∈ rootList procs ↔ i < procs.length ∧ parentOf procs i = none := by
  rw [rootList, mem_filter, mem_range, decide_eq_true_eq]

theorem mem_rootList_iff {i : Nat} : i ∈ rootList procs ↔ IsRoot procs i := by
  rw [mem_rootList]
  constructor
  · rintro ⟨hi, h⟩
    exact (parentOf_eq_none hi).mp h
  · intro h
    exact ⟨h.1, (parentOf_eq_none h.1).mpr h⟩

theorem leadsToRoot_iff (hpids : (procs.map Proc.pid).Nodup) {i : Nat} :
    LeadsToRoot procs i ↔ ∃ r ∈ rootList procs, Below (parentOf procs) r i := by
  constructor
  · intro h
    induction h with
    | root hr => exact ⟨_, mem_rootList_iff.mpr hr, .refl⟩
    | child hc _ ih =>
      obtain ⟨r, hr, hb⟩ := ih
      exact ⟨r, hr, .step ((parentOf_eq_some hpids).mpr hc) hb⟩
  · rintro ⟨r, hr, hb⟩
    induction hb with
    | refl => exact .root (mem_rootList_iff.mp hr)
    | step hp _ ih => exact .child ((parentOf_eq_some hpids).mp hp) ih

end

def oddTable : List Proc :=
  [⟨1, 0, bytes "init", by decide, by decide, by decide⟩, ⟨2, 1, bytes "sshd", by decide, by decide, by decide⟩,
    ⟨3, 1, bytes "cron", by decide, by decide, by decide⟩, ⟨4, 4, bytes "idle", by decide, by decide, by decide⟩,
    ⟨5, 6, bytes "a", by decide, by decide, by decide⟩, ⟨6, 5, bytes "b", by decide, by decide, by decide⟩,
    ⟨7, 2, bytes "bash", by decide, by decide, by decide⟩]

end NjuOs
