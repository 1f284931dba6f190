import NjuOs.KmtSound
import NjuOs.Linked
import NjuOs.RoundRobin
import NjuOs.Runs

/-!
# The scheduler's list and `pick_next`

`task_list` is changed by `kmt_create`, `kmt_register` and `kmt_teardown` alone; between two
such calls the rest of the kernel may do anything to the other fields of the tasks. Along every
such history the links form a list without repetition, so that the scan of `pick_next` goes once
around it, wherever it starts.
-/

namespace NjuOs

open Function List

/-! ## The list -/

def Kmt.next (k : Kmt) (t : TaskRef) : Option TaskRef := (k.tasks t).schedNext

def Kmt.follow (k : Kmt) : Nat → Option TaskRef → List TaskRef
  | 0, _ => []
  | _ + 1, none => []
  | n + 1, some t => t :: k.follow n (k.next t)

def Kmt.listed (k : Kmt) : List TaskRef := k.follow k.nlink k.taskList

inductive ListAct
  | create (t : TaskRef) (startup : Option Context)
  /-- the caller has filled the struct with `x` -/
  | register (t : TaskRef) (x : Task)
  | teardown (t : TaskRef)
  /-- everything else that happens to a task -/
  | write (t : TaskRef) (x : Task)
  | free (t : TaskRef)

/-- A task enters the list only while it is off it, and its struct is freed only then. -/
def Kmt.listStep (k : Kmt) : ListAct → Option Kmt
  | .create t startup => if t ∈ k.listed then none else (kmtCreate k t startup).toOption
  | .register t x =>
    if t ∈ k.listed then none
    else some (kmtRegister { k.set t x with live := update k.live t true } t)
  | .teardown t => (kmtTeardown k t).toOption
  | .write t x => some (k.set t { x with schedNext := k.next t })
  | .free t => if t ∈ k.listed then none else some { k with live := update k.live t false }

structure ListInv (k : Kmt) (l : List TaskRef) : Prop where
  linked : Linked k.next k.taskList l
  len : l.length ≤ k.nlink
  live : ∀ t ∈ l, k.live t = true

section
variable {k k' : Kmt} {t : TaskRef} {l : List TaskRef}

theorem follow_linked : ∀ {l : List TaskRef} {n : Nat} {o : Option TaskRef}, Linked k.next o l → l.length ≤ n →
    k.follow n o = l
  | [], 0, _, _, _ => rfl
  | [], _ + 1, _, h, _ => by
    cases h
    rfl
  | a :: l, n + 1, _, h, hn => by
    rw [h.1]
    exact congrArg (a :: ·) (follow_linked h.2 (Nat.le_of_succ_le_succ hn))

theorem ListInv.listed_eq (h : ListInv k l) : k.listed = l := follow_linked h.linked h.len

theorem ListInv.insert {x : Task} (h : ListInv k l) (ht : t ∉ l) :
    ListInv (kmtRegister { k.set t x with live := update k.live t true } t) (t :: l) where
  linked := by
    have hnext : (kmtRegister { k.set t x with live := update k.live t true } t).next t = k.taskList := by
      rw [Kmt.next, kmtRegister, set_tasks_self]
      rfl
    refine ⟨rfl, ?_⟩
    rw [hnext]
    refine h.linked.congr fun a ha => ?_
    have hat : a ≠ t := fun he => ht (he ▸ ha)
    simp only [Kmt.next, kmtRegister, set_tasks_ne hat]
  len := Nat.succ_le_succ h.len
  live a ha := by
    rcases mem_cons.mp ha with rfl | ha
    · exact update_self ..
    · have hat : a ≠ t := fun he => ht (he ▸ ha)
      exact (update_of_ne hat ..).trans (h.live a ha)

/-- The walk of `kmt_teardown` behind `q`: it returns, and takes `t` out of the rest of the list. -/
theorem unlinkLoop_rest : ∀ {l : List TaskRef} {n : Nat} {q : TaskRef}, Linked k.next (some q) (q :: l) →
    (∀ u ∈ q :: l, k.live u = true) → l.length < n → ∃ k', unlinkLoop k t n (some q) = .ok k' ∧
      Linked k'.next (k'.next q) (l.erase t) ∧ (∀ u ∉ q :: l, k'.tasks u = k.tasks u) ∧
      k'.taskList = k.taskList ∧ k'.live = k.live ∧ k'.nlink = k.nlink
  | [], n + 1, q, h, hl, _ => by
    refine ⟨k, ?_, h.2, fun _ _ => rfl, rfl, rfl, rfl⟩
    have hq : (k.tasks q).schedNext = none := h.2
    rw [unlinkLoop, deref_ok.mpr ⟨hl q (by simp), rfl⟩]
    simp only [Except.bind, bind, hq]
    rfl
  | m :: l, n + 1, q, h, hl, hn => by
    have hq : (k.tasks q).schedNext = some m := h.2.1
    have hstep : unlinkLoop k t (n + 1) (some q) =
        if m = t then (do return k.set q { k.tasks q with schedNext := (← k.deref t).schedNext })
        else unlinkLoop k t n (some m) := by
      rw [unlinkLoop, deref_ok.mpr ⟨hl q (by simp), rfl⟩]
      simp only [Except.bind, bind, hq]
    rw [hstep]
    have hnd := h.nodup
    by_cases hm : m = t
    · subst hm
      rw [if_pos rfl, deref_ok.mpr ⟨hl m (by simp), rfl⟩, erase_cons_head]
      refine ⟨_, rfl, ?_, fun u hu => set_tasks_ne fun he => hu (by simp [he]), rfl, rfl, rfl⟩
      have hnext : (k.set q { k.tasks q with schedNext := (k.tasks m).schedNext }).next q = k.next m := by
        rw [Kmt.next, set_tasks_self]
        rfl
      rw [hnext]
      refine h.2.2.congr fun a ha => ?_
      have haq : a ≠ q := by
        rintro rfl
        exact (nodup_cons.mp hnd).1 (mem_cons_of_mem _ ha)
      rw [Kmt.next, set_tasks_ne haq]
      rfl
    · rw [if_neg hm, erase_cons_tail (by simpa using hm)]
      obtain ⟨k', hk', hlink, hframe, hrest⟩ := unlinkLoop_rest (n := n) (q := m)
        ⟨rfl, h.2.2⟩ (fun u hu => hl u (mem_cons_of_mem _ hu)) (Nat.lt_of_succ_lt_succ hn)
      refine ⟨k', hk', ⟨?_, hlink⟩, fun u hu => hframe u fun hm => hu (mem_cons_of_mem _ hm), hrest⟩
      -- the task in front is behind none of those the walk still visits
      rw [Kmt.next, hframe q (nodup_cons.mp hnd).1]
      exact hq

theorem ListInv.teardown (h : ListInv k l) (t : TaskRef) :
    ∃ k', kmtTeardown k t = .ok k' ∧ ListInv k' (l.erase t) := by
  unfold kmtTeardown
  cases l with
  | nil =>
    have hnil : k.taskList = none := h.linked
    refine ⟨k, ?_, h⟩
    rw [unlinkLoop, hnil]
  | cons a l =>
    have hhead : k.taskList = some a := h.linked.1
    have hstep : unlinkLoop k t (k.nlink + 1) none =
        if a = t then (do return { k with taskList := (← k.deref t).schedNext })
        else unlinkLoop k t k.nlink (some a) := by
      rw [unlinkLoop, hhead]
    rw [hstep]
    by_cases ha : a = t
    · subst ha
      rw [if_pos rfl, deref_ok.mpr ⟨h.live a (by simp), rfl⟩, erase_cons_head]
      exact ⟨_, rfl, h.linked.2, Nat.le_of_succ_le h.len, fun u hu => h.live u (mem_cons_of_mem _ hu)⟩
    · rw [if_neg ha, erase_cons_tail (by simpa using ha)]
      obtain ⟨k', hk', hlink, -, hlist, hlive, hlen⟩ := unlinkLoop_rest (t := t) ⟨rfl, h.linked.2⟩ h.live h.len
      refine ⟨k', hk', ⟨hlist.trans hhead, hlink⟩, ?_, fun u hu => ?_⟩
      · rw [hlen]
        exact (Nat.succ_le_succ length_erase_le).trans h.len
      · rw [hlive]
        rcases mem_cons.mp hu with rfl | hu
        · exact h.live u (by simp)
        · exact h.live u (mem_cons_of_mem _ (mem_of_mem_erase hu))

theorem ListInv.step {a : ListAct} (h : ∃ l, ListInv k l) (hs : k.listStep a = some k') : ∃ l, ListInv k' l := by
  obtain ⟨l, h⟩ := h
  cases a with
  | create t startup =>
    simp only [Kmt.listStep, h.listed_eq] at hs
    split at hs
    · cases hs
    · next ht =>
      cases startup with
      | none => cases hs
      | some ctx =>
        cases hs
        exact ⟨t :: l, h.insert ht⟩
  | register t x =>
    simp only [Kmt.listStep, h.listed_eq] at hs
    split at hs
    · cases hs
    · next ht =>
      cases hs
      exact ⟨t :: l, h.insert ht⟩
  | teardown t =>
    obtain ⟨k₁, hk₁, h₁⟩ := h.teardown t
    rw [Kmt.listStep, hk₁] at hs
    cases hs
    exact ⟨_, h₁⟩
  | write t x =>
    cases hs
    refine ⟨l, h.linked.congr fun a _ => ?_, h.len, h.live⟩
    exact set_field Task.schedNext (by rfl) a
  | free t =>
    simp only [Kmt.listStep, h.listed_eq] at hs
    split at hs
    · cases hs
    · next ht =>
      cases hs
      refine ⟨l, h.linked, h.len, fun a ha => ?_⟩
      have hat : a ≠ t := fun he => ht (he ▸ ha)
      exact (update_of_ne hat ..).trans (h.live a ha)

theorem listInv_run {as : List ListAct} (h : run Kmt.listStep kmtInit as = some k) : ∃ l, ListInv k l :=
  have hinit : ListInv kmtInit [] := ⟨rfl, Nat.le_refl _, nofun⟩
  run_inv (fun _ _ _ => ListInv.step) as _ _ ⟨[], hinit⟩ h

/-! ## The scan -/

def Kmt.after (k : Kmt) (t : TaskRef) : Option TaskRef := k.succ (k.tasks t)

def Kmt.eligible (k : Kmt) (t : TaskRef) : Bool := NjuOs.eligible (k.tasks t)

theorem after_eq (k : Kmt) : k.after = fun t => (k.next t).or k.taskList := by
  funext t
  rw [Kmt.after, Kmt.succ, Kmt.next]
  cases (k.tasks t).schedNext <;> rfl

/-- The scan goes along `u`, whose last task is followed by `start`. -/
theorem pickLoop_walk {start : Option TaskRef} : ∀ {u : List TaskRef} {n : Nat} {a : TaskRef},
    Walk k.after start (some a) (a :: u) → (∀ t ∈ a :: u, k.live t = true) → (∀ t ∈ u, some t ≠ start) →
    u.length < n → pickLoop k start n (some a) = .ok ((a :: u).find? k.eligible)
  | u, n + 1, a, h, hl, hs, hn => by
    rw [pickLoop, deref_ok.mpr ⟨hl a (by simp), rfl⟩, find?_cons]
    simp only [Except.bind, bind, Kmt.eligible]
    cases he : NjuOs.eligible (k.tasks a) with
    | true => rfl
    | false =>
      simp only [Bool.false_eq_true, if_false]
      cases u with
      | nil =>
        have hend : k.succ (k.tasks a) = start := h.2
        rw [if_pos hend]
        rfl
      | cons b u =>
        have hb : k.succ (k.tasks a) = some b := h.2.1
        rw [hb, if_neg (hs b (by simp))]
        exact pickLoop_walk ⟨rfl, h.2.2⟩ (fun t ht => hl t (mem_cons_of_mem _ ht))
          (fun t ht => hs t (mem_cons_of_mem _ ht)) (Nat.lt_of_succ_lt_succ hn)

/-- A closed walk through a list without repetition is scanned as a whole. -/
theorem pickLoop_round {start : Option TaskRef} {n : Nat} (h : Walk k.after start start l) (hl : l.Nodup)
    (hlive : ∀ t ∈ l, k.live t = true) (hn : l.length ≤ n) (hnil : l = [] → start = none) :
    pickLoop k start n start = .ok (l.find? k.eligible) := by
  cases l with
  | nil =>
    rw [hnil rfl]
    cases n <;> rfl
  | cons a u =>
    obtain rfl : start = some a := h.1
    refine pickLoop_walk h hlive (fun t ht he => ?_) hn
    cases he
    exact (nodup_cons.mp hl).1 ht

def cyclicFrom (l : List TaskRef) : Option TaskRef → List TaskRef
  | none => l
  | some a => turn a l

theorem mem_cyclicFrom {after : Option TaskRef} (ha : ∀ a, after = some a → a ∈ l) :
    t ∈ cyclicFrom l after ↔ t ∈ l := by
  cases after with
  | none => rfl
  | some a => exact mem_turn (ha a rfl)

theorem ListInv.pickNext (h : ListInv k l) (hlen : l.length ≤ 200000) {after : Option TaskRef}
    (ha : ∀ a, after = some a → a ∈ l) : pickNext k after = .ok ((cyclicFrom l after).find? k.eligible) := by
  have hnd := h.linked.nodup
  have hmax : l.length ≤ maxSteps := by
    unfold maxSteps
    omega
  have hround : Walk k.after k.taskList k.taskList l := by
    have hw := Linked.walk k.taskList h.linked
    rwa [Option.or_self, ← after_eq] at hw
  cases after with
  | none =>
    refine pickLoop_round hround hnd h.live hmax fun hl => ?_
    subst hl
    exact h.linked
  | some a =>
    have hmem := ha a rfl
    obtain ⟨A, B, rfl, hA⟩ := eq_append_cons_of_mem hmem
    have hturn := turn_split hA B
    -- behind `a` to the end, then from the head up to `a`
    have hw : Walk k.after (k.after a) (k.after a) (turn a (A ++ a :: B)) := by
      rw [hturn, append_assoc]
      have hlast : Walk k.after (k.after a) (some a) [a] := ⟨rfl, rfl⟩
      exact Walk.append (Walk.append hlast hround.split.1) hround.split.2
    rw [NjuOs.pickNext, deref_ok.mpr ⟨h.live a hmem, rfl⟩]
    refine pickLoop_round hw (turn_nodup hnd hmem) (fun t ht => h.live t ((mem_turn hmem).mp ht)) ?_ ?_
    · rw [cyclicFrom, hturn]
      simp only [length_append, length_cons, length_nil] at hmax ⊢
      omega
    · rw [cyclicFrom, hturn]
      simp

end

/-! ## The result -/

/-- Whatever the history of the list, `pick_next` returns the first eligible task in cyclic order
behind `after`, and no task only if none on the list is eligible. -/
theorem pick_next_cyclic {as : List ListAct} {k : Kmt} (hrun : run Kmt.listStep kmtInit as = some k)
    (hlen : k.listed.length ≤ 200000) {after : Option TaskRef} (ha : ∀ a, after = some a → a ∈ k.listed) :
    Linked (fun t => (k.tasks t).schedNext) k.taskList k.listed ∧ k.listed.Nodup ∧
    pickNext k after = .ok ((cyclicFrom k.listed after).find? fun t => eligible (k.tasks t)) ∧
    (pickNext k after = .ok none ↔ ∀ t ∈ k.listed, eligible (k.tasks t) = false) := by
  obtain ⟨l, hl⟩ := listInv_run hrun
  rw [hl.listed_eq] at hlen ha ⊢
  have hpick := hl.pickNext hlen ha
  refine ⟨hl.linked, hl.linked.nodup, hpick, ?_⟩
  rw [hpick, Except.ok.injEq, find?_eq_none]
  constructor
  · intro h t ht
    exact Bool.eq_false_iff.mpr (h t ((mem_cyclicFrom ha).mpr ht))
  · intro h t ht
    exact Bool.eq_false_iff.mp (h t ((mem_cyclicFrom ha).mp ht))

def threeTasks : List ListAct :=
  [.create (.kernel 0) (some blankContext), .create (.kernel 1) (some blankContext),
    .create (.kernel 2) (some blankContext), .teardown (.kernel 1),
    .write (.kernel 0) { idleTask with cpu := 0, onCpu := true }]

theorem pick_next_cyclic_wraps : ∃ k, run Kmt.listStep kmtInit threeTasks = some k ∧
    k.listed = [.kernel 2, .kernel 0] ∧ pickNext k (some (.kernel 2)) = .ok (some (.kernel 2)) := by
  have hany : (run Kmt.listStep kmtInit threeTasks).any (fun k => decide (k.listed = [.kernel 2, .kernel 0]) &&
      decide ((turn (.kernel 2) [.kernel 2, .kernel 0]).find? (fun t => eligible (k.tasks t)) = some (.kernel 2)))
      = true := by decide +kernel
  obtain ⟨k, hrun, hk⟩ := (Option.any_eq_true _ _).mp hany
  obtain ⟨hl, hf⟩ := Bool.and_eq_true_iff.mp hk
  have hl := of_decide_eq_true hl
  refine ⟨k, hrun, hl, ?_⟩
  have hmem : ∀ a, some (TaskRef.kernel 2) = some a → a ∈ k.listed := by
    rintro a ⟨⟩
    rw [hl]
    exact mem_cons_self
  have h := (pick_next_cyclic hrun (by rw [hl]; decide) hmem).2.2.1
  rw [hl, cyclicFrom, of_decide_eq_true hf] at h
  exact h

end NjuOs
