import NjuOs.PidSound

/-!
# Families of processes

`KinMove` is a step as the process table sees it: a birth, a death, a reaped child, or nothing.
`sys_kill` takes any target and `sys_fork` any caller, so that init can become a zombie and a
zombie a parent; in runs where neither happens the parents form a tree that hangs from init.
-/

namespace NjuOs

open List

def Task.kin (x : Task) : Int × Option TaskRef × Bool × Int := (x.pid, x.parent, x.xstate, x.exitStatus)

inductive Strikes (s : OsSys) : OsAct → TaskRef → Int → Prop
  | exit {c now : Nat} {ctx : Context} {status : Int} {q : TaskRef} (hu : s.user c = some q)
    (hi : s.k.initproc ≠ some q) : Strikes s (.syscall c ctx now (.exit status)) q status
  | fault {c : Nat} {ctx : Context} {q : TaskRef} (hu : s.user c = some q) (hi : s.k.initproc ≠ some q) :
    Strikes s (.pageFault c ctx) q (-1)
  | kill {c now : Nat} {ctx : Context} {pid : Int} {p q : TaskRef} (hu : s.user c = some p)
    (hq : s.k.ptable.find? (fun t => (s.k.tasks t).pid = pid) = some q) (hne : q ≠ p) :
    Strikes s (.syscall c ctx now (.kill pid)) q (-1)

inductive Bears (s : OsSys) : OsAct → Option TaskRef → Prop
  | fork {c now : Nat} {ctx : Context} {p : TaskRef} (hu : s.user c = some p) :
    Bears s (.syscall c ctx now .fork) (some p)
  | spawn {bin : List UInt8} {len : Nat} : Bears s (.spawn bin len) none

inductive KinMove (s : OsSys) (a : OsAct) (s' : OsSys) : Prop
  | same (ht : s'.k.ptable = s.k.ptable) (hi : s'.k.initproc = s.k.initproc)
    (hk : ∀ t, (s'.k.tasks t).kin = (s.k.tasks t).kin) (hw : s'.waited = s.waited)
  | born {n : Nat} {par : Option TaskRef} {new : List (Nat × Nat)} (ha : Bears s a par)
    (hb : Born n par none new s.k s'.k) (hw : s'.waited = s.waited)
  | died {q : TaskRef} {status : Int} (ha : Strikes s a q status) (hq : q ∈ s.k.ptable)
    (hd : Died s.k q status s'.k) (hw : s'.waited = s.waited)
  | reaped {c now va : Nat} {ctx : Context} {p child : TaskRef} (ha : a = .syscall c ctx now (.wait va))
    (hu : s.user c = some p) (hr : Reaped s.k p child s'.k)
    (hw : s'.waited = s.waited ++ [(p, (s.k.tasks child).pid)])

section
variable {A : Allocator} {s s' : OsSys} {a : OsAct}

theorem KinMove.trap {c : Nat} {p : TaskRef} {g : Task → Task} {f : Context} {b : Bool}
    (hg : ∀ x, (g x).kin = x.kin) : KinMove s a (s.trapped c (s.k.modify p g) f b) :=
  .same rfl rfl (modify_field Task.kin (hg _)) rfl

theorem OsMove.kin (hk : KernelInv s.k) (hm : OsMove s a s') : KinMove s a s' := by
  cases hm with
  | sched _ hsw =>
    exact .same rfl rfl (hsw.field Task.kin (fun _ _ _ => rfl) fun _ _ _ _ _ => rfl) rfl
  | tick now =>
    obtain ⟨hf, -⟩ := uprocTick_frame s.k now
    exact .same hf.ptable hf.initproc (uprocTick_field Task.kin (fun _ _ => rfl) now) rfl
  | mem _ _ hm => exact .same hm.ptable hm.initproc (hm.field Task.kin fun _ => rfl) rfl
  | fork hu _ hb => exact .born (.fork hu) hb rfl
  | spawn hb => exact .born .spawn hb rfl
  | exit hu _ hi hd => exact .died (.exit hu hi) (hk.user_mem hu) hd rfl
  | fault hu _ hi hd => exact .died (.fault hu hi) (hk.user_mem hu) hd rfl
  | kill hu _ ht hne hd => exact .died (.kill hu ht hne) (mem_of_find?_eq_some ht) hd rfl
  | sleepStart => exact .trap fun _ => rfl
  | sleepDone => exact .trap fun _ => rfl
  | sleepAgain => exact .trap fun _ => rfl
  | park => exact .trap fun _ => rfl
  | retry => exact .same rfl rfl (fun _ => rfl) rfl
  | reap hu _ hr => exact .reaped rfl hu hr rfl

theorem kinMove_step (hk : KernelInv s.k) (h : s.step A a = some s') : KinMove s a s' := (osMove_step hk h).kin hk

theorem kin_eq {x y : Task} (h : x.kin = y.kin) :
    x.pid = y.pid ∧ x.parent = y.parent ∧ x.xstate = y.xstate ∧ x.exitStatus = y.exitStatus := by
  simpa only [Task.kin, Prod.mk.injEq] using h

end

section
variable {k k' : Kernel} {n : Nat} {par : Option TaskRef} {redo : Option Blocking} {new : List (Nat × Nat)}

theorem Born.split (hb : Born n par redo new k k') (hk : KernelInv k) {t : TaskRef} (ht : t ∈ k'.ptable) :
    t ∈ k.ptable ∧ k'.tasks t = k.tasks t ∨ t = .proc n := by
  have hnew := (hk.toKernelBase.born hb).1
  rw [hb.ptable] at ht
  rcases mem_append.mp ht with ht | ht
  · exact Or.inl ⟨ht, hb.other t fun he => hnew (he ▸ ht)⟩
  · exact Or.inr (mem_singleton.mp ht)

theorem Born.keeps (hb : Born n par redo new k k') (hk : KernelInv k) {t : TaskRef} (ht : t ∈ k.ptable) :
    t ∈ k'.ptable ∧ k'.tasks t = k.tasks t := by
  have hnew := (hk.toKernelBase.born hb).1
  refine ⟨by rw [hb.ptable]; exact mem_append_left _ ht, hb.other t fun he => hnew (he ▸ ht)⟩

end

/-! ## The tree -/

def Kernel.climb (k : Kernel) : Nat → TaskRef → Option TaskRef
  | 0, t => some t
  | n + 1, t => (k.tasks t).parent.bind (k.climb n)

structure FamilyTree (k : Kernel) (i : TaskRef) : Prop where
  init : k.initproc = some i
  mem : i ∈ k.ptable
  alive : (k.tasks i).xstate = false
  root : (k.tasks i).parent = none
  parents : ∀ t ∈ k.ptable, t ≠ i → ∃ q ∈ k.ptable, (k.tasks t).parent = some q ∧ k.live q = true ∧
    (k.tasks q).xstate = false
  rooted : ∀ t ∈ k.ptable, ∃ n, k.climb n t = some i

/-- No other process kills init, and no zombie forks. Processes are spawned while booting only. -/
def TreeSafe (s : OsSys) : OsAct → Prop
  | .syscall c _ _ (.kill pid) => ∀ p ∈ s.user c, ∀ t ∈ s.k.ptable.find? fun t => (s.k.tasks t).pid = pid,
    t ≠ p → s.k.initproc ≠ some t
  | .syscall c _ _ .fork => ∀ p ∈ s.user c, (s.k.tasks p).xstate = false
  | .spawn _ _ => False
  | _ => True

instance (s : OsSys) (a : OsAct) : Decidable (TreeSafe s a) := by
  induction a using OsAct.casesOn with
  | syscall c ctx now call => induction call using Syscall.casesOn <;> unfold TreeSafe <;> infer_instance
  | _ => unfold TreeSafe; infer_instance

def HasParent (k : Kernel) (t : TaskRef) : Prop :=
  ∃ q ∈ k.ptable, (k.tasks t).parent = some q ∧ (k.tasks q).xstate = false ∧ (k.tasks q).pid < (k.tasks t).pid

structure TreeInv (k : Kernel) (i : TaskRef) : Prop where
  init : k.initproc = some i
  mem : i ∈ k.ptable
  alive : (k.tasks i).xstate = false
  root : (k.tasks i).parent = none
  first : (k.tasks i).pid = 1
  parents : ∀ t ∈ k.ptable, t ≠ i → HasParent k t

section
variable {k k' : Kernel} {i p q t : TaskRef} {status : Int}

theorem HasParent.congr (h : HasParent k t) (ht : (k'.tasks t).kin = (k.tasks t).kin)
    (hq : ∀ q ∈ k.ptable, (k.tasks q).xstate = false → q ∈ k'.ptable ∧ (k'.tasks q).kin = (k.tasks q).kin) :
    HasParent k' t := by
  obtain ⟨q, hmem, hpar, hz, hlt⟩ := h
  obtain ⟨hmem', hkin⟩ := hq q hmem hz
  obtain ⟨e1, e2, -, -⟩ := kin_eq ht
  obtain ⟨e3, -, e4, -⟩ := kin_eq hkin
  exact ⟨q, hmem', e2.trans hpar, e4.trans hz, by rw [e3, e1]; exact hlt⟩

theorem TreeInv.same (h : TreeInv k i) (ht : k'.ptable = k.ptable) (hi : k'.initproc = k.initproc)
    (hk : ∀ t, (k'.tasks t).kin = (k.tasks t).kin) : TreeInv k' i := by
  obtain ⟨e1, e2, e3, -⟩ := kin_eq (hk i)
  refine ⟨hi.trans h.init, by rw [ht]; exact h.mem, e3.trans h.alive, e2.trans h.root, e1.trans h.first, ?_⟩
  intro t htm hne
  rw [ht] at htm
  exact (h.parents t htm hne).congr (hk t) fun q hq _ => ⟨by rw [ht]; exact hq, hk q⟩

theorem TreeInv.born {n : Nat} {redo : Option Blocking} {new : List (Nat × Nat)} (h : TreeInv k i)
    (hk : KernelInv k) (hb : Born n (some p) redo new k k') (hp : p ∈ k.ptable) (hz : (k.tasks p).xstate = false)
    (hold : ∀ t ∈ k.ptable, (k.tasks t).pid < k.nextPid) : TreeInv k' i := by
  obtain ⟨him, hie⟩ := hb.keeps hk h.mem
  refine ⟨hb.initproc.trans h.init, him, by rw [hie]; exact h.alive, by rw [hie]; exact h.root,
    by rw [hie]; exact h.first, ?_⟩
  intro t ht hne
  rcases hb.split hk ht with ⟨ht, hsame⟩ | rfl
  · refine (h.parents t ht hne).congr (by rw [hsame]) fun q hq _ => ?_
    obtain ⟨h1, h2⟩ := hb.keeps hk hq
    exact ⟨h1, by rw [h2]⟩
  · obtain ⟨hpm, hpe⟩ := hb.keeps hk hp
    refine ⟨p, hpm, hb.field Task.parent fun _ => rfl, by rw [hpe]; exact hz, ?_⟩
    rw [hpe, hb.field Task.pid fun _ => rfl]
    exact hold p hp

theorem TreeInv.died (h : TreeInv k i) (hd : Died k q status k') (hq : k.initproc ≠ some q)
    (hpid : ∀ t ∈ k.ptable, t ≠ i → 1 < (k.tasks t).pid) : TreeInv k' i := by
  have hiq : i ≠ q := by
    rintro rfl
    exact hq h.init
  have hsame : ∀ t, (k'.tasks t).pid = (k.tasks t).pid := hd.field Task.pid fun _ => rfl
  have halive : (k'.tasks i).xstate = false := by rw [hd.xstate, if_neg hiq]; exact h.alive
  refine ⟨hd.initproc.trans h.init, by rw [hd.ptable]; exact h.mem, halive, ?_, (hsame i).trans h.first, ?_⟩
  · rw [hd.parent, newParent, h.root]
    simp
  · intro t ht hne
    rw [hd.ptable] at ht
    obtain ⟨r, hr, hpar, hz, hlt⟩ := h.parents t ht hne
    by_cases hrq : r = q
    · -- a child of the dead process goes to init, which is older than everybody
      subst hrq
      refine ⟨i, by rw [hd.ptable]; exact h.mem, ?_, halive, ?_⟩
      · rw [hd.parent, newParent, if_pos ⟨ht, hpar⟩]
        exact h.init
      · rw [hsame, hsame, h.first]
        exact hpid t ht hne
    · refine ⟨r, by rw [hd.ptable]; exact hr, ?_, by rw [hd.xstate, if_neg hrq]; exact hz,
        by rw [hsame, hsame]; exact hlt⟩
      rw [hd.parent, newParent, if_neg, hpar]
      rintro ⟨-, hc⟩
      rw [hpar] at hc
      exact hrq (Option.some.inj hc)

theorem TreeInv.reaped (h : TreeInv k i) (hk : KernelInv k) (hr : Reaped k p q k') : TreeInv k' i := by
  have hkin : ∀ t, t ≠ q → (k'.tasks t).kin = (k.tasks t).kin := fun t ht => hr.field ht Task.kin fun _ _ => rfl
  have hzq : (k.tasks q).xstate = true := hr.child.2.1
  have hiq : i ≠ q := by
    rintro rfl
    rw [h.alive] at hzq
    cases hzq
  obtain ⟨e1, e2, e3, -⟩ := kin_eq (hkin i hiq)
  refine ⟨hr.initproc.trans h.init, (hr.mem_iff hk).mpr ⟨h.mem, hiq⟩, e3.trans h.alive, e2.trans h.root,
    e1.trans h.first, ?_⟩
  intro t ht hne
  obtain ⟨ht, htq⟩ := (hr.mem_iff hk).mp ht
  refine (h.parents t ht hne).congr (hkin t htq) fun r hrm hz => ?_
  -- the zombie has no children left
  have hrq : r ≠ q := by
    rintro rfl
    rw [hzq] at hz
    cases hz
  exact ⟨(hr.mem_iff hk).mpr ⟨hrm, hrq⟩, hkin r hrq⟩

theorem TreeInv.climb (h : TreeInv k i) (hpos : ∀ t ∈ k.ptable, 1 ≤ (k.tasks t).pid) :
    ∀ (m : Nat) (t : TaskRef), t ∈ k.ptable → (k.tasks t).pid ≤ m → ∃ n, k.climb n t = some i
  | 0, t, ht, hm => by
    have := hpos t ht
    omega
  | m + 1, t, ht, hm => by
    by_cases hne : t = i
    · exact ⟨0, congrArg some hne⟩
    · -- the parent is older, which bounds the way up
      obtain ⟨q, hq, hpar, -, hlt⟩ := h.parents t ht hne
      obtain ⟨n, hn⟩ := h.climb hpos m q hq (by omega)
      exact ⟨n + 1, by rw [Kernel.climb, hpar]; exact hn⟩

theorem TreeInv.tree (h : TreeInv k i) (hk : KernelInv k) (hpos : ∀ t ∈ k.ptable, 1 ≤ (k.tasks t).pid) :
    FamilyTree k i where
  init := h.init
  mem := h.mem
  alive := h.alive
  root := h.root
  parents := by
    intro t ht hne
    obtain ⟨q, hq, hpar, hz, -⟩ := h.parents t ht hne
    exact ⟨q, hq, hpar, (hk.live q).mpr (Or.inr hq), hz⟩
  rooted := fun t ht => h.climb hpos _ t ht (Int.self_le_toNat _)

end

section
variable {A : Allocator} {s s' : OsSys} {a : OsAct} {i : TaskRef}

theorem PidInv.pid_mem (h : PidInv s) {t : TaskRef} (ht : t ∈ s.k.ptable) :
    1 ≤ (s.k.tasks t).pid ∧ (s.k.tasks t).pid < s.k.nextPid :=
  h.fresh _ (h.table.subset (mem_append_left _ (mem_map_of_mem ht)))

theorem PidInv.pid_inj (h : PidInv s) {t u : TaskRef} (ht : t ∈ s.k.ptable) (hu : u ∈ s.k.ptable)
    (he : (s.k.tasks t).pid = (s.k.tasks u).pid) : t = u :=
  inj_on_of_nodup_map (h.table.nodup_iff.mpr h.nodup).of_append_left ht hu he

theorem TreeInv.move (h : TreeInv s.k i) (hk : KernelInv s.k) (hp : PidInv s) (hsafe : TreeSafe s a)
    (hm : KinMove s a s') : TreeInv s'.k i := by
  cases hm with
  | same ht hi hkin _ => exact h.same ht hi hkin
  | born ha hb _ =>
    cases ha with
    | fork hu => exact h.born hk hb (hk.user_mem hu) (hsafe _ hu) fun t ht => (hp.pid_mem ht).2
    | spawn => exact hsafe.elim
  | died ha hq hd _ =>
    refine h.died hd ?_ ?_
    · cases ha with
      | exit _ hi => exact hi
      | fault _ hi => exact hi
      | kill hu hfind hne => exact hsafe _ hu _ hfind hne
    · intro t ht hne
      have h1 := (hp.pid_mem ht).1
      have h2 : (s.k.tasks t).pid ≠ 1 := fun he => hne (hp.pid_inj ht h.mem (he.trans h.first.symm))
      omega
  | reaped _ _ hr _ => exact h.reaped hk hr

end

section
variable {A : Allocator} {v : Vfs} {uprogs : List (List UInt8 × List UInt8)} {k : Kernel} {as : List OsAct} {s : OsSys}

theorem treeInv_boot (h : uprocInit A v uprogs = .ok k) : ∃ i, TreeInv k i := by
  obtain ⟨n, new, k1, hb, rfl⟩ := uprocInit_ok h
  have hmem : ∀ t, t ∈ k1.ptable ↔ t = .proc n := by
    intro t
    rw [hb.ptable]
    exact mem_singleton
  refine ⟨.proc n, rfl, (hmem _).mpr rfl, hb.field Task.xstate fun _ => rfl, hb.field Task.parent fun _ => rfl,
    hb.field Task.pid fun _ => rfl, fun t ht hne => ?_⟩
  exact absurd ((hmem t).mp ht) hne

theorem family_tree (hboot : uprocInit A v uprogs = .ok k)
    (hc : Along (OsSys.step A) TreeSafe (OsSys.boot k) as)
    (hr : run (OsSys.step A) (OsSys.boot k) as = some s) : ∃ i, FamilyTree s.k i := by
  obtain ⟨i, h0⟩ := treeInv_boot hboot
  have hinv := run_inv_along (I := fun s => KernelInv s.k ∧ PidInv s ∧ TreeInv s.k i) ?_ as _ s
    ⟨kernelInv_boot hboot, pidInv_boot hboot, h0⟩ hc hr
  · obtain ⟨hk, hp, ht⟩ := hinv
    exact ⟨i, ht.tree hk fun t ht => (hp.pid_mem ht).1⟩
  · rintro s a s' ⟨hk, hp, ht⟩ hsafe hs
    have hm := osMove_step hk hs
    exact ⟨hk.move hm, hp.move hk hm, ht.move hk hp hsafe (hm.kin hk)⟩

end

def orphanRun : List OsAct :=
  [.schedule 0 blankContext, .syscall 0 blankContext 0 .fork, .schedule 0 blankContext,
   .syscall 0 blankContext 0 .fork, .syscall 0 blankContext 0 (.exit 0)]

theorem family_tree_orphan : ∃ s, osRun orphanRun = some s ∧ s.k.ptable.length = 3 ∧ ∃ i, FamilyTree s.k i := by
  have hrun : (smallKernel.any fun k => passes (OsSys.step bumpAlloc) (fun s a => decide (TreeSafe s a))
      (fun s => decide (s.k.ptable.length = 3)) (OsSys.boot k) orphanRun) = true := by decide +kernel
  obtain ⟨v, k, s, hboot, hs, hr, hc, hl⟩ := small_passes (fun s a h => of_decide_eq_true h) hrun
  exact ⟨s, hs, of_decide_eq_true hl, family_tree hboot hc hr⟩

def killInitRun : List OsAct :=
  [.schedule 0 blankContext, .syscall 0 blankContext 0 .fork, .schedule 0 blankContext,
   .syscall 0 blankContext 0 (.kill 1), .syscall 0 blankContext 0 .getpid]

/-- The child of init kills pid 1: init stays in the table as a zombie and the machine goes on. -/
theorem init_killed : ∃ s, osRun killInitRun = some s ∧ ∃ i ∈ s.k.ptable, s.k.initproc = some i ∧
    (s.k.tasks i).xstate = true ∧ ∃ t ∈ s.k.ptable, (s.k.tasks t).parent = some i := by
  have hrun : ((osRun killInitRun).any fun s => decide (∃ i ∈ s.k.ptable, s.k.initproc = some i ∧
      (s.k.tasks i).xstate = true ∧ ∃ t ∈ s.k.ptable, (s.k.tasks t).parent = some i)) = true := by decide +kernel
  obtain ⟨s, hs, hl⟩ := (Option.any_eq_true _ _).mp hrun
  exact ⟨s, hs, of_decide_eq_true hl⟩

end NjuOs
