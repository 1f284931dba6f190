import NjuOs.BlockSound

/-!
# Parents parked in `wait`

`sys_exit` and `sys_kill` wake the parent of the process that dies. They do not look at init
when they hand it the orphans, nor do they end the `wait` of a process that is killed; and a parent
that is between the scan of `try_reap` and its blocking does not wait yet. `ParkSafe` and `WaitSafe`
exclude the three situations.
-/

namespace NjuOs

open Option

/-- The death of `q` leaves no zombie to init while init waits, unless it wakes init. -/
def HandsOver (k : Kernel) (q : TaskRef) : Prop :=
  ∀ i ∈ k.initproc, (k.tasks i).waiting = true → q = i ∨ (k.tasks q).parent = some i ∨
    ∀ t ∈ k.ptable, (k.tasks t).parent = some q → (k.tasks t).xstate = false

instance (k : Kernel) (q : TaskRef) : Decidable (HandsOver k q) :=
  inferInstanceAs (Decidable (∀ i ∈ k.initproc, _ → _ ∨ _ ∨ _))

/-- No `kill` hits a process that waits, init excepted, and orphaned zombies wake init. -/
def ParkSafe (s : OsSys) : OsAct → Prop
  | .syscall _ _ _ (.kill pid) => ∀ t ∈ s.k.ptable.find? fun t => (s.k.tasks t).pid = pid,
    (s.k.initproc = some t ∨ (s.k.tasks t).waiting = false) ∧ HandsOver s.k t
  | .syscall c _ _ (.exit _) => ∀ p ∈ s.user c, HandsOver s.k p
  | .pageFault c _ => ∀ p ∈ s.user c, HandsOver s.k p
  | _ => True

instance (s : OsSys) (a : OsAct) : Decidable (ParkSafe s a) := by
  unfold ParkSafe
  split <;> infer_instance

/-! ## The check and the blocking apart -/

/-- `scanned` holds the `wait` of each CPU on which `try_reap` has answered `WAIT_BLOCK` and the caller is
not blocked yet. -/
structure WaitSys where
  os : OsSys
  scanned : Nat → Option (Context × Nat)

inductive WaitAct
  | os (a : OsAct)
  | scan (cpu : Nat) (ctx : Context) (va : Nat)
  | park (cpu : Nat)

def WaitSys.boot (k : Kernel) : WaitSys := ⟨OsSys.boot k, fun _ => none⟩

def WaitSys.inWait (s : WaitSys) : OsAct → Bool
  | .schedule cpu _ => (s.scanned cpu).isSome
  | .syscall cpu _ _ _ => (s.scanned cpu).isSome
  | .pageFault cpu _ => (s.scanned cpu).isSome
  | _ => false

def WaitSys.step (A : Allocator) (s : WaitSys) : WaitAct → Option WaitSys
  | .os a => if s.inWait a then none else (s.os.step A a).map fun os => { s with os := os }
  | .scan cpu ctx va => do
    let p ← s.os.user cpu
    let _ ← s.os.callFrame cpu ctx (.wait va)
    if s.scanned cpu = none ∧ (reapScan s.os.k p).2 = .block then
      some { s with scanned := Function.update s.scanned cpu (some (ctx, va)) }
    else none
  | .park cpu => do
    let (ctx, va) ← s.scanned cpu
    let p ← s.os.user cpu
    let f ← s.os.callFrame cpu ctx (.wait va)
    let k := s.os.k.modify p fun x => { x with waiting := true, state := .blocked }
    return ⟨s.os.trapped cpu k (rewindSyscall f (.wait va)) true, Function.update s.scanned cpu none⟩

/-- What the scan has found still holds when the caller blocks. -/
def WaitSafe (s : WaitSys) : WaitAct → Prop
  | .os a => ParkSafe s.os a
  | .scan .. => True
  | .park cpu => ∀ p ∈ s.os.user cpu, (reapScan s.os.k p).2 = .block

instance (s : WaitSys) (a : WaitAct) : Decidable (WaitSafe s a) := by
  unfold WaitSafe
  split <;> infer_instance

/-! ## The invariant -/

structure MayWait (k : Kernel) (p : TaskRef) : Prop where
  child : ∃ t ∈ k.ptable, (k.tasks t).parent = some p
  alive : ∀ t ∈ k.ptable, (k.tasks t).parent = some p → (k.tasks t).xstate = false

def ParkInv (k : Kernel) : Prop := ∀ p ∈ k.ptable, (k.tasks p).waiting = true → MayWait k p

section
variable {k k' : Kernel} {p q : TaskRef} {status : Int}

theorem MayWait.congr (h : MayWait k p)
    (hch : ∀ t, t ∈ k'.ptable ∧ (k'.tasks t).parent = some p ↔ t ∈ k.ptable ∧ (k.tasks t).parent = some p)
    (hz : ∀ t ∈ k'.ptable, (k'.tasks t).parent = some p → (k'.tasks t).xstate = (k.tasks t).xstate) :
    MayWait k' p where
  child := by
    obtain ⟨t, ht, hp⟩ := h.child
    obtain ⟨ht', hp'⟩ := (hch t).mpr ⟨ht, hp⟩
    exact ⟨t, ht', hp'⟩
  alive := by
    intro t ht hp
    obtain ⟨ht0, hp0⟩ := (hch t).mp ⟨ht, hp⟩
    rw [hz t ht hp]
    exact h.alive t ht0 hp0

theorem ParkInv.same (h : ParkInv k) (ht : k'.ptable = k.ptable)
    (hw : ∀ t ∈ k.ptable, (k'.tasks t).waiting = true → (k.tasks t).waiting = true ∨ MayWait k t)
    (hp : ∀ t, (k'.tasks t).parent = (k.tasks t).parent) (hz : ∀ t, (k'.tasks t).xstate = (k.tasks t).xstate) :
    ParkInv k' := by
  intro p hpt hx
  rw [ht] at hpt
  have hmay : MayWait k p := (hw p hpt hx).elim (h p hpt) id
  refine hmay.congr (fun t => ?_) fun t _ _ => hz t
  rw [ht, hp]

theorem ParkInv.died (h : ParkInv k) (hd : Died k q status k') (hq : k.initproc = some q ∨ (k.tasks q).waiting = false)
    (hover : HandsOver k q) : ParkInv k' := by
  intro p hp hx
  rw [hd.ptable] at hp
  rw [hd.waiting p] at hx
  split at hx
  · cases hx
  next hwake =>
  have hold := h p hp hx
  -- a process that waits and dies is init, which keeps its children
  have hself : p = q → k.initproc = some q := by
    intro he
    rw [he] at hx
    rcases hq with hq | hq
    · exact hq
    · rw [hq] at hx; cases hx
  constructor
  case child =>
    obtain ⟨t, ht, hpar⟩ := hold.child
    refine ⟨t, by rw [hd.ptable]; exact ht, ?_⟩
    rw [hd.parent t, newParent]
    split
    · next hc =>
      obtain rfl := some.inj (hpar.symm.trans hc.2)
      exact hself rfl
    · exact hpar
  case alive =>
    intro t ht hpar
    rw [hd.ptable] at ht
    have htq : t ≠ q := by
      rintro rfl
      rw [hd.parent t] at hpar
      exact hwake hpar
    rw [hd.xstate t, if_neg htq]
    rw [hd.parent t, newParent] at hpar
    split at hpar
    · next hc =>
      -- an orphan that has come to init
      by_cases hpq : p = q
      · exact hold.alive t ht (hpq ▸ hc.2)
      · rcases hover p hpar hx with he | he | he
        · exact absurd he.symm hpq
        · have hne : ¬(q ∈ k.ptable ∧ (k.tasks q).parent = some q) := by
            rintro ⟨-, hqq⟩
            exact hpq (some.inj (he.symm.trans hqq))
          rw [newParent, if_neg hne] at hwake
          exact absurd he hwake
        · exact he t ht hc.2
    · exact hold.alive t ht hpar

theorem ParkInv.born {n : Nat} {par : Option TaskRef} {redo : Option Blocking} {new : List (Nat × Nat)}
    (h : ParkInv k) (hk : KernelInv k) (hb : Born n par redo new k k')
    (hpar : ∀ p, par = some p → (k.tasks p).waiting = false) : ParkInv k' := by
  have hnew := (hk.toKernelBase.born hb).1
  have hsame : ∀ t ∈ k.ptable, k'.tasks t = k.tasks t := fun t ht => hb.other t fun he => hnew (he ▸ ht)
  have hsplit : ∀ t, t ∈ k'.ptable ↔ t ∈ k.ptable ∨ t = .proc n := by
    intro t
    rw [hb.ptable, List.mem_append, List.mem_singleton]
  intro p hp hx
  rcases (hsplit p).mp hp with hp | rfl
  · rw [hsame p hp] at hx
    have hfam : ∀ t, t ∈ k'.ptable → (k'.tasks t).parent = some p → t ∈ k.ptable := by
      intro t ht hpt
      rcases (hsplit t).mp ht with ht | rfl
      · exact ht
      · have hpp : par = some p := (hb.field Task.parent fun _ => rfl).symm.trans hpt
        rw [hpar p hpp] at hx
        cases hx
    refine (h p hp hx).congr (fun t => ?_) fun t ht hpt => by rw [hsame t (hfam t ht hpt)]
    constructor
    · rintro ⟨ht, hpt⟩
      have ht := hfam t ht hpt
      exact ⟨ht, hsame t ht ▸ hpt⟩
    · rintro ⟨ht, hpt⟩
      exact ⟨(hsplit t).mpr (Or.inl ht), by rw [hsame t ht]; exact hpt⟩
  · have hw : (k'.tasks (.proc n)).waiting = false := hb.field Task.waiting fun _ => rfl
    rw [hw] at hx
    cases hx

theorem ParkInv.reaped {c : TaskRef} (h : ParkInv k) (hk : KernelInv k) (hr : Reaped k p c k')
    (hw : (k.tasks p).waiting = false) : ParkInv k' := by
  intro q hq hx
  obtain ⟨hq, hqc⟩ := (hr.mem_iff hk).mp hq
  rw [hr.field hqc Task.waiting fun _ _ => rfl] at hx
  -- the child that goes is a child of the caller, which does not wait
  have hne : ∀ t, (k.tasks t).parent = some q → t ≠ c := by
    rintro t ht rfl
    obtain rfl := some.inj (ht.symm.trans hr.child.1)
    rw [hw] at hx
    cases hx
  refine (h q hq hx).congr (fun t => ?_) ?_
  · rw [hr.mem_iff hk]
    constructor
    · rintro ⟨⟨ht, htc⟩, hpt⟩
      exact ⟨ht, by rw [← hr.field htc Task.parent fun _ _ => rfl]; exact hpt⟩
    · rintro ⟨ht, hpt⟩
      have htc := hne t hpt
      exact ⟨⟨ht, htc⟩, by rw [hr.field htc Task.parent fun _ _ => rfl]; exact hpt⟩
  · intro t ht _
    exact hr.field ((hr.mem_iff hk).mp ht).2 Task.xstate fun _ _ => rfl

theorem ParkInv.modify {g : Task → Task} (h : ParkInv k)
    (hw : (g (k.tasks p)).waiting = true → (k.tasks p).waiting = true ∨ MayWait k p)
    (hg : ∀ x, (g x).xstate = x.xstate ∧ (g x).parent = x.parent) : ParkInv (k.modify p g) := by
  refine h.same rfl ?_ (modify_field Task.parent (hg _).2) (modify_field Task.xstate (hg _).1)
  intro t _ hx
  by_cases he : t = p
  · subst he
    rw [modify_tasks_self] at hx
    exact hw hx
  · rw [modify_tasks_ne he] at hx
    exact Or.inl hx

end

section
variable {A : Allocator} {s s' : OsSys} {a : OsAct}

theorem ParkInv.move (h : ParkInv s.k) (hk : KernelInv s.k) (hb : BlockInv s) (hsafe : ParkSafe s a)
    (hm : OsMove s a s') : ParkInv s'.k := by
  cases hm with
  | sched _ hsw =>
    exact h.same rfl
      (fun t _ hx => Or.inl ((hsw.field Task.waiting (fun _ _ _ => rfl) (fun _ _ _ _ _ => rfl) t).symm.trans hx))
      (fun t => hsw.field Task.parent (fun _ _ _ => rfl) (fun _ _ _ _ _ => rfl) t)
      fun t => hsw.field Task.xstate (fun _ _ _ => rfl) (fun _ _ _ _ _ => rfl) t
  | tick now =>
    exact h.same (uprocTick_frame s.k now).1.ptable
      (fun t _ hx => Or.inl ((uprocTick_field Task.waiting (fun _ _ => rfl) now t).symm.trans hx))
      (uprocTick_field Task.parent (fun _ _ => rfl) now) (uprocTick_field Task.xstate (fun _ _ => rfl) now)
  | mem _ _ hm =>
    exact h.same hm.ptable (fun t _ hx => Or.inl ((hm.field Task.waiting (fun _ => rfl) t).symm.trans hx))
      (hm.field Task.parent fun _ => rfl) (hm.field Task.xstate fun _ => rfl)
  | fork hu _ hborn =>
    refine h.born hk hborn fun p hp => ?_
    cases hp
    exact (hb _ (hk.user_mem hu)).user hu
  | spawn hborn => exact h.born hk hborn fun p hp => by cases hp
  | exit hu _ _ hd => exact h.died hd (Or.inr ((hb _ (hk.user_mem hu)).user hu)) (hsafe _ hu)
  | fault hu _ _ hd => exact h.died hd (Or.inr ((hb _ (hk.user_mem hu)).user hu)) (hsafe _ hu)
  | kill _ _ ht _ hd => exact h.died hd (hsafe _ ht).1 (hsafe _ ht).2
  | sleepStart => exact h.modify Or.inl fun _ => ⟨rfl, rfl⟩
  | sleepDone => exact h.modify Or.inl fun _ => ⟨rfl, rfl⟩
  | sleepAgain => exact h.modify Or.inl fun _ => ⟨rfl, rfl⟩
  | park _ _ hs =>
    obtain ⟨hno, hc⟩ := hs.block_inv
    exact h.modify (fun _ => Or.inr ⟨hc, hno⟩) fun _ => ⟨rfl, rfl⟩
  | retry => exact h
  | reap hu _ hr => exact h.reaped hk hr ((hb _ (hk.user_mem hu)).user hu)

end

section
variable {A : Allocator} {v : Vfs} {uprogs : List (List UInt8 × List UInt8)} {k : Kernel}

theorem parkInv_boot (h : uprocInit A v uprogs = .ok k) : ParkInv k := by
  obtain ⟨n, new, k1, hb, rfl⟩ := uprocInit_ok h
  intro p hp hx
  have hp : p ∈ k1.ptable := hp
  rw [hb.ptable] at hp
  obtain rfl := List.mem_singleton.mp hp
  have hw : (k1.tasks (.proc n)).waiting = false := hb.field Task.waiting fun _ => rfl
  exact absurd (hw.symm.trans hx) (by simp)

theorem BlockInv.park {s : OsSys} {c va : Nat} {ctx f0 f : Context} {p : TaskRef} (h : BlockInv s) (hk : KernelInv s.k)
    (hu : s.user c = some p) (hf : s.callFrame c ctx (.wait va) = some f0) :
    BlockInv (s.trapped c (s.k.modify p fun x => { x with waiting := true, state := .blocked }) f true) := by
  have hsl := (h p (hk.user_mem hu)).awake hu hf fun n hn => by cases hn
  exact h.modify hk hu (fun hs => by rw [hsl] at hs; cases hs) fun _ => ⟨rfl, rfl⟩

structure WaitInv (s : OsSys) : Prop where
  kernel : KernelInv s.k
  block : BlockInv s
  park : ParkInv s.k

theorem WaitInv.step {s s' : WaitSys} {a : WaitAct} (h : WaitInv s.os) (hsafe : WaitSafe s a)
    (hs : s.step A a = some s') : WaitInv s'.os := by
  cases a with
  | os a =>
    obtain ⟨-, hs⟩ := ite_none_left_eq_some.mp hs
    obtain ⟨os, hos, rfl⟩ := map_eq_some_iff.mp hs
    have hm := osMove_step h.kernel hos
    exact ⟨h.kernel.move hm, h.block.move h.kernel hm, h.park.move h.kernel h.block hsafe hm⟩
  | scan cpu ctx va =>
    obtain ⟨p, -, hs⟩ := bind_eq_some_iff.mp hs
    obtain ⟨f, -, hs⟩ := bind_eq_some_iff.mp hs
    obtain ⟨-, hs⟩ := ite_none_right_eq_some.mp hs
    cases hs
    exact h
  | park cpu =>
    obtain ⟨⟨ctx, va⟩, -, hs⟩ := bind_eq_some_iff.mp hs
    obtain ⟨p, hu, hs⟩ := bind_eq_some_iff.mp hs
    obtain ⟨f, hf, hs⟩ := bind_eq_some_iff.mp hs
    cases hs
    have hscan := reapScan_ok s.os.k p
    rw [hsafe p hu] at hscan
    obtain ⟨hno, hc⟩ := hscan.block_inv
    refine ⟨?_, h.block.park h.kernel hu hf, h.park.modify (fun _ => Or.inr ⟨hc, hno⟩) fun _ => ⟨rfl, rfl⟩⟩
    rw [trapped_k]
    exact h.kernel.modify fun _ => rfl

theorem parked_children_alive {as : List WaitAct} {s : WaitSys} (hboot : uprocInit A v uprogs = .ok k)
    (hc : Along (WaitSys.step A) WaitSafe (WaitSys.boot k) as)
    (hr : run (WaitSys.step A) (WaitSys.boot k) as = some s) :
    ∀ p ∈ s.os.k.ptable, (s.os.k.tasks p).waiting = true ∧ (s.os.k.tasks p).state = .blocked →
      (∃ t ∈ s.os.k.ptable, (s.os.k.tasks t).parent = some p) ∧
      ∀ t ∈ s.os.k.ptable, (s.os.k.tasks t).parent = some p → (s.os.k.tasks t).xstate = false := by
  have hinv : WaitInv s.os := run_inv_along (I := fun s => WaitInv s.os)
    (fun _ _ _ h hsafe hs => h.step hsafe hs) as _ s
    ⟨kernelInv_boot hboot, blockInv_boot hboot, parkInv_boot hboot⟩ hc hr
  intro p hp hx
  have hmay := hinv.park p hp hx.1
  exact ⟨hmay.child, hmay.alive⟩

end

def scanRun : List WaitAct :=
  [.os (.schedule 0 blankContext), .os (.syscall 0 blankContext 0 .fork), .os (.schedule 1 blankContext),
   .scan 0 blankContext 0, .os (.syscall 1 blankContext 0 .fork), .park 0, .os (.schedule 0 blankContext)]

theorem parked_children_alive_scan : ∃ v k s, uprocInit bumpAlloc v smallProgs = .ok k ∧
    run (WaitSys.step bumpAlloc) (WaitSys.boot k) scanRun = some s ∧ ∃ p ∈ s.os.k.ptable,
    (s.os.k.tasks p).waiting = true ∧ (∃ t ∈ s.os.k.ptable, (s.os.k.tasks t).parent = some p) ∧
    ∀ t ∈ s.os.k.ptable, (s.os.k.tasks t).parent = some p → (s.os.k.tasks t).xstate = false := by
  have hrun : (smallKernel.any fun k => passes (WaitSys.step bumpAlloc) (fun s a => decide (WaitSafe s a))
      (fun s => decide (∃ p ∈ s.os.k.ptable, (s.os.k.tasks p).waiting = true ∧ (s.os.k.tasks p).state = .blocked))
      (WaitSys.boot k) scanRun) = true := by decide +kernel
  obtain ⟨v, k, s, hboot, -, hr, hc, hl⟩ := small_passes (fun s a h => of_decide_eq_true h) hrun
  obtain ⟨p, hp, hw⟩ := of_decide_eq_true hl
  exact ⟨v, k, s, hboot, hr, p, hp, hw.1, parked_children_alive hboot hc hr p hp hw⟩

def lostRun : List WaitAct :=
  [.os (.schedule 0 blankContext), .os (.syscall 0 blankContext 0 .fork), .os (.schedule 1 blankContext),
   .scan 0 blankContext 0, .os (.syscall 1 blankContext 0 (.exit 0)), .park 0]

/-- The wake-up of 2 comes before init waits and is lost. -/
theorem wakeup_lost_after_scan : ∃ k ∈ smallKernel, ∃ s,
    run (WaitSys.step bumpAlloc) (WaitSys.boot k) lostRun = some s ∧
    ∃ p ∈ s.os.k.ptable, (s.os.k.tasks p).waiting = true ∧ (s.os.k.tasks p).state = .blocked ∧
      ∃ t ∈ s.os.k.ptable, (s.os.k.tasks t).parent = some p ∧ (s.os.k.tasks t).xstate = true := by
  have hrun : (smallKernel.any fun k => (run (WaitSys.step bumpAlloc) (WaitSys.boot k) lostRun).any fun s =>
      decide (∃ p ∈ s.os.k.ptable, (s.os.k.tasks p).waiting = true ∧ (s.os.k.tasks p).state = .blocked ∧
        ∃ t ∈ s.os.k.ptable, (s.os.k.tasks t).parent = some p ∧ (s.os.k.tasks t).xstate = true)) = true := by
    decide +kernel
  obtain ⟨k, hk, hrun⟩ := (any_eq_true _ _).mp hrun
  obtain ⟨s, hs, hl⟩ := (any_eq_true _ _).mp hrun
  exact ⟨k, hk, s, hs, of_decide_eq_true hl⟩

def grandchildRun : List OsAct :=
  [.schedule 0 blankContext, .syscall 0 blankContext 0 .fork, .schedule 0 blankContext,
   .syscall 0 blankContext 0 .fork, .schedule 0 blankContext, .syscall 0 blankContext 0 (.wait 0),
   .schedule 0 blankContext, .syscall 0 blankContext 0 .fork, .schedule 0 blankContext,
   .schedule 0 blankContext, .syscall 0 blankContext 0 (.exit 0), .schedule 0 blankContext]

/-- When 3 exits as well, the zombie 4 comes to init, which stays blocked in `wait`. -/
theorem orphan_zombie_unnoticed : ∃ s, osRun (grandchildRun ++ [.syscall 0 blankContext 0 (.exit 0)]) = some s ∧
    ∃ p ∈ s.k.ptable, (s.k.tasks p).waiting = true ∧ (s.k.tasks p).state = .blocked ∧
      ∃ t ∈ s.k.ptable, (s.k.tasks t).parent = some p ∧ (s.k.tasks t).xstate = true := by
  have hrun : ((osRun (grandchildRun ++ [.syscall 0 blankContext 0 (.exit 0)])).any fun s =>
      decide (∃ p ∈ s.k.ptable, (s.k.tasks p).waiting = true ∧ (s.k.tasks p).state = .blocked ∧
        ∃ t ∈ s.k.ptable, (s.k.tasks t).parent = some p ∧ (s.k.tasks t).xstate = true)) = true := by
    decide +kernel
  obtain ⟨s, hs, hl⟩ := (any_eq_true _ _).mp hrun
  exact ⟨s, hs, of_decide_eq_true hl⟩

end NjuOs
