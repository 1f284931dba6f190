import NjuOs.BlockSound

/-!
# Zombies

A dead process stays in the table as a blocked task until it is reaped. It keeps its flags,
and the clock and the death of a child make blocked tasks runnable on the strength of those
flags. `ZombieSafe` excludes the steps after which that can hit a zombie.
-/

namespace NjuOs

/-- No `kill` hits a process whose `sleeping` flag is set, or init while it waits; a killed
process that still runs on another CPU calls neither `sleep` nor `wait`. -/
def ZombieSafe (s : OsSys) : OsAct → Prop
  | .syscall _ _ _ (.kill pid) => ∀ t ∈ s.k.ptable.find? fun t => (s.k.tasks t).pid = pid,
    (s.k.tasks t).sleeping = false ∧ (s.k.initproc = some t → (s.k.tasks t).waiting = false)
  | .syscall c _ _ (.sleep _) => ∀ p ∈ s.user c, (s.k.tasks p).xstate = false
  | .syscall c _ _ (.wait _) => ∀ p ∈ s.user c, (s.k.tasks p).xstate = false
  | _ => True

instance (s : OsSys) (a : OsAct) : Decidable (ZombieSafe s a) := by
  induction a using OsAct.casesOn with
  | syscall c ctx now call => induction call using Syscall.casesOn <;> unfold ZombieSafe <;> infer_instance
  | _ => unfold ZombieSafe; infer_instance

structure ZombieOk (k : Kernel) (p : TaskRef) : Prop where
  blocked : (k.tasks p).state = .blocked
  awake : (k.tasks p).sleeping = false
  alone : (k.tasks p).waiting = true → k.initproc ≠ some p ∧ ∀ t ∈ k.ptable, (k.tasks t).parent ≠ some p

def ZombieInv (k : Kernel) : Prop := ∀ p ∈ k.ptable, (k.tasks p).xstate = true → ZombieOk k p

section
variable {k k' : Kernel} {p q : TaskRef} {status : Int}

theorem ZombieOk.congr (h : ZombieOk k p) (hi : k'.initproc = k.initproc)
    (hst : (k'.tasks p).state = .blocked) (hsl : (k'.tasks p).sleeping = (k.tasks p).sleeping)
    (hw : (k'.tasks p).waiting = true → (k.tasks p).waiting = true)
    (hch : (k.tasks p).waiting = true → ∀ t ∈ k'.ptable, (k'.tasks t).parent = some p →
      t ∈ k.ptable ∧ (k.tasks t).parent = some p) : ZombieOk k' p where
  blocked := hst
  awake := hsl.trans h.awake
  alone := by
    intro hx
    obtain ⟨h1, h2⟩ := h.alone (hw hx)
    refine ⟨by rw [hi]; exact h1, fun t ht hp => ?_⟩
    obtain ⟨h3, h4⟩ := hch (hw hx) t ht hp
    exact h2 t h3 h4

theorem ZombieInv.same (h : ZombieInv k) (hi : k'.initproc = k.initproc) (hsub : ∀ t ∈ k'.ptable, t ∈ k.ptable)
    (hz : ∀ t ∈ k'.ptable, (k'.tasks t).xstate = (k.tasks t).xstate)
    (hst : ∀ t ∈ k'.ptable, (k.tasks t).sleeping = false → (k.tasks t).state = .blocked → (k'.tasks t).state = .blocked)
    (hsl : ∀ t ∈ k'.ptable, (k.tasks t).xstate = true → (k'.tasks t).sleeping = (k.tasks t).sleeping)
    (hw : ∀ t ∈ k'.ptable, (k.tasks t).xstate = true → (k'.tasks t).waiting = (k.tasks t).waiting)
    (hp : ∀ t ∈ k'.ptable, (k'.tasks t).parent = (k.tasks t).parent) : ZombieInv k' := by
  intro t ht hx
  have hx : (k.tasks t).xstate = true := hz t ht ▸ hx
  have hold := h t (hsub t ht) hx
  refine hold.congr hi (hst t ht hold.awake hold.blocked) (hsl t ht hx) (fun hw' => hw t ht hx ▸ hw') ?_
  intro _ u hu hpar
  exact ⟨hsub u hu, hp u hu ▸ hpar⟩

/-- A zombie that waits is nobody's parent, so no death wakes it. -/
theorem ZombieOk.not_parent (h : ZombieOk k p) (hw : (k.tasks p).waiting = true) (hq : q ∈ k.ptable) :
    newParent k q q ≠ some p := by
  obtain ⟨h1, h2⟩ := h.alone hw
  unfold newParent
  split
  · exact h1
  · exact h2 q hq

theorem ZombieInv.died (h : ZombieInv k) (hd : Died k q status k') (hq : q ∈ k.ptable)
    (hsl : (k.tasks q).sleeping = false) (hinit : k.initproc = some q → (k.tasks q).waiting = false) :
    ZombieInv k' := by
  intro p hp hx
  rw [hd.ptable] at hp
  have hwait : (k'.tasks p).waiting = true → (k.tasks p).waiting = true := by
    intro hw
    rw [hd.waiting p] at hw
    split at hw
    · cases hw
    · exact hw
  by_cases hpq : p = q
  · subst hpq
    refine ⟨by rw [hd.state, if_pos rfl], (hd.field Task.sleeping (fun _ => rfl) p).trans hsl, fun hw => ?_⟩
    have hne : k.initproc ≠ some p := by
      intro hi
      rw [hinit hi] at hwait
      cases hwait hw
    refine ⟨by rw [hd.initproc]; exact hne, fun t ht hpar => ?_⟩
    -- its children went to init
    rw [hd.ptable] at ht
    rw [hd.parent t, newParent] at hpar
    split at hpar
    · exact hne hpar
    · next hc => exact hc ⟨ht, hpar⟩
  · rw [hd.xstate p, if_neg hpq] at hx
    have hold := h p hp hx
    refine hold.congr hd.initproc ?_ (hd.field Task.sleeping (fun _ => rfl) p) hwait ?_
    · rw [hd.state p, if_neg hpq, if_neg fun hc => hold.not_parent hc.2 hq hc.1]
      exact hold.blocked
    · intro hw t ht hpar
      rw [hd.ptable] at ht
      rw [hd.parent t, newParent] at hpar
      split at hpar
      · exact absurd hpar (hold.alone hw).1
      · exact ⟨ht, hpar⟩

theorem ZombieInv.tick (h : ZombieInv k) (now : Nat) : ZombieInv (uprocTick k now) := by
  obtain ⟨hf, -⟩ := uprocTick_frame k now
  refine h.same hf.initproc (fun t ht => hf.ptable ▸ ht) (fun t _ => uprocTick_field Task.xstate (fun _ _ => rfl) now t)
    ?_ (fun t _ _ => uprocTick_field Task.sleeping (fun _ _ => rfl) now t)
    (fun t _ _ => uprocTick_field Task.waiting (fun _ _ => rfl) now t)
    (fun t _ => uprocTick_field Task.parent (fun _ _ => rfl) now t)
  intro t _ hsl hst
  have hno : ¬((k.tasks t).isUser ∧ (k.tasks t).sleeping ∧ (k.tasks t).state = .blocked ∧ (k.tasks t).wakeUs ≤ now) := by
    rw [hsl]
    simp
  rw [uprocTick_tasks, Task.ticked, if_neg hno, ite_self]
  exact hst

theorem ZombieInv.born {n : Nat} {par : Option TaskRef} {redo : Option Blocking} {new : List (Nat × Nat)}
    (h : ZombieInv k) (hk : KernelInv k) (hb : Born n par redo new k k')
    (hpar : ∀ p, par = some p → (k.tasks p).waiting = false) : ZombieInv k' := by
  have hnew := (hk.toKernelBase.born hb).1
  have hsplit : ∀ t ∈ k'.ptable, t ∈ k.ptable ∧ k'.tasks t = k.tasks t ∨ t = .proc n := by
    intro t ht
    rw [hb.ptable] at ht
    rcases List.mem_append.mp ht with ht | ht
    · exact Or.inl ⟨ht, hb.other t fun he => hnew (he ▸ ht)⟩
    · exact Or.inr (List.mem_singleton.mp ht)
  intro p hp hx
  rcases hsplit p hp with ⟨hp, hsame⟩ | rfl
  · rw [hsame] at hx
    have hold := h p hp hx
    refine hold.congr hb.initproc (hsame ▸ hold.blocked) (by rw [hsame]) (by rw [hsame]; exact id) ?_
    intro hw t ht hpt
    rcases hsplit t ht with ⟨ht, hs⟩ | rfl
    · exact ⟨ht, hs ▸ hpt⟩
    · have hpp : par = some p := (hb.field Task.parent fun _ => rfl).symm.trans hpt
      rw [hpar p hpp] at hw
      cases hw
  · have hz : (k'.tasks (.proc n)).xstate = false := hb.field Task.xstate fun _ => rfl
    rw [hz] at hx
    cases hx

theorem ZombieInv.modify {g : Task → Task} (h : ZombieInv k) (hz : (k.tasks p).xstate = false)
    (hg : ∀ x, (g x).xstate = x.xstate ∧ (g x).parent = x.parent) : ZombieInv (k.modify p g) := by
  have hsame : ∀ t, ((k.modify p g).tasks t).xstate = (k.tasks t).xstate := modify_field Task.xstate (hg _).1
  intro t ht hx
  have hx : (k.tasks t).xstate = true := hsame t ▸ hx
  -- the caller of `sleep` or `wait` is alive
  have hne : t ≠ p := by
    intro he
    rw [he, hz] at hx
    cases hx
  have hold := h t ht hx
  have htt : (k.modify p g).tasks t = k.tasks t := modify_tasks_ne hne
  refine hold.congr rfl (htt ▸ hold.blocked) (by rw [htt]) (by rw [htt]; exact id) ?_
  intro _ u hu hpar
  exact ⟨hu, modify_field Task.parent (hg _).2 u ▸ hpar⟩

end

section
variable {A : Allocator} {s s' : OsSys} {a : OsAct}

theorem ZombieInv.move (h : ZombieInv s.k) (hk : KernelInv s.k) (hb : BlockInv s) (hsafe : ZombieSafe s a)
    (hm : OsMove s a s') : ZombieInv s'.k := by
  cases hm with
  | sched _ hsw =>
    exact h.same rfl (fun _ ht => ht) (fun t _ => hsw.field Task.xstate (fun _ _ _ => rfl) (fun _ _ _ _ _ => rfl) t)
      (fun t _ _ => (hsw.blocked_iff t).mpr)
      (fun t _ _ => hsw.field Task.sleeping (fun _ _ _ => rfl) (fun _ _ _ _ _ => rfl) t)
      (fun t _ _ => hsw.field Task.waiting (fun _ _ _ => rfl) (fun _ _ _ _ _ => rfl) t)
      fun t _ => hsw.field Task.parent (fun _ _ _ => rfl) (fun _ _ _ _ _ => rfl) t
  | tick now => exact h.tick now
  | mem _ _ hm =>
    exact h.same hm.initproc (fun t ht => hm.ptable ▸ ht) (fun t _ => hm.field Task.xstate (fun _ => rfl) t)
      (fun t _ _ hst => (hm.field Task.state (fun _ => rfl) t).trans hst)
      (fun t _ _ => hm.field Task.sleeping (fun _ => rfl) t) (fun t _ _ => hm.field Task.waiting (fun _ => rfl) t)
      fun t _ => hm.field Task.parent (fun _ => rfl) t
  | fork hu _ hborn =>
    refine h.born hk hborn fun p hp => ?_
    cases hp
    exact (hb _ (hk.user_mem hu)).user hu
  | spawn hborn => exact h.born hk hborn fun p hp => by cases hp
  | exit hu hf0 hi hd =>
    have hmem := hk.user_mem hu
    exact h.died hd hmem ((hb _ hmem).awake hu hf0 fun n hn => by cases hn) fun he => absurd he hi
  | fault hu hr hi hd =>
    have hmem := hk.user_mem hu
    exact h.died hd hmem ((hb _ hmem).awake_of_redo hu hr) fun he => absurd he hi
  | kill _ _ ht _ hd =>
    obtain ⟨h1, h2⟩ := hsafe _ ht
    exact h.died hd (List.mem_of_find?_eq_some ht) h1 h2
  | sleepStart hu => exact h.modify (hsafe _ hu) fun _ => ⟨rfl, rfl⟩
  | sleepDone hu => exact h.modify (hsafe _ hu) fun _ => ⟨rfl, rfl⟩
  | sleepAgain hu => exact h.modify (hsafe _ hu) fun _ => ⟨rfl, rfl⟩
  | park hu => exact h.modify (hsafe _ hu) fun _ => ⟨rfl, rfl⟩
  | retry => exact h
  | reap _ _ hr =>
    have hsub := fun t ht => (hr.mem_iff (t := t) hk).mp ht
    exact h.same hr.initproc (fun t ht => (hsub t ht).1)
      (fun t ht => hr.field (hsub t ht).2 Task.xstate fun _ _ => rfl)
      (fun t ht _ hst => (hr.field (hsub t ht).2 Task.state fun _ _ => rfl).trans hst)
      (fun t ht _ => hr.field (hsub t ht).2 Task.sleeping fun _ _ => rfl)
      (fun t ht _ => hr.field (hsub t ht).2 Task.waiting fun _ _ => rfl)
      fun t ht => hr.field (hsub t ht).2 Task.parent fun _ _ => rfl

theorem OsMove.xstate (hk : KernelInv s.k) (hm : OsMove s a s') {p : TaskRef} (hp : p ∈ s.k.ptable)
    (hp' : p ∈ s'.k.ptable) (hz : (s.k.tasks p).xstate = true) : (s'.k.tasks p).xstate = true := by
  have hdied : ∀ {q : TaskRef} {status : Int} {k' : Kernel}, Died s.k q status k' → (k'.tasks p).xstate = true := by
    intro q status k' hd
    rw [hd.xstate p, hz, ite_self]
  cases hm with
  | sched _ hsw => exact (hsw.field Task.xstate (fun _ _ _ => rfl) (fun _ _ _ _ _ => rfl) p).trans hz
  | tick now => exact (uprocTick_field Task.xstate (fun _ _ => rfl) now p).trans hz
  | mem _ _ hm => exact (hm.field Task.xstate (fun _ => rfl) p).trans hz
  | fork _ _ hb =>
    have hnew := (hk.toKernelBase.born hb).1
    exact (congrArg Task.xstate (hb.other p fun he => hnew (he ▸ hp))).trans hz
  | spawn hb =>
    have hnew := (hk.toKernelBase.born hb).1
    exact (congrArg Task.xstate (hb.other p fun he => hnew (he ▸ hp))).trans hz
  | exit _ _ _ hd => exact hdied hd
  | fault _ _ _ hd => exact hdied hd
  | kill _ _ _ _ hd => exact hdied hd
  | sleepStart => exact (modify_field Task.xstate (by rfl) p).trans hz
  | sleepDone => exact (modify_field Task.xstate (by rfl) p).trans hz
  | sleepAgain => exact (modify_field Task.xstate (by rfl) p).trans hz
  | park => exact (modify_field Task.xstate (by rfl) p).trans hz
  | retry => exact hz
  | reap _ _ hr => exact (hr.field ((hr.mem_iff hk).mp hp').2 Task.xstate fun _ _ => rfl).trans hz

/-- A CPU gets a task from `kmt_schedule` only, and a process only when it is runnable. -/
theorem OsMove.scheduled (hk : KernelInv s.k) (hm : OsMove s a s') {p : TaskRef} {c : Nat} (hp : p ∈ s.k.ptable)
    (hst : (s.k.tasks p).state ≠ .runnable) (hc : s'.k.current c = some p) :
    s.k.current c = some p ∧ ∀ ctx, a ≠ .schedule c ctx := by
  cases hm with
  | @sched d ctx rc next k' hcpu hsw =>
    have hc : k'.current c = some p := hc
    rw [hsw.current] at hc
    by_cases hcd : c = d
    · subst hcd
      rw [Function.update_self] at hc
      obtain rfl := Option.some.inj hc
      rcases hsw.picked with rfl | ⟨hr, -⟩
      · obtain ⟨n, hn⟩ := hk.procs _ hp
        cases hn
      · exact absurd hr hst
    · rw [Function.update_of_ne hcd] at hc
      refine ⟨hc, fun ctx he => ?_⟩
      cases he
      exact hcd rfl
  | tick now => exact ⟨by rw [← (uprocTick_frame s.k now).1.current]; exact hc, fun ctx he => by cases he⟩
  | mem _ _ hm => exact ⟨by rw [← hm.current]; exact hc, fun ctx he => by cases he⟩
  | fork _ _ hb => exact ⟨by rw [← hb.current]; exact hc, fun ctx he => by cases he⟩
  | spawn hb => exact ⟨by rw [← hb.current]; exact hc, fun ctx he => by cases he⟩
  | exit _ _ _ hd => exact ⟨by rw [← hd.current]; exact hc, fun ctx he => by cases he⟩
  | fault _ _ _ hd => exact ⟨by rw [← hd.current]; exact hc, fun ctx he => by cases he⟩
  | kill _ _ _ _ hd => exact ⟨by rw [← hd.current]; exact hc, fun ctx he => by cases he⟩
  | reap _ _ hr => exact ⟨by rw [← hr.current]; exact hc, fun ctx he => by cases he⟩
  | _ => exact ⟨hc, fun ctx he => by cases he⟩

end

section
variable {A : Allocator} {v : Vfs} {uprogs : List (List UInt8 × List UInt8)} {k : Kernel} {as : List OsAct} {s : OsSys}

theorem zombieInv_boot (h : uprocInit A v uprogs = .ok k) : ZombieInv k := by
  obtain ⟨n, new, k1, hb, rfl⟩ := uprocInit_ok h
  intro p hp hx
  have hp : p ∈ k1.ptable := hp
  rw [hb.ptable] at hp
  obtain rfl := List.mem_singleton.mp hp
  have hz : (k1.tasks (.proc n)).xstate = false := hb.field Task.xstate fun _ => rfl
  exact absurd (hz.symm.trans hx) (by simp)

theorem zombieInv_run (hboot : uprocInit A v uprogs = .ok k)
    (hc : Along (OsSys.step A) ZombieSafe (OsSys.boot k) as)
    (hr : run (OsSys.step A) (OsSys.boot k) as = some s) : KernelInv s.k ∧ BlockInv s ∧ ZombieInv s.k := by
  refine run_inv_along (I := fun s => KernelInv s.k ∧ BlockInv s ∧ ZombieInv s.k) ?_ as _ s
    ⟨kernelInv_boot hboot, blockInv_boot hboot, zombieInv_boot hboot⟩ hc hr
  rintro s a s' ⟨hk, hb, hz⟩ hsafe hs
  have hm := osMove_step hk hs
  exact ⟨hk.move hm, hb.move hk hm, hz.move hk hb hsafe hm⟩

theorem zombies_stay_blocked (hboot : uprocInit A v uprogs = .ok k)
    (hc : Along (OsSys.step A) ZombieSafe (OsSys.boot k) as)
    (hr : run (OsSys.step A) (OsSys.boot k) as = some s) :
    ∀ p ∈ s.k.ptable, (s.k.tasks p).xstate = true → (s.k.tasks p).state = .blocked ∧
      ∀ a s', s.step A a = some s' → (p ∈ s'.k.ptable → (s'.k.tasks p).xstate = true) ∧
        ∀ c, s'.k.current c = some p → s.k.current c = some p ∧ ∀ ctx, a ≠ .schedule c ctx := by
  obtain ⟨hk, -, hz⟩ := zombieInv_run hboot hc hr
  intro p hp hx
  have hst := (hz p hp hx).blocked
  refine ⟨hst, fun a s' hs => ?_⟩
  have hm := osMove_step hk hs
  refine ⟨fun hp' => hm.xstate hk hp hp' hx, fun c hc => hm.scheduled hk hp ?_ hc⟩
  rw [hst]
  simp

end

theorem zombies_stay_blocked_family : ∃ s, osRun (familyRun.take 8) = some s ∧
    ∃ p ∈ s.k.ptable, (s.k.tasks p).xstate = true ∧ (s.k.tasks p).state = .blocked := by
  have hrun : (smallKernel.any fun k => passes (OsSys.step bumpAlloc) (fun s a => decide (ZombieSafe s a))
      (fun s => decide (∃ p ∈ s.k.ptable, (s.k.tasks p).xstate = true)) (OsSys.boot k)
      (familyRun.take 8)) = true := by decide +kernel
  obtain ⟨v, k, s, hboot, hs, hr, hc, hl⟩ := small_passes (fun s a h => of_decide_eq_true h) hrun
  obtain ⟨p, hp, hz⟩ := of_decide_eq_true hl
  exact ⟨s, hs, p, hp, hz, (zombies_stay_blocked hboot hc hr p hp hz).1⟩

def killedSleeperRun : List OsAct :=
  [.schedule 0 blankContext, .syscall 0 blankContext 0 .fork, .schedule 0 blankContext,
   .syscall 0 blankContext 0 (.sleep 1), .schedule 0 blankContext, .syscall 0 blankContext 0 (.kill 2),
   .tick 2000000, .schedule 0 blankContext]

/-- After the `kill` the child is a zombie that no CPU runs; two steps later CPU 0 runs it. -/
theorem killed_sleeper_runs : ∃ s s', osRun (killedSleeperRun.take 6) = some s ∧ osRun killedSleeperRun = some s' ∧
    ∃ p ∈ s.k.ptable, (s.k.tasks p).xstate = true ∧ s.k.current 0 ≠ some p ∧
      p ∈ s'.k.ptable ∧ (s'.k.tasks p).xstate = true ∧ (s'.k.tasks p).state = .runnable ∧
      s'.k.current 0 = some p := by
  have hrun : ((osRun (killedSleeperRun.take 6)).any fun s =>
      (run (OsSys.step bumpAlloc) s (killedSleeperRun.drop 6)).any fun s' =>
        decide (∃ p ∈ s.k.ptable, (s.k.tasks p).xstate = true ∧ s.k.current 0 ≠ some p ∧ p ∈ s'.k.ptable ∧
          (s'.k.tasks p).xstate = true ∧ (s'.k.tasks p).state = .runnable ∧ s'.k.current 0 = some p)) = true := by
    decide +kernel
  obtain ⟨s, hs, hl⟩ := (Option.any_eq_true _ _).mp hrun
  obtain ⟨s', hr', hl⟩ := (Option.any_eq_true _ _).mp hl
  obtain ⟨v, k, hk, -, hr⟩ := osRun_some hs
  have hs' : osRun killedSleeperRun = some s' := by
    rw [osRun, hk]
    exact (run_append hr).trans hr'
  exact ⟨s, s', hs, hs', of_decide_eq_true hl⟩

end NjuOs
