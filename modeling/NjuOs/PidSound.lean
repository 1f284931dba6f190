import NjuOs.OsSound

/-!
# The process table and `wait`

The pids that were ever given out are those of the table together with those that `wait`
has returned, and no pid is given out twice.
-/

namespace NjuOs

open List

structure PidInv (s : OsSys) : Prop where
  table : ((s.k.ptable.map fun t => (s.k.tasks t).pid) ++ s.waited.map Prod.snd).Perm s.born
  fresh : ∀ n ∈ s.born, 1 ≤ n ∧ n < s.k.nextPid
  nodup : s.born.Nodup
  room : s.k.ptable.length ≤ maxproc

section
variable {s s' : OsSys} {a : OsAct}

theorem PidInv.congr (h : PidInv s) (ht : s'.k.ptable = s.k.ptable) (hn : s'.k.nextPid = s.k.nextPid)
    (hpid : ∀ t, (s'.k.tasks t).pid = (s.k.tasks t).pid) (hb : s'.born = s.born) (hw : s'.waited = s.waited) :
    PidInv s' where
  table := by rw [ht, hb, hw]; simp only [hpid]; exact h.table
  fresh := by rw [hb, hn]; exact h.fresh
  nodup := by rw [hb]; exact h.nodup
  room := by rw [ht]; exact h.room

theorem PidInv.frame (h : PidInv s) (hf : Frame s.k s'.k) (hpid : ∀ t, (s'.k.tasks t).pid = (s.k.tasks t).pid)
    (hb : s'.born = s.born) (hw : s'.waited = s.waited) : PidInv s' :=
  h.congr hf.ptable hf.nextPid hpid hb hw

theorem PidInv.modify (h : PidInv s) {c : Nat} {p : TaskRef} {g : Task → Task} {f : Context} {b : Bool}
    (hg : ∀ x, (g x).pid = x.pid) : PidInv (s.trapped c (s.k.modify p g) f b) :=
  h.congr rfl rfl (modify_field Task.pid (hg _)) rfl rfl

theorem PidInv.born (h : PidInv s) (hk : KernelInv s.k) {n : Nat} {par : Option TaskRef} {redo : Option Blocking}
    {new : List (Nat × Nat)} (hb : Born n par redo new s.k s'.k) (hborn : s'.born = s.born ++ [s.k.nextPid])
    (hw : s'.waited = s.waited) : PidInv s' := by
  have hnew := (hk.toKernelBase.born hb).1
  have hold : (s.k.ptable.map fun t => (s'.k.tasks t).pid) = s.k.ptable.map fun t => (s.k.tasks t).pid := by
    refine map_congr_left fun t ht => ?_
    rw [hb.other t fun he => hnew (he ▸ ht)]
  have hpid : (s'.k.tasks (.proc n)).pid = s.k.nextPid := hb.field Task.pid fun _ => rfl
  constructor
  case table =>
    rw [hborn, hw, hb.ptable, map_append, hold, map_cons, map_nil, hpid]
    calc ((s.k.ptable.map fun t => (s.k.tasks t).pid) ++ [s.k.nextPid]) ++ s.waited.map Prod.snd
        = (s.k.ptable.map fun t => (s.k.tasks t).pid) ++ ([s.k.nextPid] ++ s.waited.map Prod.snd) := by
          rw [append_assoc]
      List.Perm _ ((s.k.ptable.map fun t => (s.k.tasks t).pid) ++ (s.waited.map Prod.snd ++ [s.k.nextPid])) :=
          List.Perm.append_left _ perm_append_comm
      _ = ((s.k.ptable.map fun t => (s.k.tasks t).pid) ++ s.waited.map Prod.snd) ++ [s.k.nextPid] := by
          rw [append_assoc]
      List.Perm _ (s.born ++ [s.k.nextPid]) := h.table.append_right _
  case fresh =>
    intro i hi
    rw [hb.nextPid]
    rw [hborn] at hi
    rcases mem_append.mp hi with hi | hi
    · have := h.fresh i hi
      omega
    · have hi := mem_singleton.mp hi
      -- init was born before every other process, so that the counter has left 0
      obtain ⟨i0, -, hm, -⟩ := hk.init
      have := h.fresh _ (h.table.subset (mem_append_left _ (mem_map_of_mem hm)))
      omega
  case nodup =>
    rw [hborn]
    refine nodup_append'.mpr ⟨h.nodup, nodup_singleton _, ?_⟩
    intro i hi hi'
    have := h.fresh i hi
    have := mem_singleton.mp hi'
    omega
  case room =>
    rw [hb.ptable, length_append, length_singleton]
    exact hb.room

theorem PidInv.reaped (h : PidInv s) (hk : KernelInv s.k) {p c : TaskRef} (hr : Reaped s.k p c s'.k)
    (hb : s'.born = s.born) (hw : s'.waited = s.waited ++ [(p, (s.k.tasks c).pid)]) : PidInv s' := by
  have hlen : s'.k.ptable.length + 1 = s.k.ptable.length := by rw [← hr.table.length_eq, length_cons]
  refine ⟨?_, by rw [hb, hr.nextPid]; exact h.fresh, by rw [hb]; exact h.nodup, by have := h.room; omega⟩
  have hold : (s'.k.ptable.map fun t => (s'.k.tasks t).pid) = s'.k.ptable.map fun t => (s.k.tasks t).pid := by
    refine map_congr_left fun t ht => ?_
    exact hr.field ((hr.mem_iff hk).mp ht).2 Task.pid fun _ _ => rfl
  rw [hold, hb, hw, map_append, ← append_assoc]
  refine List.Perm.trans perm_append_comm ?_
  exact ((hr.table.map fun t => (s.k.tasks t).pid).append_right (s.waited.map Prod.snd)).trans h.table

theorem PidInv.move (h : PidInv s) (hk : KernelInv s.k) (hm : OsMove s a s') : PidInv s' := by
  cases hm with
  | sched _ hsw =>
    exact h.congr rfl rfl (hsw.field Task.pid (fun _ _ _ => rfl) fun _ _ _ _ _ => rfl) rfl rfl
  | tick now =>
    exact h.frame (uprocTick_frame s.k now).1 (uprocTick_field Task.pid (fun _ _ => rfl) now) rfl rfl
  | mem _ _ hm => exact h.frame hm.toFrame (hm.field Task.pid fun _ => rfl) rfl rfl
  | fork _ _ hb => exact h.born hk hb rfl rfl
  | spawn hb => exact h.born hk hb rfl rfl
  | exit _ _ _ hd => exact h.frame hd.toFrame (hd.field Task.pid fun _ => rfl) rfl rfl
  | fault _ _ _ hd => exact h.frame hd.toFrame (hd.field Task.pid fun _ => rfl) rfl rfl
  | kill _ _ _ _ hd => exact h.frame hd.toFrame (hd.field Task.pid fun _ => rfl) rfl rfl
  | sleepStart => exact h.modify fun _ => rfl
  | sleepDone => exact h.modify fun _ => rfl
  | sleepAgain => exact h.modify fun _ => rfl
  | park => exact h.modify fun _ => rfl
  | retry => exact h.frame (Frame.refl s.k) (fun _ => rfl) rfl rfl
  | reap _ _ hr => exact h.reaped hk hr rfl rfl

/-- `waited` grows only when a parent reaps a child of its own. -/
theorem OsMove.waited (hm : OsMove s a s') : s'.waited = s.waited ∨ ∃ c ctx now va p child,
    a = .syscall c ctx now (.wait va) ∧ s.user c = some p ∧ child ∈ s.k.ptable ∧
      (s.k.tasks child).parent = some p ∧ s'.waited = s.waited ++ [(p, (s.k.tasks child).pid)] := by
  cases hm with
  | reap hu _ hr => exact Or.inr ⟨_, _, _, _, _, _, rfl, hu, hr.mem, hr.child.1, rfl⟩
  | _ => exact Or.inl rfl

end

/-! ## What `wait` answers -/

/-- The four outcomes of a `wait` by `p` on CPU `c`. A rewound call has not returned. -/
inductive WaitOutcome (s : OsSys) (c va : Nat) (p : TaskRef) (s' : OsSys) : Prop
  | reaped {child : TaskRef} (hc : child ∈ s.k.ptable) (hp : (s.k.tasks child).parent = some p)
    (hz : (s.k.tasks child).xstate = true) (hpid : 0 < (s.k.tasks child).pid)
    (hret : (s'.uctx c).gprx = (s.k.tasks child).pid) (hdone : (s'.uctx c).redo = none)
    (hw : s'.waited = s.waited ++ [(p, (s.k.tasks child).pid)])
    (ht : (child :: s'.k.ptable).Perm s.k.ptable)
  | none (hno : ∀ t ∈ s.k.ptable, (s.k.tasks t).parent ≠ some p) (hret : (s'.uctx c).gprx = -1)
    (hdone : (s'.uctx c).redo = none) (hw : s'.waited = s.waited) (ht : s'.k.ptable = s.k.ptable)
  | retry {child : TaskRef} (hno : ∀ t ∈ s.k.ptable, ¬Reapable s.k p t) (hc : child ∈ s.k.ptable)
    (hp : (s.k.tasks child).parent = some p) (hz : (s.k.tasks child).xstate = true)
    (hredo : (s'.uctx c).redo = some (.wait va)) (hw : s'.waited = s.waited) (ht : s'.k.ptable = s.k.ptable)
  | block {child : TaskRef} (hno : ∀ t ∈ s.k.ptable, ¬Reapable s.k p t) (hc : child ∈ s.k.ptable)
    (hp : (s.k.tasks child).parent = some p) (hb : (s'.k.tasks p).waiting = true ∧ (s'.k.tasks p).state = .blocked)
    (hredo : (s'.uctx c).redo = some (.wait va)) (hw : s'.waited = s.waited) (ht : s'.k.ptable = s.k.ptable)

theorem wait_outcome {A : Allocator} {s s' : OsSys} {c now va : Nat} {ctx : Context} (hk : KernelInv s.k)
    (hp : PidInv s) (h : s.step A (.syscall c ctx now (.wait va)) = some s') :
    ∃ p, s.user c = some p ∧ WaitOutcome s c va p s' := by
  obtain ⟨p, hu, h⟩ := Option.bind_eq_some_iff.mp h
  obtain ⟨f0, hf0, h⟩ := Option.bind_eq_some_iff.mp h
  have hredo := callFrame_redo hf0
  refine ⟨p, hu, ?_⟩
  cases hd : doSyscall A s.k p f0 now (.wait va) with
  | error e => rw [hd] at h; cases h
  | ok res =>
    obtain ⟨k', f, b⟩ := res
    rw [hd] at h
    cases h
    obtain ⟨⟨k1, r, pid, st⟩, h1, hd⟩ := bind_ok hd
    rcases tryReap_ok hk.own hk.procs h1 with ⟨child, rfl, rfl, -, hr⟩ | ⟨rfl, hnr, hsc⟩
    · simp only [pure_eq_ok, Prod.mk.injEq] at hd
      obtain ⟨rfl, rfl, rfl⟩ := hd
      have hpos := (hp.fresh _ (hp.table.subset (mem_append_left _ (mem_map_of_mem hr.mem)))).1
      refine .reaped hr.mem hr.child.1 hr.child.2.1 hpos ?_ ?_ ?_ hr.table
      · simp [OsSys.trapped]
      · simpa [OsSys.trapped] using hredo
      · simp [waitedBy, h1]
    · cases r with
      | reaped child => exact absurd rfl (hnr child)
      | none =>
        simp only [pure_eq_ok, Prod.mk.injEq] at hd
        obtain ⟨rfl, rfl, rfl⟩ := hd
        refine .none hsc.none_inv ?_ ?_ ?_ rfl
        · simp [OsSys.trapped]
        · simpa [OsSys.trapped] using hredo
        · simp [waitedBy, h1]
      | retry =>
        simp only [pure_eq_ok, Prod.mk.injEq] at hd
        obtain ⟨rfl, rfl, rfl⟩ := hd
        obtain ⟨hno, child, hc, hpar, hz⟩ := hsc.retry_inv
        refine .retry hno hc hpar hz ?_ ?_ rfl
        · simp [OsSys.trapped, rewindSyscall]
        · simp [waitedBy, h1]
      | block =>
        simp only [pure_eq_ok, Prod.mk.injEq] at hd
        obtain ⟨rfl, rfl, rfl⟩ := hd
        obtain ⟨hno, child, hc, hpar⟩ := hsc.block_inv
        refine .block ?_ hc hpar ?_ ?_ ?_ rfl
        · intro t ht hre
          have := hno t ht hre.1
          rw [hre.2.1] at this
          cases this
        · simp
        · simp [OsSys.trapped, rewindSyscall]
        · simp [waitedBy, h1]

/-! ## The table over whole runs -/

structure TableExact (s : OsSys) : Prop where
  nodup : s.k.ptable.Nodup
  room : s.k.ptable.length ≤ maxproc
  exact : ((s.k.ptable.map fun t => (s.k.tasks t).pid) ++ s.waited.map Prod.snd).Perm s.born
  pids : (s.k.ptable.map fun t => (s.k.tasks t).pid).Nodup
  born : s.born.Nodup
  once : (s.waited.map Prod.snd).Nodup

theorem PidInv.exact {s : OsSys} (hk : KernelInv s.k) (h : PidInv s) : TableExact s := by
  have hnd := h.table.nodup_iff.mpr h.nodup
  exact {
    nodup := hk.nodup
    room := h.room
    exact := h.table
    pids := hnd.of_append_left
    born := h.nodup
    once := hnd.of_append_right }

section
variable {A : Allocator} {v : Vfs} {uprogs : List (List UInt8 × List UInt8)} {k : Kernel} {as : List OsAct} {s : OsSys}

theorem pidInv_boot (h : uprocInit A v uprogs = .ok k) : PidInv (OsSys.boot k) := by
  obtain ⟨n, new, k1, hb, rfl⟩ := uprocInit_ok h
  have hpid : (k1.tasks (.proc n)).pid = 1 := hb.field Task.pid fun _ => rfl
  have htab : k1.ptable = [.proc n] := hb.ptable
  constructor
  case table => simp [OsSys.boot]
  case fresh =>
    intro i hi
    simp only [OsSys.boot, htab, map_cons, map_nil, hpid, mem_singleton] at hi
    simp only [OsSys.boot, hb.nextPid, hi]
    exact ⟨le_rfl, Int.lt_succ 1⟩
  case nodup => simp [OsSys.boot, htab]
  case room => simp [OsSys.boot, htab, maxproc]

theorem pidInv_run (hboot : uprocInit A v uprogs = .ok k) (hr : run (OsSys.step A) (OsSys.boot k) as = some s) :
    KernelInv s.k ∧ PidInv s := by
  refine run_inv (I := fun s => KernelInv s.k ∧ PidInv s) ?_ as _ s ⟨kernelInv_boot hboot, pidInv_boot hboot⟩ hr
  rintro s a s' ⟨hk, hp⟩ hs
  exact ⟨hk.step hs, hp.move hk (osMove_step hk hs)⟩

end

end NjuOs
