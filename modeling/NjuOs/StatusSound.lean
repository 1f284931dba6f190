import NjuOs.FamilySound

/-!
# Exit statuses

`sys_exit`, `sys_kill` and the page-fault handler store `exit_status` whether or not the process
is a zombie already. The system below remembers, beside the kernel, the status each process
first died with and what `wait` stored through its argument.
-/

namespace NjuOs

open List

def OsAct.deathStatus : OsAct → Int
  | .syscall _ _ _ (.exit status) => status
  | _ => -1

def newlyDead (s s' : OsSys) : List TaskRef :=
  s.k.ptable.filter fun t => (s.k.tasks t).xstate = false ∧ (s'.k.tasks t).xstate = true

/-- The pid that `wait` returns with the status it stores: `*(int *)a0 = st`. -/
def reportedBy (k : Kernel) (p : TaskRef) : Syscall → List (Int × Int)
  | .wait va =>
    if va ≠ 0 ∧ userOk va 4 then
      match tryReap k p with
      | .ok (_, .reaped _, pid, st) => [(pid, st)]
      | _ => []
    else []
  | _ => []

def OsSys.reported (s : OsSys) : OsAct → List (Int × Int)
  | .syscall cpu _ _ call =>
    match s.user cpu with
    | some p => reportedBy s.k p call
    | none => []
  | _ => []

structure DeathSys where
  os : OsSys
  /-- pid and status of each process, as of its first death -/
  deaths : List (Int × Int)
  reports : List (Int × Int)

def DeathSys.boot (k : Kernel) : DeathSys := ⟨OsSys.boot k, [], []⟩

def DeathSys.step (A : Allocator) (s : DeathSys) (a : OsAct) : Option DeathSys :=
  (s.os.step A a).map fun s' =>
    { os := s'
      deaths := s.deaths ++ (newlyDead s.os s').map fun t => ((s.os.k.tasks t).pid, a.deathStatus)
      reports := s.reports ++ s.os.reported a }

/-- No zombie is killed, exits or faults. -/
def StatusSafe (s : DeathSys) : OsAct → Prop
  | .syscall c _ _ (.kill pid) => ∀ p ∈ s.os.user c,
    ∀ t ∈ s.os.k.ptable.find? fun t => (s.os.k.tasks t).pid = pid, t ≠ p → (s.os.k.tasks t).xstate = false
  | .syscall c _ _ (.exit _) => ∀ p ∈ s.os.user c, (s.os.k.tasks p).xstate = false
  | .pageFault c _ => ∀ p ∈ s.os.user c, (s.os.k.tasks p).xstate = false
  | _ => True

instance (s : DeathSys) (a : OsAct) : Decidable (StatusSafe s a) := by
  induction a using OsAct.casesOn with
  | syscall c ctx now call => induction call using Syscall.casesOn <;> unfold StatusSafe <;> infer_instance
  | _ => unfold StatusSafe; infer_instance

structure StatusExact (s : DeathSys) : Prop where
  once : (s.deaths.map Prod.fst).Nodup
  zombie : ∀ t ∈ s.os.k.ptable, (s.os.k.tasks t).xstate = true →
    ((s.os.k.tasks t).pid, (s.os.k.tasks t).exitStatus) ∈ s.deaths
  report : ∀ r ∈ s.reports, r ∈ s.deaths

structure StatusInv (s : DeathSys) : Prop extends StatusExact s where
  dead : ∀ d ∈ s.deaths, d.1 ∈ s.os.waited.map Prod.snd ∨
    ∃ t ∈ s.os.k.ptable, (s.os.k.tasks t).pid = d.1 ∧ (s.os.k.tasks t).xstate = true

section
variable {A : Allocator} {s : OsSys} {a : OsAct} {s' : OsSys}

theorem reported_mem (hk : KernelInv s.k) {r : Int × Int} (h : r ∈ s.reported a) : ∃ t ∈ s.k.ptable,
    (s.k.tasks t).xstate = true ∧ r = ((s.k.tasks t).pid, (s.k.tasks t).exitStatus) := by
  unfold OsSys.reported at h
  split at h
  next cpu _ _ call =>
    split at h
    next p hp =>
      unfold reportedBy at h
      split at h
      · split at h
        · split at h
          next k' c pid st htr =>
            obtain rfl := mem_singleton.mp h
            rcases tryReap_ok hk.own hk.procs htr with ⟨child, -, rfl, rfl, hr⟩ | ⟨-, hno, -⟩
            · exact ⟨child, hr.mem, hr.child.2.1, rfl⟩
            · exact absurd rfl (hno c)
          · cases h
        · cases h
      · cases h
    · cases h
  · cases h

theorem mem_newlyDead {t : TaskRef} : t ∈ newlyDead s s' ↔
    t ∈ s.k.ptable ∧ (s.k.tasks t).xstate = false ∧ (s'.k.tasks t).xstate = true := by
  rw [newlyDead, mem_filter, decide_eq_true_iff]

theorem newlyDead_none (h : ∀ t ∈ s.k.ptable, (s.k.tasks t).xstate = false → (s'.k.tasks t).xstate = false) :
    newlyDead s s' = [] := by
  refine eq_nil_iff_forall_not_mem.mpr fun t ht => ?_
  obtain ⟨h1, h2, h3⟩ := mem_newlyDead.mp ht
  rw [h t h1 h2] at h3
  cases h3

/-- A death that strikes a living process is the only one of its step. -/
theorem newlyDead_died {q : TaskRef} {status : Int} (hk : KernelInv s.k) (hd : Died s.k q status s'.k)
    (hq : q ∈ s.k.ptable) (hz : (s.k.tasks q).xstate = false) : newlyDead s s' = [q] := by
  have hfilter : newlyDead s s' = s.k.ptable.filter (· = q) := by
    refine filter_congr fun t _ => decide_eq_decide.mpr ?_
    rw [hd.xstate t]
    by_cases ht : t = q
    · subst ht; simp [hz]
    · simp [ht]
  rw [hfilter, filter_eq, count_eq_one_of_mem hk.nodup hq]
  rfl

theorem Strikes.deathStatus {q : TaskRef} {status : Int} (h : Strikes s a q status) : a.deathStatus = status := by
  cases h <;> rfl

end

section
variable {A : Allocator} {s s' : DeathSys} {a : OsAct}

theorem Strikes.alive {q : TaskRef} {status : Int} (h : Strikes s.os a q status) (hsafe : StatusSafe s a) :
    (s.os.k.tasks q).xstate = false := by
  cases h with
  | exit hu => exact hsafe _ hu
  | fault hu => exact hsafe _ hu
  | kill hu hq hne => exact hsafe _ hu _ hq hne

theorem StatusInv.quiet (h : StatusInv s) (hk : KernelInv s.os.k) {o : OsSys} (hnew : newlyDead s.os o = [])
    (hz : ∀ t ∈ o.k.ptable, (o.k.tasks t).xstate = true → t ∈ s.os.k.ptable ∧
      (o.k.tasks t).kin = (s.os.k.tasks t).kin)
    (hdead : ∀ t ∈ s.os.k.ptable, (s.os.k.tasks t).xstate = true → (s.os.k.tasks t).pid ∈ o.waited.map Prod.snd ∨
      ∃ u ∈ o.k.ptable, (o.k.tasks u).pid = (s.os.k.tasks t).pid ∧ (o.k.tasks u).xstate = true)
    (hw : ∀ n ∈ s.os.waited.map Prod.snd, n ∈ o.waited.map Prod.snd) :
    StatusInv ⟨o, s.deaths ++ (newlyDead s.os o).map fun t => ((s.os.k.tasks t).pid, a.deathStatus),
      s.reports ++ s.os.reported a⟩ := by
  rw [hnew, map_nil, append_nil]
  refine { once := h.once, zombie := ?_, report := ?_, dead := ?_ }
  · intro t ht hx
    obtain ⟨ht0, hkin⟩ := hz t ht hx
    obtain ⟨e1, -, e3, e4⟩ := kin_eq hkin
    show ((o.k.tasks t).pid, (o.k.tasks t).exitStatus) ∈ s.deaths
    rw [e1, e4]
    exact h.zombie t ht0 (e3 ▸ hx)
  · intro r hr
    rcases mem_append.mp hr with hr | hr
    · exact h.report r hr
    · obtain ⟨t, ht, hx, rfl⟩ := reported_mem hk hr
      exact h.zombie t ht hx
  · intro d hd
    rcases h.dead d hd with hd | ⟨t, ht, hpid, hx⟩
    · exact Or.inl (hw _ hd)
    · rw [← hpid]
      exact hdead t ht hx

theorem StatusInv.died (h : StatusInv s) (hk : KernelInv s.os.k) (hp : PidInv s.os) {o : OsSys} {q : TaskRef}
    {status : Int} (hd : Died s.os.k q status o.k) (hq : q ∈ s.os.k.ptable) (hz : (s.os.k.tasks q).xstate = false)
    (ha : a.deathStatus = status) (hw : o.waited = s.os.waited) :
    StatusInv ⟨o, s.deaths ++ (newlyDead s.os o).map fun t => ((s.os.k.tasks t).pid, a.deathStatus),
      s.reports ++ s.os.reported a⟩ := by
  have hpid : ∀ t, (o.k.tasks t).pid = (s.os.k.tasks t).pid := hd.field Task.pid fun _ => rfl
  -- a pid with a recorded death is a zombie's or has been waited for
  have hfresh : (s.os.k.tasks q).pid ∉ s.deaths.map Prod.fst := by
    intro hm
    obtain ⟨d, hdm, he⟩ := mem_map.mp hm
    have hnd := hp.table.nodup_iff.mpr hp.nodup
    rcases h.dead d hdm with hwait | ⟨t, ht, hpt, hx⟩
    · rw [he] at hwait
      exact (nodup_append'.mp hnd).2.2 (mem_map_of_mem hq) hwait
    · rw [hp.pid_inj ht hq (hpt.trans he), hz] at hx
      cases hx
  rw [newlyDead_died hk hd hq hz, ha, map_cons, map_nil]
  refine { once := ?_, zombie := ?_, report := ?_, dead := ?_ }
  · rw [map_append, map_cons, map_nil]
    refine nodup_append'.mpr ⟨h.once, nodup_singleton _, ?_⟩
    intro n hn hn'
    rw [mem_singleton.mp hn'] at hn
    exact hfresh hn
  · intro t ht hx
    have ht : t ∈ s.os.k.ptable := hd.ptable ▸ ht
    show ((o.k.tasks t).pid, (o.k.tasks t).exitStatus) ∈ _
    rw [hpid, hd.exitStatus]
    by_cases htq : t = q
    · subst htq
      rw [if_pos rfl]
      exact mem_append_right _ (mem_singleton_self _)
    · rw [if_neg htq]
      refine mem_append_left _ (h.zombie t ht ?_)
      rw [hd.xstate, if_neg htq] at hx
      exact hx
  · intro r hr
    rcases mem_append.mp hr with hr | hr
    · exact mem_append_left _ (h.report r hr)
    · obtain ⟨t, ht, hx, rfl⟩ := reported_mem hk hr
      exact mem_append_left _ (h.zombie t ht hx)
  · intro d hdm
    show d.1 ∈ o.waited.map Prod.snd ∨ _
    rw [hw]
    have hstay : ∀ t ∈ s.os.k.ptable, (s.os.k.tasks t).pid = d.1 → (s.os.k.tasks t).xstate = true ∨ t = q →
        ∃ u ∈ o.k.ptable, (o.k.tasks u).pid = d.1 ∧ (o.k.tasks u).xstate = true := by
      intro t ht hpt hx
      refine ⟨t, by rw [hd.ptable]; exact ht, (hpid t).trans hpt, ?_⟩
      rw [hd.xstate]
      rcases hx with hx | hx
      · rw [hx, ite_self]
      · rw [if_pos hx]
    rcases mem_append.mp hdm with hdm | hdm
    · exact (h.dead d hdm).imp_right fun ⟨t, ht, hpt, hx⟩ => hstay t ht hpt (Or.inl hx)
    · obtain rfl := mem_singleton.mp hdm
      exact Or.inr (hstay q hq rfl (Or.inr rfl))

theorem StatusInv.step (h : StatusInv s) (hk : KernelInv s.os.k) (hp : PidInv s.os) (hsafe : StatusSafe s a)
    (hs : s.step A a = some s') : StatusInv s' := by
  obtain ⟨o, ho, rfl⟩ := Option.map_eq_some_iff.mp hs
  cases kinMove_step hk ho with
  | same ht _ hkin hw =>
    refine h.quiet hk ?_ (fun t ht' _ => ⟨ht ▸ ht', hkin t⟩) ?_ fun n hn => by rw [hw]; exact hn
    · exact newlyDead_none fun t _ hz => (kin_eq (hkin t)).2.2.1.trans hz
    · intro t ht' hx
      obtain ⟨e1, -, e3, -⟩ := kin_eq (hkin t)
      exact Or.inr ⟨t, ht ▸ ht', e1, e3.trans hx⟩
  | @born n _ _ _ hb hw =>
    have hz : (o.k.tasks (.proc n)).xstate = false := hb.field Task.xstate fun _ => rfl
    refine h.quiet hk ?_ ?_ ?_ fun n hn => by rw [hw]; exact hn
    · exact newlyDead_none fun t ht hz => by rw [(hb.keeps hk ht).2]; exact hz
    · intro t ht hx
      rcases hb.split hk ht with ⟨ht, he⟩ | rfl
      · exact ⟨ht, by rw [he]⟩
      · rw [hz] at hx
        cases hx
    · intro t ht hx
      obtain ⟨h1, h2⟩ := hb.keeps hk ht
      exact Or.inr ⟨t, h1, by rw [h2], by rw [h2]; exact hx⟩
  | died ha hq hd hw => exact h.died hk hp hd hq (ha.alive hsafe) ha.deathStatus hw
  | @reaped _ _ _ _ p child _ _ hr hw =>
    have hkin : ∀ t, t ≠ child → (o.k.tasks t).kin = (s.os.k.tasks t).kin :=
      fun t ht => hr.field ht Task.kin fun _ _ => rfl
    refine h.quiet hk ?_ ?_ ?_ fun n hn => by rw [hw, map_append]; exact mem_append_left _ hn
    · refine newlyDead_none fun t _ hz => ?_
      have hne : t ≠ child := by
        rintro rfl
        rw [hr.child.2.1] at hz
        cases hz
      exact (kin_eq (hkin t hne)).2.2.1.trans hz
    · intro t ht _
      obtain ⟨h1, h2⟩ := (hr.mem_iff hk).mp ht
      exact ⟨h1, hkin t h2⟩
    · intro t ht hx
      by_cases hne : t = child
      · subst hne
        rw [hw, map_append]
        exact Or.inl (mem_append_right _ (mem_singleton_self _))
      · obtain ⟨e1, -, e3, -⟩ := kin_eq (hkin t hne)
        exact Or.inr ⟨t, (hr.mem_iff hk).mpr ⟨ht, hne⟩, e1, e3.trans hx⟩

end

section
variable {A : Allocator} {v : Vfs} {uprogs : List (List UInt8 × List UInt8)} {k : Kernel} {as : List OsAct}
  {s : DeathSys}

theorem statusInv_boot (h : uprocInit A v uprogs = .ok k) : StatusInv (DeathSys.boot k) := by
  obtain ⟨n, new, k1, hb, rfl⟩ := uprocInit_ok h
  refine { once := nodup_nil, zombie := ?_, report := (fun r hr => nomatch hr), dead := (fun d hd => nomatch hd) }
  intro t ht hx
  have ht : t ∈ k1.ptable := ht
  rw [hb.ptable] at ht
  obtain rfl := mem_singleton.mp ht
  have hz : (k1.tasks (.proc n)).xstate = false := hb.field Task.xstate fun _ => rfl
  cases hz.symm.trans hx

theorem first_status_reported (hboot : uprocInit A v uprogs = .ok k)
    (hc : Along (DeathSys.step A) StatusSafe (DeathSys.boot k) as)
    (hr : run (DeathSys.step A) (DeathSys.boot k) as = some s) : StatusExact s := by
  have hinv := run_inv_along (I := fun s => KernelInv s.os.k ∧ PidInv s.os ∧ StatusInv s) ?_ as _ s
    ⟨kernelInv_boot hboot, pidInv_boot hboot, statusInv_boot hboot⟩ hc hr
  · exact hinv.2.2.toStatusExact
  · rintro s a s' ⟨hk, hp, hst⟩ hsafe hs
    obtain ⟨o, ho, rfl⟩ := Option.map_eq_some_iff.mp hs
    exact ⟨hk.step ho, hp.move hk (osMove_step hk ho), hst.step hk hp hsafe hs⟩

end

def deathRun (as : List OsAct) : Option DeathSys :=
  smallKernel.bind fun k => run (DeathSys.step bumpAlloc) (DeathSys.boot k) as

def exitSevenRun (first : List OsAct) : List OsAct :=
  [.schedule 0 blankContext, .syscall 0 blankContext 0 .fork, .schedule 0 blankContext,
   .syscall 0 blankContext 0 (.exit 7), .schedule 0 blankContext] ++ first ++
  [.syscall 0 blankContext 0 (.wait userBase), .schedule 0 blankContext, .schedule 0 blankContext,
   .syscall 0 blankContext 0 (.wait userBase)]

theorem first_status_reported_seven : ∃ s, deathRun (exitSevenRun []) = some s ∧ s.reports = [(2, 7)] ∧
    StatusExact s := by
  have hrun : (smallKernel.any fun k => passes (DeathSys.step bumpAlloc) (fun s a => decide (StatusSafe s a))
      (fun s => decide (s.reports = [(2, 7)])) (DeathSys.boot k) (exitSevenRun [])) = true := by decide +kernel
  obtain ⟨v, k, s, hboot, hs, hr, hc, hl⟩ := small_passes (fun s a h => of_decide_eq_true h) hrun
  exact ⟨s, hs, of_decide_eq_true hl, first_status_reported hboot hc hr⟩

/-- The child exits with 7, init kills its pid before the `wait`, and `wait` stores -1. -/
theorem killed_zombie_misreported : ∃ s, deathRun (exitSevenRun [.syscall 0 blankContext 0 (.kill 2)]) = some s ∧
    s.deaths = [(2, 7)] ∧ s.reports = [(2, -1)] := by
  have hrun : ((deathRun (exitSevenRun [.syscall 0 blankContext 0 (.kill 2)])).any fun s =>
      decide (s.deaths = [(2, 7)] ∧ s.reports = [(2, -1)])) = true := by decide +kernel
  obtain ⟨s, hs, hl⟩ := (Option.any_eq_true _ _).mp hrun
  exact ⟨s, hs, of_decide_eq_true hl⟩

end NjuOs
