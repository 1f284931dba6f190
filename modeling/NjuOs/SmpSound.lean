import NjuOs.Smp
import NjuOs.OsSound

/-!
# Which CPU refers to which task

`CpuInv` is kept by everything that interleaves on several CPUs as long as a child that
`try_reap` has selected does not become runnable: only then can a CPU take it up again
before it is freed.
-/

namespace NjuOs

open Function List Option

/-! ## Steps that leave the scheduler and the memory alone -/

structure Quiet (k k' : Kernel) : Prop where
  same : SameCpu k.toKmt k'.toKmt
  ptable : k'.ptable = k.ptable
  heap : k'.heap = k.heap
  owned : ∀ t, owned (k'.tasks t) = owned (k.tasks t)

section
variable {A : Allocator} {k k' : Kernel} {p : TaskRef}

theorem Died.quiet {status : Int} (hd : Died k p status k') : Quiet k k' :=
  ⟨hd.sameCpu, hd.ptable, hd.heap, hd.field owned fun _ => rfl⟩

theorem SemStep.quiet {m : Kmt} (h : SemStep k.toKmt m) : Quiet k { k with toKmt := m } :=
  ⟨h.sameCpu, rfl, rfl, h.field owned fun _ => rfl⟩

theorem quiet_modify {g : Task → Task} (hg : ∀ x, (g x).onCpu = x.onCpu ∧ (g x).cpu = x.cpu ∧
    (g x).schedNext = x.schedNext ∧ owned (g x) = owned x) : Quiet k (k.modify p g) := by
  refine ⟨(Frame.modify k p g).sameCpu ?_ ?_ ?_, rfl, rfl, modify_field owned (hg _).2.2.2⟩
  · exact modify_field Task.onCpu (hg _).1
  · exact modify_field Task.cpu (hg _).2.1
  · exact modify_field Task.schedNext (hg _).2.2.1

theorem quiet_tick (k : Kernel) (now : Nat) : Quiet k (uprocTick k now) := by
  obtain ⟨hf, hh⟩ := uprocTick_frame k now
  refine ⟨hf.sameCpu ?_ ?_ ?_, hf.ptable, hh, uprocTick_field owned (fun _ _ => rfl) now⟩
  · exact uprocTick_field Task.onCpu (fun _ _ => rfl) now
  · exact uprocTick_field Task.cpu (fun _ _ => rfl) now
  · exact uprocTick_field Task.schedNext (fun _ _ => rfl) now

/-- Every system call but `wait` works on the memory of its caller, makes a process, or
leaves scheduler and memory alone. -/
theorem doSyscall_cases {ctx f : Context} {now : Nat} {call : Syscall} {b : Bool} (hw : call.isWait = false)
    (h : doSyscall A k p ctx now call = .ok (k', f, b)) :
    (∃ new, MemStep p new k k') ∨ (∃ n par redo new, Born n par redo new k k') ∨ Quiet k k' := by
  cases call with
  | wait va => cases hw
  | kputc ch => cases h; exact Or.inl ⟨[], kputc_memStep p k _⟩
  | getpid => cases h; exact Or.inl ⟨[], MemStep.refl p k⟩
  | uptime => cases h; exact Or.inl ⟨[], MemStep.refl p k⟩
  | unknown num => cases h; exact Or.inl ⟨[], MemStep.refl p k⟩
  | mmap addr length prot flags =>
    obtain ⟨⟨k1, r⟩, h1, h⟩ := bind_ok h
    cases h
    exact Or.inl (memStep_sysMmap h1)
  | vfs vc =>
    obtain ⟨⟨v, fs, r⟩, h1, h⟩ := bind_ok h
    cases h
    exact Or.inl ⟨[], memStep_setFiles p k (v, fs)⟩
  | exec va path =>
    obtain ⟨⟨k1, done⟩, h1, h⟩ := bind_ok h
    have hm := (memStep_sysExec h1).1
    cases done with
    | true => cases h; exact Or.inl hm
    | false => cases h; exact Or.inl hm
  | fork =>
    obtain ⟨⟨k1, pid⟩, h1, h⟩ := bind_ok h
    cases h
    obtain ⟨-, n, new, hb⟩ := sysFork_ok h1
    exact Or.inr (Or.inl ⟨n, some p, ctx.redo, new, hb⟩)
  | kill pid =>
    obtain ⟨⟨k1, r⟩, h1, h⟩ := bind_ok h
    cases h
    rcases sysKill_ok h1 with ⟨rfl, -⟩ | ⟨target, -, -, -, hd⟩
    · exact Or.inl ⟨[], MemStep.refl p k'⟩
    · exact Or.inr (Or.inr hd.quiet)
  | exit status =>
    obtain ⟨k1, h1, h⟩ := bind_ok h
    cases h
    exact Or.inr (Or.inr (sysExit_ok h1).2.quiet)
  | sleep n =>
    simp only [doSyscall, sysSleep, Except.ok.injEq] at h
    right; right
    split at h
    · obtain ⟨rfl, -⟩ := Prod.mk.inj h
      exact quiet_modify fun _ => ⟨rfl, rfl, rfl, rfl⟩
    · split at h
      · obtain ⟨rfl, -⟩ := Prod.mk.inj h
        exact quiet_modify fun _ => ⟨rfl, rfl, rfl, rfl⟩
      · obtain ⟨rfl, -⟩ := Prod.mk.inj h
        exact quiet_modify fun _ => ⟨rfl, rfl, rfl, rfl⟩

end

/-! ## The invariant -/

def SmpSys.procs (s : SmpSys) : List TaskRef := s.k.ptable ++ (s.reaping ++ s.torn)

def SmpSys.Held (s : SmpSys) : Prop := ∀ t ∈ s.reaping ++ s.torn, (s.k.tasks t).state ≠ .runnable

instance (s : SmpSys) : Decidable s.Held := inferInstanceAs (Decidable (∀ t ∈ s.reaping ++ s.torn, _))

/-- `kmt_schedule` finds no child that `try_reap` has selected runnable. -/
def SmpSys.HeldAt (s : SmpSys) : SmpAct → Prop
  | .schedule _ _ => s.Held
  | _ => True

instance (s : SmpSys) (a : SmpAct) : Decidable (s.HeldAt a) := by
  unfold SmpSys.HeldAt
  split <;> infer_instance

structure SmpInv (s : SmpSys) : Prop where
  cpu : CpuInv s.k.toKmt
  own : Own s.k s.procs
  isProc : ∀ t ∈ s.procs, ∃ n, t = .proc n
  live : ∀ n, s.k.live (.proc n) = true ↔ .proc n ∈ s.procs
  off : ∀ t ∈ s.reaping ++ s.torn, (s.k.tasks t).onCpu = false

section
variable {A : Allocator} {s s' : SmpSys} {k' : Kernel} {p t : TaskRef}

theorem SmpInv.nodup (h : SmpInv s) : s.procs.Nodup := h.own.nodup h.isProc

theorem SmpInv.in_use (h : SmpInv s) (ht : t ∈ s.procs) : s.k.live t = true := by
  obtain ⟨n, rfl⟩ := h.isProc t ht
  exact (h.live n).mpr ht

/-- No CPU refers to a child that is being reaped. -/
theorem SmpInv.unreferenced (h : SmpInv s) (ht : t ∈ s.reaping ++ s.torn) (c : Nat) : ¬s.k.toKmt.Refs c t := by
  intro hc
  have hon := (CpuRel.onCpu h.cpu t (h.in_use (mem_append_right _ ht))).mpr ⟨c, hc⟩
  rw [h.off t ht] at hon
  cases hon

theorem procs_eq (hp : k'.ptable = s.k.ptable) : SmpSys.procs { s with k := k' } = s.procs := by
  unfold SmpSys.procs
  rw [hp]

theorem SmpInv.quiet (h : SmpInv s) (hq : Quiet s.k k') : SmpInv { s with k := k' } where
  cpu := h.cpu.congr hq.same
  own := by rw [procs_eq hq.ptable]; exact h.own.congr hq.heap fun t _ => hq.owned t
  isProc := by rw [procs_eq hq.ptable]; exact h.isProc
  live := by
    intro n
    rw [procs_eq hq.ptable]
    exact (congrArg (· = true) (congrFun hq.same.live (.proc n))).to_iff.trans (h.live n)
  off := fun t ht => (hq.same.onCpu t).trans (h.off t ht)

theorem SmpInv.mem {new : List (Nat × Nat)} (h : SmpInv s) (hm : MemStep p new s.k k') :
    SmpInv { s with k := k' } where
  cpu := h.cpu.congr hm.sameCpu
  own := by rw [procs_eq hm.ptable]; exact h.own.mem h.nodup hm
  isProc := by rw [procs_eq hm.ptable]; exact h.isProc
  live := by
    intro n
    rw [procs_eq hm.ptable]
    exact (congrArg (· = true) (congrFun hm.live (.proc n))).to_iff.trans (h.live n)
  off := fun t ht => (hm.field Task.onCpu (fun _ => rfl) t).trans (h.off t ht)

theorem SmpInv.born {n : Nat} {par : Option TaskRef} {redo : Option Blocking} {new : List (Nat × Nat)}
    (h : SmpInv s) (hb : Born n par redo new s.k k') : SmpInv { s with k := k' } := by
  obtain ⟨hnew, hown⟩ := h.own.born hb
  have hperm : (s.procs ++ [TaskRef.proc n]).Perm (SmpSys.procs { s with k := k' }) := by
    have hlist : SmpSys.procs { s with k := k' } = s.k.ptable ++ ([TaskRef.proc n] ++ (s.reaping ++ s.torn)) := by
      unfold SmpSys.procs
      rw [hb.ptable, append_assoc]
    rw [hlist, SmpSys.procs, append_assoc]
    exact List.Perm.append_left _ perm_append_comm
  have hmem : ∀ t, t ∈ SmpSys.procs { s with k := k' } ↔ t ∈ s.procs ∨ t = .proc n := by
    intro t
    rw [← hperm.mem_iff, mem_append, mem_singleton]
  constructor
  case cpu => exact cpuInv_born h.cpu (fun hl => hnew ((h.live n).mp hl)) hb
  case own => exact hown.perm hperm
  case isProc =>
    intro t ht
    rcases (hmem t).mp ht with ht | rfl
    · exact h.isProc t ht
    · exact ⟨n, rfl⟩
  case live =>
    intro i
    rw [hmem]
    simp only [hb.live]
    by_cases hi : TaskRef.proc i = .proc n
    · rw [hi, update_self]; simp
    · rw [update_of_ne hi, h.live i]; simp [hi]
  case off =>
    intro t ht
    have hne : t ≠ .proc n := by
      rintro rfl
      exact hnew (mem_append_right _ ht)
    simp only [hb.other t hne]
    exact h.off t ht

theorem SmpInv.perm (h : SmpInv s) {r d : List TaskRef} (hp : (r ++ d).Perm (s.reaping ++ s.torn)) :
    SmpInv ⟨s.k, r, d⟩ := by
  have hall : (s.k.ptable ++ (s.reaping ++ s.torn)).Perm (s.k.ptable ++ (r ++ d)) := hp.symm.append_left _
  constructor
  case cpu => exact h.cpu
  case own => exact h.own.perm hall
  case isProc => intro t ht; exact h.isProc t (hall.mem_iff.mpr ht)
  case live => intro n; exact (h.live n).trans hall.mem_iff
  case off => intro t ht; exact h.off t (hp.mem_iff.mp ht)

theorem SmpInv.teardown (h : SmpInv s) (ht : NjuOs.reapTeardown s.k t = .ok k') : SmpInv { s with k := k' } := by
  obtain ⟨h1, h2, h3, h4, h5, h6⟩ := reapTeardown_ok ht
  have htab : k'.ptable = s.k.ptable := by rw [h1]
  have hfield : ∀ {β : Type} (g : Task → β), (∀ x o, g { x with schedNext := o } = g x) →
      ∀ u, g (k'.tasks u) = g (s.k.tasks u) := by
    intro β g hg u
    rw [h6 u, hg]
  constructor
  case cpu => exact h.cpu.teardown h2
  case own =>
    rw [procs_eq htab]
    exact h.own.congr (by rw [h1]) fun u _ => hfield owned (fun _ _ => rfl) u
  case isProc => rw [procs_eq htab]; exact h.isProc
  case live =>
    intro n
    rw [procs_eq htab]
    exact (congrArg (· = true) (congrFun h3 (.proc n))).to_iff.trans (h.live n)
  case off => intro u hu; exact (hfield Task.onCpu (fun _ _ => rfl) u).trans (h.off u hu)

theorem SmpInv.switched {c : Nat} {ctx rc : Context} {next : TaskRef} {m : Kmt} (h : SmpInv s) (hh : s.Held)
    (hcpu : CpuInv m) (hsw : Switched s.k.toKmt c ctx next m rc) :
    SmpInv { s with k := { s.k with toKmt := m } } := by
  have hlive : m.live = s.k.live := hsw.frame.1
  constructor
  case cpu => exact hcpu
  case own => exact h.own.congr rfl fun t _ => hsw.field owned (fun _ _ _ => rfl) (fun _ _ _ _ _ => rfl) t
  case isProc => exact h.isProc
  case live => intro n; simp only [hlive]; exact h.live n
  case off =>
    intro t ht
    -- a child that is being reaped is not runnable, so it is not picked
    have hpick : next ≠ t := by
      rintro rfl
      rcases hsw.picked with hi | ⟨hr, -⟩
      · obtain ⟨n, hn⟩ := h.isProc next (mem_append_right _ ht)
        rw [hi] at hn
        cases hn
      · exact hh next ht hr
    have hlt : m.live t = true := by rw [hlive]; exact h.in_use (mem_append_right _ ht)
    show (m.tasks t).onCpu = false
    by_contra hon
    obtain ⟨d, hd⟩ := (CpuRel.onCpu hcpu t hlt).mp (by simpa using hon)
    unfold Kmt.Refs at hd
    rw [hsw.current, hsw.prev] at hd
    by_cases hdc : d = c
    · subst hdc
      rw [update_self, update_self] at hd
      rcases hd with hd | hd
      · exact hpick (some.inj hd)
      · split at hd
        · exact h.unreferenced ht d (Or.inl hd)
        · cases hd
    · rw [update_of_ne hdc, update_of_ne hdc] at hd
      exact h.unreferenced ht d hd

theorem SmpInv.create {i : Nat} {ctx : Context} {m : Kmt} (h : SmpInv s) (hl : s.k.live (.kernel i) ≠ true)
    (hc : kmtCreate s.k.toKmt (.kernel i) (some ctx) = .ok m) : SmpInv { s with k := { s.k with toKmt := m } } := by
  have hcpu : CpuInv m :=
    CpuInv.create h.cpu (fun c he => by cases he) hl (fun c he => CpuRel.listed h.cpu c (Or.inr ⟨_, he⟩)) hc
  obtain ⟨hother, hlive⟩ := kmtCreate_ok hc
  have hsame : ∀ t ∈ s.procs, m.tasks t = s.k.tasks t := by
    intro t ht
    obtain ⟨n, rfl⟩ := h.isProc t ht
    exact hother _ (by simp)
  constructor
  case cpu => exact hcpu
  case own => exact h.own.congr rfl fun t ht => congrArg owned (hsame t ht)
  case isProc => exact h.isProc
  case live =>
    intro n
    refine Iff.trans ?_ (h.live n)
    simp only [hlive]
    rw [update_of_ne (by simp)]
  case off =>
    intro t ht
    exact (congrArg Task.onCpu (hsame t (mem_append_right _ ht))).trans (h.off t ht)

theorem SmpInv.scanned {l : List TaskRef} (h : SmpInv s) (hr : Reapable s.k p t) (hl : (t :: l).Perm s.k.ptable) :
    SmpInv { s with k := { s.k with ptable := l }, reaping := t :: s.reaping } := by
  have hall : s.procs.Perm (l ++ (t :: s.reaping ++ s.torn)) := by
    unfold SmpSys.procs
    refine (hl.symm.append_right _).trans ?_
    rw [cons_append, cons_append]
    exact perm_middle.symm
  constructor
  case cpu => exact h.cpu
  case own => exact (h.own.perm hall).congr rfl fun _ _ => rfl
  case isProc => intro u hu; exact h.isProc u (hall.mem_iff.mpr hu)
  case live => intro n; exact (h.live n).trans hall.mem_iff
  case off =>
    intro u hu
    rcases mem_cons.mp hu with rfl | hu
    · exact hr.2.2
    · exact h.off u hu

theorem SmpInv.freed (h : SmpInv s) (ht : t ∈ s.torn) (hf : NjuOs.reapFree s.k t = .ok k') :
    SmpInv { s with k := k', torn := s.torn.erase t } := by
  have hheld : t ∈ s.reaping ++ s.torn := mem_append_right _ ht
  obtain ⟨n, rfl⟩ := h.isProc t (mem_append_right _ hheld)
  have hperm : s.procs.Perm (.proc n :: (s.k.ptable ++ (s.reaping ++ s.torn.erase (.proc n)))) := by
    unfold SmpSys.procs
    refine (((perm_cons_erase ht).append_left _).append_left _).trans ?_
    refine (perm_middle.append_left _).trans ?_
    exact perm_middle
  have hown := h.own.perm hperm
  have hnd := (hperm.nodup_iff.mp h.nodup)
  have hnot := (nodup_cons.mp hnd).1
  have hle : ownedBy s.k (.proc n) ≤ s.k.heap.live := by
    have := hown.blocks
    rw [bag_cons] at this
    exact (Multiset.le_add_right _ _).trans this
  obtain ⟨hp, e1, e2, e3⟩ := reapFree_total hown.heapOk hle
  cases e1.symm.trans hf
  have hne : ∀ u ∈ s.k.ptable ++ (s.reaping ++ s.torn.erase (.proc n)), u ≠ .proc n := fun u hu he => hnot (he ▸ hu)
  constructor
  case cpu =>
    have hcpu : CpuInv (s.k.modify (.proc n) fun x => { x with maps := [] }).toKmt :=
      h.cpu.congr (SameCpu.set rfl rfl rfl)
    refine CpuInv.leave hcpu ?_ fun c hc => by cases hc
    exact fun c => h.unreferenced hheld c
  case own =>
    refine ⟨e2, ?_⟩
    have hb := hown.blocks
    rw [bag_cons, e3] at hb
    refine le_trans (le_of_eq ?_) (Multiset.le_of_add_le_add_left hb)
    refine bag_congr _ fun u hu => ownedBy_congr ?_
    exact update_of_ne (hne u hu) ..
  case isProc => intro u hu; exact h.isProc u (hperm.mem_iff.mpr (mem_cons_of_mem _ hu))
  case live =>
    intro i
    show update s.k.live (.proc n) false (.proc i) = true ↔
      .proc i ∈ s.k.ptable ++ (s.reaping ++ s.torn.erase (.proc n))
    by_cases hi : TaskRef.proc i = .proc n
    · rw [hi, update_self]
      simp only [Bool.false_eq_true, false_iff]
      exact hnot
    · rw [update_of_ne hi, h.live i, hperm.mem_iff, mem_cons]
      simp [hi]
  case off =>
    intro u hu
    have hu0 : u ∈ s.reaping ++ s.torn := by
      rcases mem_append.mp hu with hu | hu
      · exact mem_append_left _ hu
      · exact mem_append_right _ (mem_of_mem_erase hu)
    refine Eq.trans ?_ (h.off u hu0)
    exact congrArg Task.onCpu (update_of_ne (hne u (mem_append_right _ hu)) ..)

end

/-! ## Runs -/

section
variable {A : Allocator} {s s' : SmpSys} {a : SmpAct}

theorem withKernel_some {e : Except Halt Kernel} (h : s.withKernel e = some s') :
    ∃ k, e = .ok k ∧ s' = { s with k := k } := by
  cases e with
  | error _ => cases h
  | ok k => cases h; exact ⟨k, rfl, rfl⟩

theorem withKmt_some {e : Except Halt Kmt} (h : s.withKmt e = some s') :
    ∃ m, e = .ok m ∧ s' = { s with k := { s.k with toKmt := m } } := by
  cases e with
  | error _ => cases h
  | ok m => cases h; exact ⟨m, rfl, rfl⟩

theorem map_fst_ok {α β : Type} {e : Except Halt (α × β)} {x : α} (h : e.map Prod.fst = .ok x) :
    ∃ y, e = .ok (x, y) := by
  cases e with
  | error _ => cases h
  | ok r => cases h; exact ⟨r.2, rfl⟩

theorem SmpInv.step (h : SmpInv s) (hh : s.HeldAt a) (hs : s.step A a = some s') : SmpInv s' := by
  cases a with
  | schedule c ctx =>
    obtain ⟨m, hm, rfl⟩ := withKmt_some hs
    obtain ⟨rc, hm⟩ := map_fst_ok hm
    obtain ⟨hcpu, next, hsw⟩ := kmtSchedule_ok h.cpu hm
    exact h.switched hh hcpu hsw
  | create i ctx =>
    simp only [SmpSys.step] at hs
    split at hs
    · cases hs
    · next hl =>
      obtain ⟨m, hm, rfl⟩ := withKmt_some hs
      exact h.create hl hm
  | semInit sem v => cases hs; exact h.quiet (semStep_setSem ..).quiet
  | semWait c sem =>
    obtain ⟨m, hm, rfl⟩ := withKmt_some hs
    obtain ⟨b, hm⟩ := map_fst_ok hm
    exact h.quiet (semStep_semWait hm).quiet
  | semSignal sem =>
    obtain ⟨m, hm, rfl⟩ := withKmt_some hs
    exact h.quiet (semStep_semSignal hm).quiet
  | threadExit c =>
    obtain ⟨m, hm, rfl⟩ := withKmt_some hs
    exact h.quiet (semStep_taskExit hm).quiet
  | teardown t =>
    simp only [SmpSys.step] at hs
    split at hs
    · obtain ⟨k, hk, rfl⟩ := withKernel_some hs
      exact h.teardown hk
    · cases hs
  | store t st =>
    simp only [SmpSys.step] at hs
    split at hs
    · cases hs
      exact h.quiet (quiet_modify fun _ => ⟨rfl, rfl, rfl, rfl⟩)
    · cases hs
  | tick now => cases hs; exact h.quiet (quiet_tick s.k now)
  | spawn bin len =>
    obtain ⟨k, hk, rfl⟩ := withKernel_some hs
    obtain ⟨p, hk⟩ := map_fst_ok hk
    obtain ⟨n, new, -, hb⟩ := procSpawn_ok hk
    exact h.born hb
  | pageFault c =>
    obtain ⟨p, -, hs⟩ := bind_eq_some_iff.mp hs
    obtain ⟨k, hk, rfl⟩ := withKernel_some hs
    exact h.quiet (sysExit_ok hk).2.quiet
  | syscall c ctx now call =>
    obtain ⟨p, -, hs⟩ := bind_eq_some_iff.mp hs
    split at hs
    · cases hs
    · next hw =>
      obtain ⟨k, hk, rfl⟩ := withKernel_some hs
      obtain ⟨⟨f, b⟩, hk⟩ := map_fst_ok hk
      rcases doSyscall_cases (by simpa using hw) hk with ⟨new, hm⟩ | ⟨n, par, redo, new, hb⟩ | hq
      · exact h.mem hm
      · exact h.born hb
      · exact h.quiet hq
  | waitScan c =>
    obtain ⟨p, -, hs⟩ := bind_eq_some_iff.mp hs
    have hsc := reapScan_ok s.k p
    generalize reapScan s.k p = r at hs hsc
    obtain ⟨k1, w⟩ := r
    cases hsc with
    | reaped hr hl => cases hs; exact h.scanned hr hl
    | retry => cases hs; exact h
    | block => cases hs; exact h
    | none => cases hs; exact h
  | reapTeardown t =>
    simp only [SmpSys.step] at hs
    split at hs
    · next ht =>
      cases hk : NjuOs.reapTeardown s.k t with
      | error e => rw [hk] at hs; cases hs
      | ok k =>
        rw [hk] at hs
        cases hs
        refine (h.teardown hk).perm ?_
        refine perm_middle.trans ?_
        exact (perm_cons_erase ht).symm.append_right s.torn
    · cases hs
  | reapFree t =>
    simp only [SmpSys.step] at hs
    split at hs
    · next ht =>
      cases hk : NjuOs.reapFree s.k t with
      | error e => rw [hk] at hs; cases hs
      | ok k =>
        rw [hk] at hs
        cases hs
        exact h.freed ht hk
    · cases hs

theorem smpInv_boot {v : Vfs} {uprogs : List (List UInt8 × List UInt8)} {k : Kernel}
    (h : uprocInit A v uprogs = .ok k) : SmpInv (SmpSys.boot k) := by
  have hk := kernelInv_boot h
  have hall : (SmpSys.boot k).procs = k.ptable := append_nil _
  constructor
  case cpu => exact hk.cpu
  case own => rw [hall]; exact hk.own
  case isProc => rw [hall]; exact hk.procs
  case live =>
    intro n
    rw [hall]
    refine (hk.live (.proc n)).trans ⟨?_, Or.inr⟩
    rintro (⟨c, hc⟩ | hm)
    · cases hc
    · exact hm
  case off => intro t ht; cases ht

theorem cpu_references_exact {v : Vfs} {uprogs : List (List UInt8 × List UInt8)} {k : Kernel} {as : List SmpAct}
    (hboot : uprocInit A v uprogs = .ok k) (hc : Along (SmpSys.step A) SmpSys.HeldAt (SmpSys.boot k) as)
    (hr : run (SmpSys.step A) (SmpSys.boot k) as = some s) :
    (∀ t, s.k.live t = true →
      ((s.k.tasks t).onCpu = true ↔ ∃ c, s.k.current c = some t ∨ s.k.prevTask c = some t) ∧
      ∀ c : Nat, (s.k.tasks t).cpu = c ↔ s.k.current c = some t) ∧
    (∀ t c d, (s.k.current c = some t ∨ s.k.prevTask c = some t) →
      (s.k.current d = some t ∨ s.k.prevTask d = some t) → s.k.live t = true ∧ c = d) ∧
    (∀ c ctx s', s.step A (.schedule c ctx) = some s' → ∀ t, s'.k.current c = some t →
      ∀ d, (s.k.current d = some t ∨ s.k.prevTask d = some t) → d = c) ∧
    (∀ t s', s.step A (.reapFree t) = some s' → ∀ c, s.k.current c ≠ some t ∧ s.k.prevTask c ≠ some t) := by
  have hi : SmpInv s := run_inv_along (fun _ _ _ hi hh hs => hi.step hh hs) as _ s (smpInv_boot hboot) hc hr
  refine ⟨?_, ?_, ?_, ?_⟩
  · intro t hl
    exact ⟨CpuRel.onCpu hi.cpu t hl, CpuRel.cpu hi.cpu t hl⟩
  · intro t c d h1 h2
    exact ⟨CpuRel.live hi.cpu h1, CpuRel.unique hi.cpu h1 h2⟩
  · intro c ctx s' hs t ht d hd
    obtain ⟨m, hm, rfl⟩ := withKmt_some hs
    obtain ⟨rc, hm⟩ := map_fst_ok hm
    obtain ⟨-, next, hsw⟩ := kmtSchedule_ok hi.cpu hm
    have ht : m.current c = some t := ht
    rw [hsw.current, update_self] at ht
    cases ht
    exact hsw.free d hd
  · intro t s' hs c
    simp only [SmpSys.step] at hs
    split at hs
    · next ht =>
      have hno := hi.unreferenced (mem_append_right _ ht) c
      exact ⟨fun h => hno (Or.inl h), fun h => hno (Or.inr h)⟩
    · cases hs

end

def smpRun (as : List SmpAct) : Option SmpSys :=
  smallKernel.bind fun k => run (SmpSys.step bumpAlloc) (SmpSys.boot k) as

def reapRun : List SmpAct :=
  [.schedule 0 blankContext, .schedule 1 blankContext, .syscall 0 blankContext 0 .fork, .schedule 1 blankContext,
   .syscall 1 blankContext 0 (.exit 0), .schedule 1 blankContext, .schedule 1 blankContext, .waitScan 0,
   .schedule 1 blankContext, .reapTeardown (.proc 1175552)]

theorem cpu_references_exact_reap : ∃ s, smpRun reapRun = some s ∧
    (s.step bumpAlloc (.reapFree (.proc 1175552))).isSome ∧ ∀ c, s.k.current c ≠ some (.proc 1175552) := by
  have hrun : (smallKernel.any fun k => passes (SmpSys.step bumpAlloc)
      (fun s a => decide (s.HeldAt a))
      (fun s => (s.step bumpAlloc (.reapFree (.proc 1175552))).isSome) (SmpSys.boot k) reapRun) = true := by
    decide +kernel
  obtain ⟨v, k, s, hboot, hs, hr, hc, hl⟩ := small_passes (fun _ _ h => of_decide_eq_true h) hrun
  obtain ⟨s', hfree⟩ := isSome_iff_exists.mp hl
  have hno := (cpu_references_exact hboot hc hr).2.2.2 _ s' hfree
  exact ⟨s, hs, hl, fun c => (hno c).1⟩

/-- The child sleeps on CPU 1, is killed by init on CPU 0 and woken by the clock. Between the
scan and the teardown on CPU 0, CPU 1 picks it. -/
def reapRaceRun : List SmpAct :=
  [.schedule 0 blankContext, .schedule 1 blankContext, .syscall 0 blankContext 0 .fork, .schedule 1 blankContext,
   .syscall 1 blankContext 0 (.sleep 1), .schedule 1 blankContext, .schedule 1 blankContext,
   .syscall 0 blankContext 0 (.kill 2), .tick 2000000, .waitScan 0, .schedule 1 blankContext,
   .reapTeardown (.proc 1175552), .reapFree (.proc 1175552)]

/-- `try_reap` has freed the task that CPU 1 runs. -/
theorem running_task_freed : ∃ s, smpRun reapRaceRun = some s ∧
    s.k.current 1 = some (.proc 1175552) ∧ s.k.live (.proc 1175552) = false := by
  have hrun : ((smpRun reapRaceRun).any fun s =>
      decide (s.k.current 1 = some (.proc 1175552) ∧ s.k.live (.proc 1175552) = false)) = true := by decide +kernel
  obtain ⟨s, hs, hl⟩ := (any_eq_true _ _).mp hrun
  exact ⟨s, hs, of_decide_eq_true hl⟩

end NjuOs
