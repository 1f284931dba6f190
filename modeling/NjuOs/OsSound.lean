import NjuOs.Os
import NjuOs.OwnSound
import NjuOs.VfsLemmas

/-!
# Steps of the running system

`KernelInv` is what every later invariant rests on: who is on which CPU, which structs are in
use, and who owns which block. `OsMove` says once what a step can do.
-/

namespace NjuOs

open Function List Option

structure KernelBase (k : Kernel) : Prop where
  cpu : CpuInv k.toKmt
  own : Own k k.ptable
  procs : ∀ t ∈ k.ptable, ∃ a, t = .proc a
  live : ∀ t, k.live t = true ↔ (∃ c, t = .idle c) ∨ t ∈ k.ptable
  idle : ∀ c, (k.tasks (.idle c)).isUser = false

structure KernelInv (k : Kernel) : Prop extends KernelBase k where
  init : ∃ i, k.initproc = some i ∧ i ∈ k.ptable ∧ (k.tasks i).parent = none

inductive OsMove (s : OsSys) : OsAct → OsSys → Prop
  | sched {c : Nat} {ctx rc : Context} {next : TaskRef} {k' : Kmt} (hcpu : CpuInv k')
    (hsw : Switched s.k.toKmt c (s.frame c ctx) next k' rc) :
    OsMove s (.schedule c ctx) (s.trapped c { s.k with toKmt := k' } rc false)
  | tick (now : Nat) : OsMove s (.tick now) { s with k := uprocTick s.k now }
  | mem {c now : Nat} {ctx f0 f : Context} {call : Syscall} {p : TaskRef} {new : List (Nat × Nat)} {k' : Kernel}
    {b : Bool} (hu : s.user c = some p) (hf0 : s.callFrame c ctx call = some f0)
    (hm : MemStep p new s.k k') (hf : f.redo = none) (hcall : ∀ n, call ≠ .sleep n) :
    OsMove s (.syscall c ctx now call) (s.trapped c k' f b)
  | fork {c now a : Nat} {ctx f0 f : Context} {p : TaskRef} {new : List (Nat × Nat)} {k' : Kernel}
    (hu : s.user c = some p) (hf0 : s.callFrame c ctx .fork = some f0)
    (hb : Born a (some p) none new s.k k') (hf : f.redo = none) :
    OsMove s (.syscall c ctx now .fork) { s.trapped c k' f false with born := s.born ++ [s.k.nextPid] }
  | spawn {bin : List UInt8} {len a : Nat} {new : List (Nat × Nat)} {k' : Kernel}
    (hb : Born a none none new s.k k') :
    OsMove s (.spawn bin len) { s with k := k', born := s.born ++ [s.k.nextPid] }
  | exit {c now : Nat} {ctx f0 f : Context} {status : Int} {p : TaskRef} {k' : Kernel}
    (hu : s.user c = some p) (hf0 : s.callFrame c ctx (.exit status) = some f0)
    (hi : s.k.initproc ≠ some p) (hd : Died s.k p status k') (hf : f.redo = none) :
    OsMove s (.syscall c ctx now (.exit status)) (s.trapped c k' f true)
  | fault {c : Nat} {ctx f : Context} {p : TaskRef} {k' : Kernel}
    (hu : s.user c = some p) (hredo : (s.uctx c).redo = none)
    (hi : s.k.initproc ≠ some p) (hd : Died s.k p (-1) k') (hf : f.redo = none) :
    OsMove s (.pageFault c ctx) (s.trapped c k' f true)
  | kill {c now : Nat} {ctx f0 f : Context} {pid : Int} {p target : TaskRef} {k' : Kernel}
    (hu : s.user c = some p) (hf0 : s.callFrame c ctx (.kill pid) = some f0)
    (ht : s.k.ptable.find? (fun t => (s.k.tasks t).pid = pid) = some target) (hne : target ≠ p)
    (hd : Died s.k target (-1) k') (hf : f.redo = none) :
    OsMove s (.syscall c ctx now (.kill pid)) (s.trapped c k' f false)
  | sleepStart {c now : Nat} {ctx f0 f : Context} {n : Int} {p : TaskRef}
    (hu : s.user c = some p) (hf0 : s.callFrame c ctx (.sleep n) = some f0)
    (hs : (s.k.tasks p).sleeping = false) (hf : f.redo = some (.sleep n)) :
    OsMove s (.syscall c ctx now (.sleep n)) (s.trapped c (s.k.modify p fun x =>
      { x with sleeping := true, wakeUs := wakeTime now n, state := .blocked }) f true)
  | sleepDone {c now : Nat} {ctx f0 f : Context} {n : Int} {p : TaskRef}
    (hu : s.user c = some p) (hf0 : s.callFrame c ctx (.sleep n) = some f0)
    (hs : (s.k.tasks p).sleeping = true) (hw : (s.k.tasks p).wakeUs ≤ now) (hf : f.redo = none) :
    OsMove s (.syscall c ctx now (.sleep n))
      (s.trapped c (s.k.modify p fun x => { x with sleeping := false }) f false)
  | sleepAgain {c now : Nat} {ctx f0 f : Context} {n : Int} {p : TaskRef}
    (hu : s.user c = some p) (hf0 : s.callFrame c ctx (.sleep n) = some f0)
    (hs : (s.k.tasks p).sleeping = true) (hw : now < (s.k.tasks p).wakeUs) (hf : f.redo = some (.sleep n)) :
    OsMove s (.syscall c ctx now (.sleep n))
      (s.trapped c (s.k.modify p fun x => { x with state := .blocked }) f true)
  | park {c now va : Nat} {ctx f0 f : Context} {p : TaskRef}
    (hu : s.user c = some p) (hf0 : s.callFrame c ctx (.wait va) = some f0)
    (hs : Scanned s.k p s.k .block) (hf : f.redo = some (.wait va)) :
    OsMove s (.syscall c ctx now (.wait va)) (s.trapped c (s.k.modify p fun x =>
      { x with waiting := true, state := .blocked }) f true)
  | retry {c now va : Nat} {ctx f0 f : Context} {p : TaskRef}
    (hu : s.user c = some p) (hf0 : s.callFrame c ctx (.wait va) = some f0) (hf : f.redo = some (.wait va)) :
    OsMove s (.syscall c ctx now (.wait va)) (s.trapped c s.k f true)
  | reap {c now va : Nat} {ctx f0 f : Context} {p child : TaskRef} {k' : Kernel}
    (hu : s.user c = some p) (hf0 : s.callFrame c ctx (.wait va) = some f0)
    (hr : Reaped s.k p child k') (hf : f.redo = none) :
    OsMove s (.syscall c ctx now (.wait va))
      { s.trapped c k' f false with waited := s.waited ++ [(p, (s.k.tasks child).pid)] }

/-! ## Inversion -/

section
variable {A : Allocator} {s s' : OsSys} {a : OsAct}

@[simp] theorem trapped_k {c : Nat} {k : Kernel} {f : Context} {b : Bool} : (s.trapped c k f b).k = k := rfl

theorem user_some {c : Nat} {p : TaskRef} (h : s.user c = some p) :
    s.k.current c = some p ∧ s.resched c = false ∧ s.k.live p = true ∧ (s.k.tasks p).isUser = true := by
  unfold OsSys.user at h
  split at h
  · cases h
  · next q hq =>
    split at h
    · next hc => cases h; exact ⟨hq, hc⟩
    · cases h

theorem KernelInv.user_mem (hs : KernelInv s.k) {c : Nat} {p : TaskRef} (h : s.user c = some p) : p ∈ s.k.ptable := by
  obtain ⟨-, -, hl, hu⟩ := user_some h
  rcases (hs.live p).mp hl with ⟨d, rfl⟩ | hm
  · rw [hs.idle d] at hu; cases hu
  · exact hm

theorem callFrame_redo {c : Nat} {ctx f : Context} {call : Syscall} (h : s.callFrame c ctx call = some f) :
    f.redo = none := by
  unfold OsSys.callFrame at h
  split at h
  · cases h; rfl
  · split at h
    · cases h; rfl
    · cases h

/-- A process that was rewound onto a call makes that call. -/
theorem callFrame_repeats {c : Nat} {ctx f : Context} {call : Syscall} {b : Blocking}
    (h : s.callFrame c ctx call = some f) (hb : (s.uctx c).redo = some b) : b.repeats call = true := by
  unfold OsSys.callFrame at h
  rw [hb] at h
  simp only at h
  split at h
  · assumption
  · cases h

theorem kputc_memStep (p : TaskRef) (k : Kernel) (v : Vfs) : MemStep p [] k { k with vfs := v } :=
  { MemStep.refl p k with }

theorem osMove_syscall (hs : KernelInv s.k) {c now : Nat} {ctx : Context} {call : Syscall}
    (h : s.step A (.syscall c ctx now call) = some s') : OsMove s (.syscall c ctx now call) s' := by
  obtain ⟨p, hu, h⟩ := bind_eq_some_iff.mp h
  obtain ⟨f0, hf0, h⟩ := bind_eq_some_iff.mp h
  have hr := callFrame_redo hf0
  cases hd : doSyscall A s.k p f0 now call with
  | error e => rw [hd] at h; cases h
  | ok res =>
    obtain ⟨k', f, b⟩ := res
    rw [hd] at h
    cases h
    cases call with
    | kputc ch =>
      cases hd
      simp only [bornBy, waitedBy, append_nil]
      exact .mem hu hf0 (kputc_memStep p s.k _) hr fun n hn => by cases hn
    | getpid =>
      cases hd
      simp only [bornBy, waitedBy, append_nil]
      exact .mem hu hf0 (MemStep.refl p s.k) hr fun n hn => by cases hn
    | uptime =>
      cases hd
      simp only [bornBy, waitedBy, append_nil]
      exact .mem hu hf0 (MemStep.refl p s.k) hr fun n hn => by cases hn
    | unknown num =>
      cases hd
      simp only [bornBy, waitedBy, append_nil]
      exact .mem hu hf0 (MemStep.refl p s.k) hr fun n hn => by cases hn
    | mmap addr length prot flags =>
      obtain ⟨⟨k1, r⟩, h1, hd⟩ := bind_ok hd
      cases hd
      obtain ⟨new, hm⟩ := memStep_sysMmap h1
      simp only [bornBy, waitedBy, append_nil]
      exact .mem hu hf0 hm hr fun n hn => by cases hn
    | vfs vc =>
      obtain ⟨⟨v, fs, r⟩, h1, hd⟩ := bind_ok hd
      cases hd
      simp only [bornBy, waitedBy, append_nil]
      exact .mem hu hf0 (memStep_setFiles p s.k (v, fs)) hr fun n hn => by cases hn
    | exec va path =>
      obtain ⟨⟨k1, done⟩, h1, hd⟩ := bind_ok hd
      obtain ⟨⟨new, hm⟩, hc⟩ := memStep_sysExec h1
      simp only [bornBy, waitedBy, append_nil]
      cases done with
      | true => cases hd; exact .mem hu hf0 hm (hc rfl) fun n hn => by cases hn
      | false => cases hd; exact .mem hu hf0 hm hr fun n hn => by cases hn
    | fork =>
      obtain ⟨⟨k1, pid⟩, h1, hd⟩ := bind_ok hd
      cases hd
      obtain ⟨rfl, a, new, hb⟩ := sysFork_ok h1
      rw [hr] at hb
      simp only [bornBy, waitedBy, append_nil]
      exact .fork hu hf0 hb hr
    | kill pid =>
      obtain ⟨⟨k1, r⟩, h1, hd⟩ := bind_ok hd
      cases hd
      simp only [bornBy, waitedBy, append_nil]
      rcases sysKill_ok h1 with ⟨rfl, -⟩ | ⟨target, ht, hne, -, hdied⟩
      · exact .mem hu hf0 (MemStep.refl p s.k) hr fun n hn => by cases hn
      · exact .kill hu hf0 ht hne hdied hr
    | exit status =>
      obtain ⟨k1, h1, hd⟩ := bind_ok hd
      cases hd
      obtain ⟨hi, hdied⟩ := sysExit_ok h1
      simp only [bornBy, waitedBy, append_nil]
      exact .exit hu hf0 hi hdied hr
    | sleep n =>
      simp only [doSyscall, sysSleep, Except.ok.injEq] at hd
      simp only [bornBy, waitedBy, append_nil]
      by_cases hsl : (s.k.tasks p).sleeping = false
      · rw [if_pos hsl, Prod.mk.injEq, Prod.mk.injEq] at hd
        obtain ⟨rfl, rfl, rfl⟩ := hd
        exact .sleepStart hu hf0 hsl rfl
      · rw [if_neg hsl] at hd
        by_cases hw : (s.k.tasks p).wakeUs ≤ now
        · rw [if_pos hw, Prod.mk.injEq, Prod.mk.injEq] at hd
          obtain ⟨rfl, rfl, rfl⟩ := hd
          exact .sleepDone hu hf0 (by simpa using hsl) hw hr
        · rw [if_neg hw, Prod.mk.injEq, Prod.mk.injEq] at hd
          obtain ⟨rfl, rfl, rfl⟩ := hd
          exact .sleepAgain hu hf0 (by simpa using hsl) (by omega) rfl
    | wait va =>
      obtain ⟨⟨k1, r, pid, st⟩, h1, hd⟩ := bind_ok hd
      simp only [bornBy, waitedBy, h1, append_nil]
      rcases tryReap_ok hs.own hs.procs h1 with ⟨child, rfl, rfl, -, hre⟩ | ⟨rfl, hnr, hsc⟩
      · cases hd
        exact .reap hu hf0 hre hr
      · cases r with
        | reaped child => exact absurd rfl (hnr child)
        | retry =>
          simp only [pure_eq_ok, Prod.mk.injEq] at hd
          obtain ⟨rfl, rfl, rfl⟩ := hd
          simp only [append_nil]
          exact .retry hu hf0 rfl
        | block =>
          simp only [pure_eq_ok, Prod.mk.injEq] at hd
          obtain ⟨rfl, rfl, rfl⟩ := hd
          simp only [append_nil]
          exact .park hu hf0 hsc rfl
        | none =>
          cases hd
          simp only [append_nil]
          exact .mem hu hf0 (MemStep.refl p s.k) hr fun n hn => by cases hn

theorem osMove_step (hs : KernelInv s.k) (h : s.step A a = some s') : OsMove s a s' := by
  cases a with
  | schedule c ctx =>
    simp only [OsSys.step] at h
    cases hk : kmtSchedule s.k.toKmt c (s.frame c ctx) with
    | error e => rw [hk] at h; cases h
    | ok r =>
      obtain ⟨k', rc⟩ := r
      rw [hk] at h
      cases h
      obtain ⟨hcpu, next, hsw⟩ := kmtSchedule_ok hs.cpu hk
      exact .sched hcpu hsw
  | tick now => cases h; exact .tick now
  | syscall c ctx now call => exact osMove_syscall hs h
  | pageFault c ctx =>
    obtain ⟨p, hu, h⟩ := bind_eq_some_iff.mp h
    by_cases hr : (s.uctx c).redo ≠ none
    · rw [if_pos hr] at h; cases h
    · rw [if_neg hr] at h
      cases hk : sysExit s.k p (-1) with
      | error e => rw [hk] at h; cases h
      | ok k' =>
        rw [hk] at h
        cases h
        obtain ⟨hi, hd⟩ := sysExit_ok hk
        exact .fault hu (not_not.mp hr) hi hd rfl
  | spawn bin len =>
    simp only [OsSys.step] at h
    cases hk : procSpawn A s.k bin len with
    | error e => rw [hk] at h; cases h
    | ok r =>
      obtain ⟨k', p⟩ := r
      rw [hk] at h
      cases h
      obtain ⟨a, new, rfl, hb⟩ := procSpawn_ok hk
      have hpid : (k'.tasks (.proc a)).pid = s.k.nextPid := hb.field Task.pid fun _ => rfl
      rw [hpid]
      exact .spawn hb

end

/-! ## The invariant is kept -/

section
variable {k k' : Kernel}

theorem KernelBase.nodup (h : KernelBase k) : k.ptable.Nodup := h.own.nodup h.procs

theorem KernelInv.frame (h : KernelInv k) (hf : Frame k k') (hcpu : SameCpu k.toKmt k'.toKmt)
    (hown : Own k' k.ptable) (huser : ∀ t, (k'.tasks t).isUser = (k.tasks t).isUser)
    (hpar : ∀ t, (k.tasks t).parent = none → (k'.tasks t).parent = none) : KernelInv k' := by
  refine { toKernelBase := ?_, init := ?_ }
  · constructor
    case cpu => exact h.cpu.congr hcpu
    case own => rw [hf.ptable]; exact hown
    case procs => rw [hf.ptable]; exact h.procs
    case live => rw [hf.live, hf.ptable]; exact h.live
    case idle => intro c; rw [huser]; exact h.idle c
  · obtain ⟨i, hi, hm, hp⟩ := h.init
    rw [hf.initproc, hf.ptable]
    exact ⟨i, hi, hm, hpar i hp⟩

theorem KernelInv.mem {p : TaskRef} {new : List (Nat × Nat)} (h : KernelInv k) (hm : MemStep p new k k') :
    KernelInv k' := by
  refine h.frame hm.toFrame hm.sameCpu (h.own.mem h.nodup hm) (hm.field Task.isUser fun _ => rfl) ?_
  intro t ht
  rw [hm.field Task.parent (fun _ => rfl) t]
  exact ht

theorem KernelInv.died {p : TaskRef} {status : Int} (h : KernelInv k) (hd : Died k p status k') :
    KernelInv k' := by
  refine h.frame hd.toFrame hd.sameCpu ?_ (hd.field Task.isUser fun _ => rfl) ?_
  · exact h.own.congr hd.heap fun t _ => hd.field owned (fun _ => rfl) t
  · intro t ht
    rw [hd.parent t, newParent, ht]
    simp

theorem KernelInv.modify {p : TaskRef} {f : Task → Task} (h : KernelInv k)
    (hf : ∀ x, f x = { x with sleeping := (f x).sleeping, wakeUs := (f x).wakeUs, waiting := (f x).waiting,
                              state := (f x).state }) : KernelInv (k.modify p f) := by
  have hsame : ∀ {β : Type} (g : Task → β), (∀ x sl wk wt st,
      g { x with sleeping := sl, wakeUs := wk, waiting := wt, state := st } = g x) →
      ∀ t, g ((k.modify p f).tasks t) = g (k.tasks t) := by
    intro β g hg
    refine modify_field g ?_
    rw [hf, hg]
  refine h.frame (Frame.modify k p f) ((Frame.modify k p f).sameCpu (hsame Task.onCpu fun _ _ _ _ _ => rfl)
    (hsame Task.cpu fun _ _ _ _ _ => rfl) (hsame Task.schedNext fun _ _ _ _ _ => rfl)) ?_
    (hsame Task.isUser fun _ _ _ _ _ => rfl) ?_
  · exact h.own.congr rfl fun t _ => hsame owned (fun _ _ _ _ _ => rfl) t
  · intro t ht
    rw [hsame Task.parent (fun _ _ _ _ _ => rfl) t]
    exact ht

def Task.ticked (now : Nat) (x : Task) : Task :=
  if x.isUser ∧ x.sleeping ∧ x.state = .blocked ∧ x.wakeUs ≤ now then { x with state := .runnable } else x

theorem ticked_eq (now : Nat) (x : Task) : x.ticked now = { x with state := (x.ticked now).state } := by
  unfold Task.ticked
  split <;> rfl

theorem ticked_idem (now : Nat) (x : Task) : (x.ticked now).ticked now = x.ticked now := by
  unfold Task.ticked
  by_cases hx : x.isUser ∧ x.sleeping ∧ x.state = .blocked ∧ x.wakeUs ≤ now
  · simp [hx]
  · simp only [hx, if_false]

theorem uprocTick_tasks (k : Kernel) (now : Nat) (t : TaskRef) :
    (uprocTick k now).tasks t = if t ∈ k.ptable then (k.tasks t).ticked now else k.tasks t :=
  mapTable_tasks (ticked_idem now) t k.ptable k

theorem uprocTick_frame (k : Kernel) (now : Nat) : Frame k (uprocTick k now) ∧ (uprocTick k now).heap = k.heap :=
  mapTable_frame (Task.ticked now) k.ptable k

/-- The clock writes nothing but `state`. -/
theorem uprocTick_field {β : Type*} (g : Task → β) (hg : ∀ x st, g { x with state := st } = g x)
    (now : Nat) (t : TaskRef) : g ((uprocTick k now).tasks t) = g (k.tasks t) := by
  rw [uprocTick_tasks]
  split
  · rw [ticked_eq, hg]
  · rfl

theorem KernelInv.tick (h : KernelInv k) (now : Nat) : KernelInv (uprocTick k now) := by
  obtain ⟨hf, hh⟩ := uprocTick_frame k now
  refine h.frame hf (hf.sameCpu (uprocTick_field Task.onCpu (fun _ _ => rfl) now)
    (uprocTick_field Task.cpu (fun _ _ => rfl) now) (uprocTick_field Task.schedNext (fun _ _ => rfl) now)) ?_
    (uprocTick_field Task.isUser (fun _ _ => rfl) now) ?_
  · exact h.own.congr hh fun t _ => uprocTick_field owned (fun _ _ => rfl) now t
  · intro t ht
    rw [uprocTick_field Task.parent (fun _ _ => rfl) now t]
    exact ht

theorem cpuInv_born {a : Nat} {par : Option TaskRef} {redo : Option Blocking} {new : List (Nat × Nat)}
    (h : CpuInv k.toKmt) (hl : k.live (.proc a) ≠ true) (hb : Born a par redo new k k') : CpuInv k'.toKmt := by
  unfold CpuInv
  rw [hb.current]
  refine CpuRel.extend h hb.current hb.prevTask ?_ ?_ ?_ ?_
  · intro t ht
    rw [hb.live]
    by_cases he : t = .proc a
    · subst he; exact update_self ..
    · rw [update_of_ne he]; exact ht
  · intro t ht
    rw [hb.other t fun he => hl (he ▸ ht)]
    exact ⟨rfl, rfl⟩
  · intro t ht hn
    rw [hb.live] at ht
    by_cases he : t = .proc a
    · subst he
      exact ⟨hb.field Task.onCpu fun _ => rfl, hb.field Task.cpu fun _ => rfl,
        fun c hc => hl (CpuRel.live h (Or.inl hc))⟩
    · rw [update_of_ne he] at ht
      exact absurd ht hn
  · rintro c (hc | ⟨u, hc⟩)
    · rw [hb.taskList] at hc; cases hc
    · by_cases he : u = .proc a
      · subst he
        rw [hb.field Task.schedNext fun _ => rfl] at hc
        exact CpuRel.listed h c (Or.inl hc)
      · rw [hb.other u he] at hc
        exact CpuRel.listed h c (Or.inr ⟨u, hc⟩)

section
variable {a : Nat} {par : Option TaskRef} {redo : Option Blocking} {new : List (Nat × Nat)}

theorem KernelBase.born (h : KernelBase k) (hb : Born a par redo new k k') :
    .proc a ∉ k.ptable ∧ KernelBase k' := by
  obtain ⟨hnew, hown⟩ := h.own.born hb
  have hl : k.live (.proc a) ≠ true := by
    intro hl
    rcases (h.live _).mp hl with ⟨c, hc⟩ | hm
    · cases hc
    · exact hnew hm
  refine ⟨hnew, ?_⟩
  constructor
  case cpu => exact cpuInv_born h.cpu hl hb
  case own => rw [hb.ptable]; exact hown
  case procs =>
    intro t ht
    rw [hb.ptable] at ht
    rcases mem_append.mp ht with ht | ht
    · exact h.procs t ht
    · exact ⟨a, mem_singleton.mp ht⟩
  case live =>
    intro t
    rw [hb.live, hb.ptable, mem_append, mem_singleton]
    by_cases he : t = .proc a
    · subst he; simp
    · rw [update_of_ne he, h.live t]; simp [he]
  case idle => intro c; rw [hb.other _ (by simp)]; exact h.idle c

theorem KernelInv.born (h : KernelInv k) (hb : Born a par redo new k k') : KernelInv k' := by
  obtain ⟨hnew, hbase⟩ := h.toKernelBase.born hb
  obtain ⟨i, hi, hm, hp⟩ := h.init
  refine ⟨hbase, i, hb.initproc.trans hi, ?_, ?_⟩
  · rw [hb.ptable]; exact mem_append_left _ hm
  · rw [hb.other i fun he => hnew (he ▸ hm)]; exact hp

end

theorem KernelInv.switched {c : Nat} {ctx rc : Context} {next : TaskRef} {m : Kmt} (h : KernelInv k)
    (hcpu : CpuInv m) (hsw : Switched k.toKmt c ctx next m rc) : KernelInv { k with toKmt := m } := by
  have hlive : m.live = k.live := hsw.frame.1
  refine { toKernelBase := ?_, init := ?_ }
  · constructor
    case cpu => exact hcpu
    case own =>
      exact h.own.congr rfl fun t _ => hsw.field owned (fun _ _ _ => rfl) (fun _ _ _ _ _ => rfl) t
    case procs => exact h.procs
    case live => intro t; simp only [hlive]; exact h.live t
    case idle =>
      intro d
      exact (hsw.field Task.isUser (fun _ _ _ => rfl) (fun _ _ _ _ _ => rfl) _).trans (h.idle d)
  · obtain ⟨i, hi, hm, hp⟩ := h.init
    exact ⟨i, hi, hm, (hsw.field Task.parent (fun _ _ _ => rfl) (fun _ _ _ _ _ => rfl) i).trans hp⟩

theorem Reaped.mem {p c : TaskRef} (hr : Reaped k p c k') : c ∈ k.ptable := hr.table.subset (mem_cons_self ..)

theorem Reaped.mem_iff {p c t : TaskRef} (h : KernelInv k) (hr : Reaped k p c k') :
    t ∈ k'.ptable ↔ t ∈ k.ptable ∧ t ≠ c := by
  have hnd := (hr.table.nodup_iff).mpr h.nodup
  rw [← hr.table.mem_iff, mem_cons]
  constructor
  · intro ht
    refine ⟨Or.inr ht, ?_⟩
    rintro rfl
    exact (nodup_cons.mp hnd).1 ht
  · rintro ⟨rfl | ht, hne⟩
    · exact absurd rfl hne
    · exact ht

theorem Reaped.field {p c t : TaskRef} (hr : Reaped k p c k') (ht : t ≠ c) {β : Type*} (g : Task → β)
    (hg : ∀ x o, g { x with schedNext := o } = g x) : g (k'.tasks t) = g (k.tasks t) := by
  rw [hr.other t ht, hg]

theorem KernelInv.reaped {p c : TaskRef} (h : KernelInv k) (hr : Reaped k p c k') : KernelInv k' := by
  have hnd := (hr.table.nodup_iff).mpr h.nodup
  obtain ⟨a, rfl⟩ := h.procs c hr.mem
  refine { toKernelBase := ?_, init := ?_ }
  · constructor
    case cpu => exact hr.cpu h.cpu ((h.live _).mpr (Or.inr hr.mem))
    case own => exact (h.own.perm hr.table.symm).reaped hr (nodup_cons.mp hnd).1
    case procs => intro t ht; exact h.procs t ((hr.mem_iff h).mp ht).1
    case live =>
      intro t
      rw [hr.live, hr.mem_iff h]
      by_cases he : t = .proc a
      · subst he; simp
      · rw [update_of_ne he, h.live t]; simp [he]
    case idle =>
      intro d
      rw [hr.field (by simp) Task.isUser fun _ _ => rfl]
      exact h.idle d
  · obtain ⟨i, hi, hm, hp⟩ := h.init
    -- init has no parent, so nobody reaps it
    have hne : i ≠ .proc a := by
      rintro rfl
      have := hr.child.1
      rw [hp] at this
      cases this
    refine ⟨i, hr.initproc.trans hi, (hr.mem_iff h).mpr ⟨hm, hne⟩, ?_⟩
    rw [hr.field hne Task.parent fun _ _ => rfl]
    exact hp

end

section
variable {A : Allocator} {s s' : OsSys} {a : OsAct}

theorem KernelInv.move (h : KernelInv s.k) (hm : OsMove s a s') : KernelInv s'.k := by
  cases hm with
  | sched hcpu hsw => exact h.switched hcpu hsw
  | tick now => exact h.tick now
  | mem _ _ hm => exact h.mem hm
  | fork _ _ hb => exact h.born hb
  | spawn hb => exact h.born hb
  | exit _ _ _ hd => exact h.died hd
  | fault _ _ _ hd => exact h.died hd
  | kill _ _ _ _ hd => exact h.died hd
  | sleepStart => rw [trapped_k]; exact h.modify fun _ => rfl
  | sleepDone => rw [trapped_k]; exact h.modify fun _ => rfl
  | sleepAgain => rw [trapped_k]; exact h.modify fun _ => rfl
  | park => rw [trapped_k]; exact h.modify fun _ => rfl
  | retry => exact h
  | reap _ _ hr => exact h.reaped hr

theorem KernelInv.step (h : KernelInv s.k) (hs : s.step A a = some s') : KernelInv s'.k :=
  h.move (osMove_step h hs)

end

/-! ## Booting -/

section
variable {A : Allocator} {v : Vfs} {uprogs : List (List UInt8 × List UInt8)} {k : Kernel}

theorem kernelBase_blank (v : Vfs) (uprogs : List (List UInt8 × List UInt8)) : KernelBase (Kernel.blank v uprogs) where
  cpu := cpuInv_init
  own := ⟨⟨fun b hb => (not_mem_nil hb).elim, List.Pairwise.nil⟩, le_rfl⟩
  procs := fun t ht => (not_mem_nil ht).elim
  live := by
    intro t
    cases t <;> simp [Kernel.blank, kmtInit]
  idle := fun _ => rfl

theorem uprocInit_ok (h : uprocInit A v uprogs = .ok k) : ∃ a new k1,
    Born a none none new (Kernel.blank v uprogs) k1 ∧ k = { k1 with initproc := some (.proc a) } := by
  unfold uprocInit at h
  split at h
  · cases h
  · obtain ⟨⟨k1, p⟩, h1, h⟩ := bind_ok h
    cases h
    obtain ⟨a, new, rfl, hb⟩ := procSpawn_ok h1
    exact ⟨a, new, k1, hb, rfl⟩

theorem kernelInv_boot (h : uprocInit A v uprogs = .ok k) : KernelInv k := by
  obtain ⟨a, new, k1, hb, rfl⟩ := uprocInit_ok h
  obtain ⟨-, hbase⟩ := (kernelBase_blank v uprogs).born hb
  refine ⟨⟨hbase.cpu, ⟨hbase.own.heapOk, hbase.own.blocks⟩, hbase.procs, hbase.live, hbase.idle⟩,
    .proc a, rfl, ?_, hb.field Task.parent fun _ => rfl⟩
  show TaskRef.proc a ∈ k1.ptable
  rw [hb.ptable]
  simp

theorem kernelInv_run {as : List OsAct} {s : OsSys} (h : uprocInit A v uprogs = .ok k)
    (hr : run (OsSys.step A) (OsSys.boot k) as = some s) : KernelInv s.k :=
  run_inv (I := fun s => KernelInv s.k) (fun _ _ _ hs ha => hs.step ha) as _ s (kernelInv_boot h) hr

end

/-! ## A small machine -/

def topOf (l : List (Nat × Nat)) : Nat := l.foldr (fun b m => max (b.1 + b.2) m) 0

theorem le_topOf {b : Nat × Nat} : ∀ {l : List (Nat × Nat)}, b ∈ l → b.1 + b.2 ≤ topOf l
  | a :: l, h => by
    unfold topOf
    rw [foldr_cons]
    rcases mem_cons.mp h with rfl | h
    · exact Nat.le_max_left ..
    · exact (le_topOf h).trans (Nat.le_max_right ..)

def bumpAlloc : Allocator where
  alloc := fun h size => if size = 0 then none else some ((topOf h.live / pgsize + 1) * pgsize)
  pos := by
    intro h size a ha
    split at ha
    · cases ha
    · omega
  apart := by
    intro h size a ha b hb
    split at ha
    · cases ha
    · cases ha
      have := le_topOf hb
      unfold pgsize
      omega

def smallProgs : List (List UInt8 × List UInt8) := [(bytes "init", [0])]

def smallKernel : Option Kernel :=
  (vfsInit bootMem smallProgs).toOption.bind fun v => (uprocInit bumpAlloc v smallProgs).toOption

def osRun (as : List OsAct) : Option OsSys :=
  smallKernel.bind fun k => run (OsSys.step bumpAlloc) (OsSys.boot k) as

theorem osRun_some {as : List OsAct} {s : OsSys} (h : osRun as = some s) : ∃ v k,
    smallKernel = some k ∧ uprocInit bumpAlloc v smallProgs = .ok k ∧
      run (OsSys.step bumpAlloc) (OsSys.boot k) as = some s := by
  obtain ⟨k, hk, hr⟩ := bind_eq_some_iff.mp h
  obtain ⟨v, -, hu⟩ := bind_eq_some_iff.mp hk
  exact ⟨v, k, hk, toOption_some hu, hr⟩

/-- Some system on the small machine passes its tests. -/
theorem small_passes {σ α : Type} {step : σ → α → Option σ} {boot : Kernel → σ} {c : σ → α → Bool}
    {C : σ → α → Prop} {p : σ → Bool} {as : List α} (hc : ∀ s a, c s a = true → C s a)
    (h : (smallKernel.any fun k => passes step c p (boot k) as) = true) :
    ∃ v k s, uprocInit bumpAlloc v smallProgs = .ok k ∧ (smallKernel.bind fun k => run step (boot k) as) = some s ∧
      run step (boot k) as = some s ∧ Along step C (boot k) as ∧ p s = true := by
  obtain ⟨k, hk, h⟩ := (any_eq_true _ _).mp h
  obtain ⟨v, -, hu⟩ := bind_eq_some_iff.mp hk
  obtain ⟨s, hr, hal, hp⟩ := passes_run hc h
  refine ⟨v, k, s, toOption_some hu, ?_, hr, hal, hp⟩
  rw [hk]
  exact hr

def familyRun : List OsAct :=
  [.schedule 0 blankContext, .syscall 0 blankContext 0 .fork, .schedule 0 blankContext,
   .syscall 0 blankContext 0 (.mmap 0 8192 6 1),
   .syscall 0 blankContext 0 (.exec userBase ⟨bytes "/bin/init", []⟩), .schedule 0 blankContext,
   .schedule 0 blankContext, .syscall 0 blankContext 0 (.exit 7), .schedule 0 blankContext,
   .syscall 0 blankContext 0 (.wait 0), .schedule 0 blankContext, .schedule 0 blankContext,
   .syscall 0 blankContext 0 (.wait 0)]

end NjuOs
