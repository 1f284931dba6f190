import NjuOs.OsSound

/-!
# Sleeping

A `sleep` that blocks is made again from user mode, from the instruction that the saved context was
rewound to. The system below remembers which call each process is in, beside the kernel: whether a
trap is a new call or the repetition of one is told from the rewound context, not from the
`sleeping` flag of the code. The clock never goes back, and any blocked task may become runnable at
any time.
-/

namespace NjuOs

open Function Option

structure SleepCall where
  entered : Nat
  seconds : Int
  start : Nat
  deriving DecidableEq

/-- `t0 + max(s, 0) * 10^6` -/
def SleepCall.deadline (call : SleepCall) : Nat := call.entered + call.seconds.toNat * 1000000

def InUint64 (now : Nat) (seconds : Int) : Prop :=
  0 ≤ (now : Int) + seconds * 1000000 ∧ (now : Int) + seconds * 1000000 < 2 ^ 64

instance (now : Nat) (seconds : Int) : Decidable (InUint64 now seconds) := inferInstanceAs (Decidable (_ ∧ _))

structure SleepEnd where
  call : SleepCall
  now : Nat
  ret : Int
  rip : Nat
  deriving DecidableEq

structure SleepSys where
  os : OsSys
  clock : Nat
  pending : TaskRef → Option SleepCall
  ended : List SleepEnd

inductive SleepAct
  | os (a : OsAct)
  /-- a spurious wakeup -/
  | wake (t : TaskRef)

def SleepSys.boot (k : Kernel) (clock : Nat) : SleepSys := ⟨OsSys.boot k, clock, fun _ => none, []⟩

def OsAct.time : OsAct → Option Nat
  | .tick now => some now
  | .syscall _ _ now _ => some now
  | _ => none

/-- `(int)a0` -/
def OsAct.intArg : OsAct → Bool
  | .syscall _ _ _ (.sleep n) => -2 ^ 31 ≤ n ∧ n < 2 ^ 31
  | _ => true

def SleepSys.callOf (s : SleepSys) (cpu : Nat) (p : TaskRef) (f : Context) (now : Nat) (n : Int) : SleepCall :=
  match (s.os.uctx cpu).redo, s.pending p with
  | some _, some call => call
  | _, _ => ⟨now, n, sub64 f.rip syscallInstrLen⟩

def SleepSys.record (s : SleepSys) (cpu : Nat) (p : TaskRef) (f : Context) (now : Nat) (n : Int) (os : OsSys) :
    SleepSys :=
  let call := s.callOf cpu p f now n
  let f := os.uctx cpu
  if f.redo = none then
    { os := os, clock := now, pending := update s.pending p none,
      ended := s.ended ++ [⟨call, now, f.gprx, f.rip⟩] }
  else { os := os, clock := now, pending := update s.pending p (some call), ended := s.ended }

def SleepSys.osStep (A : Allocator) (s : SleepSys) : OsAct → Option SleepSys
  | .syscall cpu ctx now (.sleep n) => do
    let p ← s.os.user cpu
    let f ← s.os.callFrame cpu ctx (.sleep n)
    let os ← s.os.step A (.syscall cpu ctx now (.sleep n))
    return s.record cpu p f now n os
  | a => do
    let os ← s.os.step A a
    return { s with
      os := os
      clock := a.time.getD s.clock
      pending := fun t => if t ∈ os.k.ptable then s.pending t else none }

def SleepSys.step (A : Allocator) (s : SleepSys) : SleepAct → Option SleepSys
  | .os a => if a.intArg ∧ a.time.all (fun now => s.clock ≤ now ∧ now < 2 ^ 64) then s.osStep A a else none
  | .wake t =>
    if (s.os.k.tasks t).state = .blocked then
      some { s with os := { s.os with k := s.os.k.modify t fun x => { x with state := .runnable } } }
    else none

def SleepFits (s : SleepSys) : SleepAct → Prop
  | .os (.syscall cpu _ now (.sleep n)) => (s.os.uctx cpu).redo = none → InUint64 now n
  | _ => True

instance (s : SleepSys) (a : SleepAct) : Decidable (SleepFits s a) := by
  unfold SleepFits
  split <;> infer_instance

def OsSys.Holds (s : OsSys) (t : TaskRef) (x : Context) : Prop :=
  (∃ c, s.k.current c = some t ∧ x = s.uctx c) ∨ (∀ c, s.k.current c ≠ some t) ∧ x = (s.k.tasks t).context

/-- What sleeping is to be like: calls that have come back did so in time; one that has not is made
again from its instruction, comes back with 0 at or after its deadline and only then, and the clock
wakes it by then. -/
structure SleepExact (s : SleepSys) : Prop where
  ended : ∀ e ∈ s.ended, e.ret = 0 ∧ e.rip = add64 e.call.start syscallInstrLen ∧ e.call.deadline ≤ e.now
  repeated : ∀ t call, s.pending t = some call → ∀ x, s.os.Holds t x →
    x.redo = some (.sleep call.seconds) ∧ x.rip = call.start
  resumed : ∀ t call, s.pending t = some call → ∀ f now, s.clock ≤ now → now < 2 ^ 64 →
    (sysSleep s.os.k t f now call.seconds).2 =
      if call.deadline ≤ now then ({ f with gprx := 0 }, false) else (rewindSyscall f (.sleep call.seconds), true)
  woken : ∀ t call, s.pending t = some call → ∀ now, s.clock ≤ now → now < 2 ^ 64 → call.deadline ≤ now →
    ((uprocTick s.os.k now).tasks t).state = .runnable

/-! ## What other steps leave of a sleep -/

def Task.nap (x : Task) : Bool × Nat × Bool := (x.sleeping, x.wakeUs, x.isUser)

def Task.Ready (x : Task) : Prop := x.state = .runnable ∨ x.state = .blocked

def Context.Awake (x : Context) : Prop := ∀ n, x.redo ≠ some (.sleep n)

inductive Rested (s s' : OsSys) (t : TaskRef) : Prop
  | kept (hmem : t ∈ s.k.ptable) (hnap : (s'.k.tasks t).nap = (s.k.tasks t).nap)
    (hready : (s.k.tasks t).Ready → (s'.k.tasks t).Ready)
    (hheld : ∀ x', s'.Holds t x' → ∃ x, s.Holds t x ∧ x'.redo = x.redo ∧ (x.redo ≠ none → x'.rip = x.rip))
  | ran (hmem : t ∈ s.k.ptable) (hnap : (s'.k.tasks t).nap = (s.k.tasks t).nap) (x : Context) (hx : s.Holds t x)
    (hawake : x.Awake) (hheld : ∀ x', s'.Holds t x' → x'.Awake)
  | fresh (hsl : (s'.k.tasks t).sleeping = false) (hnew : t ∉ s.k.ptable) (hheld : ∀ x', s'.Holds t x' → x'.Awake)

section
variable {s s' : OsSys} {c : Nat} {p t : TaskRef}

theorem Rested.still (hmem : t ∈ s.k.ptable) (hcur : s'.k.current = s.k.current)
    (hux : ∀ c, s.k.current c = some t → s'.uctx c = s.uctx c) (hnap : (s'.k.tasks t).nap = (s.k.tasks t).nap)
    (hready : (s.k.tasks t).Ready → (s'.k.tasks t).Ready)
    (hctx : (s'.k.tasks t).context = (s.k.tasks t).context) : Rested s s' t := by
  refine .kept hmem hnap hready fun x' hx' => ⟨x', ?_, rfl, fun _ => rfl⟩
  rw [OsSys.Holds, hcur] at hx'
  rcases hx' with ⟨d, hd, rfl⟩ | ⟨hno, rfl⟩
  · exact Or.inl ⟨d, hd, hux d hd⟩
  · exact Or.inr ⟨hno, hctx⟩

theorem Rested.trap {f : Context} (hk : KernelInv s.k) (hu : s.user c = some p)
    (hux : s'.uctx = update s.uctx c f) (hcur : s'.k.current = s.k.current) (hcaller : (s.uctx c).Awake)
    (hf : f.Awake) (hmem : t ∈ s.k.ptable) (hnap : (s'.k.tasks t).nap = (s.k.tasks t).nap)
    (hready : (s.k.tasks t).Ready → (s'.k.tasks t).Ready)
    (hctx : t ≠ p → (s'.k.tasks t).context = (s.k.tasks t).context) : Rested s s' t := by
  have hc := (user_some hu).1
  by_cases htp : t = p
  · subst htp
    refine .ran hmem hnap (s.uctx c) (Or.inl ⟨c, hc, rfl⟩) hcaller fun x' hx' => ?_
    rw [OsSys.Holds, hcur, hux] at hx'
    rcases hx' with ⟨d, hd, rfl⟩ | ⟨hno, -⟩
    · obtain rfl : d = c := CpuRel.unique hk.cpu (Or.inl hd) (Or.inl hc)
      rw [update_self]
      exact hf
    · exact absurd hc (hno c)
  · refine .still hmem hcur (fun d hd => ?_) hnap hready (hctx htp)
    have hdc : d ≠ c := by
      rintro rfl
      rw [hc] at hd
      exact htp (some.inj hd).symm
    rw [hux, update_of_ne hdc]

theorem Rested.born {a : Nat} {par : Option TaskRef} {new : List (Nat × Nat)} (hk : KernelInv s.k)
    (hb : Born a par none new s.k s'.k) : Rested s s' (.proc a) := by
  have hnew := (hk.toKernelBase.born hb).1
  have hoff : ∀ d, s'.k.current d ≠ some (.proc a) := by
    intro d hd
    rw [hb.current] at hd
    rcases (hk.live _).mp (CpuRel.live hk.cpu (Or.inl hd)) with ⟨e, he⟩ | hm
    · cases he
    · exact hnew hm
  refine .fresh (hb.field Task.sleeping fun _ => rfl) hnew fun x' hx' => ?_
  rcases hx' with ⟨d, hd, -⟩ | ⟨-, rfl⟩
  · exact absurd hd (hoff d)
  · intro n hn
    rw [hb.context] at hn
    cases hn

theorem Rested.older {a : Nat} {par : Option TaskRef} {new : List (Nat × Nat)} (hk : KernelInv s.k)
    (hb : Born a par none new s.k s'.k) (ht : t ∈ s'.k.ptable)
    (hold : t ∈ s.k.ptable → s'.k.tasks t = s.k.tasks t → Rested s s' t) : Rested s s' t := by
  by_cases hn : t = .proc a
  · subst hn
    exact .born hk hb
  · rw [hb.ptable] at ht
    have hmem := (List.mem_append.mp ht).resolve_right fun h => hn (List.mem_singleton.mp h)
    exact hold hmem (hb.other t hn)

/-- Who makes another call, or a fault, is not in a `sleep`. -/
theorem callFrame_awake {ctx f : Context} {call : Syscall} (h : s.callFrame c ctx call = some f)
    (hcall : ∀ n, call ≠ .sleep n) : (s.uctx c).Awake := by
  intro n hn
  have hrep := callFrame_repeats h hn
  cases call with
  | sleep m => exact hcall m rfl
  | _ => cases hrep

theorem awake_of_none {x : Context} (h : x.redo = none) : x.Awake := by
  intro n hn
  rw [h] at hn
  cases hn

theorem Rested.died {f : Context} {q : TaskRef} {status : Int} (hk : KernelInv s.k) (hu : s.user c = some p)
    (hd : Died s.k q status s'.k) (hux : s'.uctx = update s.uctx c f) (hcaller : (s.uctx c).Awake)
    (hf : f.redo = none) (ht : t ∈ s'.k.ptable) : Rested s s' t := by
  refine .trap hk hu hux hd.current hcaller (awake_of_none hf) (by rw [← hd.ptable]; exact ht)
    (hd.field Task.nap (fun _ => rfl) t) (fun hr => ?_) fun _ => hd.field Task.context (fun _ => rfl) t
  unfold Task.Ready
  rw [hd.state t]
  split
  · exact Or.inr rfl
  split
  · exact Or.inl rfl
  · exact hr

theorem frame_held (s : OsSys) (c : Nat) (ctx : Context) : (s.frame c ctx).redo = (s.uctx c).redo ∧
    ((s.uctx c).redo ≠ none → (s.frame c ctx).rip = (s.uctx c).rip) := by
  unfold OsSys.frame
  split
  · next h => exact ⟨h.2.symm, fun hne => absurd h.2 hne⟩
  · exact ⟨rfl, fun _ => rfl⟩

theorem Rested.switched {ctx rc : Context} {next : TaskRef} {m : Kmt} (hk : KernelInv s.k)
    (hsw : Switched s.k.toKmt c (s.frame c ctx) next m rc) (ht : t ∈ s.k.ptable) :
    Rested s (s.trapped c { s.k with toKmt := m } rc false) t := by
  obtain ⟨n, rfl⟩ := hk.procs t ht
  have hnap : (m.tasks (.proc n)).nap = (s.k.tasks (.proc n)).nap :=
    hsw.field Task.nap (fun _ _ _ => rfl) (fun _ _ _ _ _ => rfl) _
  refine .kept ht hnap ?_ ?_
  · intro hr
    rcases hsw.state (.proc n) with h1 | ⟨-, h1, -⟩
    · have h1 : (m.tasks (.proc n)).state = _ := h1
      rw [Task.Ready]
      show (m.tasks (.proc n)).state = _ ∨ (m.tasks (.proc n)).state = _
      rw [h1]
      exact hr
    · exact Or.inl h1
  · rintro x' (⟨d, hd, rfl⟩ | ⟨hno, rfl⟩)
    · have hd : m.current d = some (.proc n) := hd
      rw [hsw.current] at hd
      by_cases hdc : d = c
      · subst hdc
        rw [update_self] at hd
        obtain rfl := some.inj hd
        -- it was picked, so it was saved and on no CPU
        have hcur : s.k.current d ≠ some (.proc n) := by
          rcases hsw.picked with h1 | ⟨-, h1, -⟩
          · cases h1
          · exact h1
        refine ⟨rc, Or.inr ⟨fun e he => ?_, hsw.resumed hcur⟩, ?_, fun _ => ?_⟩
        · obtain rfl := hsw.free e (Or.inl he)
          exact hcur he
        · exact congrArg Context.redo (update_self ..)
        · exact congrArg Context.rip (update_self ..)
      · rw [update_of_ne hdc] at hd
        have hsame : update s.uctx c rc d = s.uctx d := update_of_ne hdc ..
        exact ⟨s.uctx d, Or.inl ⟨d, hd, rfl⟩, congrArg Context.redo hsame, fun _ => congrArg Context.rip hsame⟩
    · by_cases hc : s.k.current c = some (.proc n)
      · have hsaved : (m.tasks (.proc n)).context = s.frame c ctx := congrArg Task.context (hsw.saved _ hc)
        obtain ⟨hredo, hrip⟩ := frame_held s c ctx
        refine ⟨s.uctx c, Or.inl ⟨c, hc, rfl⟩, ?_, fun hne => ?_⟩
        · exact (congrArg Context.redo hsaved).trans hredo
        · exact (congrArg Context.rip hsaved).trans (hrip hne)
      · have hsame : (m.tasks (.proc n)).context = (s.k.tasks (.proc n)).context := by rw [hsw.other _ hc]
        refine ⟨_, Or.inr ⟨fun d hd => ?_, rfl⟩, congrArg Context.redo hsame, fun _ => congrArg Context.rip hsame⟩
        have hdc : d ≠ c := by
          rintro rfl
          exact hc hd
        refine hno d ?_
        show m.current d = _
        rw [hsw.current, update_of_ne hdc]
        exact hd

theorem OsMove.rested {a : OsAct} (hk : KernelInv s.k) (hm : OsMove s a s')
    (ha : ∀ c ctx now n, a ≠ .syscall c ctx now (.sleep n)) (ht : t ∈ s'.k.ptable) : Rested s s' t := by
  cases hm with
  | sched _ hsw => exact .switched hk hsw ht
  | tick now =>
    obtain ⟨hf, -⟩ := uprocTick_frame s.k now
    refine .still (by rw [← hf.ptable]; exact ht) hf.current (fun _ _ => rfl)
      (uprocTick_field Task.nap (fun _ _ => rfl) now t) (fun hr => ?_)
      (uprocTick_field Task.context (fun _ _ => rfl) now t)
    show ((uprocTick s.k now).tasks t).Ready
    rw [uprocTick_tasks]
    split
    · unfold Task.ticked
      split
      · exact Or.inl rfl
      · exact hr
    · exact hr
  | @mem c now ctx f0 f call p new k' b hu hf0 hm hf hcall =>
    refine .trap hk hu rfl hm.current (callFrame_awake hf0 hcall) (awake_of_none hf) (by rw [← hm.ptable]; exact ht)
      (hm.field Task.nap (fun _ => rfl) t) (fun hr => ?_) fun hne => congrArg Task.context (hm.other t hne)
    have hst := hm.field Task.state (fun _ => rfl) t
    unfold Task.Ready
    rw [trapped_k, hst]
    exact hr
  | fork hu hf0 hb hf =>
    refine .older hk hb ht fun hmem hsame => ?_
    exact .trap hk hu rfl hb.current (callFrame_awake hf0 nofun) (awake_of_none hf) hmem (congrArg Task.nap hsame)
      (fun hr => by rw [hsame]; exact hr) fun _ => congrArg Task.context hsame
  | spawn hb =>
    refine .older hk hb ht fun hmem hsame => ?_
    exact .still hmem hb.current (fun _ _ => rfl) (congrArg Task.nap hsame) (fun hr => by rw [hsame]; exact hr)
      (congrArg Task.context hsame)
  | exit hu hf0 _ hd hf => exact .died hk hu hd rfl (callFrame_awake hf0 nofun) hf ht
  | fault hu hr _ hd hf => exact .died hk hu hd rfl (awake_of_none hr) hf ht
  | kill hu hf0 _ _ hd hf => exact .died hk hu hd rfl (callFrame_awake hf0 nofun) hf ht
  | sleepStart => exact absurd rfl (ha _ _ _ _)
  | sleepDone => exact absurd rfl (ha _ _ _ _)
  | sleepAgain => exact absurd rfl (ha _ _ _ _)
  | @park c now va ctx f0 f p hu hf0 hs hf =>
    refine .trap hk hu rfl rfl (callFrame_awake hf0 nofun) ?_ ht (modify_field Task.nap rfl t) (fun hr => ?_)
      fun hne => congrArg Task.context (modify_tasks_ne hne)
    · intro n hn
      rw [hf] at hn
      cases hn
    · rw [trapped_k]
      by_cases htp : t = p
      · subst htp
        rw [modify_tasks_self]
        exact Or.inr rfl
      · rw [modify_tasks_ne htp]
        exact hr
  | @retry c now va ctx f0 f p hu hf0 hf =>
    refine .trap hk hu rfl rfl (callFrame_awake hf0 nofun) ?_ ht rfl id fun _ => rfl
    intro n hn
    rw [hf] at hn
    cases hn
  | @reap c now va ctx f0 f p child k' hu hf0 hr hf =>
    obtain ⟨hmem, hne⟩ := (hr.mem_iff hk).mp ht
    refine .trap hk hu rfl hr.current (callFrame_awake hf0 nofun) (awake_of_none hf) hmem
      (hr.field hne Task.nap fun _ _ => rfl) (fun hready => ?_) fun _ => hr.field hne Task.context fun _ _ => rfl
    have hst := hr.field hne Task.state fun _ _ => rfl
    show (k'.tasks t).Ready
    unfold Task.Ready
    rw [hst]
    exact hready

end

/-! ## The invariant -/

structure SleepOk (s : SleepSys) (t : TaskRef) : Prop where
  asleep : (s.os.k.tasks t).sleeping = (s.pending t).isSome
  awake : s.pending t = none → ∀ x, s.os.Holds t x → x.Awake
  held : ∀ call, s.pending t = some call → ∀ x, s.os.Holds t x →
    x.redo = some (.sleep call.seconds) ∧ x.rip = call.start
  wake : ∀ call, s.pending t = some call → (s.os.k.tasks t).wakeUs = wakeTime call.entered call.seconds
  past : ∀ call, s.pending t = some call → call.entered ≤ s.clock ∧ call.start < 2 ^ 64
  ready : ∀ call, s.pending t = some call → (s.os.k.tasks t).isUser = true ∧ (s.os.k.tasks t).Ready

structure SleepInv (s : SleepSys) : Prop where
  kernel : KernelInv s.os.k
  tasks : ∀ t ∈ s.os.k.ptable, SleepOk s t
  table : ∀ t call, s.pending t = some call → t ∈ s.os.k.ptable

section
variable {A : Allocator} {s s' : SleepSys} {t : TaskRef}

theorem SleepOk.of_none (hsl : (s.os.k.tasks t).sleeping = false) (hp : s.pending t = none)
    (hheld : ∀ x, s.os.Holds t x → x.Awake) : SleepOk s t where
  asleep := by rw [hsl, hp]; rfl
  awake _ := hheld
  held call h := by rw [hp] at h; cases h
  wake call h := by rw [hp] at h; cases h
  past call h := by rw [hp] at h; cases h
  ready call h := by rw [hp] at h; cases h

theorem SleepInv.rested (h : SleepInv s) (hr : Rested s.os s'.os t) (hp : s'.pending t = s.pending t)
    (hclock : s.clock ≤ s'.clock) : SleepOk s' t := by
  cases hr with
  | kept hmem hnap hready hheld =>
    have hold := h.tasks t hmem
    obtain ⟨hsl, hwake, huser⟩ : (s'.os.k.tasks t).sleeping = (s.os.k.tasks t).sleeping ∧
        (s'.os.k.tasks t).wakeUs = (s.os.k.tasks t).wakeUs ∧ (s'.os.k.tasks t).isUser = (s.os.k.tasks t).isUser := by
      simpa only [Task.nap, Prod.mk.injEq] using hnap
    constructor
    case asleep => rw [hsl, hp, hold.asleep]
    case awake =>
      intro hn x' hx' n
      obtain ⟨x, hx, hredo, -⟩ := hheld x' hx'
      rw [hredo]
      exact hold.awake (hp.symm.trans hn) x hx n
    case held =>
      intro call hc x' hx'
      obtain ⟨x, hx, hredo, hrip⟩ := hheld x' hx'
      obtain ⟨h1, h2⟩ := hold.held call (hp.symm.trans hc) x hx
      refine ⟨hredo.trans h1, (hrip ?_).trans h2⟩
      rw [h1]
      nofun
    case wake =>
      intro call hc
      rw [hwake]
      exact hold.wake call (hp.symm.trans hc)
    case past =>
      intro call hc
      obtain ⟨h1, h2⟩ := hold.past call (hp.symm.trans hc)
      exact ⟨h1.trans hclock, h2⟩
    case ready =>
      intro call hc
      obtain ⟨h1, h2⟩ := hold.ready call (hp.symm.trans hc)
      exact ⟨huser.trans h1, hready h2⟩
  | ran hmem hnap x hx hawake hheld =>
    have hold := h.tasks t hmem
    have hn : s.pending t = none := by
      cases hc : s.pending t with
      | none => rfl
      | some call => exact absurd (hold.held call hc x hx).1 (hawake _)
    have hsl : (s'.os.k.tasks t).sleeping = (s.os.k.tasks t).sleeping := congrArg Prod.fst hnap
    refine SleepOk.of_none ?_ (hp.trans hn) hheld
    rw [hsl, hold.asleep, hn]
    rfl
  | fresh hsl hnew hheld =>
    refine SleepOk.of_none hsl ?_ hheld
    rw [hp]
    cases hc : s.pending t with
    | none => rfl
    | some call => exact absurd (h.table t call hc) hnew

/-! ## A trap of `sleep` -/

inductive SleepTrap (s : SleepSys) (c : Nat) (p : TaskRef) (now : Nat) (n : Int) : SleepSys → Prop
  | entered (f : Context) (hredo : (s.os.uctx c).redo = none) (hp : s.pending p = none) :
    SleepTrap s c p now n
      { os := s.os.trapped c (s.os.k.modify p fun x =>
          { x with sleeping := true, wakeUs := wakeTime now n, state := .blocked }) (rewindSyscall f (.sleep n)) true
        clock := now
        pending := update s.pending p (some ⟨now, n, sub64 f.rip syscallInstrLen⟩)
        ended := s.ended }
  | ended (f : Context) (call : SleepCall) (hp : s.pending p = some call) (hn : call.seconds = n)
    (hrip : f.rip = add64 call.start syscallInstrLen) (hredo : f.redo = none)
    (hdue : wakeTime call.entered n ≤ now) :
    SleepTrap s c p now n
      { os := s.os.trapped c (s.os.k.modify p fun x => { x with sleeping := false }) { f with gprx := 0 } false
        clock := now
        pending := update s.pending p none
        ended := s.ended ++ [⟨call, now, 0, f.rip⟩] }
  | again (f : Context) (call : SleepCall) (hp : s.pending p = some call) (hn : call.seconds = n)
    (hrip : f.rip = add64 call.start syscallInstrLen) (hdue : now < wakeTime call.entered n) :
    SleepTrap s c p now n
      { os := s.os.trapped c (s.os.k.modify p fun x => { x with state := .blocked }) (rewindSyscall f (.sleep n)) true
        clock := now
        pending := update s.pending p (some call)
        ended := s.ended }

theorem SleepInv.trap (h : SleepInv s) {c now : Nat} {ctx f : Context} {n : Int} {p : TaskRef} {os : OsSys}
    (hu : s.os.user c = some p) (hf : s.os.callFrame c ctx (.sleep n) = some f)
    (hos : s.os.step A (.syscall c ctx now (.sleep n)) = some os) :
    SleepTrap s c p now n (s.record c p f now n os) := by
  have hok := h.tasks p (h.kernel.user_mem hu)
  have hold : s.os.Holds p (s.os.uctx c) := Or.inl ⟨c, (user_some hu).1, rfl⟩
  have hstep : os = s.os.trapped c (sysSleep s.os.k p f now n).1 (sysSleep s.os.k p f now n).2.1
      (sysSleep s.os.k p f now n).2.2 := by
    simp only [OsSys.step, hu, hf, doSyscall, bornBy, waitedBy, List.append_nil, bind_eq_bind,
      bind_some, some.injEq] at hos
    exact hos.symm
  have huctx : os.uctx c = (sysSleep s.os.k p f now n).2.1 := by
    rw [hstep]
    exact update_self ..
  cases hp : s.pending p with
  | none =>
    have hredo : (s.os.uctx c).redo = none := by
      cases hr : (s.os.uctx c).redo with
      | none => rfl
      | some b =>
        have hrep := callFrame_repeats hf hr
        cases b with
        | wait va => cases hrep
        | sleep m => exact absurd hr (hok.awake hp _ hold m)
    have hsl : (s.os.k.tasks p).sleeping = false := by
      rw [hok.asleep, hp]
      rfl
    have hcall : s.callOf c p f now n = ⟨now, n, sub64 f.rip syscallInstrLen⟩ := by
      rw [SleepSys.callOf, hredo]
    rw [sysSleep, if_pos hsl] at hstep huctx
    rw [SleepSys.record, hcall, huctx, hstep]
    exact .entered f hredo hp
  | some call =>
    obtain ⟨hredo, hrip⟩ := hok.held call hp _ hold
    have hrep := callFrame_repeats hf hredo
    have hn : call.seconds = n := of_decide_eq_true hrep
    have hframe : f = { s.os.uctx c with rip := add64 call.start syscallInstrLen, redo := none } := by
      unfold OsSys.callFrame at hf
      rw [hredo] at hf
      dsimp only at hf
      rw [if_pos hrep, hrip] at hf
      exact (some.inj hf).symm
    have hsl : ¬(s.os.k.tasks p).sleeping = false := by
      rw [hok.asleep, hp]
      simp
    have hcall : s.callOf c p f now n = call := by
      rw [SleepSys.callOf, hredo, hp]
    have hwake := hok.wake call hp
    rw [hn] at hwake
    rw [sysSleep, if_neg hsl, hwake] at hstep huctx
    by_cases hdue : wakeTime call.entered n ≤ now
    · rw [if_pos hdue] at hstep huctx
      have hnone : f.redo = none := by rw [hframe]
      rw [SleepSys.record, hcall, huctx, hstep]
      dsimp only
      rw [if_pos hnone]
      exact .ended f call hp hn (by rw [hframe]) hnone hdue
    · rw [if_neg hdue] at hstep huctx
      rw [SleepSys.record, hcall, huctx, hstep]
      exact .again f call hp hn (by rw [hframe]) (Nat.lt_of_not_le hdue)

theorem sub64_lt (a b : Nat) : sub64 a b < 2 ^ 64 := Nat.mod_lt _ (by decide)

theorem sub64_add64 {a : Nat} (h : a < 2 ^ 64) : sub64 (add64 a syscallInstrLen) syscallInstrLen = a := by
  simp only [sub64, add64, syscallInstrLen]
  omega

/-- Who trapped holds the frame that the handler leaves. -/
theorem holds_trapped {s : OsSys} {c : Nat} {p : TaskRef} {g : Task → Task} {f x : Context} {b : Bool}
    (hk : KernelInv s.k) (hu : s.user c = some p) (hx : (s.trapped c (s.k.modify p g) f b).Holds p x) : x = f := by
  have hc := (user_some hu).1
  rcases hx with ⟨d, hd, rfl⟩ | ⟨hno, -⟩
  · obtain rfl : d = c := CpuRel.unique hk.cpu (Or.inl hd) (Or.inl hc)
    exact update_self ..
  · exact absurd hc (hno c)

theorem SleepInv.sleeper {c : Nat} {p : TaskRef} (h : SleepInv s) (hu : s.os.user c = some p) {g : Task → Task}
    {f : Context} {b : Bool} {call : SleepCall} (hos : s'.os = s.os.trapped c (s.os.k.modify p g) f b)
    (hp : s'.pending p = some call) (hsl : (g (s.os.k.tasks p)).sleeping = true)
    (hredo : f.redo = some (.sleep call.seconds)) (hrip : f.rip = call.start)
    (hwake : (g (s.os.k.tasks p)).wakeUs = wakeTime call.entered call.seconds)
    (hpast : call.entered ≤ s'.clock) (hstart : call.start < 2 ^ 64)
    (huser : (g (s.os.k.tasks p)).isUser = (s.os.k.tasks p).isUser) (hstate : (g (s.os.k.tasks p)).Ready) :
    SleepOk s' p := by
  obtain ⟨-, -, -, hisUser⟩ := user_some hu
  have hself : s'.os.k.tasks p = g (s.os.k.tasks p) := by
    rw [hos]
    exact modify_tasks_self ..
  have hheld : ∀ x, s'.os.Holds p x → x = f := by
    rw [hos]
    exact fun x hx => holds_trapped h.kernel hu hx
  constructor
  case asleep =>
    rw [hself, hsl, hp]
    rfl
  case awake =>
    intro hn
    rw [hp] at hn
    cases hn
  case held =>
    intro call' hc' x hx
    obtain rfl := some.inj (hp.symm.trans hc')
    rw [hheld x hx]
    exact ⟨hredo, hrip⟩
  case wake =>
    intro call' hc'
    obtain rfl := some.inj (hp.symm.trans hc')
    rw [hself]
    exact hwake
  case past =>
    intro call' hc'
    obtain rfl := some.inj (hp.symm.trans hc')
    exact ⟨hpast, hstart⟩
  case ready =>
    intro call' _
    rw [hself]
    exact ⟨huser.trans hisUser, hstate⟩

theorem SleepInv.slept {c : Nat} {p : TaskRef} (h : SleepInv s) (hu : s.os.user c = some p) {g : Task → Task}
    {f : Context} {b : Bool} {o : Option SleepCall} (hk : KernelInv s'.os.k)
    (hos : s'.os = s.os.trapped c (s.os.k.modify p g) f b) (hpend : s'.pending = update s.pending p o)
    (hclock : s.clock ≤ s'.clock) (hself : SleepOk s' p) : SleepInv s' := by
  have hother : ∀ t, t ≠ p → s'.pending t = s.pending t := by
    intro t ht
    rw [hpend, update_of_ne ht]
  refine ⟨hk, fun t ht => ?_, fun t call hc => ?_⟩
  · by_cases htp : t = p
    · exact htp ▸ hself
    · have hsame : s'.os.k.tasks t = s.os.k.tasks t := by
        rw [hos]
        exact modify_tasks_ne htp
      refine h.rested (.still (by rw [hos] at ht; exact ht) (by rw [hos]; rfl) (fun d hd => ?_)
        (congrArg Task.nap hsame) (fun hr => by rw [hsame]; exact hr) (congrArg Task.context hsame)) (hother t htp) hclock
      have hdc : d ≠ c := by
        rintro rfl
        rw [(user_some hu).1] at hd
        exact htp (some.inj hd).symm
      rw [hos]
      exact update_of_ne hdc ..
  · rw [hos]
    by_cases htp : t = p
    · rw [htp]
      exact h.kernel.user_mem hu
    · exact h.table t call ((hother t htp).symm.trans hc)

theorem SleepTrap.inv {c now : Nat} {p : TaskRef} {n : Int} (htrap : SleepTrap s c p now n s') (h : SleepInv s)
    (hu : s.os.user c = some p) (hclock : s.clock ≤ now) (hk : KernelInv s'.os.k) : SleepInv s' := by
  have hok := h.tasks p (h.kernel.user_mem hu)
  cases htrap with
  | entered f hredo hp =>
    refine h.slept hu hk rfl rfl hclock (h.sleeper hu rfl (update_self ..) rfl rfl rfl rfl ?_ ?_ rfl (Or.inr rfl))
    · exact Nat.le_refl _
    · exact sub64_lt ..
  | ended f call hp hn hrip hredo hdue =>
    refine h.slept hu hk rfl rfl hclock (SleepOk.of_none ?_ (update_self ..) fun x hx => ?_)
    · exact congrArg Task.sleeping (modify_tasks_self ..)
    · rw [holds_trapped h.kernel hu hx]
      exact awake_of_none hredo
  | again f call hp hn hrip hdue =>
    obtain ⟨hpast, hstart⟩ := hok.past call hp
    refine h.slept hu hk rfl rfl hclock (h.sleeper hu rfl (update_self ..) ?_ ?_ ?_ (hok.wake call hp)
      (hpast.trans hclock) hstart rfl (Or.inr rfl))
    · show (s.os.k.tasks p).sleeping = true
      rw [hok.asleep, hp]
      rfl
    · rw [hn]
      rfl
    · show sub64 f.rip syscallInstrLen = call.start
      rw [hrip, sub64_add64 hstart]

/-! ## Steps -/

inductive SleepMove (s : SleepSys) : SleepAct → SleepSys → Prop
  | trap {c now : Nat} {ctx : Context} {n : Int} {p : TaskRef} {s' : SleepSys} (hu : s.os.user c = some p)
    (hclock : s.clock ≤ now) (hnow : now < 2 ^ 64) (hint : -2 ^ 31 ≤ n ∧ n < 2 ^ 31)
    (htrap : SleepTrap s c p now n s') :
    SleepMove s (.os (.syscall c ctx now (.sleep n))) s'
  | other {a : SleepAct} {s' : SleepSys} (hfits : SleepFits s a) (hclock : s.clock ≤ s'.clock)
    (hended : s'.ended = s.ended)
    (hpend : ∀ t, s'.pending t = s.pending t ∨ s'.pending t = none) : SleepMove s a s'

theorem osStep_other {a : OsAct} (ha : ∀ c ctx now n, a ≠ .syscall c ctx now (.sleep n)) (s : SleepSys) :
    s.osStep A a = (s.os.step A a).map fun os => { s with
      os := os
      clock := a.time.getD s.clock
      pending := fun t => if t ∈ os.k.ptable then s.pending t else none } := by
  unfold SleepSys.osStep
  split
  · exact absurd rfl (ha _ _ _ _)
  · cases s.os.step A a <;> rfl

theorem SleepInv.other {a : OsAct} (h : SleepInv s) (ha : ∀ c ctx now n, a ≠ .syscall c ctx now (.sleep n))
    (hclock : s.clock ≤ a.time.getD s.clock) (hs : s.osStep A a = some s') :
    SleepInv s' ∧ SleepMove s (.os a) s' := by
  rw [osStep_other ha] at hs
  obtain ⟨os, hos, rfl⟩ := map_eq_some_iff.mp hs
  have hm := osMove_step h.kernel hos
  constructor
  · refine ⟨h.kernel.step hos, fun t ht => ?_, fun t call hc => ?_⟩
    · exact h.rested (hm.rested h.kernel ha ht) (if_pos ht) hclock
    · by_contra hn
      have hnone := hc.symm.trans (if_neg hn)
      cases hnone
  · refine .other ?_ hclock rfl fun t => ?_
    · unfold SleepFits
      split
      · next he =>
        cases he
        exact absurd rfl (ha _ _ _ _)
      · trivial
    · by_cases ht : t ∈ os.k.ptable
      · exact Or.inl (if_pos ht)
      · exact Or.inr (if_neg ht)

theorem SleepInv.step (h : SleepInv s) {a : SleepAct} (hs : s.step A a = some s') :
    SleepInv s' ∧ SleepMove s a s' := by
  cases a with
  | wake t =>
    simp only [SleepSys.step] at hs
    split at hs
    · cases hs
      have hk : KernelInv (s.os.k.modify t fun x => { x with state := .runnable }) := h.kernel.modify fun _ => rfl
      constructor
      · refine ⟨hk, fun u hu => ?_, h.table⟩
        refine h.rested (.still hu rfl (fun _ _ => rfl) (modify_field Task.nap rfl u) (fun hr => ?_)
          (modify_field Task.context rfl u)) rfl (Nat.le_refl _)
        show ((s.os.k.modify t _).tasks u).Ready
        by_cases hut : u = t
        · subst hut
          rw [modify_tasks_self]
          exact Or.inl rfl
        · rw [modify_tasks_ne hut]
          exact hr
      · exact .other trivial (Nat.le_refl _) rfl fun _ => Or.inl rfl
    · cases hs
  | os a =>
    simp only [SleepSys.step] at hs
    split at hs
    · next hg =>
      have hclock : s.clock ≤ a.time.getD s.clock := by
        cases ht : a.time with
        | none => exact Nat.le_refl _
        | some now =>
          rw [ht] at hg
          exact (of_decide_eq_true hg.2).1
      by_cases ha : ∀ c ctx now n, a ≠ .syscall c ctx now (.sleep n)
      · exact h.other ha hclock hs
      · push Not at ha
        obtain ⟨c, ctx, now, n, rfl⟩ := ha
        obtain ⟨p, hu, hs⟩ := bind_eq_some_iff.mp hs
        obtain ⟨f, hf, hs⟩ := bind_eq_some_iff.mp hs
        obtain ⟨os, hos, hs⟩ := bind_eq_some_iff.mp hs
        cases hs
        have htrap := h.trap hu hf hos
        have hk : KernelInv (s.record c p f now n os).os.k := by
          have hrec : (s.record c p f now n os).os = os := by
            unfold SleepSys.record
            dsimp only
            split <;> rfl
          rw [hrec]
          exact h.kernel.step hos
        exact ⟨htrap.inv h hu hclock hk, .trap hu hclock (of_decide_eq_true hg.2).2 (of_decide_eq_true hg.1) htrap⟩
    · cases hs

theorem sleepInv_boot {v : Vfs} {uprogs : List (List UInt8 × List UInt8)} {k : Kernel}
    (h : uprocInit A v uprogs = .ok k) (clock : Nat) : SleepInv (SleepSys.boot k clock) := by
  have hk := kernelInv_boot h
  obtain ⟨n, new, k1, hb, rfl⟩ := uprocInit_ok h
  refine ⟨hk, fun t ht => ?_, nofun⟩
  have ht : t ∈ k1.ptable := ht
  rw [hb.ptable] at ht
  obtain rfl := List.mem_singleton.mp ht
  refine SleepOk.of_none (hb.field Task.sleeping fun _ => rfl) rfl fun x hx => awake_of_none ?_
  rcases hx with ⟨d, hd, -⟩ | ⟨-, rfl⟩
  · have hd : k1.current d = some (.proc n) := hd
    rw [hb.current] at hd
    cases hd
  · exact hb.context

/-! ## Deadlines -/

theorem wakeTime_eq {now : Nat} {n : Int} (h : InUint64 now n) : (wakeTime now n : Int) = now + n * 1000000 := by
  obtain ⟨h0, h1⟩ := h
  rw [wakeTime, Int.emod_eq_of_lt h0 h1, Int.toNat_of_nonneg h0]

theorem due_iff {call : SleepCall} {now : Nat} (hfit : InUint64 call.entered call.seconds)
    (hpast : call.entered ≤ now) :
    wakeTime call.entered call.seconds ≤ now ↔ call.deadline ≤ now := by
  have hwake := wakeTime_eq hfit
  unfold SleepCall.deadline
  omega

/-- At the time of the entry already, a wrapped deadline is taken for passed when it is not, or the
other way round. -/
theorem inUint64_of_due {now : Nat} {n : Int} (hnow : now < 2 ^ 64) (hint : -2 ^ 31 ≤ n ∧ n < 2 ^ 31)
    (h : wakeTime now n ≤ now ↔ now + n.toNat * 1000000 ≤ now) : InUint64 now n := by
  unfold wakeTime at h
  unfold InUint64
  omega

structure SleepFit (s : SleepSys) : Prop where
  pending : ∀ t call, s.pending t = some call → InUint64 call.entered call.seconds
  ended : ∀ e ∈ s.ended, e.ret = 0 ∧ e.rip = add64 e.call.start syscallInstrLen ∧ e.call.deadline ≤ e.now

theorem SleepInv.exact (h : SleepInv s) (hfit : SleepFit s) : SleepExact s := by
  have hdue : ∀ t call, s.pending t = some call → ∀ now, s.clock ≤ now →
      ((s.os.k.tasks t).wakeUs ≤ now ↔ call.deadline ≤ now) := by
    intro t call hc now hnow
    have hok := h.tasks t (h.table t call hc)
    rw [hok.wake call hc]
    exact due_iff (hfit.pending t call hc) ((hok.past call hc).1.trans hnow)
  constructor
  case ended => exact hfit.ended
  case repeated => exact fun t call hc => (h.tasks t (h.table t call hc)).held call hc
  case resumed =>
    intro t call hc f now hnow _
    have hok := h.tasks t (h.table t call hc)
    have hsl : ¬(s.os.k.tasks t).sleeping = false := by
      rw [hok.asleep, hc]
      nofun
    rw [sysSleep, if_neg hsl]
    by_cases hd : call.deadline ≤ now
    · rw [if_pos hd, if_pos ((hdue t call hc now hnow).mpr hd)]
    · rw [if_neg hd, if_neg fun hw => hd ((hdue t call hc now hnow).mp hw)]
  case woken =>
    intro t call hc now hnow _ hd
    have hmem := h.table t call hc
    have hok := h.tasks t hmem
    obtain ⟨huser, hready⟩ := hok.ready call hc
    have hsl : (s.os.k.tasks t).sleeping = true := by
      rw [hok.asleep, hc]
      rfl
    rw [uprocTick_tasks, if_pos hmem, Task.ticked]
    split
    · rfl
    · next hno =>
      refine hready.resolve_right fun hb => hno ⟨huser, hsl, hb, ?_⟩
      exact (hdue t call hc now hnow).mpr hd

theorem SleepMove.fit {a : SleepAct} (hm : SleepMove s a s') (h : SleepInv s) (hfit : SleepFit s)
    (ha : SleepFits s a) :
    SleepFit s' := by
  have hupdate : ∀ {p : TaskRef} {o : Option SleepCall} {t : TaskRef} {call : SleepCall},
      (∀ call, o = some call → InUint64 call.entered call.seconds) →
      update s.pending p o t = some call → InUint64 call.entered call.seconds := by
    intro p o t call ho hc
    by_cases ht : t = p
    · subst ht
      rw [update_self] at hc
      exact ho call hc
    · rw [update_of_ne ht] at hc
      exact hfit.pending t call hc
  cases hm with
  | other hfits hclock hended hpend =>
    refine ⟨fun t call hc => ?_, by rw [hended]; exact hfit.ended⟩
    rcases hpend t with hp | hp
    · exact hfit.pending t call (hp.symm.trans hc)
    · cases hp.symm.trans hc
  | @trap c now ctx n p _ hu hclock hnow hint htrap =>
    cases htrap with
    | entered f hredo hp =>
      refine ⟨fun t call hc => hupdate (fun call hcall => ?_) hc, hfit.ended⟩
      obtain rfl := some.inj hcall
      exact ha hredo
    | ended f call hp hn hrip hredo hdue =>
      refine ⟨fun t call hc => hupdate (fun _ hno => by cases hno) hc, fun e he => ?_⟩
      rcases List.mem_append.mp he with he | he
      · exact hfit.ended e he
      · obtain rfl := List.mem_singleton.mp he
        have hok := h.tasks p (h.kernel.user_mem hu)
        refine ⟨rfl, hrip, (due_iff (hfit.pending p call hp) ((hok.past call hp).1.trans hclock)).mp ?_⟩
        rw [hn]
        exact hdue
    | again f call hp hn hrip hdue =>
      refine ⟨fun t call' hc => hupdate (fun call'' hcall => ?_) hc, hfit.ended⟩
      obtain rfl := some.inj hcall
      exact hfit.pending p call hp

theorem SleepExact.due (hexact : SleepExact s) (h : SleepInv s) {call : SleepCall} (hc : s.pending t = some call)
    {now : Nat} (hclock : s.clock ≤ now) (hnow : now < 2 ^ 64) :
    wakeTime call.entered call.seconds ≤ now ↔ call.deadline ≤ now := by
  have hok := h.tasks t (h.table t call hc)
  have hsl : ¬(s.os.k.tasks t).sleeping = false := by
    rw [hok.asleep, hc]
    nofun
  -- both sides are told by whether the call would block again
  have hflag := congrArg Prod.snd (hexact.resumed t call hc blankContext now hclock hnow)
  rw [sysSleep, if_neg hsl, hok.wake call hc] at hflag
  by_cases hw : wakeTime call.entered call.seconds ≤ now
  · rw [if_pos hw] at hflag
    refine iff_of_true hw ?_
    by_contra hd
    rw [if_neg hd] at hflag
    cases hflag
  · rw [if_neg hw] at hflag
    refine iff_of_false hw fun hd => ?_
    rw [if_pos hd] at hflag
    cases hflag

theorem SleepMove.fits {a : SleepAct} (hm : SleepMove s a s') (h : SleepInv s) (hs' : SleepInv s')
    (hexact : SleepExact s') : SleepFits s a := by
  cases hm with
  | other hfits => exact hfits
  | @trap c now ctx n p _ hu hclock hnow hint htrap =>
    intro hredo
    have hold : s.os.Holds p (s.os.uctx c) := Or.inl ⟨c, (user_some hu).1, rfl⟩
    have hok := h.tasks p (h.kernel.user_mem hu)
    cases htrap with
    | ended f call hp =>
      have := (hok.held call hp _ hold).1
      rw [hredo] at this
      cases this
    | again f call hp =>
      have := (hok.held call hp _ hold).1
      rw [hredo] at this
      cases this
    | entered f hredo hp =>
      have hpend := update_self p (some ⟨now, n, sub64 f.rip syscallInstrLen⟩) s.pending
      exact inUint64_of_due hnow hint (hexact.due hs' hpend (Nat.le_refl _) hnow)

end

/-! ## The result -/

/-- In a run of the machine, with any clock that does not go back, any ticks, switches and spurious
wakeups, sleeping is exact in every state iff no `sleep` of the run is entered with a deadline that
wraps. -/
theorem sys_sleep_exact_iff {A : Allocator} {v : Vfs} {uprogs : List (List UInt8 × List UInt8)} {k : Kernel}
    {clock : Nat} {as : List SleepAct} {s : SleepSys} (hboot : uprocInit A v uprogs = .ok k)
    (hr : run (SleepSys.step A) (SleepSys.boot k clock) as = some s) :
    (∀ bs u, bs <+: as → run (SleepSys.step A) (SleepSys.boot k clock) bs = some u → SleepExact u) ↔
      Along (SleepSys.step A) SleepFits (SleepSys.boot k clock) as := by
  refine run_iff_along_of (I := SleepInv) (Q := SleepFit) ?_ ?_ ?_ ?_ as _ s (sleepInv_boot hboot clock) ?_ hr
  · exact fun s a s' h hs => (h.step hs).1
  · exact fun s h hfit => h.exact hfit
  · exact fun s a s' h hfit hs ha => (h.step hs).2.fit h hfit ha
  · exact fun s a s' h _ hs hexact => (h.step hs).2.fits h (h.step hs).1 hexact
  · exact ⟨nofun, nofun⟩

def sleepRun (as : List SleepAct) : Option SleepSys :=
  smallKernel.bind fun k => run (SleepSys.step bumpAlloc) (SleepSys.boot k 0) as

def napRun (n : Int) : List SleepAct :=
  [.os (.schedule 0 blankContext), .os (.syscall 0 { blankContext with rip := 1007 } 5 (.sleep n))]

def wakeRun : List SleepAct :=
  [.os (.schedule 0 blankContext), .wake (.proc 4096), .os (.schedule 0 blankContext),
   .os (.syscall 0 blankContext 10 (.sleep 1)), .os (.schedule 0 blankContext), .os (.tick 1000005),
   .os (.schedule 0 blankContext), .os (.syscall 0 blankContext 1000006 (.sleep 1))]

theorem sys_sleep_exact_second : ∃ k s, run (SleepSys.step bumpAlloc) (SleepSys.boot k 0) (napRun 1 ++ wakeRun) = some s ∧
    s.ended = [⟨⟨5, 1, 1000⟩, 1000006, 0, 1007⟩] ∧
    ∀ bs u, bs <+: napRun 1 ++ wakeRun → run (SleepSys.step bumpAlloc) (SleepSys.boot k 0) bs = some u → SleepExact u := by
  have hrun : (smallKernel.any fun k => passes (SleepSys.step bumpAlloc) (fun s a => decide (SleepFits s a))
      (fun s => decide (s.ended = [⟨⟨5, 1, 1000⟩, 1000006, 0, 1007⟩])) (SleepSys.boot k 0) (napRun 1 ++ wakeRun)) =
      true := by
    decide +kernel
  obtain ⟨v, k, s, hboot, -, hr, hc, hl⟩ := small_passes (fun s a h => of_decide_eq_true h) hrun
  exact ⟨k, s, hr, of_decide_eq_true hl, (sys_sleep_exact_iff hboot hr).mpr hc⟩

/-- `sleep(-1)` in the first second: the deadline has passed at once, and a tick long after it leaves
the caller blocked. -/
theorem negative_sleep_blocks : ∃ s, sleepRun (napRun (-1)) = some s ∧
    s.pending (.proc 4096) = some ⟨5, -1, 1000⟩ ∧ (⟨5, -1, 1000⟩ : SleepCall).deadline = 5 ∧
    ((uprocTick s.os.k (2 ^ 63)).tasks (.proc 4096)).state = .blocked := by
  have hrun : ((sleepRun (napRun (-1))).any fun s => s.pending (.proc 4096) = some ⟨5, -1, 1000⟩ ∧
      (⟨5, -1, 1000⟩ : SleepCall).deadline = 5 ∧
      ((uprocTick s.os.k (2 ^ 63)).tasks (.proc 4096)).state = .blocked) = true := by
    decide +kernel
  obtain ⟨s, hs, h⟩ := (any_eq_true _ _).mp hrun
  exact ⟨s, hs, of_decide_eq_true h⟩

end NjuOs
