import NjuOs.OsSound

/-!
# Processes blocked in `sleep` and `wait`

A sleeping process has been rewound onto its `sleep`, so that it can do nothing else first;
a process that waits is blocked and does not run.
-/

namespace NjuOs

open Function

structure BlockOk (s : OsSys) (p : TaskRef) : Prop where
  asleep : (s.k.tasks p).sleeping = true → ∀ c, s.k.current c = some p → ∃ n, (s.uctx c).redo = some (.sleep n)
  saved : (s.k.tasks p).sleeping = true → (∀ c, s.k.current c ≠ some p) →
    ∃ n, (s.k.tasks p).context.redo = some (.sleep n)
  apart : (s.k.tasks p).sleeping = true → (s.k.tasks p).waiting = false
  parked : (s.k.tasks p).waiting = true → (s.k.tasks p).state = .blocked
  running : ∀ c, s.k.current c = some p → s.resched c = false → (s.k.tasks p).waiting = false

def BlockInv (s : OsSys) : Prop := ∀ p ∈ s.k.ptable, BlockOk s p

section
variable {s s' : OsSys} {c : Nat} {p t : TaskRef}

/-- Who runs in user mode does not wait. -/
theorem BlockOk.user (h : BlockOk s p) (hu : s.user c = some p) : (s.k.tasks p).waiting = false := by
  obtain ⟨hcur, hres, -⟩ := user_some hu
  exact h.running c hcur hres

/-- Who is asleep can only repeat its `sleep`. -/
theorem BlockOk.awake (h : BlockOk s p) (hu : s.user c = some p) {ctx f : Context} {call : Syscall}
    (hf : s.callFrame c ctx call = some f) (hcall : ∀ n, call ≠ .sleep n) : (s.k.tasks p).sleeping = false := by
  by_contra hsl
  obtain ⟨n, hn⟩ := h.asleep (by simpa using hsl) c (user_some hu).1
  have hrep := callFrame_repeats hf hn
  cases call with
  | sleep m => exact hcall m rfl
  | _ => cases hrep

theorem BlockOk.awake_of_redo (h : BlockOk s p) (hu : s.user c = some p) (hr : (s.uctx c).redo = none) :
    (s.k.tasks p).sleeping = false := by
  by_contra hsl
  obtain ⟨n, hn⟩ := h.asleep (by simpa using hsl) c (user_some hu).1
  rw [hr] at hn
  cases hn

theorem BlockOk.fresh (hsl : (s.k.tasks t).sleeping = false) (hw : (s.k.tasks t).waiting = false) : BlockOk s t where
  asleep := by intro h; rw [hsl] at h; cases h
  saved := by intro h; rw [hsl] at h; cases h
  apart := fun _ => hw
  parked := by intro h; rw [hw] at h; cases h
  running := fun _ _ _ => hw

theorem BlockOk.other (h : BlockOk s t) (hcur : s'.k.current = s.k.current)
    (hcpu : ∀ c, s.k.current c = some t → s'.uctx c = s.uctx c ∧ s'.resched c = s.resched c)
    (hsl : (s'.k.tasks t).sleeping = (s.k.tasks t).sleeping)
    (hctx : (s'.k.tasks t).context.redo = (s.k.tasks t).context.redo)
    (hw : (s'.k.tasks t).waiting = true → (s.k.tasks t).waiting = true ∧ (s'.k.tasks t).state = .blocked) :
    BlockOk s' t := by
  constructor
  case asleep =>
    intro hs c hc
    rw [hcur] at hc
    rw [(hcpu c hc).1]
    exact h.asleep (hsl ▸ hs) c hc
  case saved =>
    intro hs hno
    rw [hctx]
    exact h.saved (hsl ▸ hs) fun c hc => hno c (by rw [hcur]; exact hc)
  case apart =>
    intro hs
    by_contra hx
    have := h.apart (hsl ▸ hs)
    rw [(hw (by simpa using hx)).1] at this
    cases this
  case parked => exact fun hx => (hw hx).2
  case running =>
    intro c hc hres
    rw [hcur] at hc
    rw [(hcpu c hc).2] at hres
    by_contra hx
    have := h.running c hc hres
    rw [(hw (by simpa using hx)).1] at this
    cases this

theorem BlockOk.actor {k' : Kernel} {f : Context} {b : Bool} (hk : KernelInv s.k) (hu : s.user c = some p)
    (hkk : s'.k = k') (hux : s'.uctx = update s.uctx c f) (hres : s'.resched = update s.resched c b)
    (hcur : k'.current = s.k.current)
    (hsl : (k'.tasks p).sleeping = true → (∃ n, f.redo = some (.sleep n)) ∧ (k'.tasks p).waiting = false)
    (hw : (k'.tasks p).waiting = true → (k'.tasks p).state = .blocked ∧ b = true) : BlockOk s' p := by
  have hc := (user_some hu).1
  have honly : ∀ d, k'.current d = some p → d = c := by
    intro d hd
    rw [hcur] at hd
    exact CpuRel.unique hk.cpu (Or.inl hd) (Or.inl hc)
  subst hkk
  constructor
  case asleep =>
    intro hs d hd
    obtain rfl := honly d hd
    rw [hux, update_self]
    exact (hsl hs).1
  case saved =>
    intro hs hno
    exact absurd (by rw [hcur]; exact hc) (hno c)
  case apart => exact fun hs => (hsl hs).2
  case parked => exact fun hx => (hw hx).1
  case running =>
    intro d hd hr
    obtain rfl := honly d hd
    rw [hres, update_self] at hr
    by_contra hx
    have := (hw (by simpa using hx)).2
    rw [hr] at this
    cases this

/-- A call by `p`: what it does to the others, to itself and to those that are new. -/
theorem BlockInv.trap (k' : Kernel) {f : Context} {b : Bool} (h : BlockInv s) (hk : KernelInv s.k)
    (hu : s.user c = some p) (hkk : s'.k = k') (hux : s'.uctx = update s.uctx c f)
    (hres : s'.resched = update s.resched c b) (hcur : k'.current = s.k.current)
    (hsl : (k'.tasks p).sleeping = true → (∃ n, f.redo = some (.sleep n)) ∧ (k'.tasks p).waiting = false)
    (hw : (k'.tasks p).waiting = true → (k'.tasks p).state = .blocked ∧ b = true)
    (hother : ∀ t ∈ k'.ptable, t ∈ s.k.ptable → t ≠ p → (k'.tasks t).sleeping = (s.k.tasks t).sleeping ∧
      (k'.tasks t).context.redo = (s.k.tasks t).context.redo ∧
      ((k'.tasks t).waiting = true → (s.k.tasks t).waiting = true ∧ (k'.tasks t).state = .blocked))
    (hnew : ∀ t ∈ k'.ptable, t ∉ s.k.ptable → (k'.tasks t).sleeping = false ∧ (k'.tasks t).waiting = false) :
    BlockInv s' := by
  intro t ht
  by_cases htp : t = p
  · subst htp
    exact BlockOk.actor hk hu hkk hux hres hcur hsl hw
  subst hkk
  by_cases hold : t ∈ s.k.ptable
  · obtain ⟨h1, h2, h3⟩ := hother t ht hold htp
    refine (h t hold).other hcur ?_ h1 h2 h3
    intro d hd
    have hdc : d ≠ c := by
      rintro rfl
      rw [(user_some hu).1] at hd
      exact htp (Option.some.inj hd).symm
    rw [hux, hres, update_of_ne hdc, update_of_ne hdc]
    exact ⟨rfl, rfl⟩
  · obtain ⟨h1, h2⟩ := hnew t ht hold
    exact BlockOk.fresh h1 h2

theorem Died.parked {k k' : Kernel} {status : Int} (hd : Died k p status k')
    (hp : (k.tasks t).waiting = true → (k.tasks t).state = .blocked) (hw : (k'.tasks t).waiting = true) :
    (k.tasks t).waiting = true ∧ (k'.tasks t).state = .blocked := by
  rw [hd.waiting t] at hw
  split at hw
  · cases hw
  · next hne =>
    refine ⟨hw, ?_⟩
    rw [hd.state t]
    split
    · rfl
    · rw [if_neg fun h => hne h.1]
      exact hp hw

theorem BlockInv.died {k' : Kernel} {f : Context} {b : Bool} {q : TaskRef} {status : Int} (h : BlockInv s)
    (hk : KernelInv s.k) (hu : s.user c = some p) (hd : Died s.k q status k') (hawake : (s.k.tasks p).sleeping = false) :
    BlockInv (s.trapped c k' f b) := by
  have hp := h p (hk.user_mem hu)
  refine h.trap k' hk hu rfl rfl rfl hd.current ?_ ?_ ?_ ?_
  · intro hs
    rw [hd.field Task.sleeping (fun _ => rfl), hawake] at hs
    cases hs
  · intro hx
    have := (hd.parked hp.parked hx).1
    rw [hp.user hu] at this
    cases this
  · intro t _ ht _
    exact ⟨hd.field Task.sleeping (fun _ => rfl) t, hd.field (fun x => x.context.redo) (fun _ => rfl) t,
      hd.parked (h t ht).parked⟩
  · intro t ht hn
    rw [hd.ptable] at ht
    exact absurd ht hn

theorem BlockInv.modify {f : Context} {b : Bool} {g : Task → Task} (h : BlockInv s) (hk : KernelInv s.k)
    (hu : s.user c = some p)
    (hsl : (g (s.k.tasks p)).sleeping = true →
      (∃ n, f.redo = some (.sleep n)) ∧ (g (s.k.tasks p)).waiting = false)
    (hw : (g (s.k.tasks p)).waiting = true → (g (s.k.tasks p)).state = .blocked ∧ b = true) :
    BlockInv (s.trapped c (s.k.modify p g) f b) := by
  refine h.trap (s.k.modify p g) hk hu rfl rfl rfl rfl ?_ ?_ ?_ ?_
  · rw [modify_tasks_self]; exact hsl
  · rw [modify_tasks_self]; exact hw
  · intro t _ ht hne
    rw [modify_tasks_ne hne]
    exact ⟨rfl, rfl, fun hx => ⟨hx, (h t ht).parked hx⟩⟩
  · intro t ht hn
    exact absurd ht hn

theorem BlockInv.born {k' : Kernel} {n : Nat} {par : Option TaskRef} {redo : Option Blocking}
    {new : List (Nat × Nat)} (hb : Born n par redo new s.k k') (ht : t ∈ k'.ptable) (hn : t ∉ s.k.ptable) :
    (k'.tasks t).sleeping = false ∧ (k'.tasks t).waiting = false := by
  rw [hb.ptable] at ht
  rcases List.mem_append.mp ht with ht | ht
  · exact absurd ht hn
  · obtain rfl := List.mem_singleton.mp ht
    exact ⟨hb.field Task.sleeping fun _ => rfl, hb.field Task.waiting fun _ => rfl⟩

theorem BlockInv.tick (h : BlockInv s) (now : Nat) : BlockInv { s with k := uprocTick s.k now } := by
  obtain ⟨hf, -⟩ := uprocTick_frame s.k now
  intro t ht
  have htab : t ∈ s.k.ptable := by
    rw [← hf.ptable]; exact ht
  have hold := h t htab
  refine hold.other hf.current (fun _ _ => ⟨rfl, rfl⟩) (uprocTick_field Task.sleeping (fun _ _ => rfl) now t)
    (uprocTick_field (fun x => x.context.redo) (fun _ _ => rfl) now t) ?_
  intro hx
  have hw : (s.k.tasks t).waiting = true := (uprocTick_field Task.waiting (fun _ _ => rfl) now t).symm.trans hx
  refine ⟨hw, ?_⟩
  -- the clock wakes sleepers, and a sleeper does not wait
  have hns : (s.k.tasks t).sleeping ≠ true := by
    intro hs
    rw [hold.apart hs] at hw
    cases hw
  show ((uprocTick s.k now).tasks t).state = .blocked
  rw [uprocTick_tasks, if_pos htab, Task.ticked, if_neg fun hc => hns hc.2.1]
  exact hold.parked hw

end

/-! ## Switches -/

section
variable {s : OsSys} {c : Nat} {ctx rc : Context} {next : TaskRef} {m : Kmt}

/-- A switch saves what a rewound process is to repeat. -/
theorem frame_redo {b : Blocking} (h : (s.uctx c).redo = some b) : (s.frame c ctx).redo = some b := by
  unfold OsSys.frame
  rw [if_neg (by rw [h]; simp)]
  exact h

theorem BlockInv.switched (h : BlockInv s) (hk : KernelInv s.k)
    (hsw : Switched s.k.toKmt c (s.frame c ctx) next m rc) :
    BlockInv (s.trapped c { s.k with toKmt := m } rc false) := by
  intro t ht
  have ht : t ∈ s.k.ptable := ht
  obtain ⟨n, rfl⟩ := hk.procs t ht
  have hold := h _ ht
  have hsl : (m.tasks (.proc n)).sleeping = (s.k.tasks (.proc n)).sleeping :=
    hsw.field Task.sleeping (fun _ _ _ => rfl) (fun _ _ _ _ _ => rfl) _
  have hw : (m.tasks (.proc n)).waiting = (s.k.tasks (.proc n)).waiting :=
    hsw.field Task.waiting (fun _ _ _ => rfl) (fun _ _ _ _ _ => rfl) _
  -- a process that gets the CPU was runnable and saved
  have hpick : next = .proc n → (s.k.tasks (.proc n)).state = .runnable ∧ s.k.current c ≠ some (.proc n) := by
    rintro rfl
    rcases hsw.picked with h1 | ⟨h1, h2, -⟩
    · cases h1
    · exact ⟨h1, h2⟩
  have hcur : ∀ d, m.current d = some (.proc n) → d = c ∧ next = .proc n ∨ d ≠ c ∧ s.k.current d = some (.proc n) := by
    intro d hd
    rw [hsw.current] at hd
    by_cases hdc : d = c
    · subst hdc
      rw [update_self] at hd
      exact Or.inl ⟨rfl, Option.some.inj hd⟩
    · rw [update_of_ne hdc] at hd
      exact Or.inr ⟨hdc, hd⟩
  constructor
  case asleep =>
    intro hs d hd
    have hs0 : (s.k.tasks (.proc n)).sleeping = true := hsl.symm.trans hs
    rcases hcur d hd with ⟨rfl, rfl⟩ | ⟨hdc, hd⟩
    · show ∃ i, (update s.uctx d rc d).redo = _
      rw [update_self, hsw.resumed (hpick rfl).2]
      refine hold.saved hs0 fun e he => ?_
      have := hsw.free e (Or.inl he)
      subst this
      exact (hpick rfl).2 he
    · show ∃ i, (update s.uctx c rc d).redo = _
      rw [update_of_ne hdc]
      exact hold.asleep hs0 d hd
  case saved =>
    intro hs hno
    have hs : (s.k.tasks (.proc n)).sleeping = true := hsl.symm.trans hs
    show ∃ i, (m.tasks (.proc n)).context.redo = _
    by_cases hc : s.k.current c = some (.proc n)
    · obtain ⟨i, hi⟩ := hold.asleep hs c hc
      rw [hsw.saved _ hc]
      exact ⟨i, frame_redo hi⟩
    · rw [hsw.other _ hc]
      refine hold.saved hs fun d hd => ?_
      have hdc : d ≠ c := by rintro rfl; exact hc hd
      exact hno d (by show m.current d = _; rw [hsw.current, update_of_ne hdc]; exact hd)
  case apart => intro hs; exact hw.trans (hold.apart (hsl.symm.trans hs))
  case parked => intro hx; exact (hsw.blocked_iff _).mpr (hold.parked (hw.symm.trans hx))
  case running =>
    intro d hd hr
    refine hw.trans ?_
    rcases hcur d hd with ⟨rfl, rfl⟩ | ⟨hdc, hd⟩
    · by_contra hx
      have := hold.parked (by simpa using hx)
      rw [(hpick rfl).1] at this
      cases this
    · have hr : update s.resched c false d = false := hr
      rw [update_of_ne hdc] at hr
      exact hold.running d hd hr

end

section
variable {A : Allocator} {s s' : OsSys} {a : OsAct}

theorem BlockInv.move (h : BlockInv s) (hk : KernelInv s.k) (hm : OsMove s a s') : BlockInv s' := by
  cases hm with
  | sched _ hsw => exact h.switched hk hsw
  | tick now => exact h.tick now
  | @mem c now ctx f0 f call p new k' b hu hf0 hm hf hcall =>
    have hp := h p (hk.user_mem hu)
    refine h.trap k' hk hu rfl rfl rfl hm.current ?_ ?_ ?_ ?_
    · intro hs
      rw [hm.field Task.sleeping (fun _ => rfl), hp.awake hu hf0 hcall] at hs
      cases hs
    · intro hx
      rw [hm.field Task.waiting (fun _ => rfl), hp.user hu] at hx
      cases hx
    · intro t _ ht hne
      rw [hm.other t hne]
      exact ⟨rfl, rfl, fun hx => ⟨hx, (h t ht).parked hx⟩⟩
    · intro t ht hn
      rw [hm.ptable] at ht
      exact absurd ht hn
  | @fork c now n ctx f0 f p new k' hu hf0 hb hf =>
    have hmem := hk.user_mem hu
    have hnew := (hk.toKernelBase.born hb).1
    have hsame : ∀ t ∈ s.k.ptable, k'.tasks t = s.k.tasks t := fun t ht => hb.other t fun he => hnew (he ▸ ht)
    refine h.trap k' hk hu rfl rfl rfl hb.current ?_ ?_ ?_ ?_
    · intro hs
      rw [hsame p hmem, (h p hmem).awake hu hf0 fun n hn => by cases hn] at hs
      cases hs
    · intro hx
      rw [hsame p hmem, (h p hmem).user hu] at hx
      cases hx
    · intro t _ ht _
      rw [hsame t ht]
      exact ⟨rfl, rfl, fun hx => ⟨hx, (h t ht).parked hx⟩⟩
    · intro t ht hn
      exact BlockInv.born hb ht hn
  | @spawn bin len n new k' hb =>
    have hnew := (hk.toKernelBase.born hb).1
    intro t ht
    by_cases hold : t ∈ s.k.ptable
    · have hsame : k'.tasks t = s.k.tasks t := hb.other t fun he => hnew (he ▸ hold)
      refine (h t hold).other hb.current (fun _ _ => ⟨rfl, rfl⟩) (congrArg Task.sleeping hsame)
        (congrArg (fun x => x.context.redo) hsame) fun hx => ?_
      have hx : (s.k.tasks t).waiting = true := (congrArg Task.waiting hsame).symm.trans hx
      exact ⟨hx, (congrArg Task.state hsame).trans ((h t hold).parked hx)⟩
    · obtain ⟨h1, h2⟩ := BlockInv.born hb ht hold
      exact BlockOk.fresh h1 h2
  | exit hu hf0 _ hd => exact h.died hk hu hd ((h _ (hk.user_mem hu)).awake hu hf0 fun n hn => by cases hn)
  | fault hu hr _ hd => exact h.died hk hu hd ((h _ (hk.user_mem hu)).awake_of_redo hu hr)
  | kill hu hf0 _ _ hd => exact h.died hk hu hd ((h _ (hk.user_mem hu)).awake hu hf0 fun n hn => by cases hn)
  | @sleepStart c now ctx f0 f n p hu hf0 hs hf =>
    have hw := (h p (hk.user_mem hu)).user hu
    exact h.modify hk hu (fun _ => ⟨⟨n, hf⟩, hw⟩) fun hx => by rw [hw] at hx; cases hx
  | @sleepDone c now ctx f0 f n p hu hf0 hs hn hf =>
    have hw := (h p (hk.user_mem hu)).user hu
    exact h.modify hk hu (fun hs => by cases hs) fun hx => by rw [hw] at hx; cases hx
  | @sleepAgain c now ctx f0 f n p hu hf0 hs hn hf =>
    have hw := (h p (hk.user_mem hu)).user hu
    exact h.modify hk hu (fun _ => ⟨⟨n, hf⟩, hw⟩) fun hx => by rw [hw] at hx; cases hx
  | @park c now va ctx f0 f p hu hf0 hs hf =>
    have hsl := (h p (hk.user_mem hu)).awake hu hf0 fun n hn => by cases hn
    exact h.modify hk hu (fun hs => by rw [hsl] at hs; cases hs) fun _ => ⟨rfl, rfl⟩
  | @retry c now va ctx f0 f p hu hf0 hf =>
    have hp := h p (hk.user_mem hu)
    have hsl := hp.awake hu hf0 fun n hn => by cases hn
    refine h.trap s.k hk hu rfl rfl rfl rfl (fun hs => by rw [hsl] at hs; cases hs)
      (fun hx => by rw [hp.user hu] at hx; cases hx) ?_ ?_
    · intro t _ ht _
      exact ⟨rfl, rfl, fun hx => ⟨hx, (h t ht).parked hx⟩⟩
    · intro t ht hn
      exact absurd ht hn
  | @reap c now va ctx f0 f p child k' hu hf0 hr hf =>
    have hmem := hk.user_mem hu
    have hp := h p hmem
    have hne : ∀ t, t ∈ k'.ptable → t ≠ child := fun t ht => ((hr.mem_iff hk).mp ht).2
    -- the caller is on a CPU, the child is not
    have hpc : p ≠ child := by
      rintro rfl
      have hl := (hk.live p).mpr (Or.inr hmem)
      have hon := (CpuRel.onCpu hk.cpu p hl).mpr ⟨c, Or.inl (user_some hu).1⟩
      rw [hr.child.2.2] at hon
      cases hon
    refine h.trap k' hk hu rfl rfl rfl hr.current ?_ ?_ ?_ ?_
    · intro hs
      rw [hr.field hpc Task.sleeping fun _ _ => rfl, hp.awake hu hf0 fun n hn => by cases hn] at hs
      cases hs
    · intro hx
      rw [hr.field hpc Task.waiting fun _ _ => rfl, hp.user hu] at hx
      cases hx
    · intro t ht hold _
      refine ⟨hr.field (hne t ht) Task.sleeping fun _ _ => rfl,
        hr.field (hne t ht) (fun x => x.context.redo) fun _ _ => rfl, fun hx => ?_⟩
      rw [hr.field (hne t ht) Task.waiting fun _ _ => rfl] at hx
      rw [hr.field (hne t ht) Task.state fun _ _ => rfl]
      exact ⟨hx, (h t hold).parked hx⟩
    · intro t ht hn
      exact absurd ((hr.mem_iff hk).mp ht).1 hn

theorem blockInv_boot {v : Vfs} {uprogs : List (List UInt8 × List UInt8)} {k : Kernel}
    (h : uprocInit A v uprogs = .ok k) : BlockInv (OsSys.boot k) := by
  obtain ⟨n, new, k1, hb, rfl⟩ := uprocInit_ok h
  intro t ht
  have ht : t ∈ k1.ptable := ht
  rw [hb.ptable] at ht
  obtain rfl := List.mem_singleton.mp ht
  exact BlockOk.fresh (hb.field Task.sleeping fun _ => rfl) (hb.field Task.waiting fun _ => rfl)

end

end NjuOs
