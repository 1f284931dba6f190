import NjuOs.KmtSound
import NjuOs.Linked
import NjuOs.Sem

/-!
# Semaphores

Every queue is the list of the waiters that were queued and not yet woken, in order; a
thread is blocked exactly while it is queued. A waiter that has been woken but has not yet
returned from `kmt_sem_wait` is counted as pending.
-/

namespace NjuOs

open Function List Option

def Kmt.semNext (k : Kmt) (t : TaskRef) : Option TaskRef := (k.tasks t).semNext

/-! ## The queue operations -/

section
variable {k k' : Kmt} {t self : TaskRef} {i : Nat}

theorem semNext_set {x : Task} (h : t ≠ self) : (k.set self x).semNext t = k.semNext t := by
  unfold Kmt.semNext
  rw [set_tasks_ne h]

@[simp] theorem semNext_set_self {x : Task} : (k.set self x).semNext self = x.semNext := by
  unfold Kmt.semNext
  rw [set_tasks_self]

theorem linked_none {l : List TaskRef} (h : Linked k.semNext none l) : l = [] :=
  Linked.unique h (show Linked k.semNext none [] from rfl)

theorem lastWaiter_linked : ∀ {n : Nat} {w : TaskRef} {l : List TaskRef}, Linked k.semNext (some w) l →
    lastWaiter k n w = .ok t → ∃ l', l = l' ++ [t]
  | 0, _, _, _, h => by cases h
  | n + 1, w, [], hl, _ => by cases hl
  | n + 1, w, a :: l, hl, h => by
    cases hl.1
    obtain ⟨x, hx, h⟩ := bind_ok h
    obtain ⟨-, rfl⟩ := deref_ok.mp hx
    have hl2 : Linked k.semNext (k.tasks w).semNext l := hl.2
    cases hn : (k.tasks w).semNext with
    | none =>
      simp only [hn] at h
      cases h
      rw [hn] at hl2
      exact ⟨[], by rw [linked_none hl2]; rfl⟩
    | some m =>
      simp only [hn] at h
      rw [hn] at hl2
      obtain ⟨l', rfl⟩ := lastWaiter_linked hl2 h
      exact ⟨w :: l', rfl⟩

theorem lastWaiter_total : ∀ {n : Nat} {w : TaskRef} {l : List TaskRef}, Linked k.semNext (some w) l →
    (∀ t ∈ l, k.live t = true) → l.length ≤ n → ∃ t, lastWaiter k n w = .ok t
  | _, _, [], hl, _, _ => by cases hl
  | 0, _, _ :: _, _, _, hn => by cases hn
  | n + 1, w, a :: l, hl, hlive, hn => by
    cases hl.1
    have hd : k.deref w = .ok (k.tasks w) := deref_ok.mpr ⟨hlive w (by simp), rfl⟩
    have hl2 : Linked k.semNext (k.tasks w).semNext l := hl.2
    unfold lastWaiter
    rw [hd]
    cases hs : (k.tasks w).semNext with
    | none => exact ⟨w, by simp only [bind, Except.bind, hs]; rfl⟩
    | some m =>
      rw [hs] at hl2
      obtain ⟨t, ht⟩ := lastWaiter_total hl2 (fun t ht => hlive t (by simp [ht])) (Nat.le_of_succ_le_succ hn)
      exact ⟨t, by simp only [bind, Except.bind, hs]; exact ht⟩

structure Enqueued (k : Kmt) (q : Nat → List TaskRef) (i : Nat) (a : TaskRef) (k' : Kmt) : Prop where
  linked : ∀ j, Linked k'.semNext (k'.sems j).waiters (update q i (q i ++ [a]) j)
  value : ∀ j, (k'.sems j).value = (k.sems j).value
  state : ∀ t, (k'.tasks t).state = (k.tasks t).state
  nlink : k'.nlink = k.nlink

theorem enqueueWaiter_ok {q : Nat → List TaskRef} (hq : ∀ j, Linked k.semNext (k.sems j).waiters (q j))
    (hself : ∀ j, self ∉ q j) (halone : ∀ i j t, t ∈ q i → t ∈ q j → i = j)
    (h : enqueueWaiter k i self = .ok k') : Enqueued k q i self k' := by
  obtain ⟨x, hx, h⟩ := bind_ok h
  obtain ⟨-, rfl⟩ := deref_ok.mp hx
  dsimp only at h
  have h1 : ∀ j, Linked (k.set self { k.tasks self with semNext := none }).semNext (k.sems j).waiters (q j) := by
    intro j
    apply (hq j).congr
    intro a ha
    apply semNext_set
    rintro rfl
    exact hself j ha
  have h2 : (k.set self { k.tasks self with semNext := none }).semNext self = none := semNext_set_self
  have hst : ∀ t, ((k.set self { k.tasks self with semNext := none }).tasks t).state = (k.tasks t).state :=
    set_field Task.state (by rfl)
  have hsem : (k.set self { k.tasks self with semNext := none }).sems = k.sems := rfl
  have hnl : (k.set self { k.tasks self with semNext := none }).nlink = k.nlink := rfl
  generalize k.set self { k.tasks self with semNext := none } = k1 at h h1 h2 hst hsem hnl
  cases hw : (k.sems i).waiters with
  | none =>
    simp only [hsem, hw] at h
    cases h
    have hqi : q i = [] := linked_none (hw ▸ hq i)
    constructor
    case linked =>
      intro j
      by_cases hj : j = i
      · subst hj
        rw [update_self, hqi]
        exact ⟨by simp [Kmt.setSem], h2⟩
      · rw [update_of_ne hj]
        simp only [Kmt.setSem, update_of_ne hj, hsem]
        exact h1 j
    case value =>
      intro j
      by_cases hj : j = i
      · subst hj; simp [Kmt.setSem]
      · simp only [Kmt.setSem, update_of_ne hj, hsem]
    case state => exact hst
    case nlink => exact hnl
  | some w =>
    simp only [hsem, hw] at h
    obtain ⟨z, hz, h⟩ := bind_ok h
    cases h
    have h1i := h1 i
    rw [hw] at h1i
    obtain ⟨l, hl⟩ := lastWaiter_linked h1i hz
    have hzi : z ∈ q i := by rw [hl]; simp
    have hzs : self ≠ z := by
      rintro rfl
      exact hself i hzi
    constructor
    case linked =>
      intro j
      simp only [set_sems, hsem]
      by_cases hj : j = i
      · subst hj
        rw [update_self, hl]
        have hnd : (l ++ [z]).Nodup := hl ▸ h1i.nodup
        refine Linked.snoc ?_ ?_ (hl ▸ h1 j) ?_
        · rw [semNext_set hzs]; exact h2
        · simp
        · intro b hb
          apply semNext_set
          rintro rfl
          exact (nodup_append.mp hnd).2.2 b hb b (by simp) rfl
      · rw [update_of_ne hj]
        apply (h1 j).congr
        intro b hb
        apply semNext_set
        rintro rfl
        exact hj (halone j i b hb hzi)
    case value => intro j; rw [set_sems, hsem]
    case state => intro t; rw [set_field Task.state (by rfl) t]; exact hst t
    case nlink => exact hnl

inductive WaitDone (k : Kmt) (c i : Nat) : Kmt → Bool → Prop
  | passed (h : 0 ≤ (k.sems i).value - 1) :
    WaitDone k c i (k.setSem i ⟨(k.sems i).value - 1, (k.sems i).waiters⟩) false
  | queued {self : TaskRef} {k1 : Kmt} (h : (k.sems i).value - 1 < 0) (hc : k.current c = some self)
    (he : enqueueWaiter (k.setSem i ⟨(k.sems i).value - 1, (k.sems i).waiters⟩) i self = .ok k1) :
    WaitDone k c i (k1.set self { k1.tasks self with state := .blocked }) true

theorem kmtSemWait_ok {c : Nat} {b : Bool} (h : kmtSemWait k c i = .ok (k', b)) : WaitDone k c i k' b := by
  obtain ⟨v, hv, h⟩ := bind_ok h
  obtain ⟨rfl, -⟩ := intOf_ok hv
  dsimp only at h
  by_cases h0 : 0 ≤ (k.sems i).value - 1
  · rw [if_pos h0] at h
    cases h
    exact .passed h0
  · rw [if_neg h0] at h
    cases hc : k.current c with
    | none =>
      simp only [Kmt.setSem, hc] at h
      cases h
    | some self =>
      simp only [Kmt.setSem, hc] at h
      obtain ⟨k1, h1, h⟩ := bind_ok h
      cases h
      exact .queued (by omega) hc h1

inductive SignalDone (k : Kmt) (i : Nat) : Kmt → Prop
  | idle (h : (k.sems i).waiters = none ∨ 0 < (k.sems i).value + 1) :
    SignalDone k i (k.setSem i ⟨(k.sems i).value + 1, (k.sems i).waiters⟩)
  | woke {w : TaskRef} (h : (k.sems i).value + 1 ≤ 0) (hw : (k.sems i).waiters = some w)
    (hl : k.live w = true) :
    SignalDone k i ((k.setSem i ⟨(k.sems i).value + 1, (k.tasks w).semNext⟩).set w
      { k.tasks w with semNext := none, state := .runnable })

theorem kmtSemSignal_ok (h : kmtSemSignal k i = .ok k') : SignalDone k i k' := by
  obtain ⟨v, hv, h⟩ := bind_ok h
  obtain ⟨rfl, -⟩ := intOf_ok hv
  simp only [Kmt.setSem, update_self] at h
  cases hw : (k.sems i).waiters with
  | none =>
    simp only [hw] at h
    cases h
    have := SignalDone.idle (k := k) (i := i) (Or.inl hw)
    rw [hw] at this
    exact this
  | some w =>
    simp only [hw] at h
    by_cases h0 : 0 < (k.sems i).value + 1
    · rw [if_pos h0] at h
      cases h
      have := SignalDone.idle (k := k) (i := i) (Or.inr h0)
      rw [hw] at this
      exact this
    · rw [if_neg h0] at h
      obtain ⟨x, hx, h⟩ := bind_ok h
      obtain ⟨hl, rfl⟩ := deref_ok.mp hx
      cases h
      have := SignalDone.woke (by omega) hw hl
      simpa only [Kmt.setSem, update_idem] using this

end

/-! ## The invariant -/

structure SemInv (s : SemSys) (q pend : Nat → List TaskRef) : Prop where
  cpu : CpuInv s.k
  linked : ∀ i, Linked s.k.semNext (s.k.sems i).waiters (q i)
  value : ∀ i v, s.init i = some v → 0 ≤ v ∧ (s.k.sems i).value = v + s.signals i - s.waits i
  length : ∀ i v, s.init i = some v → ((q i).length : Int) = max 0 (-(s.k.sems i).value)
  unused : ∀ i, s.init i = none → q i = [] ∧ s.signals i = 0 ∧ s.waits i = 0
  blocked : ∀ t, s.k.live t = true → ((s.k.tasks t).state = .blocked ↔ ∃ i, t ∈ q i)
  thread : ∀ i t, t ∈ q i → s.k.live t = true ∧ ∃ j, t = .kernel j
  parked : ∀ i t, t ∈ q i → s.pc t = .yielding i ∨ s.pc t = .yielded i ∧ ∀ c, s.k.current c ≠ some t
  inside : ∀ i t, s.pc t = .yielding i ∨ s.pc t = .yielded i → t ∈ q i ∨ t ∈ pend i
  pending : ∀ i t, t ∈ pend i → t ∉ q i ∧ (s.pc t = .yielding i ∨ s.pc t = .yielded i)
  pendNodup : ∀ i, (pend i).Nodup
  unborn : ∀ t, s.k.live t ≠ true → s.pc t = .run
  count : ∀ i, s.passed i + (pend i).length + (q i).length = s.waits i
  fifo : ∀ i, s.queued i = s.woken i ++ q i
  made : ∃ l : List TaskRef, l.length = s.k.nlink ∧ ∀ j, s.k.live (.kernel j) = true → .kernel j ∈ l

/-- What `SemInv` says about one semaphore: its counter against the calls so far, and who is in its queue. -/
structure SemBook (s : SemSys) (q pend : Nat → List TaskRef) (i : Nat) : Prop where
  value : ∀ v, s.init i = some v → 0 ≤ v ∧ (s.k.sems i).value = v + s.signals i - s.waits i
  length : ∀ v, s.init i = some v → ((q i).length : Int) = max 0 (-(s.k.sems i).value)
  unused : s.init i = none → q i = [] ∧ s.signals i = 0 ∧ s.waits i = 0
  pendNodup : (pend i).Nodup
  count : s.passed i + (pend i).length + (q i).length = s.waits i
  fifo : s.queued i = s.woken i ++ q i

section
variable {s s' : SemSys} {q q' pend pend' : Nat → List TaskRef}

theorem SemInv.book (hs : SemInv s q pend) (i : Nat) : SemBook s q pend i :=
  ⟨hs.value i, hs.length i, hs.unused i, hs.pendNodup i, hs.count i, hs.fifo i⟩

theorem SemInv.of_books (hbook : ∀ i, SemBook s q pend i) (hcpu : CpuInv s.k)
    (hlinked : ∀ i, Linked s.k.semNext (s.k.sems i).waiters (q i))
    (hblocked : ∀ t, s.k.live t = true → ((s.k.tasks t).state = .blocked ↔ ∃ i, t ∈ q i))
    (hthread : ∀ i t, t ∈ q i → s.k.live t = true ∧ ∃ j, t = .kernel j)
    (hparked : ∀ i t, t ∈ q i → s.pc t = .yielding i ∨ s.pc t = .yielded i ∧ ∀ c, s.k.current c ≠ some t)
    (hinside : ∀ i t, s.pc t = .yielding i ∨ s.pc t = .yielded i → t ∈ q i ∨ t ∈ pend i)
    (hpending : ∀ i t, t ∈ pend i → t ∉ q i ∧ (s.pc t = .yielding i ∨ s.pc t = .yielded i))
    (hunborn : ∀ t, s.k.live t ≠ true → s.pc t = .run)
    (hmade : ∃ l : List TaskRef, l.length = s.k.nlink ∧ ∀ j, s.k.live (.kernel j) = true → .kernel j ∈ l) :
    SemInv s q pend :=
  ⟨hcpu, hlinked, fun i => (hbook i).value, fun i => (hbook i).length, fun i => (hbook i).unused, hblocked, hthread,
    hparked, hinside, hpending, fun i => (hbook i).pendNodup, hunborn, fun i => (hbook i).count,
    fun i => (hbook i).fifo, hmade⟩

theorem SemBook.congr {i : Nat} (h : SemBook s q pend i) (hinit : s'.init i = s.init i)
    (hvalue : (s'.k.sems i).value = (s.k.sems i).value) (hsignals : s'.signals i = s.signals i)
    (hwaits : s'.waits i = s.waits i) (hpassed : s'.passed i = s.passed i) (hqueued : s'.queued i = s.queued i)
    (hwoken : s'.woken i = s.woken i) (hq : q' i = q i) (hpend : pend' i = pend i) : SemBook s' q' pend' i := by
  constructor
  all_goals simp only [hinit, hvalue, hsignals, hwaits, hpassed, hqueued, hwoken, hq, hpend]
  exacts [h.value, h.length, h.unused, h.pendNodup, h.count, h.fifo]

theorem semInv_start : SemInv SemSys.start (fun _ => []) (fun _ => []) where
  cpu := cpuInv_init
  linked := fun _ => rfl
  value := fun _ _ h => by cases h
  length := fun _ _ h => by cases h
  unused := fun _ _ => ⟨rfl, rfl, rfl⟩
  blocked := by
    intro t ht
    constructor
    · cases t <;> (intro h; cases h)
    · intro h; obtain ⟨i, h⟩ := h; cases h
  thread := fun _ _ h => by cases h
  parked := fun _ _ h => by cases h
  inside := by intro i t h; rcases h with h | h <;> cases h
  pending := fun _ _ h => by cases h
  pendNodup := fun _ => nodup_nil
  unborn := fun _ _ => rfl
  count := fun _ => rfl
  fifo := fun _ => rfl
  made := ⟨[], rfl, fun j h => by cases h⟩

theorem SemInv.inQueue (hs : SemInv s q pend) {i : Nat} {t : TaskRef} (h : t ∈ q i) :
    s.pc t = .yielding i ∨ s.pc t = .yielded i :=
  (hs.parked i t h).imp id And.left

theorem SemInv.alone (hs : SemInv s q pend) {i j : Nat} {t : TaskRef} (h : t ∈ q i) (h' : t ∈ q j) : i = j := by
  rcases hs.inQueue h with h1 | h1 <;> rcases hs.inQueue h' with h2 | h2 <;> rw [h1] at h2
  · cases h2; rfl
  · cases h2
  · cases h2
  · cases h2; rfl

/-- A thread in its own code, or one that is not queued in the window before its `yield`. -/
theorem SemInv.notQueued (hs : SemInv s q pend) {t : TaskRef} (h : s.pc t = .run) (i : Nat) : t ∉ q i := by
  intro hq
  rcases hs.inQueue hq with h1 | h1 <;> (rw [h] at h1; cases h1)

theorem thread_some {c : Nat} {t : TaskRef} (h : s.thread c = some t) :
    ∃ j, t = .kernel j ∧ s.k.current c = some (.kernel j) ∧ s.pc (.kernel j) = .run := by
  unfold SemSys.thread at h
  split at h
  · next j hc =>
    by_cases hp : s.pc (.kernel j) = .run
    · rw [if_pos hp] at h; cases h; exact ⟨j, rfl, hc, hp⟩
    · rw [if_neg hp] at h; cases h
  · cases h

/-! ## Switches -/

theorem SemInv.schedule (hs : SemInv s q pend) {c : Nat} {ctx rc : Context} {k' : Kmt} {pc' : TaskRef → Pc}
    (h : kmtSchedule s.k c ctx = .ok (k', rc))
    (hpc : pc' = s.pc ∨ ∃ t i, s.k.current c = some t ∧ s.pc t = .yielding i ∧
      pc' = update s.pc t (.yielded i)) :
    SemInv { s with k := k', pc := pc' } q pend := by
  obtain ⟨hk', next, hsw⟩ := kmtSchedule_ok hs.cpu h
  obtain ⟨hlive, -, hsems, hnl⟩ := hsw.frame
  have hsem : k'.semNext = s.k.semNext := by
    funext t
    exact hsw.field Task.semNext (fun _ _ _ => rfl) (fun _ _ _ _ _ => rfl) t
  -- the task that is switched to is in no queue
  have hnext : ∀ i, next ∉ q i := by
    intro i hq
    obtain ⟨hl, j, hj⟩ := hs.thread i next hq
    rcases hsw.picked with h1 | ⟨h1, -, -⟩
    · rw [h1] at hj; cases hj
    · have := (hs.blocked next hl).mpr ⟨i, hq⟩
      rw [h1] at this; cases this
  have hin : ∀ i t, (pc' t = .yielding i ∨ pc' t = .yielded i) ↔ (s.pc t = .yielding i ∨ s.pc t = .yielded i) := by
    intro i t
    rcases hpc with rfl | ⟨u, j, -, hu, rfl⟩
    · exact Iff.rfl
    · by_cases ht : t = u
      · subst ht
        rw [update_self, hu]
        simp
      · rw [update_of_ne ht]
  constructor
  case cpu => exact hk'
  case linked => intro i; simp only [hsem, hsems]; exact hs.linked i
  case value => intro i v hv; simp only [hsems]; exact hs.value i v hv
  case length => intro i v hv; simp only [hsems]; exact hs.length i v hv
  case unused => exact hs.unused
  case blocked =>
    intro t ht
    simp only [hlive] at ht
    rw [← hs.blocked t ht]
    exact hsw.blocked_iff t
  case thread => intro i t ht; simp only [hlive]; exact hs.thread i t ht
  case parked =>
    intro i t ht
    have hne : ∀ d, s.k.current d ≠ some t → k'.current d ≠ some t := by
      intro d hd
      rw [hsw.current]
      by_cases hdc : d = c
      · subst hdc
        rw [update_self]
        intro he; cases he
        exact hnext i ht
      · rw [update_of_ne hdc]; exact hd
    rcases hpc with rfl | ⟨u, j, hu, hj, rfl⟩
    · exact (hs.parked i t ht).imp id fun h1 => ⟨h1.1, fun d => hne d (h1.2 d)⟩
    · by_cases htu : t = u
      · subst htu
        right
        rcases hs.inQueue ht with h1 | h1
        · rw [hj] at h1; cases h1
          refine ⟨update_self .., ?_⟩
          intro d hd
          by_cases hdc : d = c
          · subst hdc
            simp only [hsw.current, update_self] at hd
            cases hd
            exact hnext _ ht
          · simp only [hsw.current, update_of_ne hdc] at hd
            exact hdc (hs.cpu.unique (Or.inl hd) (Or.inl hu))
        · rw [hj] at h1; cases h1
      · simp only [update_of_ne htu]
        exact (hs.parked i t ht).imp id fun h1 => ⟨h1.1, fun d => hne d (h1.2 d)⟩
  case inside => intro i t ht; exact hs.inside i t ((hin i t).mp ht)
  case pending => intro i t ht; exact ⟨(hs.pending i t ht).1, (hin i t).mpr (hs.pending i t ht).2⟩
  case pendNodup => exact hs.pendNodup
  case unborn =>
    intro t ht
    simp only [hlive] at ht
    rcases hpc with rfl | ⟨u, j, hu, -, rfl⟩
    · exact hs.unborn t ht
    · have htu : t ≠ u := by
        rintro rfl
        exact ht (hs.cpu.live (Or.inl hu))
      simp only [update_of_ne htu]
      exact hs.unborn t ht
  case count => exact hs.count
  case fifo => exact hs.fifo
  case made => simp only [hlive, hnl]; exact hs.made

/-! ## Threads come and go -/

theorem SemInv.create (hs : SemInv s q pend) {j : Nat} {ctx : Context} {k' : Kmt}
    (hl : s.k.live (.kernel j) ≠ true) (h : kmtCreate s.k (.kernel j) (some ctx) = .ok k') :
    SemInv { s with k := k', pc := update s.pc (.kernel j) .run } q pend := by
  have hnl : ∀ i, .kernel j ∉ q i := fun i hq => hl (hs.thread i _ hq).1
  have hpc : update s.pc (.kernel j) .run = s.pc := by
    rw [← hs.unborn _ hl]; exact update_eq_self ..
  have hcpu := hs.cpu.create (fun c h => by cases h) hl (fun c h1 => hs.cpu.listed c (Or.inr ⟨_, h1⟩)) h
  rw [hpc]
  cases h
  have hother : ∀ t, t ≠ .kernel j → (kmtRegister { s.k.set (.kernel j) { s.k.tasks (.kernel j) with
      state := .runnable, cpu := -1, semNext := none, onCpu := false, savedNcli := 0, savedIntena := 1,
      context := ctx } with live := update s.k.live (.kernel j) true } (.kernel j)).tasks t =
      s.k.tasks t := by
    intro t ht
    simp only [kmtRegister, set_tasks_ne ht]
  constructor
  case cpu => exact hcpu
  case linked =>
    intro i
    apply (hs.linked i).congr
    intro t ht
    unfold Kmt.semNext
    rw [hother t fun he => hnl i (he ▸ ht)]
  case value => exact hs.value
  case length => exact hs.length
  case unused => exact hs.unused
  case blocked =>
    intro t ht
    by_cases he : t = .kernel j
    · subst he
      simp only [kmtRegister, set_tasks_self, reduceCtorEq, false_iff, not_exists]
      exact hnl
    · rw [hother t he]
      simp only [kmtRegister, set_live, update_of_ne he] at ht
      exact hs.blocked t ht
  case thread =>
    intro i t ht
    have he : t ≠ .kernel j := fun he => hnl i (he ▸ ht)
    simp only [kmtRegister, set_live, update_of_ne he]
    exact hs.thread i t ht
  case parked => exact hs.parked
  case inside => exact hs.inside
  case pending => exact hs.pending
  case pendNodup => exact hs.pendNodup
  case unborn =>
    intro t ht
    by_cases he : t = .kernel j
    · subst he; exact hs.unborn _ hl
    · simp only [kmtRegister, set_live, update_of_ne he] at ht
      exact hs.unborn t ht
  case count => exact hs.count
  case fifo => exact hs.fifo
  case made =>
    obtain ⟨l, hlen, hm⟩ := hs.made
    refine ⟨.kernel j :: l, by simp [kmtRegister, hlen], ?_⟩
    intro m hlm
    by_cases he : m = j
    · subst he; simp
    · have he' : TaskRef.kernel m ≠ .kernel j := fun h1 => he (by cases h1; rfl)
      simp only [kmtRegister, set_live, update_of_ne he'] at hlm
      exact mem_cons_of_mem _ (hm m hlm)

/-- A thread that is in its own code has its state or its program counter changed. -/
theorem SemInv.exit (hs : SemInv s q pend) {c : Nat} {t : TaskRef} {k' : Kmt} (ht : s.k.current c = some t)
    (hrun : s.pc t = .run) (h : taskExit s.k c = .ok k') :
    SemInv { s with k := k', pc := update s.pc t .exited } q pend := by
  have hsame := (semStep_taskExit h).sameCpu
  have hnq := hs.notQueued hrun
  simp only [taskExit, ht] at h
  obtain ⟨x, hx, h⟩ := bind_ok h
  obtain ⟨hl, rfl⟩ := deref_ok.mp hx
  cases h
  have hpc : ∀ i u, (update s.pc t .exited u = .yielding i ∨
      update s.pc t .exited u = .yielded i) ↔ (s.pc u = .yielding i ∨ s.pc u = .yielded i) := by
    intro i u
    by_cases hu : u = t
    · subst hu; rw [update_self, hrun]; simp
    · rw [update_of_ne hu]
  constructor
  case cpu => exact hs.cpu.congr hsame
  case linked =>
    intro i
    apply (hs.linked i).congr
    intro u _
    exact set_field Task.semNext (by rfl) u
  case value => exact hs.value
  case length => exact hs.length
  case unused => exact hs.unused
  case blocked =>
    intro u hu
    by_cases he : u = t
    · subst he
      simp only [set_tasks_self, reduceCtorEq, false_iff, not_exists]
      exact hnq
    · simp only [set_tasks_ne he]; exact hs.blocked u hu
  case thread => exact hs.thread
  case parked =>
    intro i u hu
    have he : u ≠ t := fun he => hnq i (he ▸ hu)
    simp only [update_of_ne he]
    exact hs.parked i u hu
  case inside => intro i u hu; exact hs.inside i u ((hpc i u).mp hu)
  case pending => intro i u hu; exact ⟨(hs.pending i u hu).1, (hpc i u).mpr (hs.pending i u hu).2⟩
  case pendNodup => exact hs.pendNodup
  case unborn =>
    intro u hu
    have he : u ≠ t := by rintro rfl; exact hu hl
    simp only [update_of_ne he]
    exact hs.unborn u hu
  case count => exact hs.count
  case fifo => exact hs.fifo
  case made => exact hs.made

theorem SemInv.semInit (hs : SemInv s q pend) {i : Nat} {v : Int} (hi : s.init i = none) (hv : 0 ≤ v) :
    SemInv { s with k := kmtSemInit s.k i v, init := update s.init i (some v) } q pend := by
  obtain ⟨hq, hsig, hw⟩ := hs.unused i hi
  refine .of_books (fun j => ?book) (hs.cpu.congr (semStep_setSem ..).sameCpu) (fun j => ?linked) hs.blocked hs.thread
    hs.parked hs.inside hs.pending hs.unborn hs.made
  case book =>
    by_cases hj : j = i
    · subst hj
      refine ⟨fun w hw' => ?_, fun w hw' => ?_, fun hno => ?_, hs.pendNodup j, hs.count j, hs.fifo j⟩
      · simp only [update_self, some.injEq] at hw'
        subst hw'
        refine ⟨hv, ?_⟩
        simp [kmtSemInit, Kmt.setSem, hsig, hw]
      · simp only [update_self, some.injEq] at hw'
        simp only [kmtSemInit, Kmt.setSem, update_self, hq, length_nil, Nat.cast_zero]
        omega
      · simp only [update_self, reduceCtorEq] at hno
    · refine (hs.book j).congr (update_of_ne hj ..) ?_ rfl rfl rfl rfl rfl rfl rfl
      simp only [kmtSemInit, Kmt.setSem, update_of_ne hj]
  case linked =>
    by_cases hj : j = i
    · subst hj
      simp only [kmtSemInit, Kmt.setSem, update_self, hq]
      rfl
    · simp only [kmtSemInit, Kmt.setSem, update_of_ne hj]
      exact hs.linked j

/-! ## Wait -/

@[simp] theorem bump_self (f : Nat → Nat) (i : Nat) : bump f i i = f i + 1 := update_self ..

theorem bump_of_ne (f : Nat → Nat) {i j : Nat} (h : j ≠ i) : bump f i j = f j := update_of_ne h ..

theorem setSem_self (k : Kmt) (i : Nat) (x : Semaphore) : (k.setSem i x).sems i = x := update_self ..

theorem setSem_of_ne (k : Kmt) {i j : Nat} (x : Semaphore) (h : j ≠ i) : (k.setSem i x).sems j = k.sems j :=
  update_of_ne h ..

theorem SemInv.recount (hs : SemInv s q pend) {i : Nat} {v x : Int} {waits signals passed : Nat → Nat}
    (hi : s.init i = some v) (hw : ∀ j, j ≠ i → waits j = s.waits j)
    (hg : ∀ j, j ≠ i → signals j = s.signals j) (hp : ∀ j, j ≠ i → passed j = s.passed j)
    (hx : x = v + signals i - waits i) (hlen : ((q i).length : Int) = max 0 (-x))
    (hcount : passed i + (pend i).length + (q i).length = waits i) :
    SemInv { s with
      k := s.k.setSem i ⟨x, (s.k.sems i).waiters⟩
      waits := waits
      signals := signals
      passed := passed } q pend := by
  refine .of_books (fun j => ?book) (hs.cpu.congr (semStep_setSem ..).sameCpu) (fun j => ?linked) hs.blocked hs.thread
    hs.parked hs.inside hs.pending hs.unborn hs.made
  case book =>
    by_cases hj : j = i
    · subst hj
      refine ⟨fun w hw => ?_, fun _ _ => ?_, fun hno => ?_, hs.pendNodup j, hcount, hs.fifo j⟩
      · cases hi.symm.trans hw
        rw [setSem_self]
        exact ⟨(hs.value j v hi).1, hx⟩
      · rw [setSem_self]
        exact hlen
      · cases hi.symm.trans hno
    · exact (hs.book j).congr rfl (congrArg _ (setSem_of_ne _ _ hj)) (hg j hj) (hw j hj) (hp j hj) rfl rfl rfl rfl
  case linked =>
    by_cases hj : j = i
    · subst hj; rw [setSem_self]; exact hs.linked j
    · rw [setSem_of_ne _ _ hj]; exact hs.linked j

theorem SemInv.waitPassed (hs : SemInv s q pend) {i : Nat} {v : Int} (hi : s.init i = some v)
    (h : 0 ≤ (s.k.sems i).value - 1) :
    SemInv { s with
      k := s.k.setSem i ⟨(s.k.sems i).value - 1, (s.k.sems i).waiters⟩
      waits := bump s.waits i
      passed := bump s.passed i } q pend := by
  have hv := hs.value i v hi
  have hl := hs.length i v hi
  have hc := hs.count i
  refine hs.recount hi (fun j hj => bump_of_ne _ hj) (fun j _ => rfl) (fun j hj => bump_of_ne _ hj) ?_ ?_ ?_
  · rw [bump_self]; push_cast; omega
  · omega
  · rw [bump_self, bump_self]; omega

theorem mem_queue_snoc {i j : Nat} {t u : TaskRef} (h : u ∈ update q i (q i ++ [t]) j) :
    u ∈ q j ∨ j = i ∧ u = t := by
  by_cases hj : j = i
  · subst hj
    rw [update_self] at h
    rcases mem_append.mp h with h | h
    · exact Or.inl h
    · exact Or.inr ⟨rfl, mem_singleton.mp h⟩
  · rw [update_of_ne hj] at h
    exact Or.inl h

theorem queue_snoc_mem {i j : Nat} {t u : TaskRef} (h : u ∈ q j ∨ j = i ∧ u = t) :
    u ∈ update q i (q i ++ [t]) j := by
  by_cases hj : j = i
  · subst hj
    rw [update_self]
    rcases h with h | ⟨-, rfl⟩
    · exact mem_append_left _ h
    · simp
  · rw [update_of_ne hj]
    rcases h with h | ⟨h, -⟩
    · exact h
    · exact absurd h hj

theorem SemInv.waitQueued (hs : SemInv s q pend) {c i j : Nat} {v : Int} {k' : Kmt} (hi : s.init i = some v)
    (hc : s.k.current c = some (.kernel j)) (hrun : s.pc (.kernel j) = .run)
    (h : (s.k.sems i).value - 1 < 0) {k1 : Kmt}
    (he : enqueueWaiter (s.k.setSem i ⟨(s.k.sems i).value - 1, (s.k.sems i).waiters⟩) i (.kernel j) = .ok k1)
    (hk' : k' = k1.set (.kernel j) { k1.tasks (.kernel j) with state := .blocked }) :
    SemInv { s with
      k := k'
      waits := bump s.waits i
      pc := update s.pc (.kernel j) (.yielding i)
      queued := update s.queued i (s.queued i ++ [.kernel j]) }
      (update q i (q i ++ [.kernel j])) pend := by
  have hl := hs.cpu.live (Or.inl hc)
  have hnq := hs.notQueued hrun
  have hnp : ∀ m, .kernel j ∉ pend m := by
    intro m hm
    rcases (hs.pending m _ hm).2 with h1 | h1 <;> (rw [hrun] at h1; cases h1)
  have hq0 : ∀ m, Linked (s.k.setSem i ⟨(s.k.sems i).value - 1, (s.k.sems i).waiters⟩).semNext
      ((s.k.setSem i ⟨(s.k.sems i).value - 1, (s.k.sems i).waiters⟩).sems m).waiters (q m) := by
    intro m
    by_cases hm : m = i
    · subst hm; rw [setSem_self]; exact hs.linked m
    · rw [setSem_of_ne _ _ hm]; exact hs.linked m
  have henq := enqueueWaiter_ok hq0 hnq (fun _ _ _ h1 h2 => hs.alone h1 h2) he
  have hsame : SameCpu s.k k' := by
    subst hk'
    exact ((semStep_setSem ..).trans (semStep_enqueueWaiter he)).sameCpu.trans (SameCpu.set rfl rfl rfl)
  have hsem : k'.semNext = k1.semNext := by
    subst hk'; funext u
    exact set_field Task.semNext (by rfl) u
  have hsems : k'.sems = k1.sems := by subst hk'; rfl
  have hstate : ∀ u, u ≠ .kernel j → (k'.tasks u).state = (s.k.tasks u).state := by
    intro u hu
    subst hk'
    rw [set_tasks_ne hu]
    exact henq.state u
  have hnl : k'.nlink = s.k.nlink := by subst hk'; exact henq.nlink
  have hself : (k'.tasks (.kernel j)).state = .blocked := by subst hk'; rw [set_tasks_self]
  have hpc : ∀ u, u ≠ .kernel j → update s.pc (.kernel j) (.yielding i) u = s.pc u :=
    fun u hu => update_of_ne hu ..
  refine .of_books (fun m => ?book) (hs.cpu.congr hsame) (fun m => ?linked) (fun u hu => ?blocked)
    (fun m u hu => ?thread) (fun m u hu => ?parked) (fun m u hu => ?inside) (fun m u hu => ?pending)
    (fun u hu => ?unborn) ?made
  case book =>
    have hvalue : (k'.sems m).value =
        ((s.k.setSem i ⟨(s.k.sems i).value - 1, (s.k.sems i).waiters⟩).sems m).value := by rw [hsems, henq.value]
    by_cases hm : m = i
    · subst hm
      have hv := hs.value m v hi
      have hlen := hs.length m v hi
      have hcount := hs.count m
      rw [setSem_self] at hvalue
      constructor
      case value =>
        intro w hw
        cases hi.symm.trans hw
        simp only [hvalue, bump_self]
        push_cast
        omega
      case length =>
        intro w _
        simp only [hvalue, update_self, length_append, length_singleton]
        push_cast
        omega
      case unused => exact fun hno => by cases hi.symm.trans hno
      case pendNodup => exact hs.pendNodup m
      case count =>
        simp only [bump_self, update_self, length_append, length_singleton]
        omega
      case fifo => simp only [update_self, hs.fifo m, append_assoc]
    · rw [setSem_of_ne _ _ hm] at hvalue
      exact (hs.book m).congr rfl hvalue rfl (bump_of_ne _ hm) rfl (update_of_ne hm ..) rfl
        (update_of_ne hm ..) rfl
  case linked => simp only [hsem, hsems]; exact henq.linked m
  case blocked =>
    simp only [hsame.live] at hu
    by_cases he : u = .kernel j
    · subst he
      simp only [hself, true_iff]
      exact ⟨i, queue_snoc_mem (Or.inr ⟨rfl, rfl⟩)⟩
    · simp only [hstate u he]
      rw [hs.blocked u hu]
      constructor
      · intro h1
        obtain ⟨m, hm⟩ := h1
        exact ⟨m, queue_snoc_mem (Or.inl hm)⟩
      · intro h1
        obtain ⟨m, hm⟩ := h1
        rcases mem_queue_snoc hm with h2 | h2
        · exact ⟨m, h2⟩
        · exact absurd h2.2 he
  case thread =>
    simp only [hsame.live]
    rcases mem_queue_snoc hu with h1 | ⟨-, rfl⟩
    · exact hs.thread m u h1
    · exact ⟨hl, j, rfl⟩
  case parked =>
    rcases mem_queue_snoc hu with h1 | ⟨rfl, rfl⟩
    · have hne : u ≠ .kernel j := fun he => hnq m (he ▸ h1)
      simp only [hpc u hne, hsame.current]
      exact hs.parked m u h1
    · exact Or.inl (update_self ..)
  case inside =>
    by_cases he : u = .kernel j
    · subst he
      simp only [update_self, Pc.yielding.injEq, reduceCtorEq, or_false] at hu
      subst hu
      exact Or.inl (queue_snoc_mem (Or.inr ⟨rfl, rfl⟩))
    · simp only [hpc u he] at hu
      exact (hs.inside m u hu).imp (fun h1 => queue_snoc_mem (Or.inl h1)) id
  case pending =>
    have he : u ≠ .kernel j := fun he => hnp m (he ▸ hu)
    simp only [hpc u he]
    refine ⟨?_, (hs.pending m u hu).2⟩
    intro h1
    rcases mem_queue_snoc h1 with h2 | h2
    · exact (hs.pending m u hu).1 h2
    · exact he h2.2
  case unborn =>
    simp only [hsame.live] at hu
    have he : u ≠ .kernel j := by rintro rfl; exact hu hl
    simp only [hpc u he]
    exact hs.unborn u hu
  case made => simp only [hsame.live, hnl]; exact hs.made

theorem SemInv.mem_pend_erase (hs : SemInv s q pend) {i : Nat} {t : TaskRef} (hpc : s.pc t = .yielded i) (m : Nat)
    (u : TaskRef) : u ∈ update pend i ((pend i).erase t) m ↔ u ∈ pend m ∧ u ≠ t := by
  by_cases hm : m = i
  · subst hm
    rw [update_self, (hs.pendNodup m).mem_erase_iff]
    exact and_comm
  · rw [update_of_ne hm]
    refine ⟨fun h1 => ⟨h1, ?_⟩, And.left⟩
    rintro rfl
    rcases (hs.pending m u h1).2 with h2 | h2 <;> (rw [hpc] at h2; cases h2)
    exact hm rfl

theorem SemInv.ret (hs : SemInv s q pend) {c i : Nat} {t : TaskRef} (hc : s.k.current c = some t)
    (hpc : s.pc t = .yielded i) :
    SemInv { s with pc := update s.pc t .run, passed := bump s.passed i } q
      (update pend i ((pend i).erase t)) := by
  have hnq : t ∉ q i := by
    intro hq
    rcases hs.parked i t hq with h1 | h1
    · rw [hpc] at h1; cases h1
    · exact h1.2 c hc
  have htp : t ∈ pend i := (hs.inside i t (Or.inr hpc)).resolve_left hnq
  have hnq' : ∀ m, t ∉ q m := by
    intro m hq
    rcases hs.inQueue hq with h1 | h1 <;> (rw [hpc] at h1; cases h1)
    exact hnq hq
  have hpend := hs.mem_pend_erase hpc
  constructor
  case cpu => exact hs.cpu
  case linked => exact hs.linked
  case value => exact hs.value
  case length => exact hs.length
  case unused => exact hs.unused
  case blocked => exact hs.blocked
  case thread => exact hs.thread
  case parked =>
    intro m u hu
    have he : u ≠ t := fun he => hnq' m (he ▸ hu)
    simp only [update_of_ne he]
    exact hs.parked m u hu
  case inside =>
    intro m u hu
    by_cases he : u = t
    · subst he; simp at hu
    · simp only [update_of_ne he] at hu
      exact (hs.inside m u hu).imp id fun h1 => (hpend m u).mpr ⟨h1, he⟩
  case pending =>
    intro m u hu
    obtain ⟨h1, he⟩ := (hpend m u).mp hu
    simp only [update_of_ne he]
    exact hs.pending m u h1
  case pendNodup =>
    intro m
    by_cases hm : m = i
    · subst hm; rw [update_self]; exact (hs.pendNodup m).erase t
    · rw [update_of_ne hm]; exact hs.pendNodup m
  case unborn =>
    intro u hu
    have he : u ≠ t := by rintro rfl; exact hu (hs.cpu.live (Or.inl hc))
    simp only [update_of_ne he]
    exact hs.unborn u hu
  case count =>
    intro m
    have h1 := hs.count m
    by_cases hm : m = i
    · subst hm
      have := length_pos_of_mem htp
      simp only [bump_self, update_self, length_erase_of_mem htp]
      omega
    · simp only [bump_of_ne _ hm, update_of_ne hm]; exact h1
  case fifo => exact hs.fifo
  case made => exact hs.made

/-! ## Signal -/

theorem SemInv.signalIdle (hs : SemInv s q pend) {i : Nat} {v : Int} (hi : s.init i = some v)
    (h : (s.k.sems i).waiters = none ∨ 0 < (s.k.sems i).value + 1) :
    SemInv { s with
      k := s.k.setSem i ⟨(s.k.sems i).value + 1, (s.k.sems i).waiters⟩
      signals := bump s.signals i
      woken := update s.woken i (s.woken i ++ oldest (s.k.sems i)) } q pend := by
  have hl := hs.length i v hi
  have hv := hs.value i v hi
  have h0 : 0 ≤ (s.k.sems i).value := by
    rcases h with h | h
    · have hq : q i = [] := linked_none (h ▸ hs.linked i)
      rw [hq, length_nil, Nat.cast_zero] at hl
      omega
    · omega
  have hold : oldest (s.k.sems i) = [] := if_neg (by omega)
  have hwok : update s.woken i (s.woken i ++ oldest (s.k.sems i)) = s.woken := by
    rw [hold, append_nil]; exact update_eq_self ..
  rw [hwok]
  refine hs.recount hi (fun j _ => rfl) (fun j hj => bump_of_ne _ hj) (fun j _ => rfl) ?_ ?_ (hs.count i)
  · rw [bump_self]; push_cast; omega
  · omega

theorem SemInv.oldest_head (hs : SemInv s q pend) {i : Nat} {w : TaskRef} (hw : (s.k.sems i).waiters = some w) :
    ∃ l, q i = w :: l ∧ Linked s.k.semNext (s.k.tasks w).semNext l ∧ w ∉ l := by
  have hlk := hs.linked i
  have hnd := hlk.nodup
  rw [hw] at hlk
  cases hq : q i with
  | nil => rw [hq] at hlk; cases hlk
  | cons a l =>
    rw [hq] at hlk hnd
    cases hlk.1
    exact ⟨l, rfl, hlk.2, (nodup_cons.mp hnd).1⟩

theorem SemInv.mem_queue_tail (hs : SemInv s q pend) {i : Nat} {w : TaskRef} {l : List TaskRef} (hl : q i = w :: l)
    (m : Nat) (u : TaskRef) : u ∈ update q i l m ↔ u ∈ q m ∧ u ≠ w := by
  have hnd := (hs.linked i).nodup
  rw [hl, nodup_cons] at hnd
  by_cases hm : m = i
  · subst hm
    rw [update_self, hl, mem_cons]
    constructor
    · intro h1
      refine ⟨Or.inr h1, ?_⟩
      rintro rfl
      exact hnd.1 h1
    · rintro ⟨h1 | h1, h2⟩
      · exact absurd h1 h2
      · exact h1
  · rw [update_of_ne hm]
    refine ⟨fun h1 => ⟨h1, ?_⟩, And.left⟩
    rintro rfl
    exact hm (hs.alone h1 (by rw [hl]; exact mem_cons_self))

theorem mem_pend_cons (pend : Nat → List TaskRef) (i : Nat) (w : TaskRef) (m : Nat) (u : TaskRef) :
    u ∈ update pend i (w :: pend i) m ↔ u ∈ pend m ∨ m = i ∧ u = w := by
  by_cases hm : m = i
  · subst hm; rw [update_self, mem_cons]; simp [or_comm]
  · rw [update_of_ne hm]; simp [hm]

theorem SemInv.signalWoke (hs : SemInv s q pend) {i : Nat} {v : Int} {w : TaskRef} {k' : Kmt}
    (hi : s.init i = some v) (h : (s.k.sems i).value + 1 ≤ 0) (hw : (s.k.sems i).waiters = some w)
    (hk' : k' = (s.k.setSem i ⟨(s.k.sems i).value + 1, (s.k.tasks w).semNext⟩).set w
      { s.k.tasks w with semNext := none, state := .runnable }) :
    ∃ l, q i = w :: l ∧ SemInv { s with
      k := k'
      signals := bump s.signals i
      woken := update s.woken i (s.woken i ++ oldest (s.k.sems i)) }
      (update q i l) (update pend i (w :: pend i)) := by
  obtain ⟨l, hl, htail, hwl⟩ := hs.oldest_head hw
  refine ⟨l, hl, ?_⟩
  have hwq : w ∈ q i := by rw [hl]; simp
  have hq' := hs.mem_queue_tail hl
  have hp' := mem_pend_cons pend i w
  have hsame : SameCpu s.k k' := by
    subst hk'
    exact (semStep_setSem ..).sameCpu.trans (SameCpu.set rfl rfl rfl)
  have hsem : ∀ u, u ≠ w → k'.semNext u = s.k.semNext u := by
    intro u hu
    subst hk'
    exact semNext_set hu
  have hstate : ∀ u, u ≠ w → (k'.tasks u).state = (s.k.tasks u).state := by
    intro u hu
    subst hk'
    rw [set_tasks_ne hu]; rfl
  have hold : oldest (s.k.sems i) = [w] := by
    unfold oldest
    rw [if_pos h, hw]; rfl
  have hsems : k'.sems = (s.k.setSem i ⟨(s.k.sems i).value + 1, (s.k.tasks w).semNext⟩).sems := by
    subst hk'; rfl
  refine .of_books (fun m => ?book) (hs.cpu.congr hsame) (fun m => ?linked) (fun u hu => ?blocked)
    (fun m u hu => ?thread) (fun m u hu => ?parked) (fun m u hu => ?inside) (fun m u hu => ?pending)
    (fun u hu => ?unborn) ?made
  case book =>
    have hvalue : (k'.sems m).value =
        ((s.k.setSem i ⟨(s.k.sems i).value + 1, (s.k.tasks w).semNext⟩).sems m).value := by rw [hsems]
    by_cases hm : m = i
    · subst hm
      have hv := hs.value m v hi
      have hlen := hs.length m v hi
      have hcount := hs.count m
      have hfifo := hs.fifo m
      rw [hl] at hlen hcount hfifo
      rw [length_cons] at hlen hcount
      rw [setSem_self] at hvalue
      constructor
      case value =>
        intro x hx
        cases hi.symm.trans hx
        simp only [hvalue, bump_self]
        push_cast
        omega
      case length =>
        intro x _
        simp only [hvalue, update_self]
        push_cast at hlen
        omega
      case unused => exact fun hno => by cases hi.symm.trans hno
      case pendNodup =>
        rw [update_self]
        exact nodup_cons.mpr ⟨fun h1 => (hs.pending m w h1).1 hwq, hs.pendNodup m⟩
      case count =>
        simp only [update_self, length_cons]
        omega
      case fifo => simp only [update_self, hold, hfifo, append_assoc, singleton_append]
    · rw [setSem_of_ne _ _ hm] at hvalue
      exact (hs.book m).congr rfl hvalue (bump_of_ne _ hm) rfl rfl rfl (update_of_ne hm ..)
        (update_of_ne hm ..) (update_of_ne hm ..)
  case linked =>
    simp only [hsems]
    by_cases hm : m = i
    · subst hm
      rw [setSem_self, update_self]
      apply htail.congr
      intro u hu
      apply hsem
      rintro rfl
      exact hwl hu
    · rw [setSem_of_ne _ _ hm, update_of_ne hm]
      apply (hs.linked m).congr
      intro u hu
      apply hsem
      rintro rfl
      exact hm (hs.alone hu hwq)
  case blocked =>
    simp only [hsame.live] at hu
    simp only [hq']
    by_cases he : u = w
    · subst he
      subst hk'
      simp
    · simp only [hstate u he, ne_eq, he, not_false_eq_true, and_true]
      exact hs.blocked u hu
  case thread => simp only [hsame.live]; exact hs.thread m u ((hq' m u).mp hu).1
  case parked =>
    simp only [hsame.current]
    exact hs.parked m u ((hq' m u).mp hu).1
  case inside =>
    simp only [hq', hp']
    by_cases he : u = w
    · subst he
      right; right
      refine ⟨?_, rfl⟩
      rcases hs.inQueue hwq with h2 | h2 <;> rcases hu with h1 | h1 <;>
        (simp only [h2] at h1; cases h1; try rfl)
    · rcases hs.inside m u hu with h1 | h1
      · exact Or.inl ⟨h1, he⟩
      · exact Or.inr (Or.inl h1)
  case pending =>
    rw [hq']
    rcases (hp' m u).mp hu with h1 | ⟨rfl, rfl⟩
    · obtain ⟨h2, h3⟩ := hs.pending m u h1
      exact ⟨fun h4 => h2 h4.1, h3⟩
    · exact ⟨fun h4 => h4.2 rfl, hs.inQueue hwq⟩
  case unborn => simp only [hsame.live] at hu; exact hs.unborn u hu
  case made =>
    have hnl : k'.nlink = s.k.nlink := by subst hk'; rfl
    simp only [hsame.live, hnl]; exact hs.made

/-! ## Every step -/

theorem SemInv.step (hs : SemInv s q pend) {a : SemAct} (h : s.step a = some s') :
    ∃ q' pend', SemInv s' q' pend' := by
  cases a with
  | create j ctx =>
    simp only [SemSys.step] at h
    by_cases hl : s.k.live (.kernel j) = true
    · rw [if_pos hl] at h; cases h
    · rw [if_neg hl] at h
      cases hk : kmtCreate s.k (.kernel j) (some ctx) with
      | error e => rw [hk] at h; cases h
      | ok k => rw [hk] at h; cases h; exact ⟨q, pend, hs.create hl hk⟩
  | semInit i v =>
    simp only [SemSys.step] at h
    by_cases hi : s.init i = none ∧ 0 ≤ v ∧ v < 2 ^ 31
    · rw [if_pos hi] at h; cases h; exact ⟨q, pend, hs.semInit hi.1 hi.2.1⟩
    · rw [if_neg hi] at h; cases h
  | timer c ctx =>
    simp only [SemSys.step] at h
    cases hk : kmtSchedule s.k c ctx with
    | error e => rw [hk] at h; cases h
    | ok r => rw [hk] at h; cases h; exact ⟨q, pend, hs.schedule hk (Or.inl rfl)⟩
  | yield c ctx =>
    obtain ⟨t, ht, h⟩ := bind_eq_some_iff.mp h
    obtain ⟨pc, hpc, h⟩ := bind_eq_some_iff.mp h
    cases hk : kmtSchedule s.k c ctx with
    | error e => rw [hk] at h; cases h
    | ok r =>
      rw [hk] at h
      cases h
      refine ⟨q, pend, hs.schedule hk ?_⟩
      cases hp : s.pc t with
      | yielding i => rw [hp] at hpc; cases hpc; exact Or.inr ⟨t, i, ht, hp, rfl⟩
      | yielded i => rw [hp] at hpc; cases hpc
      | run => rw [hp] at hpc; cases hpc; left; rw [← hp]; exact update_eq_self ..
      | exited => rw [hp] at hpc; cases hpc; left; rw [← hp]; exact update_eq_self ..
  | wait c i =>
    obtain ⟨t, ht, h⟩ := bind_eq_some_iff.mp h
    obtain ⟨v, hv, h⟩ := bind_eq_some_iff.mp h
    obtain ⟨j, rfl, hc, hrun⟩ := thread_some ht
    cases hk : kmtSemWait s.k c i with
    | error e => rw [hk] at h; cases h
    | ok r =>
      obtain ⟨k, b⟩ := r
      rw [hk] at h
      cases h
      cases kmtSemWait_ok hk with
      | passed h0 => exact ⟨q, pend, hs.waitPassed hv h0⟩
      | queued h0 hc' he =>
        cases hc.symm.trans hc'
        exact ⟨_, pend, hs.waitQueued hv hc hrun h0 he rfl⟩
  | ret c =>
    obtain ⟨t, ht, h⟩ := bind_eq_some_iff.mp h
    cases hp : s.pc t with
    | yielded i => simp only [hp] at h; cases h; exact ⟨q, _, hs.ret ht hp⟩
    | yielding i => simp only [hp] at h; cases h
    | run => simp only [hp] at h; cases h
    | exited => simp only [hp] at h; cases h
  | signal c i =>
    obtain ⟨t, ht, h⟩ := bind_eq_some_iff.mp h
    obtain ⟨v, hv, h⟩ := bind_eq_some_iff.mp h
    cases hk : kmtSemSignal s.k i with
    | error e => rw [hk] at h; cases h
    | ok k =>
      rw [hk] at h
      cases h
      cases kmtSemSignal_ok hk with
      | idle h0 => exact ⟨q, pend, hs.signalIdle hv h0⟩
      | woke h0 hw hl =>
        obtain ⟨l, -, h1⟩ := hs.signalWoke hv h0 hw rfl
        exact ⟨_, _, h1⟩
  | exit c =>
    obtain ⟨t, ht, h⟩ := bind_eq_some_iff.mp h
    obtain ⟨j, rfl, hc, hrun⟩ := thread_some ht
    cases hk : taskExit s.k c with
    | error e => rw [hk] at h; cases h
    | ok k => rw [hk] at h; cases h; exact ⟨q, pend, hs.exit hc hrun hk⟩

end

/-! ## What holds in every state -/

structure SemExact (s : SemSys) (q : Nat → List TaskRef) : Prop where
  queue : ∀ i, Linked s.k.semNext (s.k.sems i).waiters (q i)
  value : ∀ i v, s.init i = some v → (s.k.sems i).value = v + s.signals i - s.waits i
  nodup : ∀ i, (q i).Nodup
  length : ∀ i v, s.init i = some v → ((q i).length : Int) = max 0 (-(s.k.sems i).value)
  blocked : ∀ i, ∀ t ∈ q i, (s.k.tasks t).state = .blocked
  alone : ∀ i j t, t ∈ q i → t ∈ q j → i = j
  skipped : ∀ i, ∀ t ∈ q i, ∀ after, pickNext s.k after ≠ .ok (some t)
  fifo : ∀ i, s.queued i = s.woken i ++ q i
  /-- a thread that is in no queue, such as one that was woken, is not blocked -/
  awake : ∀ t, s.k.live t = true → (∀ i, t ∉ q i) → (s.k.tasks t).state ≠ .blocked
  /-- every wait that is not queued has been granted, and no more than `v` plus the signals -/
  granted : ∀ i v, s.init i = some v →
    (s.waits i : Int) - (q i).length = min (s.waits i : Int) (v + s.signals i)
  passed : ∀ i v, s.init i = some v → (s.passed i : Int) ≤ v + s.signals i
  /-- the sections return unless the counter overflows -/
  returns : ∀ c i t, s.thread c = some t → s.init i ≠ none →
    ((∃ x, intOf ((s.k.sems i).value - 1) = .ok x) → ∃ r, kmtSemWait s.k c i = .ok r) ∧
    ((∃ x, intOf ((s.k.sems i).value + 1) = .ok x) → ∃ k, kmtSemSignal s.k i = .ok k)

section
variable {s : SemSys} {q pend : Nat → List TaskRef}

theorem SemInv.length_le (hs : SemInv s q pend) (i : Nat) : (q i).length ≤ s.k.nlink := by
  obtain ⟨l, hl, hm⟩ := hs.made
  rw [← hl]
  refine ((hs.linked i).nodup.subperm ?_).length_le
  intro t ht
  obtain ⟨hlive, j, rfl⟩ := hs.thread i t ht
  exact hm j hlive

theorem enqueueWaiter_total {k : Kmt} {i : Nat} {a : TaskRef} {l : List TaskRef}
    (hl : Linked k.semNext (k.sems i).waiters l) (ha : a ∉ l) (hlive : ∀ t ∈ a :: l, k.live t = true)
    (hn : l.length ≤ k.nlink + 1) : ∃ k', enqueueWaiter k i a = .ok k' := by
  have hd : k.deref a = .ok (k.tasks a) := deref_ok.mpr ⟨hlive a (by simp), rfl⟩
  unfold enqueueWaiter
  rw [hd]
  cases hw : (k.sems i).waiters with
  | none => exact ⟨_, by simp only [bind, Except.bind, set_sems, hw]; rfl⟩
  | some w =>
    have hl1 : Linked (k.set a { k.tasks a with semNext := none }).semNext (some w) l := by
      rw [hw] at hl
      apply hl.congr
      intro t ht
      apply semNext_set
      rintro rfl
      exact ha ht
    obtain ⟨t, ht⟩ := lastWaiter_total hl1 (fun t ht => hlive t (by simp [ht])) hn
    exact ⟨_, by simp only [bind, Except.bind, set_sems, hw, set_nlink, ht]; rfl⟩

theorem SemInv.wait_total (hs : SemInv s q pend) {c i : Nat} {t : TaskRef} (ht : s.thread c = some t)
    (hx : ∃ x, intOf ((s.k.sems i).value - 1) = .ok x) : ∃ r, kmtSemWait s.k c i = .ok r := by
  obtain ⟨j, rfl, hc, hrun⟩ := thread_some ht
  obtain ⟨x, hx⟩ := hx
  unfold kmtSemWait
  rw [hx]
  by_cases h0 : 0 ≤ x
  · exact ⟨_, by simp only [bind, Except.bind, h0, if_true]; rfl⟩
  · have hlk : Linked (s.k.setSem i { s.k.sems i with value := x }).semNext
        ((s.k.setSem i { s.k.sems i with value := x }).sems i).waiters (q i) := by
      rw [setSem_self]
      exact hs.linked i
    have hlive : ∀ t ∈ TaskRef.kernel j :: q i, s.k.live t = true := by
      intro t ht
      rcases mem_cons.mp ht with rfl | ht
      · exact hs.cpu.live (Or.inl hc)
      · exact (hs.thread i t ht).1
    obtain ⟨k1, hk1⟩ := enqueueWaiter_total hlk (hs.notQueued hrun i) hlive (Nat.le_succ_of_le (hs.length_le i))
    have hc' : (s.k.setSem i { s.k.sems i with value := x }).current c = some (.kernel j) := hc
    exact ⟨_, by simp only [bind, Except.bind, h0, if_false, hc', hk1]; rfl⟩

theorem SemInv.signal_total (hs : SemInv s q pend) {i : Nat}
    (hx : ∃ x, intOf ((s.k.sems i).value + 1) = .ok x) : ∃ k, kmtSemSignal s.k i = .ok k := by
  obtain ⟨x, hx⟩ := hx
  unfold kmtSemSignal
  rw [hx]
  cases hw : (s.k.sems i).waiters with
  | none => exact ⟨_, by simp only [bind, Except.bind, setSem_self, hw]; rfl⟩
  | some w =>
    by_cases h0 : 0 < x
    · exact ⟨_, by simp only [bind, Except.bind, setSem_self, hw, h0, if_true]; rfl⟩
    · have hlk := hs.linked i
      rw [hw] at hlk
      have hwq : w ∈ q i := by
        cases hq : q i with
        | nil => rw [hq] at hlk; cases hlk
        | cons a l => rw [hq] at hlk; cases hlk.1; simp
      have hd : (s.k.setSem i ⟨x, some w⟩).deref w = .ok (s.k.tasks w) :=
        deref_ok.mpr ⟨(hs.thread i w hwq).1, rfl⟩
      exact ⟨_, by simp only [bind, Except.bind, setSem_self, hw, h0, if_false, hd]; rfl⟩

theorem SemInv.exact (hs : SemInv s q pend) : SemExact s q where
  queue := hs.linked
  value := fun i v hv => (hs.value i v hv).2
  nodup := fun i => (hs.linked i).nodup
  length := hs.length
  blocked := fun i t ht => (hs.blocked t (hs.thread i t ht).1).mpr ⟨i, ht⟩
  alone := fun _ _ _ h h' => hs.alone h h'
  skipped := by
    intro i t ht after h
    obtain ⟨-, he, -⟩ := pickNext_some h
    have hb := (hs.blocked t (hs.thread i t ht).1).mpr ⟨i, ht⟩
    simp [eligible, hb] at he
  fifo := hs.fifo
  awake := by
    intro t hl hq hb
    obtain ⟨i, hi⟩ := (hs.blocked t hl).mp hb
    exact hq i hi
  granted := by
    intro i v hv
    have h1 := (hs.value i v hv).2
    have h2 := hs.length i v hv
    omega
  passed := by
    intro i v hv
    have h1 := (hs.value i v hv).2
    have h2 := hs.length i v hv
    have h3 := hs.count i
    omega
  returns := fun _ _ _ ht _ => ⟨hs.wait_total ht, hs.signal_total⟩

theorem sem_exact (as : List SemAct) (s : SemSys) (hrun : run SemSys.step SemSys.start as = some s) :
    ∃ q, SemExact s q := by
  have hinv : ∃ q pend, SemInv s q pend :=
    run_inv (I := fun s => ∃ q pend, SemInv s q pend)
      (fun _ _ _ ⟨_, _, hs⟩ hstep => hs.step hstep) as _ s ⟨_, _, semInv_start⟩ hrun
  obtain ⟨q, pend, hs⟩ := hinv
  exact ⟨q, hs.exact⟩

def semRun : List SemAct :=
  [.semInit 0 0, .create 1 blankContext, .create 2 blankContext, .create 3 blankContext,
    .timer 0 blankContext, .timer 1 blankContext, .timer 2 blankContext,
    .wait 0 0, .wait 1 0, .timer 0 blankContext, .signal 2 0, .yield 1 blankContext,
    .timer 0 blankContext, .yield 0 blankContext, .timer 0 blankContext, .ret 0]

theorem sem_exact_preempted : ∃ s, run SemSys.step SemSys.start semRun = some s ∧
    (s.k.sems 0).value = -1 ∧ s.passed 0 = 1 ∧ ∃ q, SemExact s q := by
  have hs : (run SemSys.step SemSys.start semRun).isSome := by decide +kernel
  have hv : ∀ s ∈ run SemSys.step SemSys.start semRun, (s.k.sems 0).value = -1 ∧ s.passed 0 = 1 := by
    decide +kernel
  obtain ⟨s, hs⟩ := isSome_iff_exists.mp hs
  exact ⟨s, hs, (hv s hs).1, (hv s hs).2, sem_exact semRun s hs⟩

end

end NjuOs
