import NjuOs.Kmt

/-!
# Who is on which CPU

A CPU refers to a task through `current` while it runs it and through `prev_task` until
the next switch. `CpuRel` says that `on_cpu` marks exactly the tasks some CPU refers to,
that this CPU is unique, and that `cpu` names the CPU given by `owner`: between the
sections of `kmt_schedule` this is not yet `current`.
-/

namespace NjuOs

open Function (update update_self update_of_ne update_eq_self)

section
variable {k k' : Kmt} {t u : TaskRef} {x : Task} {c : Nat}

theorem deref_ok : k.deref t = .ok x ↔ k.live t = true ∧ k.tasks t = x := by
  unfold Kmt.deref
  by_cases hl : k.live t = true
  · rw [if_pos hl]
    constructor
    · intro h; cases h; exact ⟨hl, rfl⟩
    · intro h; rw [h.2]
  · rw [if_neg hl]
    constructor
    · intro h; cases h
    · intro h; exact absurd h.1 hl

@[simp] theorem set_tasks_self : (k.set t x).tasks t = x := update_self ..

theorem set_tasks_ne (h : u ≠ t) : (k.set t x).tasks u = k.tasks u := update_of_ne h ..

@[simp] theorem set_live : (k.set t x).live = k.live := rfl
@[simp] theorem set_current : (k.set t x).current = k.current := rfl
@[simp] theorem set_taskList : (k.set t x).taskList = k.taskList := rfl
@[simp] theorem set_sems : (k.set t x).sems = k.sems := rfl
@[simp] theorem set_nlink : (k.set t x).nlink = k.nlink := rfl

theorem set_field {β : Type*} (f : Task → β) (h : f x = f (k.tasks t)) (u : TaskRef) :
    f ((k.set t x).tasks u) = f (k.tasks u) := by
  by_cases hu : u = t
  · rw [hu, set_tasks_self, h]
  · rw [set_tasks_ne hu]

end

/-! ## The invariant -/

def Kmt.Refs (k : Kmt) (c : Nat) (t : TaskRef) : Prop := k.current c = some t ∨ k.prevTask c = some t

def Kmt.Listed (k : Kmt) (t : TaskRef) : Prop := k.taskList = some t ∨ ∃ u, (k.tasks u).schedNext = some t

theorem listed_set {k : Kmt} {t u : TaskRef} {x : Task} (h : x.schedNext = (k.tasks t).schedNext) :
    (k.set t x).Listed u ↔ k.Listed u := by
  unfold Kmt.Listed
  simp only [set_taskList, set_field Task.schedNext h]

structure CpuRel (owner : Nat → Option TaskRef) (k : Kmt) : Prop where
  onCpu : ∀ t, k.live t = true → ((k.tasks t).onCpu = true ↔ ∃ c, k.Refs c t)
  unique : ∀ {t c d}, k.Refs c t → k.Refs d t → c = d
  cpu : ∀ t, k.live t = true → ∀ c : Nat, (k.tasks t).cpu = c ↔ owner c = some t
  live : ∀ {c t}, k.Refs c t → k.live t = true
  apart : ∀ {c t}, k.current c = some t → k.prevTask c ≠ some t
  idle : ∀ {c d}, k.Refs c (.idle d) → c = d
  idleLive : ∀ c, k.live (.idle c) = true
  listed : ∀ c, ¬k.Listed (.idle c)

def CpuInv (k : Kmt) : Prop := CpuRel k.current k

theorem cpuInv_init : CpuInv kmtInit where
  onCpu := by
    intro t hl
    constructor
    · cases t <;> intro h <;> cases h
    · rintro ⟨c, h | h⟩ <;> cases h
  unique := by rintro t c d (h | h) <;> cases h
  cpu := by
    intro t hl c
    constructor
    · cases t with
      | idle d => intro h; cases h
      | kernel i => cases hl
      | proc a => cases hl
    · intro h; cases h
  live := by rintro c t (h | h) <;> cases h
  apart := by intro c t h; cases h
  idle := by rintro c d (h | h) <;> cases h
  idleLive := fun _ => rfl
  listed := by
    rintro c (h | ⟨u, h⟩)
    · cases h
    · cases u <;> cases h

section
variable {k k' : Kmt} {owner : Nat → Option TaskRef}

/-- Steps that move no task on or off a CPU; structs that come into use are off every CPU. -/
theorem CpuRel.extend (hk : CpuRel owner k) (hcur : k'.current = k.current) (hprev : k'.prevTask = k.prevTask)
    (hlive : ∀ t, k.live t = true → k'.live t = true)
    (hold : ∀ t, k.live t = true → (k'.tasks t).onCpu = (k.tasks t).onCpu ∧ (k'.tasks t).cpu = (k.tasks t).cpu)
    (hnew : ∀ t, k'.live t = true → k.live t ≠ true →
      (k'.tasks t).onCpu = false ∧ (k'.tasks t).cpu = -1 ∧ ∀ c, owner c ≠ some t)
    (hlist : ∀ c, ¬k'.Listed (.idle c)) : CpuRel owner k' := by
  have hrefs : ∀ c t, k'.Refs c t ↔ k.Refs c t := by
    intro c t
    unfold Kmt.Refs
    rw [hcur, hprev]
  constructor
  case onCpu =>
    intro t ht
    simp only [hrefs]
    by_cases hl : k.live t = true
    · rw [(hold t hl).1]; exact hk.onCpu t hl
    · rw [(hnew t ht hl).1]
      constructor
      · intro h; cases h
      · rintro ⟨c, hc⟩; exact absurd (hk.live hc) hl
  case unique =>
    intro t c d h1 h2
    exact hk.unique ((hrefs c t).mp h1) ((hrefs d t).mp h2)
  case cpu =>
    intro t ht c
    by_cases hl : k.live t = true
    · rw [(hold t hl).2]; exact hk.cpu t hl c
    · obtain ⟨-, h2, h3⟩ := hnew t ht hl
      rw [h2]
      constructor
      · intro h; omega
      · intro h; exact absurd h (h3 c)
  case live => intro c t h; exact hlive t (hk.live ((hrefs c t).mp h))
  case apart => intro c t h; rw [hprev]; rw [hcur] at h; exact hk.apart h
  case idle => intro c d h; exact hk.idle ((hrefs c _).mp h)
  case idleLive => intro c; exact hlive _ (hk.idleLive c)
  case listed => exact hlist

structure SameCpu (k k' : Kmt) : Prop where
  current : k'.current = k.current
  prevTask : k'.prevTask = k.prevTask
  live : k'.live = k.live
  taskList : k'.taskList = k.taskList
  onCpu : ∀ t, (k'.tasks t).onCpu = (k.tasks t).onCpu
  cpu : ∀ t, (k'.tasks t).cpu = (k.tasks t).cpu
  schedNext : ∀ t, (k'.tasks t).schedNext = (k.tasks t).schedNext

theorem SameCpu.refl (k : Kmt) : SameCpu k k :=
  ⟨rfl, rfl, rfl, rfl, fun _ => rfl, fun _ => rfl, fun _ => rfl⟩

theorem SameCpu.trans {k'' : Kmt} (h : SameCpu k k') (h' : SameCpu k' k'') : SameCpu k k'' where
  current := h'.current.trans h.current
  prevTask := h'.prevTask.trans h.prevTask
  live := h'.live.trans h.live
  taskList := h'.taskList.trans h.taskList
  onCpu := fun t => (h'.onCpu t).trans (h.onCpu t)
  cpu := fun t => (h'.cpu t).trans (h.cpu t)
  schedNext := fun t => (h'.schedNext t).trans (h.schedNext t)

theorem SameCpu.set {t : TaskRef} {x : Task} (hon : x.onCpu = (k.tasks t).onCpu)
    (hcpu : x.cpu = (k.tasks t).cpu) (hnext : x.schedNext = (k.tasks t).schedNext) : SameCpu k (k.set t x) :=
  ⟨rfl, rfl, rfl, rfl, set_field Task.onCpu hon, set_field Task.cpu hcpu, set_field Task.schedNext hnext⟩

theorem SameCpu.listed (h : SameCpu k k') {t : TaskRef} : k'.Listed t ↔ k.Listed t := by
  unfold Kmt.Listed
  simp only [h.taskList, h.schedNext]

theorem CpuRel.congr (hk : CpuRel owner k) (h : SameCpu k k') : CpuRel owner k' := by
  refine hk.extend h.current h.prevTask ?_ ?_ ?_ ?_
  · intro t ht; rw [h.live]; exact ht
  · intro t _; exact ⟨h.onCpu t, h.cpu t⟩
  · intro t ht hn; rw [h.live] at ht; exact absurd ht hn
  · intro c hc; exact hk.listed c (h.listed.mp hc)

theorem CpuInv.congr (hk : CpuInv k) (h : SameCpu k k') : CpuInv k' := by
  unfold CpuInv
  rw [h.current]
  exact CpuRel.congr hk h

theorem CpuInv.enter (hk : CpuInv k) {t : TaskRef} {x : Task} (hl : k.live t ≠ true) (hon : x.onCpu = false)
    (hcpu : x.cpu = -1) (hnext : ∀ c, x.schedNext ≠ some (.idle c)) :
    CpuInv { k.set t x with live := update k.live t true } := by
  refine CpuRel.extend hk rfl rfl ?_ ?_ ?_ ?_
  · intro u hu
    by_cases he : u = t
    · subst he; exact update_self ..
    · simp only [update_of_ne he, hu]
  · intro u hu
    have he : u ≠ t := fun he => hl (he ▸ hu)
    simp only [set_tasks_ne he, and_self]
  · intro u hu hn
    by_cases he : u = t
    · subst he
      simp only [set_tasks_self]
      exact ⟨hon, hcpu, fun c hc => hl (hk.live (Or.inl hc))⟩
    · simp only [update_of_ne he] at hu
      exact absurd hu hn
  · rintro c (h | ⟨u, h⟩)
    · exact hk.listed c (Or.inl h)
    · by_cases he : u = t
      · subst he
        simp only [set_tasks_self] at h
        exact hnext c h
      · simp only [set_tasks_ne he] at h
        exact hk.listed c (Or.inr ⟨u, h⟩)

theorem CpuInv.leave (hk : CpuInv k) {t : TaskRef} (hno : ∀ c, ¬k.Refs c t) (ht : ∀ c, t ≠ .idle c) :
    CpuInv { k with live := update k.live t false } := by
  have hne : ∀ u, update k.live t false u = true → u ≠ t ∧ k.live u = true := by
    intro u hu
    by_cases he : u = t
    · subst he; rw [update_self] at hu; cases hu
    · rw [update_of_ne he] at hu; exact ⟨he, hu⟩
  have hstay : ∀ u, u ≠ t → k.live u = true → update k.live t false u = true := by
    intro u he hu
    rw [update_of_ne he]; exact hu
  constructor
  case onCpu => intro u hu; exact hk.onCpu u (hne u hu).2
  case unique => exact hk.unique
  case cpu => intro u hu; exact hk.cpu u (hne u hu).2
  case live =>
    intro c u h
    refine hstay u ?_ (hk.live h)
    rintro rfl
    exact hno c h
  case apart => exact hk.apart
  case idle => exact hk.idle
  case idleLive => intro c; exact hstay _ (fun h => ht c h.symm) (hk.idleLive c)
  case listed => exact hk.listed

/-! ## Picking the next task -/

theorem listed_of_succ {a t : TaskRef} (h : k.succ (k.tasks a) = some t) : k.Listed t := by
  unfold Kmt.succ at h
  cases hn : (k.tasks a).schedNext with
  | none => rw [hn] at h; exact Or.inl h
  | some n => rw [hn] at h; exact Or.inr ⟨a, hn.trans h⟩

theorem pickLoop_some {start : Option TaskRef} {t : TaskRef} : ∀ {n : Nat} {o : Option TaskRef},
    pickLoop k start n o = .ok (some t) →
    k.live t = true ∧ eligible (k.tasks t) = true ∧ (o = some t ∨ k.Listed t)
  | 0, _, h => by cases h
  | n + 1, none, h => by cases h
  | n + 1, some a, h => by
    obtain ⟨x, hx, h⟩ := bind_ok h
    obtain ⟨hl, rfl⟩ := deref_ok.mp hx
    by_cases he : eligible (k.tasks a) = true
    · rw [if_pos he] at h
      cases h
      exact ⟨hl, he, Or.inl rfl⟩
    · rw [if_neg he] at h
      by_cases hs : k.succ (k.tasks a) = start
      · rw [if_pos hs] at h; cases h
      · rw [if_neg hs] at h
        obtain ⟨h1, h2, h3⟩ := pickLoop_some h
        refine ⟨h1, h2, Or.inr ?_⟩
        rcases h3 with h3 | h3
        · exact listed_of_succ h3
        · exact h3

theorem pickNext_some {after : Option TaskRef} {t : TaskRef} (h : pickNext k after = .ok (some t)) :
    k.live t = true ∧ eligible (k.tasks t) = true ∧ k.Listed t := by
  cases after with
  | none =>
    obtain ⟨h1, h2, h3⟩ := pickLoop_some h
    exact ⟨h1, h2, h3.elim Or.inl id⟩
  | some a =>
    obtain ⟨x, hx, h⟩ := bind_ok h
    obtain ⟨-, rfl⟩ := deref_ok.mp hx
    obtain ⟨h1, h2, h3⟩ := pickLoop_some h
    exact ⟨h1, h2, h3.elim listed_of_succ id⟩

end

/-! ## The sections of `kmt_schedule` -/

section
variable {k k' : Kmt} {c : Nat}

theorem releasePrev_ok (h : releasePrev k c = .ok k') :
    k' = k ∧ (k.prevTask c = none ∨ k.prevTask c = k.current c) ∨
    ∃ q, k.prevTask c = some q ∧ k.current c ≠ some q ∧ k.live q = true ∧
      k' = { k.set q { k.tasks q with onCpu := false } with
        prevTask := update k.prevTask c none } := by
  unfold releasePrev at h
  cases hq : k.prevTask c with
  | none => rw [hq] at h; cases h; exact Or.inl ⟨rfl, Or.inl rfl⟩
  | some q =>
    simp only [hq] at h
    by_cases hc : k.current c = some q
    · rw [if_pos hc] at h; cases h; exact Or.inl ⟨rfl, Or.inr hc.symm⟩
    · rw [if_neg hc] at h
      obtain ⟨x, hx, h⟩ := bind_ok h
      obtain ⟨hl, rfl⟩ := deref_ok.mp hx
      cases h
      exact Or.inr ⟨q, rfl, hc, hl, rfl⟩

theorem saveCurrent_ok {ctx : Context} (h : saveCurrent k c ctx = .ok k') :
    k' = k ∧ k.current c = none ∨
    ∃ t, k.current c = some t ∧ k.live t = true ∧
      k' = k.set t ((k.tasks t).save ctx (k.ncli c) (k.intena c) (t = .idle c)) := by
  unfold saveCurrent at h
  cases ht : k.current c with
  | none => rw [ht] at h; cases h; exact Or.inl ⟨rfl, rfl⟩
  | some t =>
    rw [ht] at h
    obtain ⟨x, hx, h⟩ := bind_ok h
    obtain ⟨hl, rfl⟩ := deref_ok.mp hx
    cases h
    exact Or.inr ⟨t, rfl, hl, rfl⟩

variable {owner : Nat → Option TaskRef}

theorem CpuRel.releasePrev (hk : CpuRel owner k) (h : releasePrev k c = .ok k') :
    CpuRel owner k' ∧ k'.prevTask c = none := by
  rcases releasePrev_ok h with ⟨rfl, h1⟩ | ⟨q, hq, hc, hl, rfl⟩
  · refine ⟨hk, ?_⟩
    rcases h1 with h1 | h1
    · exact h1
    · cases hcur : k'.current c with
      | none => rw [h1, hcur]
      | some t => exact absurd (h1.trans hcur) (hk.apart hcur)
  · -- the only reference to q goes, and with it the mark
    have hq' : k.Refs c q := Or.inr hq
    have hrefs : ∀ d t, Kmt.Refs { k.set q { k.tasks q with onCpu := false } with
        prevTask := update k.prevTask c none } d t ↔ k.Refs d t ∧ t ≠ q := by
      intro d t
      unfold Kmt.Refs
      by_cases hd : d = c
      · subst hd
        simp only [set_current, update_self, reduceCtorEq, or_false, hq]
        constructor
        · intro h1
          refine ⟨Or.inl h1, ?_⟩
          rintro rfl
          exact hc h1
        · rintro ⟨h1 | h1, h2⟩
          · exact h1
          · cases h1; exact absurd rfl h2
      · simp only [set_current, update_of_ne hd]
        constructor
        · intro h1
          refine ⟨h1, ?_⟩
          rintro rfl
          exact hd (hk.unique h1 hq')
        · exact fun h1 => h1.1
    refine ⟨?_, update_self ..⟩
    constructor
    case onCpu =>
      intro t ht
      simp only [hrefs]
      by_cases he : t = q
      · subst he; simp
      · simp only [set_tasks_ne he, ne_eq, he, not_false_eq_true, and_true]
        exact hk.onCpu t ht
    case unique =>
      intro t d e h1 h2
      exact hk.unique ((hrefs d t).mp h1).1 ((hrefs e t).mp h2).1
    case cpu =>
      intro t ht d
      have hcpu := set_field (x := { k.tasks q with onCpu := false }) Task.cpu rfl t
      rw [← hk.cpu t ht d, ← hcpu]
    case live => intro d t h1; exact hk.live ((hrefs d t).mp h1).1
    case apart =>
      intro d t h1
      by_cases hd : d = c
      · subst hd; simp
      · simp only [update_of_ne hd]; exact hk.apart h1
    case idle => intro d e h1; exact hk.idle ((hrefs d _).mp h1).1
    case idleLive => exact hk.idleLive
    case listed =>
      intro d h1
      exact hk.listed d ((listed_set (by rfl)).mp h1)

theorem CpuRel.saveCurrent (hk : CpuRel k.current k) {ctx : Context} (h : saveCurrent k c ctx = .ok k') :
    CpuRel (update k.current c none) k' ∧ k'.current = k.current ∧ k'.prevTask = k.prevTask := by
  rcases saveCurrent_ok h with ⟨rfl, h1⟩ | ⟨t, ht, hl, rfl⟩
  · refine ⟨?_, rfl, rfl⟩
    have : update k'.current c none = k'.current := by
      rw [← h1]; exact update_eq_self ..
    rw [this]
    exact hk
  · refine ⟨?_, rfl, rfl⟩
    constructor
    case onCpu =>
      intro u hu
      have hon : ((k.tasks t).save ctx (k.ncli c) (k.intena c) (t = .idle c)).onCpu = (k.tasks t).onCpu := rfl
      rw [set_field Task.onCpu hon u]
      exact hk.onCpu u hu
    case unique => exact hk.unique
    case cpu =>
      intro u hu d
      by_cases he : u = t
      · subst he
        rw [set_tasks_self]
        constructor
        · intro h1; simp only [Task.save] at h1; omega
        · intro h1
          by_cases hd : d = c
          · subst hd; rw [update_self] at h1; cases h1
          · rw [update_of_ne hd] at h1
            exact absurd (hk.unique (Or.inl h1) (Or.inl ht)) hd
      · rw [set_tasks_ne he, hk.cpu u hu d]
        by_cases hd : d = c
        · subst hd
          rw [update_self, ht]
          constructor
          · intro h1; cases h1; exact absurd rfl he
          · intro h1; cases h1
        · rw [update_of_ne hd]
    case live => exact hk.live
    case apart => exact hk.apart
    case idle => exact hk.idle
    case idleLive => exact hk.idleLive
    case listed =>
      intro d h1
      exact hk.listed d ((listed_set (by rfl)).mp h1)

theorem switchTo_ok {next : TaskRef} {rc : Context} (h : switchTo k c next = .ok (k', rc)) :
    k.live next = true ∧ rc = (k.tasks next).context ∧
      k' = { k.set next { k.tasks next with cpu := c, onCpu := true } with
        current := update k.current c (some next)
        ncli := update k.ncli c (k.tasks next).savedNcli
        intena := update k.intena c (k.tasks next).savedIntena
        prevTask := update k.prevTask c
          (if k.current c ≠ some next then k.current c else none) } := by
  obtain ⟨x, hx, h⟩ := bind_ok h
  obtain ⟨hl, rfl⟩ := deref_ok.mp hx
  cases h
  exact ⟨hl, rfl, rfl⟩

/-- `next` must not be in use by another CPU; what the CPU itself ran before stays referred
to through `prev_task`. -/
theorem CpuRel.switchTo {next : TaskRef} {rc : Context} (hk : CpuRel (update k.current c none) k)
    (hprev : k.prevTask c = none) (hfree : ∀ d, k.Refs d next → d = c)
    (hidle : ∀ d, next = .idle d → d = c) (h : switchTo k c next = .ok (k', rc)) : CpuInv k' := by
  obtain ⟨hl, -, rfl⟩ := switchTo_ok h
  have hrefs : ∀ d t, Kmt.Refs { k.set next { k.tasks next with cpu := c, onCpu := true } with
        current := update k.current c (some next)
        ncli := update k.ncli c (k.tasks next).savedNcli
        intena := update k.intena c (k.tasks next).savedIntena
        prevTask := update k.prevTask c
          (if k.current c ≠ some next then k.current c else none) } d t ↔
      k.Refs d t ∨ d = c ∧ t = next := by
    intro d t
    unfold Kmt.Refs
    by_cases hd : d = c
    · subst hd
      simp only [update_self, hprev, reduceCtorEq, or_false, true_and, Option.some.injEq]
      by_cases hn : k.current d = some next
      · rw [if_neg (by simpa using hn), hn]
        simp [eq_comm]
      · rw [if_pos hn, or_comm, eq_comm (a := next)]
    · simp only [update_of_ne hd, hd, false_and, or_false]
  constructor
  case onCpu =>
    intro t ht
    simp only [hrefs]
    by_cases he : t = next
    · subst he
      simp only [set_tasks_self, true_iff]
      exact ⟨c, Or.inr ⟨rfl, trivial⟩⟩
    · simp only [set_tasks_ne he, he, and_false, or_false]
      exact hk.onCpu t ht
  case unique =>
    intro t d e h1 h2
    rw [hrefs] at h1 h2
    rcases h1 with h1 | ⟨rfl, rfl⟩ <;> rcases h2 with h2 | ⟨rfl, h2⟩
    · exact hk.unique h1 h2
    · subst h2; exact hfree d h1
    · exact (hfree e h2).symm
    · rfl
  case cpu =>
    intro t ht d
    by_cases he : t = next
    · subst he
      simp only [set_tasks_self]
      by_cases hd : d = c
      · subst hd; simp
      · simp only [update_of_ne hd]
        constructor
        · intro h1; exact absurd (by omega) hd
        · intro h1; exact absurd (hfree d (Or.inl h1)) hd
    · simp only [set_tasks_ne he]
      rw [hk.cpu t ht d]
      by_cases hd : d = c
      · subst hd
        simp only [update_self, reduceCtorEq, Option.some.injEq, false_iff]
        exact fun h1 => he h1.symm
      · simp only [update_of_ne hd]
  case live =>
    intro d t h1
    rw [hrefs] at h1
    rcases h1 with h1 | ⟨rfl, rfl⟩
    · exact hk.live h1
    · exact hl
  case apart =>
    intro d t h1
    by_cases hd : d = c
    · subst hd
      simp only [update_self, Option.some.injEq] at h1 ⊢
      subst h1
      by_cases hn : k.current d = some next
      · rw [if_neg (by simpa using hn)]; simp
      · rw [if_pos hn]; exact hn
    · simp only [update_of_ne hd] at h1 ⊢
      exact hk.apart h1
  case idle =>
    intro d e h1
    rw [hrefs] at h1
    rcases h1 with h1 | ⟨rfl, h1⟩
    · exact hk.idle h1
    · exact (hidle e h1.symm).symm
  case idleLive => exact hk.idleLive
  case listed =>
    intro d h1
    exact hk.listed d ((listed_set (by rfl)).mp h1)

/-! ## A whole switch -/

/-- What a switch on CPU `c` from the trap frame `ctx` to the task `next` changes, apart from
`cpu` and `on_cpu`, which `CpuInv` determines. -/
structure Switched (k : Kmt) (c : Nat) (ctx : Context) (next : TaskRef) (k' : Kmt) (rc : Context) : Prop where
  current : k'.current = update k.current c (some next)
  prev : k'.prevTask = update k.prevTask c (if k.current c ≠ some next then k.current c else none)
  frame : k'.live = k.live ∧ k'.taskList = k.taskList ∧ k'.sems = k.sems ∧ k'.nlink = k.nlink
  other : ∀ t, k.current c ≠ some t →
    k'.tasks t = { k.tasks t with cpu := (k'.tasks t).cpu, onCpu := (k'.tasks t).onCpu }
  saved : ∀ t, k.current c = some t → k'.tasks t =
    { (k.tasks t).save ctx (k.ncli c) (k.intena c) (t = .idle c) with
      cpu := (k'.tasks t).cpu, onCpu := (k'.tasks t).onCpu }
  resumed : k.current c ≠ some next → rc = (k.tasks next).context
  resumedIdle : k.current c = some next → rc = ctx
  picked : next = .idle c ∨
    (k.tasks next).state = .runnable ∧ k.current c ≠ some next ∧ k.Listed next
  free : ∀ d, k.Refs d next → d = c

theorem Switched.field {ctx rc : Context} {next : TaskRef} (h : Switched k c ctx next k' rc) {β : Type*}
    (f : Task → β) (hcpu : ∀ x (cpu : Int) (on : Bool), f { x with cpu := cpu, onCpu := on } = f x)
    (hsave : ∀ x ctx ncli intena idle, f (Task.save x ctx ncli intena idle) = f x) (t : TaskRef) :
    f (k'.tasks t) = f (k.tasks t) := by
  by_cases ht : k.current c = some t
  · rw [h.saved t ht, hcpu, hsave]
  · rw [h.other t ht, hcpu]

theorem Switched.state {ctx rc : Context} {next : TaskRef} (h : Switched k c ctx next k' rc) (t : TaskRef) :
    (k'.tasks t).state = (k.tasks t).state ∨
      k.current c = some t ∧ (k'.tasks t).state = .runnable ∧
        (k.tasks t).state ≠ .blocked ∧ (k.tasks t).state ≠ .dead := by
  by_cases ht : k.current c = some t
  · rw [h.saved t ht]
    simp only [Task.save]
    split
    · next hc => exact Or.inr ⟨ht, rfl, hc.2⟩
    · exact Or.inl rfl
  · rw [h.other t ht]
    exact Or.inl rfl

theorem Switched.blocked_iff {ctx rc : Context} {next : TaskRef} (h : Switched k c ctx next k' rc)
    (t : TaskRef) : (k'.tasks t).state = .blocked ↔ (k.tasks t).state = .blocked := by
  rcases h.state t with h1 | ⟨-, h1, h2, -⟩
  · rw [h1]
  · rw [h1]
    exact ⟨fun h3 => (by cases h3), fun h3 => absurd h3 h2⟩

theorem releasePrev_frame (h : releasePrev k c = .ok k') :
    k'.current = k.current ∧ (∀ d, d ≠ c → k'.prevTask d = k.prevTask d) ∧
      k'.live = k.live ∧ k'.taskList = k.taskList ∧ k'.sems = k.sems ∧ k'.nlink = k.nlink ∧
      k'.ncli = k.ncli ∧ k'.intena = k.intena ∧
      ∀ t, k'.tasks t = { k.tasks t with onCpu := (k'.tasks t).onCpu } := by
  rcases releasePrev_ok h with ⟨rfl, -⟩ | ⟨q, hq, hc, hl, rfl⟩
  · exact ⟨rfl, fun _ _ => rfl, rfl, rfl, rfl, rfl, rfl, rfl, fun _ => rfl⟩
  · refine ⟨rfl, fun d hd => update_of_ne hd .., rfl, rfl, rfl, rfl, rfl, rfl, ?_⟩
    intro t
    by_cases ht : t = q
    · subst ht; simp only [set_tasks_self]
    · simp only [set_tasks_ne ht]

theorem saveCurrent_frame {ctx : Context} (h : saveCurrent k c ctx = .ok k') :
    k'.current = k.current ∧ k'.prevTask = k.prevTask ∧
      k'.live = k.live ∧ k'.taskList = k.taskList ∧ k'.sems = k.sems ∧ k'.nlink = k.nlink ∧
      k'.ncli = k.ncli ∧ k'.intena = k.intena ∧
      (∀ t, k.current c ≠ some t → k'.tasks t = k.tasks t) ∧
      ∀ t, k.current c = some t →
        k'.tasks t = (k.tasks t).save ctx (k.ncli c) (k.intena c) (t = .idle c) := by
  rcases saveCurrent_ok h with ⟨rfl, hc⟩ | ⟨q, hq, hl, rfl⟩
  · refine ⟨rfl, rfl, rfl, rfl, rfl, rfl, rfl, rfl, fun _ _ => rfl, ?_⟩
    intro t ht
    rw [hc] at ht; cases ht
  · refine ⟨rfl, rfl, rfl, rfl, rfl, rfl, rfl, rfl, ?_, ?_⟩
    · intro t ht
      apply set_tasks_ne
      rintro rfl
      exact ht hq
    · intro t ht
      rw [hq] at ht; cases ht
      exact set_tasks_self

/-- Neither the pick nor the fallback is in use elsewhere. -/
theorem CpuRel.pick {owner : Nat → Option TaskRef} (hk : CpuRel owner k) {after pick : Option TaskRef}
    (hp : pickNext k after = .ok pick) {next : TaskRef} (hn : pick.getD (.idle c) = next) :
    (next = .idle c ∨ eligible (k.tasks next) = true ∧ k.Listed next ∧ ∀ d, ¬k.Refs d next) ∧
      (∀ d, k.Refs d next → d = c) ∧ ∀ d, next = .idle d → d = c := by
  cases pick with
  | none =>
    cases hn
    refine ⟨Or.inl rfl, fun d hd => hk.idle hd, fun d hd => ?_⟩
    cases hd
    rfl
  | some t =>
    cases hn
    obtain ⟨hlive, helig, hlisted⟩ := pickNext_some hp
    have hoff : ∀ d, ¬k.Refs d t := by
      intro d hd
      have hon := (hk.onCpu t hlive).mpr ⟨d, hd⟩
      simp [eligible, hon] at helig
    refine ⟨Or.inr ⟨helig, hlisted, hoff⟩, fun d hd => absurd hd (hoff d), fun d hd => ?_⟩
    subst hd
    exact absurd hlisted (hk.listed d)

theorem kmtSchedule_ok {ctx rc : Context} (hk : CpuInv k) (h : kmtSchedule k c ctx = .ok (k', rc)) :
    CpuInv k' ∧ ∃ next, Switched k c ctx next k' rc := by
  obtain ⟨k1, h1, h⟩ := bind_ok h
  obtain ⟨k2, h2, h⟩ := bind_ok h
  obtain ⟨pick, hp, h⟩ := bind_ok h
  obtain ⟨c1, p1, l1, tl1, s1, n1, nc1, ie1, t1⟩ := releasePrev_frame h1
  obtain ⟨c2, p2, l2, tl2, s2, n2, nc2, ie2, o2, sv2⟩ := saveCurrent_frame h2
  obtain ⟨hk1, hp1⟩ := hk.releasePrev h1
  rw [← c1] at hk1
  obtain ⟨hk2, -, -⟩ := hk1.saveCurrent h2
  rw [← c2] at hk2
  obtain ⟨hnext, hfree, hidle⟩ := hk2.pick hp rfl
  generalize pick.getD (.idle c) = next at h hnext hfree hidle
  refine ⟨hk2.switchTo (by rw [p2, hp1]) hfree hidle h, next, ?_⟩
  obtain ⟨hl, hrc, rfl⟩ := switchTo_ok h
  have hcur : k2.current = k.current := c2.trans c1
  have htask : ∀ t, k.current c ≠ some t → k2.tasks t = { k.tasks t with onCpu := (k2.tasks t).onCpu } := by
    intro t ht
    rw [← c1] at ht
    rw [o2 t ht]
    exact t1 t
  have hsave : ∀ t, k.current c = some t → k2.tasks t =
      { (k.tasks t).save ctx (k.ncli c) (k.intena c) (t = .idle c) with onCpu := (k2.tasks t).onCpu } := by
    intro t ht
    rw [← c1] at ht
    rw [sv2 t ht, t1 t, nc1, ie1]
    rfl
  constructor
  case current => rw [← hcur]
  case prev =>
    funext d
    by_cases hd : d = c
    · subst hd; simp only [update_self, hcur]
    · simp only [update_of_ne hd, p2, p1 d hd]
  case frame => exact ⟨l2.trans l1, tl2.trans tl1, s2.trans s1, n2.trans n1⟩
  case other =>
    intro t ht
    by_cases he : t = next
    · subst he
      simp only [set_tasks_self]
      rw [htask t ht]
    · simp only [set_tasks_ne he]
      rw [htask t ht]
  case saved =>
    intro t ht
    by_cases he : t = next
    · subst he
      simp only [set_tasks_self]
      rw [hsave t ht]
    · simp only [set_tasks_ne he]
      rw [hsave t ht]
  case resumed =>
    intro hn
    rw [hrc, htask next hn]
  case resumedIdle =>
    intro hn
    rw [hrc, hsave next hn]
    rfl
  case picked =>
    refine hnext.imp id ?_
    rintro ⟨h4, h5, h3⟩
    have hn : k.current c ≠ some next := fun hn => h3 c (Or.inl (by rw [hcur, hn]))
    simp only [eligible, Bool.decide_and, Bool.and_eq_true, decide_eq_true_eq] at h4
    rw [htask next hn] at h4
    refine ⟨h4.1, hn, ?_⟩
    rcases h5 with h5 | ⟨u, h5⟩
    · exact Or.inl (by rw [← tl1, ← tl2, h5])
    · refine Or.inr ⟨u, ?_⟩
      by_cases hu : k.current c = some u
      · rw [hsave u hu] at h5; exact h5
      · rw [htask u hu] at h5; exact h5
  case free =>
    intro d hd
    by_cases hdc : d = c
    · exact hdc
    · apply hfree d
      unfold Kmt.Refs at hd ⊢
      rw [hcur, p2, p1 d hdc]
      exact hd

end

/-! ## The list of tasks -/

section
variable {k k' : Kmt} {t : TaskRef}

theorem CpuInv.register (hk : CpuInv k) (ht : ∀ c, t ≠ .idle c) : CpuInv (kmtRegister k t) := by
  refine CpuRel.extend hk rfl rfl (fun _ h => h) ?_ ?_ ?_
  · intro u _
    exact ⟨set_field Task.onCpu (by rfl) u, set_field Task.cpu (by rfl) u⟩
  · intro u h hn; exact absurd h hn
  · rintro c (h | ⟨u, h⟩)
    · cases h; exact ht c rfl
    · by_cases he : u = t
      · subst he
        simp only [kmtRegister, set_tasks_self] at h
        exact hk.listed c (Or.inl h)
      · simp only [kmtRegister, set_tasks_ne he] at h
        exact hk.listed c (Or.inr ⟨u, h⟩)

theorem CpuInv.create (hk : CpuInv k) {ctx : Option Context} (ht : ∀ c, t ≠ .idle c) (hl : k.live t ≠ true)
    (hnext : ∀ c, (k.tasks t).schedNext ≠ some (.idle c)) (h : kmtCreate k t ctx = .ok k') : CpuInv k' := by
  unfold kmtCreate at h
  cases ctx with
  | none => cases h
  | some ctx =>
    cases h
    refine (hk.enter hl ?_ ?_ ?_).register ht
    · rfl
    · rfl
    · exact hnext

theorem kmtCreate_ok {ctx : Option Context} (h : kmtCreate k t ctx = .ok k') :
    (∀ u, u ≠ t → k'.tasks u = k.tasks u) ∧ k'.live = update k.live t true := by
  unfold kmtCreate at h
  cases ctx with
  | none => cases h
  | some ctx =>
    cases h
    refine ⟨fun u hu => ?_, rfl⟩
    simp only [kmtRegister, set_tasks_ne hu]

theorem unlinkLoop_ok : ∀ {n : Nat} {o : Option TaskRef}, unlinkLoop k t n o = .ok k' →
    k' = k ∨ k' = { k with taskList := (k.tasks t).schedNext } ∨
      ∃ q, k' = k.set q { k.tasks q with schedNext := (k.tasks t).schedNext }
  | 0, _, h => by cases h
  | n + 1, none, h => by
    unfold unlinkLoop at h
    cases hl : k.taskList with
    | none => rw [hl] at h; cases h; exact Or.inl rfl
    | some m =>
      simp only [hl] at h
      by_cases hm : m = t
      · rw [if_pos hm] at h
        obtain ⟨x, hx, h⟩ := bind_ok h
        obtain ⟨-, rfl⟩ := deref_ok.mp hx
        cases h
        exact Or.inr (Or.inl rfl)
      · rw [if_neg hm] at h
        exact unlinkLoop_ok h
  | n + 1, some q, h => by
    obtain ⟨x, hx, h⟩ := bind_ok h
    obtain ⟨-, rfl⟩ := deref_ok.mp hx
    cases hl : (k.tasks q).schedNext with
    | none => simp only [hl] at h; cases h; exact Or.inl rfl
    | some m =>
      simp only [hl] at h
      by_cases hm : m = t
      · rw [if_pos hm] at h
        obtain ⟨x, hx, h⟩ := bind_ok h
        obtain ⟨-, rfl⟩ := deref_ok.mp hx
        cases h
        exact Or.inr (Or.inr ⟨q, rfl⟩)
      · rw [if_neg hm] at h
        exact unlinkLoop_ok h

theorem CpuInv.teardown (hk : CpuInv k) (h : kmtTeardown k t = .ok k') : CpuInv k' := by
  rcases unlinkLoop_ok h with rfl | rfl | ⟨q, rfl⟩
  · exact hk
  · refine CpuRel.extend hk rfl rfl (fun _ h => h) (fun _ _ => ⟨rfl, rfl⟩) (fun _ h hn => absurd h hn) ?_
    rintro c (h | h)
    · exact hk.listed c (Or.inr ⟨t, h⟩)
    · exact hk.listed c (Or.inr h)
  · refine CpuRel.extend hk rfl rfl (fun _ h => h) ?_ (fun _ h hn => absurd h hn) ?_
    · intro u _
      exact ⟨set_field Task.onCpu (by rfl) u, set_field Task.cpu (by rfl) u⟩
    · rintro c (h | ⟨u, h⟩)
      · exact hk.listed c (Or.inl h)
      · by_cases he : u = q
        · subst he
          simp only [set_tasks_self] at h
          exact hk.listed c (Or.inr ⟨t, h⟩)
        · simp only [set_tasks_ne he] at h
          exact hk.listed c (Or.inr ⟨u, h⟩)

/-! ## Semaphores and the end of a thread -/

def Task.noSem (x : Task) : Task := { x with semNext := none, state := .unused }

structure SemStep (k k' : Kmt) : Prop where
  current : k'.current = k.current
  prevTask : k'.prevTask = k.prevTask
  live : k'.live = k.live
  taskList : k'.taskList = k.taskList
  tasks : ∀ t, (k'.tasks t).noSem = (k.tasks t).noSem

theorem SemStep.trans {k'' : Kmt} (h : SemStep k k') (h' : SemStep k' k'') : SemStep k k'' where
  current := h'.current.trans h.current
  prevTask := h'.prevTask.trans h.prevTask
  live := h'.live.trans h.live
  taskList := h'.taskList.trans h.taskList
  tasks := fun t => (h'.tasks t).trans (h.tasks t)

theorem SemStep.set {x : Task} (h : x.noSem = (k.tasks t).noSem) : SemStep k (k.set t x) :=
  ⟨rfl, rfl, rfl, rfl, set_field Task.noSem h⟩

theorem SemStep.field (h : SemStep k k') {β : Type*} (f : Task → β) (hf : ∀ x, f x.noSem = f x) (t : TaskRef) :
    f (k'.tasks t) = f (k.tasks t) := by
  rw [← hf (k'.tasks t), h.tasks, hf]

theorem SemStep.sameCpu (h : SemStep k k') : SameCpu k k' :=
  ⟨h.current, h.prevTask, h.live, h.taskList, h.field Task.onCpu fun _ => rfl, h.field Task.cpu fun _ => rfl,
    h.field Task.schedNext fun _ => rfl⟩

theorem semStep_taskExit {c : Nat} (h : taskExit k c = .ok k') : SemStep k k' := by
  unfold taskExit at h
  cases hc : k.current c with
  | none => rw [hc] at h; cases h
  | some t =>
    rw [hc] at h
    obtain ⟨x, hx, h⟩ := bind_ok h
    obtain ⟨-, rfl⟩ := deref_ok.mp hx
    cases h
    exact SemStep.set rfl

theorem semStep_setSem (k : Kmt) (s : Nat) (x : Semaphore) : SemStep k (k.setSem s x) :=
  ⟨rfl, rfl, rfl, rfl, fun _ => rfl⟩

theorem semStep_enqueueWaiter {s : Nat} (h : enqueueWaiter k s t = .ok k') : SemStep k k' := by
  obtain ⟨x, hx, h⟩ := bind_ok h
  obtain ⟨-, rfl⟩ := deref_ok.mp hx
  have h1 : SemStep k (k.set t { k.tasks t with semNext := none }) := SemStep.set rfl
  dsimp only at h
  generalize k.set t { k.tasks t with semNext := none } = k1 at h h1
  cases hw : (k1.sems s).waiters with
  | none =>
    simp only [hw] at h
    cases h
    exact h1.trans (semStep_setSem ..)
  | some w =>
    simp only [hw] at h
    obtain ⟨u, -, h⟩ := bind_ok h
    cases h
    exact h1.trans (SemStep.set rfl)

theorem semStep_semWait {c s : Nat} {b : Bool} (h : kmtSemWait k c s = .ok (k', b)) : SemStep k k' := by
  obtain ⟨v, -, h⟩ := bind_ok h
  have h1 := semStep_setSem k s { k.sems s with value := v }
  dsimp only at h
  by_cases hv : 0 ≤ v
  · rw [if_pos hv] at h; cases h; exact h1
  · rw [if_neg hv] at h
    cases hc : (k.setSem s { k.sems s with value := v }).current c with
    | none => rw [hc] at h; cases h
    | some self =>
      rw [hc] at h
      obtain ⟨k1, h2, h⟩ := bind_ok h
      cases h
      exact (h1.trans (semStep_enqueueWaiter h2)).trans (SemStep.set rfl)

theorem semStep_semSignal {s : Nat} (h : kmtSemSignal k s = .ok k') : SemStep k k' := by
  obtain ⟨v, -, h⟩ := bind_ok h
  have h1 := semStep_setSem k s { k.sems s with value := v }
  dsimp only at h
  generalize k.setSem s { k.sems s with value := v } = k1 at h h1
  cases hw : (k1.sems s).waiters with
  | none => simp only [hw] at h; cases h; exact h1
  | some w =>
    simp only [hw] at h
    by_cases hv : 0 < v
    · rw [if_pos hv] at h; cases h; exact h1
    · rw [if_neg hv] at h
      obtain ⟨x, hx, h⟩ := bind_ok h
      obtain ⟨-, rfl⟩ := deref_ok.mp hx
      cases h
      exact (h1.trans (semStep_setSem ..)).trans (SemStep.set rfl)

end

end NjuOs
