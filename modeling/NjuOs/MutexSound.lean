import NjuOs.SpinSound

/-!
# The spinlock excludes

Workers that take one lock around a load and a store, wherever they are preempted. The
counters of `push_off` may be those of another CPU here, which `SpinInv` excludes: without
nesting the flag is off from `iset(false)` to the end of `kmt_spin_unlock` all the same.
-/

namespace NjuOs

open Function Option

/-! ## A lock and its threads -/

@[simp] def SpinThread.owns (x : SpinThread) : Prop :=
  match x.pc with
  | .out | .checkOwner _ | .clearCpu _ => x.held ≠ []
  | _ => False

theorem SpinThread.owns.held {x : SpinThread} (h : x.owns) : x.held ≠ [] := by
  rcases x with ⟨pc, held, b⟩
  cases pc <;> first | exact h | exact h.elim

structure LockInv (lk : Spinlock) (current : Nat → Option TaskRef) (x : TaskRef → SpinThread) : Prop where
  locked : ∀ t, (x t).held ≠ [] → lk.locked = true
  one : ∀ {t u}, (x t).held ≠ [] → (x u).held ≠ [] → t = u
  owner : ∀ c, lk.cpu = some c → ∃ t, current c = some t ∧ (x t).owns
  owned : ∀ t, (x t).owns → ∃ c, current c = some t ∧ lk.cpu = some c

section
variable {lk : Spinlock} {current : Nat → Option TaskRef} {x : TaskRef → SpinThread} {t : TaskRef} {y : SpinThread}
variable {c : Nat}

theorem update_held (hheld : y.held = (x t).held) (u : TaskRef) :
    (update x t y u).held = (x u).held := by
  by_cases hu : u = t
  · rw [hu, update_self, hheld]
  · rw [update_of_ne hu]

theorem LockInv.same (h : LockInv lk current x) (hheld : y.held = (x t).held) (howns : y.owns ↔ (x t).owns) :
    LockInv lk current (update x t y) := by
  have hh := update_held hheld
  have ho : ∀ u, (update x t y u).owns ↔ (x u).owns := by
    intro u
    by_cases hu : u = t
    · rw [hu, update_self, howns]
    · rw [update_of_ne hu]
  constructor
  case locked => intro u; rw [hh]; exact h.locked u
  case one => intro u v; rw [hh, hh]; exact h.one
  case owner =>
    intro c hc
    obtain ⟨u, hu, hown⟩ := h.owner c hc
    exact ⟨u, hu, (ho u).mpr hown⟩
  case owned => intro u; rw [ho]; exact h.owned u

theorem LockInv.acquire (h : LockInv lk current x) (hfree : lk.locked = false) (howns : ¬y.owns) :
    LockInv { lk with locked := true } current (update x t y) := by
  -- a lock that is free is held by nobody
  have hnone : ∀ u, (x u).held = [] := by
    intro u
    by_contra hu
    rw [h.locked u hu] at hfree
    cases hfree
  have heq : ∀ u, (update x t y u).held ≠ [] → u = t := by
    intro u hu
    by_contra hne
    rw [update_of_ne hne] at hu
    exact hu (hnone u)
  constructor
  case locked => exact fun _ _ => rfl
  case one => exact fun hu hv => (heq _ hu).trans (heq _ hv).symm
  case owner =>
    intro c hc
    obtain ⟨u, -, hown⟩ := h.owner c hc
    exact absurd (hnone u) hown.held
  case owned =>
    intro u hu
    rw [heq u hu.held, update_self] at hu
    exact absurd hu howns

theorem LockInv.setCpu (h : LockInv lk current x) (hc : current c = some t) (hx : (x t).held ≠ [])
    (hheld : y.held = (x t).held) (howns : y.owns) :
    LockInv { lk with cpu := some c } current (update x t y) := by
  have hh := update_held hheld
  constructor
  case locked => intro u; rw [hh]; exact h.locked u
  case one => intro u v; rw [hh, hh]; exact h.one
  case owner =>
    intro d hd
    cases hd
    refine ⟨t, hc, ?_⟩
    rw [update_self]
    exact howns
  case owned =>
    intro u hu
    have hne := hu.held
    rw [hh] at hne
    cases h.one hne hx
    exact ⟨c, hc, rfl⟩

theorem LockInv.clearCpu (h : LockInv lk current x) (hx : (x t).held ≠ []) (hheld : y.held = (x t).held)
    (howns : ¬y.owns) : LockInv { lk with cpu := none } current (update x t y) := by
  have hh := update_held hheld
  constructor
  case locked => intro u; rw [hh]; exact h.locked u
  case one => intro u v; rw [hh, hh]; exact h.one
  case owner => intro d hd; cases hd
  case owned =>
    intro u hu
    have hne := hu.held
    rw [hh] at hne
    cases h.one hne hx
    rw [update_self] at hu
    exact absurd hu howns

theorem LockInv.release (h : LockInv lk current x) (hx : (x t).held ≠ []) (hnot : ¬(x t).owns) (hy : y.held = []) :
    LockInv { lk with locked := false } current (update x t y) := by
  -- the holder was the only one
  have hnone : ∀ u, (update x t y u).held = [] := by
    intro u
    by_cases hu : u = t
    · rw [hu, update_self, hy]
    · rw [update_of_ne hu]
      by_contra hne
      exact hu (h.one hne hx)
  constructor
  case locked => exact fun u hu => absurd (hnone u) hu
  case one => exact fun hu => absurd (hnone _) hu
  case owner =>
    intro c hc
    obtain ⟨u, -, hown⟩ := h.owner c hc
    cases h.one hown.held hx
    exact absurd hown hnot
  case owned => exact fun u hu => absurd (hnone u) hu.held

theorem LockInv.switch {current' : Nat → Option TaskRef} (h : LockInv lk current x)
    (hcur : ∀ d, d ≠ c → current' d = current d) (hnot : ∀ t, current c = some t → ¬(x t).owns) :
    LockInv lk current' x := by
  constructor
  case locked => exact h.locked
  case one => exact h.one
  case owner =>
    intro d hd
    obtain ⟨t, ht, hown⟩ := h.owner d hd
    have hne : d ≠ c := by
      rintro rfl
      exact hnot t ht hown
    exact ⟨t, by rw [hcur d hne, ht], hown⟩
  case owned =>
    intro t hown
    obtain ⟨d, hd, hcpu⟩ := h.owned t hown
    have hne : d ≠ c := by
      rintro rfl
      exact hnot t hd hown
    exact ⟨d, by rw [hcur d hne, hd], hcpu⟩

end

/-! ## The workers -/

def Fits : SpinPc → List Nat → CountPc → Prop
  | .out, held, p => held = if p = .enter then [] else [counterLock]
  | .readCpu l, held, p | .readIe l _, held, p | .disable l _ _, held, p | .saveIe l _ _, held, p
  | .incNcli l _, held, p | .checkHeld l, held, p | .spin l, held, p => l = counterLock ∧ held = [] ∧ p = .load
  | .setCpu l, held, p => l = counterLock ∧ held = [counterLock] ∧ p = .load
  | .checkOwner l, held, p | .clearCpu l, held, p | .release l, held, p =>
    l = counterLock ∧ held = [counterLock] ∧ p = .enter
  | .popCpu, held, p | .decNcli _, held, p | .enable _, held, p => held = [] ∧ p = .enter

theorem fits_store {x : SpinThread} {v : Int} (h : Fits x.pc x.held (.store v)) : x.held ≠ [] := by
  rcases x with ⟨pc, held, b⟩
  cases pc
  case out =>
    rintro rfl
    cases (show [] = [counterLock] from h)
  all_goals exact absurd h (by simp [Fits])

theorem fits_held {x : SpinThread} {p : CountPc} (h : Fits x.pc x.held p) (hne : x.held ≠ []) :
    counterLock ∈ x.held := by
  rcases x with ⟨pc, held, b⟩
  cases pc
  case out =>
    dsimp only [Fits] at h
    split at h
    · exact absurd h hne
    · rw [h]
      exact List.mem_singleton_self _
  case setCpu | checkOwner | clearCpu | release =>
    rw [h.2.1]
    exact List.mem_singleton_self _
  case popCpu | decNcli | enable => exact absurd h.1 hne
  all_goals exact absurd h.2.1 hne

def Masked (_ncli _intena : Int) (ie : Bool) (_c : Nat) (x : SpinThread) : Prop :=
  x.pc.off = true ∨ x.held ≠ [] → ie = false

def Unheld (_mask : Bool) (x : SpinThread) : Prop := x.pc.off = false ∧ x.held = []

theorem masked_of_unheld {ncli intena : Int} {ie : Bool} {c : Nat} {x : SpinThread} (hoff : x.pc.off = false)
    (hheld : x.held = []) : Masked ncli intena ie c x := by
  rintro (hon | hne)
  · rw [hoff] at hon
    cases hon
  · exact absurd hheld hne

structure CountInv (s : CountSys) : Prop where
  placed : Placed Masked Unheld s.spin
  trap : ∀ c, (s.spin.thread (.trap c)).idle
  fits : ∀ t, Fits (s.spin.thread (.task t)).pc (s.spin.thread (.task t)).held (s.pc t)
  lock : LockInv (s.spin.locks counterLock) s.spin.k.current fun t => s.spin.thread (.task t)
  calm : s.spin.panicked = false
  count : s.sharedCounter = s.done
  loaded : ∀ t v, s.pc t = .store v → v = s.sharedCounter

theorem countInv_start : CountInv CountSys.start where
  placed := ⟨cpuInv_init, (by intro c a h; cases h), fun _ _ => ⟨rfl, rfl⟩⟩
  trap := fun _ => ⟨rfl, rfl⟩
  fits := fun _ => rfl
  lock := by
    have hnil : ∀ t, (CountSys.start.spin.thread (.task t)).held = [] := fun _ => rfl
    constructor
    case locked => exact fun t ht => absurd (hnil t) ht
    case one => exact fun ht => absurd (hnil _) ht
    case owner => intro c hc; cases hc
    case owned => exact fun t ht => absurd (hnil t) ht.held
  calm := rfl
  count := rfl
  loaded := by intro t v h; cases h

theorem setLock_locks (s : SpinSys) (l : Nat) (lk : Spinlock) : (s.setLock l lk).locks l = lk :=
  update_self ..

section
variable {s s' : CountSys} {spin : SpinSys} {c : Nat} {t : TaskRef} {p : CountPc} {y : SpinThread}

theorem update_task {f : Agent → SpinThread} :
    (fun u => update f (.task t) y (.task u)) = update (fun u => f (.task u)) t y :=
  update_comp_eq_of_injective f (fun _ _ h => Agent.task.inj h) t y

/-- A statement of the worker on CPU `c`. -/
theorem CountInv.local (hs : CountInv s) (ha : s.spin.agent c = some (.task t))
    (h : ThreadStep s.spin c (.task t) y spin) (hie : y.pc.off = true ∨ y.held ≠ [] → spin.ie c = false)
    (hfits : Fits y.pc y.held p)
    (hlock : LockInv (spin.locks counterLock) s.spin.k.current
      (update (fun u => s.spin.thread (.task u)) t y))
    (hcalm : spin.panicked = false) (hp : ∀ v, p = .store v → v = s.sharedCounter) :
    CountInv { s with spin := spin, pc := update s.pc t p } := by
  constructor
  case placed => exact hs.placed.local ha h (fun _ _ _ hy => hy) hie
  case trap =>
    intro d
    rw [h.thread, update_of_ne Agent.noConfusion]
    exact hs.trap d
  case fits =>
    intro u
    rw [h.thread]
    by_cases hu : u = t
    · subst hu
      simp only [update_self]
      exact hfits
    · have hne : Agent.task u ≠ .task t := fun he => hu (Agent.task.inj he)
      simp only [update_of_ne hu, update_of_ne hne]
      exact hs.fits u
  case lock =>
    rw [h.thread, h.sched.current, update_task]
    exact hlock
  case calm => exact hcalm
  case count => exact hs.count
  case loaded =>
    intro u v hu
    by_cases he : u = t
    · subst he
      simp only [update_self] at hu
      exact hp v hu
    · simp only [update_of_ne he] at hu
      exact hs.loaded u v hu

theorem CountInv.inCall (hs : CountInv s) (ha : s.spin.agent c = some (.task t))
    (h : ThreadStep s.spin c (.task t) y spin) (hie : y.pc.off = true ∨ y.held ≠ [] → spin.ie c = false)
    (hfits : Fits y.pc y.held (s.pc t))
    (hlock : LockInv (spin.locks counterLock) s.spin.k.current
      (update (fun u => s.spin.thread (.task u)) t y))
    (hcalm : spin.panicked = false) : CountInv { s with spin := spin } := by
  have hnew := hs.local ha h hie hfits hlock hcalm (hs.loaded t)
  rw [update_eq_self] at hnew
  exact hnew

theorem CountInv.keep {pc pc' : SpinPc} {held : List Nat} {b : Bool} (hs : CountInv s)
    (ha : s.spin.agent c = some (.task t)) (hx : s.spin.thread (.task t) = ⟨pc, held, b⟩)
    (h : ThreadStep s.spin c (.task t) ⟨pc', held, b⟩ spin) (hlocks : spin.locks = s.spin.locks)
    (hcalm : spin.panicked = s.spin.panicked) (hie : pc'.off = true ∨ held ≠ [] → spin.ie c = false)
    (hfits : Fits pc' held (s.pc t)) (howns : SpinThread.owns ⟨pc', held, b⟩ ↔ SpinThread.owns ⟨pc, held, b⟩) :
    CountInv { s with spin := spin } := by
  refine hs.inCall ha h hie hfits ?_ (hcalm.trans hs.calm)
  rw [hlocks]
  refine hs.lock.same ?_ ?_ <;> rw [hx]
  exact howns

theorem CountInv.stmt (hs : CountInv s) (ha : s.spin.agent c = some (.task t)) (h : Stmt s.spin c (.task t) spin) :
    CountInv { s with spin := spin } := by
  have hfits := hs.fits t
  have hmask : Masked (s.spin.k.ncli c) (s.spin.k.intena c) (s.spin.ie c) c (s.spin.thread (.task t)) :=
    hs.placed.agent ha
  have hcur := (agent_task.mp ha).2
  cases h with
  | readCpu h =>
    rw [h] at hfits hmask
    exact hs.keep ha h (threadStep _ _) rfl rfl hmask hfits Iff.rfl
  | readIe h =>
    rw [h] at hfits hmask
    exact hs.keep ha h (threadStep _ _) rfl rfl hmask hfits Iff.rfl
  | disable h =>
    rw [h] at hfits
    exact hs.keep ha h ((threadStep _ _).setIe _) rfl rfl (fun _ => update_self ..) hfits Iff.rfl
  | saveIe h =>
    rw [h] at hfits hmask
    exact hs.keep ha h ((threadStep _ _).setIntena _ _) rfl rfl hmask hfits Iff.rfl
  | keepIe h =>
    rw [h] at hfits hmask
    exact hs.keep ha h (threadStep _ _) rfl rfl hmask hfits Iff.rfl
  | incNcli h =>
    rw [h] at hfits hmask
    exact hs.keep ha h ((threadStep _ _).setNcli _ _) rfl rfl hmask hfits Iff.rfl
  | reacquire h hcpu =>
    -- the owner is the current task, and that is at `checkHeld`
    rw [h] at hfits
    obtain ⟨rfl, -, -⟩ := hfits
    obtain ⟨u, hu, hown⟩ := hs.lock.owner c hcpu
    rw [hcur] at hu
    cases hu
    rw [h] at hown
    exact hown.elim
  | checkHeld h =>
    rw [h] at hfits hmask
    exact hs.keep ha h (threadStep _ _) rfl rfl hmask hfits Iff.rfl
  | spin => exact hs
  | acquire h hl =>
    rw [h] at hfits hmask
    obtain ⟨rfl, rfl, hp⟩ := hfits
    refine hs.inCall ha (threadStep _ _) (fun _ => hmask (Or.inl rfl)) ⟨rfl, rfl, hp⟩ ?_ hs.calm
    rw [setLock_locks]
    exact hs.lock.acquire hl id
  | setCpu h =>
    rw [h] at hfits hmask
    obtain ⟨rfl, rfl, hp⟩ := hfits
    refine hs.inCall ha (threadStep _ _) (fun _ => hmask (Or.inl rfl)) ?_ ?_ hs.calm
    · rw [hp]
      rfl
    · rw [setLock_locks]
      refine hs.lock.setCpu hcur ?_ ?_ ?_ <;> simp [h]
  | notHeld h hcpu =>
    rw [h] at hfits
    obtain ⟨rfl, rfl, -⟩ := hfits
    have hown : (s.spin.thread (.task t)).owns := by simp [h]
    obtain ⟨d, hd, hlk⟩ := hs.lock.owned t hown
    rw [hs.placed.cpuInv.unique (Or.inl hd) (Or.inl hcur)] at hlk
    exact absurd hlk hcpu
  | checkOwner h =>
    rw [h] at hfits hmask
    exact hs.keep ha h (threadStep _ _) rfl rfl hmask hfits Iff.rfl
  | clearCpu h =>
    rw [h] at hfits hmask
    obtain ⟨rfl, rfl, hp⟩ := hfits
    refine hs.inCall ha (threadStep _ _) hmask ⟨rfl, rfl, hp⟩ ?_ hs.calm
    rw [setLock_locks]
    refine hs.lock.clearCpu ?_ ?_ ?_ <;> simp [h]
  | release h =>
    rw [h] at hfits hmask
    obtain ⟨rfl, rfl, hp⟩ := hfits
    refine hs.inCall ha (threadStep _ _) (fun _ => hmask (Or.inl rfl)) ⟨rfl, hp⟩ ?_ hs.calm
    rw [setLock_locks]
    refine hs.lock.release ?_ ?_ ?_ <;> simp [h]
  | popCpu h =>
    rw [h] at hfits hmask
    exact hs.keep ha h (threadStep _ _) rfl rfl hmask hfits Iff.rfl
  | decNcli h =>
    rw [h] at hfits hmask
    exact hs.keep ha h ((threadStep _ _).setNcli _ _) rfl rfl hmask hfits Iff.rfl
  | clampNcli h =>
    rw [h] at hfits hmask
    exact hs.keep ha h (threadStep _ _) rfl rfl hmask hfits Iff.rfl
  | enable h =>
    rw [h] at hfits
    obtain ⟨rfl, hp⟩ := hfits
    refine hs.keep ha h ((threadStep _ _).setIe _) rfl rfl ?_ ?_ ?_
    · simp
    · rw [hp]
      rfl
    · simp
  | keepOff h =>
    rw [h] at hfits
    obtain ⟨rfl, hp⟩ := hfits
    refine hs.keep ha h (threadStep _ _) rfl rfl ?_ ?_ ?_
    · simp
    · rw [hp]
      rfl
    · simp

/-! ## Traps and switches -/

theorem CountInv.elsewhere (hs : CountInv s) (hplaced : Placed Masked Unheld spin)
    (htrap : ∀ c, (spin.thread (.trap c)).idle) (hthread : ∀ t, spin.thread (.task t) = s.spin.thread (.task t))
    (hlock : LockInv (spin.locks counterLock) spin.k.current fun t => s.spin.thread (.task t))
    (hcalm : spin.panicked = false) : CountInv { s with spin := spin } where
  placed := hplaced
  trap := htrap
  fits := by
    intro t
    rw [hthread]
    exact hs.fits t
  lock := by
    simp only [hthread]
    exact hlock
  calm := hcalm
  count := hs.count
  loaded := hs.loaded

theorem CountInv.trapped (hs : CountInv s) (hrun : s.spin.inTrap c = false)
    (hpark : ∀ t, s.spin.k.current c = some t → Unheld (s.spin.ie c) (s.spin.thread (.task t))) :
    CountInv { s with spin := s.spin.trapped c } := by
  refine hs.elsewhere (hs.placed.trapped hrun hpark ?_) ?_ ?_ hs.lock hs.calm
  · exact masked_of_unheld rfl rfl
  · intro d
    by_cases hd : Agent.trap d = .trap c
    · have hx : (s.spin.trapped c).thread (.trap d) = ⟨.out, [], false⟩ := by
        rw [hd]
        exact update_self ..
      rw [hx]
      exact ⟨rfl, rfl⟩
    · have hx : (s.spin.trapped c).thread (.trap d) = s.spin.thread (.trap d) := update_of_ne hd ..
      rw [hx]
      exact hs.trap d
  · intro t
    have hne : Agent.task t ≠ .trap c := Agent.noConfusion
    have hx : (s.spin.trapped c).thread (.task t) = s.spin.thread (.task t) := by
      simp only [SpinSys.trapped, update_of_ne hne]
    exact hx

theorem CountInv.sched {k : Kmt} {ctx rc : Context} (hs : CountInv s) (htrap : s.spin.inTrap c = true)
    (h : kmtSchedule s.spin.k c ctx = .ok (k, rc)) : CountInv { s with spin := { s.spin with k := k } } := by
  have hidle := hs.trap c
  obtain ⟨-, next, hsw⟩ := kmtSchedule_ok hs.placed.cpuInv h
  refine hs.elsewhere (hs.placed.sched htrap h ?_) hs.trap (fun _ => rfl) ?_ hs.calm
  · refine masked_of_unheld ?_ hidle.2
    rw [hidle.1]
    rfl
  · refine hs.lock.switch (c := c) ?_ ?_
    · intro d hd
      rw [hsw.current, update_of_ne hd]
    · intro t ht hown
      exact hown.held (hs.placed.of_trap htrap ht).2

theorem CountInv.create {k : Kmt} {i : Nat} {ctx : Context} (hs : CountInv s)
    (hl : s.spin.k.live (.kernel i) ≠ true) (h : kmtCreate s.spin.k (.kernel i) (some ctx) = .ok k) :
    CountInv { s with spin := s.spin.created i k, pc := update s.pc (.kernel i) .enter } := by
  have hplaced := hs.placed.create hl h ⟨rfl, rfl⟩
  -- no task of that name was on a CPU, let alone held the lock
  have hold := hs.placed.parked (.kernel i) fun c hc => hl (hs.placed.cpuInv.live (Or.inl (agent_task.mp hc).2))
  have hcur : k.current = s.spin.k.current := by
    cases h
    rfl
  constructor
  case placed => exact hplaced
  case trap => exact hs.trap
  case fits =>
    intro t
    by_cases ht : t = .kernel i
    · subst ht
      simp [SpinSys.created, Fits]
    · have hne : Agent.task t ≠ .task (.kernel i) := fun he => ht (Agent.task.inj he)
      simp only [SpinSys.created, update_of_ne ht, update_of_ne hne]
      exact hs.fits t
  case lock =>
    simp only [SpinSys.created, update_task, hcur]
    refine hs.lock.same hold.2.symm ?_
    simp only [SpinThread.owns, ne_eq, not_true_eq_false, false_iff]
    exact fun hown => SpinThread.owns.held hown hold.2
  case calm => exact hs.calm
  case count => exact hs.count
  case loaded =>
    intro t v ht
    by_cases he : t = .kernel i
    · subst he
      simp only [update_self] at ht
      cases ht
    · simp only [update_of_ne he] at ht
      exact hs.loaded t v ht

theorem CountInv.moved {act : SpinAct} (hs : CountInv s) (h : Moved s.spin act spin)
    (hcall : ∀ c l, act ≠ .lock c l ∧ act ≠ .unlock c l) (hcreate : ∀ i ctx, act ≠ .create i ctx) :
    CountInv { s with spin := spin } := by
  cases h with
  | create => exact absurd rfl (hcreate _ _)
  | lock => exact absurd rfl (hcall _ _).1
  | unlock => exact absurd rfl (hcall _ _).2
  | mark => exact hs.elsewhere hs.placed.mark hs.trap (fun _ => rfl) hs.lock hs.calm
  | @stmt c a _ ha h =>
    cases a with
    | task t => exact hs.stmt ha h
    | trap d =>
      -- the handlers are never in the lock's code
      have hidle := hs.trap d
      cases h <;> simp_all [SpinThread.idle]
  | timer hrun hie =>
    refine hs.trapped hrun fun t ht => ?_
    have hmask : Masked _ _ _ _ _ := hs.placed.agent (agent_task.mpr ⟨hrun, ht⟩)
    rw [hie] at hmask
    constructor
    · exact Bool.eq_false_iff.mpr fun hoff => Bool.noConfusion (hmask (Or.inl hoff))
    · by_contra hne
      exact Bool.noConfusion (hmask (Or.inr hne))
  | yield hrun hidle =>
    refine hs.trapped hrun fun t ht => ?_
    obtain ⟨hpc, hheld⟩ := hidle t ht
    unfold Unheld
    rw [hpc]
    exact ⟨rfl, hheld⟩
  | sched htrap _ h => exact hs.sched htrap h
  | iret htrap =>
    refine hs.elsewhere (hs.placed.iret htrap ?_) hs.trap (fun _ => rfl) hs.lock hs.calm
    exact fun t _ hp => masked_of_unheld hp.1 hp.2

/-! ## The worker's own statements -/

theorem CountInv.enter (hs : CountInv s) (ha : s.spin.agent c = some (.task t)) (hp : s.pc t = .enter)
    (h : Moved s.spin (.lock c counterLock) spin) :
    CountInv { s with spin := spin, pc := update s.pc t .load } := by
  have hfits := hs.fits t
  cases h with
  | lock ha' h =>
    rw [ha] at ha'
    cases ha'
    rw [h, hp] at hfits
    cases hfits
    refine hs.local ha (threadStep _ _) ?_ ⟨rfl, rfl, rfl⟩ ?_ hs.calm ?_
    · simp
    · refine hs.lock.same ?_ ?_ <;> simp [h]
    · intro v hv
      cases hv

theorem CountInv.body {n : Int} {m : Nat} (hs : CountInv s) (hpc : (s.spin.thread (.task t)).pc = .out)
    (hp : s.pc t ≠ .enter) (hp' : p ≠ .enter) (hn : n = m)
    (hload : ∀ u v, update s.pc t p u = .store v → v = n) :
    CountInv { s with pc := update s.pc t p, sharedCounter := n, done := m } where
  placed := hs.placed
  trap := hs.trap
  fits := by
    intro u
    by_cases hu : u = t
    · subst hu
      have hfits := hs.fits u
      rw [hpc] at hfits
      simp only [update_self, hpc]
      simp only [Fits, if_neg hp, if_neg hp'] at hfits ⊢
      exact hfits
    · simp only [update_of_ne hu]
      exact hs.fits u
  lock := hs.lock
  calm := hs.calm
  count := hn
  loaded := hload

theorem CountInv.load (hs : CountInv s) (hpc : (s.spin.thread (.task t)).pc = .out) (hp : s.pc t = .load) :
    CountInv { s with pc := update s.pc t (.store s.sharedCounter) } := by
  refine hs.body hpc ?_ CountPc.noConfusion hs.count ?_
  · rw [hp]
    exact CountPc.noConfusion
  · intro u v hu
    by_cases he : u = t
    · subst he
      rw [update_self] at hu
      cases hu
      rfl
    · rw [update_of_ne he] at hu
      exact hs.loaded u v hu

theorem CountInv.store {v : Int} (hs : CountInv s) (hpc : (s.spin.thread (.task t)).pc = .out)
    (hp : s.pc t = .store v) :
    CountInv { s with pc := update s.pc t .leave, sharedCounter := v + 1, done := s.done + 1 } := by
  have hheld : ∀ u w, s.pc u = .store w → (s.spin.thread (.task u)).held ≠ [] := by
    intro u w hu
    have hfits := hs.fits u
    rw [hu] at hfits
    exact fits_store hfits
  refine hs.body hpc ?_ CountPc.noConfusion ?_ ?_
  · rw [hp]
    exact CountPc.noConfusion
  · -- what was loaded is still the counter: the others are outside the lock
    rw [hs.loaded t v hp, hs.count]
    rfl
  · intro u w hu
    by_cases he : u = t
    · subst he
      rw [update_self] at hu
      cases hu
    · rw [update_of_ne he] at hu
      exact absurd (hs.lock.one (hheld u w hu) (hheld t v hp)) he

theorem CountInv.leave (hs : CountInv s) (ha : s.spin.agent c = some (.task t)) (hp : s.pc t = .leave)
    (h : Moved s.spin (.unlock c counterLock) spin) :
    CountInv { s with spin := spin, pc := update s.pc t .enter } := by
  have hfits := hs.fits t
  have hmask : Masked (s.spin.k.ncli c) (s.spin.k.intena c) (s.spin.ie c) c (s.spin.thread (.task t)) :=
    hs.placed.agent ha
  cases h with
  | unlock ha' h hl =>
    rw [ha] at ha'
    cases ha'
    rw [h] at hfits hmask
    rw [hp] at hfits
    cases hfits
    refine hs.local ha (threadStep _ _) ?_ ⟨rfl, rfl, rfl⟩ ?_ hs.calm ?_
    · exact fun _ => hmask (Or.inr (List.cons_ne_nil _ _))
    · refine hs.lock.same ?_ ?_ <;> simp [h]
    · intro v hv
      cases hv

theorem CountInv.work (hs : CountInv s) (ha : s.spin.agent c = some (.task t))
    (hpc : (s.spin.thread (.task t)).pc = .out) (h : s.work c t = some s') : CountInv s' := by
  unfold CountSys.work at h
  cases hp : s.pc t with
  | enter =>
    rw [hp] at h
    obtain ⟨spin, hspin, h⟩ := bind_eq_some_iff.mp h
    cases h
    exact hs.enter ha hp (step_moved hspin).2
  | load =>
    rw [hp] at h
    cases h
    exact hs.load hpc hp
  | store v =>
    rw [hp] at h
    dsimp only at h
    split at h
    · cases h
      exact hs.store hpc hp
    · cases h
  | leave =>
    rw [hp] at h
    obtain ⟨spin, hspin, h⟩ := bind_eq_some_iff.mp h
    cases h
    exact hs.leave ha hp (step_moved hspin).2

theorem CountInv.step {act : CountAct} (hs : CountInv s) (h : s.step act = some s') : CountInv s' := by
  unfold CountSys.step at h
  split at h
  · next c =>
    split at h
    · next i ha =>
      split at h
      · next hpc => exact hs.work ha hpc.2 h
      · cases h
    · cases h
  · cases h
  · cases h
  · obtain ⟨spin, hspin, h⟩ := bind_eq_some_iff.mp h
    cases h
    cases (step_moved hspin).2 with
    | create hl hk => exact hs.create hl hk
  · next act hlock hunlock hcreate =>
    obtain ⟨spin, hspin, h⟩ := bind_eq_some_iff.mp h
    cases h
    refine hs.moved (step_moved hspin).2 ?_ ?_
    · exact fun c l => ⟨hlock c l, hunlock c l⟩
    · exact hcreate

/-- A task that holds the lock is executing. -/
theorem CountInv.running (hs : CountInv s) (hheld : (s.spin.thread (.task t)).held ≠ []) :
    ∃ c, s.spin.agent c = some (.task t) := by
  by_contra hno
  exact hheld (hs.placed.parked t fun c hc => hno ⟨c, hc⟩).2

end

/-! ## Runs -/

/-- CPU `c` executes between a successful `raw_lock` and the matching `raw_unlock`. -/
def SpinSys.Inside (s : SpinSys) (l c : Nat) : Prop := ∃ a, s.agent c = some a ∧ l ∈ (s.thread a).held

instance (s : SpinSys) (l c : Nat) : Decidable (s.Inside l c) :=
  match h : s.agent c with
  | none => isFalse (by rintro ⟨a, ha, -⟩; rw [h] at ha; cases ha)
  | some a => decidable_of_iff (l ∈ (s.thread a).held)
    ⟨fun hl => ⟨a, h, hl⟩, by rintro ⟨b, hb, hl⟩; rw [h] at hb; cases hb; exact hl⟩

section
variable {s : CountSys} {as : List CountAct}

theorem CountInv.inside (hs : CountInv s) {c : Nat} :
    s.spin.Inside counterLock c ↔
      ∃ t, s.spin.agent c = some (.task t) ∧ (s.spin.thread (.task t)).held ≠ [] := by
  constructor
  · rintro ⟨a, ha, hl⟩
    cases a with
    | task t => exact ⟨t, ha, List.ne_nil_of_mem hl⟩
    | trap d => exact absurd (hs.trap d).2 (List.ne_nil_of_mem hl)
  · rintro ⟨t, ht, hne⟩
    exact ⟨_, ht, fits_held (hs.fits t) hne⟩

/-- Mutual exclusion: only an executing task is inside, on one CPU at most; `lk->cpu` names
no other CPU; no `panic_on` fires and no increment is lost. -/
theorem counter_exact (hr : run CountSys.step CountSys.start as = some s) :
    (∀ t, counterLock ∈ (s.spin.thread (.task t)).held → ∃ c, s.spin.agent c = some (.task t)) ∧
      (∀ c d, s.spin.Inside counterLock c → s.spin.Inside counterLock d → c = d) ∧
      (∀ c, (s.spin.locks counterLock).cpu = some c → s.spin.Inside counterLock c) ∧
      s.spin.panicked = false ∧ s.sharedCounter = s.done := by
  have hs : CountInv s := run_inv (fun _ _ _ hs h => hs.step h) as _ _ countInv_start hr
  refine ⟨?_, ?_, ?_, hs.calm, hs.count⟩
  · exact fun t hl => hs.running (List.ne_nil_of_mem hl)
  · intro c d hc hd
    obtain ⟨t, ht, hheld⟩ := hs.inside.mp hc
    obtain ⟨u, hu, hheld'⟩ := hs.inside.mp hd
    cases hs.lock.one hheld hheld'
    exact agent_unique hs.placed.cpuInv ht hu
  · intro c hc
    obtain ⟨t, ht, hown⟩ := hs.lock.owner c hc
    obtain ⟨d, hd⟩ := hs.running hown.held
    rw [hs.placed.cpuInv.unique (Or.inl ht) (Or.inl (agent_task.mp hd).2)]
    exact hs.inside.mpr ⟨t, hd, hown.held⟩

def contendedActs : List CountAct :=
  [(createActs 2).map .sys, (switchActs (.yield 0) 0).map .sys, (switchActs (.yield 1) 1).map .sys,
    [.work 0, .work 1], List.replicate 8 (.sys (.stmt 0)), List.replicate 7 (.sys (.stmt 1)),
    List.replicate 3 (.work 0), List.replicate 6 (.sys (.stmt 0)), List.replicate 2 (.sys (.stmt 1)),
    List.replicate 2 (.work 1)].flatten

theorem counter_exact_contended : ∃ s, run CountSys.step CountSys.start contendedActs = some s ∧
    s.spin.Inside counterLock 1 ∧ ¬s.spin.Inside counterLock 0 ∧ s.done = 2 ∧ s.sharedCounter = 2 := by
  have hrun : ((run CountSys.step CountSys.start contendedActs).any fun s =>
      s.spin.Inside counterLock 1 ∧ s.done = 2) = true := by decide +kernel
  obtain ⟨s, hs, h⟩ := (any_eq_true _ _).mp hrun
  obtain ⟨hin, hdone⟩ := of_decide_eq_true h
  obtain ⟨-, hone, -, -, hcount⟩ := counter_exact hs
  refine ⟨s, hs, hin, ?_, hdone, ?_⟩
  · intro h0
    cases hone 0 1 h0 hin
  · rw [hcount, hdone]
    rfl

end

end NjuOs
