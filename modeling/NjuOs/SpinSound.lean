import NjuOs.KmtSound
import NjuOs.Spin

/-!
# Interrupts and spinlocks

`ncli` counts the locks of whoever executes on the CPU and `intena` remembers the flag it
came with. The one way to break this is a switch between the two statements of `push_off`
that read the CPU number and disable interrupts: the task then counts on the CPU it has left.
-/

namespace NjuOs

open Option

open Function (update update_self update_of_ne)

theorem kmtSchedule_counters {k k' : Kmt} {c : Nat} {ctx rc : Context} (h : kmtSchedule k c ctx = .ok (k', rc)) :
    ∃ next, k'.current c = some next ∧ k'.ncli = update k.ncli c (k'.tasks next).savedNcli ∧
      k'.intena = update k.intena c (k'.tasks next).savedIntena := by
  obtain ⟨k1, h1, h⟩ := bind_ok h
  obtain ⟨k2, h2, h⟩ := bind_ok h
  obtain ⟨pick, -, h⟩ := bind_ok h
  obtain ⟨-, -, -, -, -, -, nc1, ie1, -⟩ := releasePrev_frame h1
  obtain ⟨-, -, -, -, -, -, nc2, ie2, -, -⟩ := saveCurrent_frame h2
  obtain ⟨-, -, rfl⟩ := switchTo_ok h
  refine ⟨_, update_self .., ?_, ?_⟩
  · rw [← nc1, ← nc2]
    simp
  · rw [← ie1, ← ie2]
    simp

/-! ## Who executes where -/

section
variable {s s' : SpinSys} {a b : Agent} {c d : Nat} {t : TaskRef}

theorem agent_trap (h : s.inTrap c = true) : s.agent c = some (.trap c) := if_pos h

theorem agent_run (h : s.inTrap c = false) : s.agent c = (s.k.current c).map .task := by
  unfold SpinSys.agent
  rw [h]
  rfl

theorem agent_task : s.agent c = some (.task t) ↔ s.inTrap c = false ∧ s.k.current c = some t := by
  cases h : s.inTrap c with
  | true => simp [agent_trap h]
  | false => simp [agent_run h]

theorem agent_unique (hk : CpuInv s.k) (hc : s.agent c = some a) (hd : s.agent d = some a) : c = d := by
  cases a with
  | task t => exact hk.unique (Or.inl (agent_task.mp hc).2) (Or.inl (agent_task.mp hd).2)
  | trap e =>
    have htrap : ∀ {x}, s.agent x = some (.trap e) → x = e := by
      intro x hx
      cases h : s.inTrap x with
      | true => simpa [agent_trap h] using hx
      | false => simp [agent_run h] at hx
    rw [htrap hc, htrap hd]

theorem agent_ne_trap (h : s.agent d = some a) (hd : d ≠ c) : a ≠ .trap c := by
  rintro rfl
  cases htrap : s.inTrap d with
  | true =>
    rw [agent_trap htrap] at h
    cases h
    exact hd rfl
  | false => simp [agent_run htrap] at h

end

/-! ## Running and parked threads -/

/-- `A` holds of every agent with the counters and the flag of its CPU, `P` of every task
that does not execute, with the flag in its context. -/
structure Placed (A : Int → Int → Bool → Nat → SpinThread → Prop) (P : Bool → SpinThread → Prop) (s : SpinSys) :
    Prop where
  cpuInv : CpuInv s.k
  agent : ∀ {c a}, s.agent c = some a → A (s.k.ncli c) (s.k.intena c) (s.ie c) c (s.thread a)
  parked : ∀ t, (∀ c, s.agent c ≠ some (.task t)) → P (s.mask t) (s.thread (.task t))

section
variable {A : Int → Int → Bool → Nat → SpinThread → Prop} {P : Bool → SpinThread → Prop}
variable {s s' : SpinSys} {a : Agent} {c : Nat} {x : SpinThread}

structure ThreadStep (s : SpinSys) (c : Nat) (a : Agent) (x : SpinThread) (s' : SpinSys) : Prop where
  thread : s'.thread = update s.thread a x
  inTrap : s'.inTrap = s.inTrap
  mask : s'.mask = s.mask
  tasks : s'.k.tasks = s.k.tasks
  sched : SameCpu s.k s'.k
  ie : ∀ d, d ≠ c → s'.ie d = s.ie d

theorem ThreadStep.agent (h : ThreadStep s c a x s') (d : Nat) : s'.agent d = s.agent d := by
  unfold SpinSys.agent
  rw [h.inTrap, h.sched.current]

theorem Placed.local (hs : Placed A P s) (ha : s.agent c = some a) (h : ThreadStep s c a x s')
    (hrest : ∀ d y, d ≠ c → A (s.k.ncli d) (s.k.intena d) (s.ie d) d y → A (s'.k.ncli d) (s'.k.intena d) (s.ie d) d y)
    (hok : A (s'.k.ncli c) (s'.k.intena c) (s'.ie c) c x) : Placed A P s' := by
  constructor
  case cpuInv => exact hs.cpuInv.congr h.sched
  case agent =>
    intro d b hb
    rw [h.agent] at hb
    by_cases hd : d = c
    · subst hd
      rw [ha] at hb
      cases hb
      rw [h.thread, update_self]
      exact hok
    · have hne : b ≠ a := by
        rintro rfl
        exact hd (agent_unique hs.cpuInv hb ha)
      rw [h.thread, update_of_ne hne, h.ie d hd]
      exact hrest d _ hd (hs.agent hb)
  case parked =>
    intro t ht
    simp only [h.agent] at ht
    have hne : Agent.task t ≠ a := by
      rintro rfl
      exact ht c ha
    rw [h.mask, h.thread, update_of_ne hne]
    exact hs.parked t ht

theorem Placed.of_trap (hs : Placed A P s) {t : TaskRef} (htrap : s.inTrap c = true) (ht : s.k.current c = some t) :
    P (s.mask t) (s.thread (.task t)) := by
  refine hs.parked t fun d hd => ?_
  -- a task is current on one CPU, and this one executes its handlers
  obtain ⟨hrun, hcur⟩ := agent_task.mp hd
  rw [hs.cpuInv.unique (Or.inl hcur) (Or.inl ht), htrap] at hrun
  cases hrun

theorem trapped_agent (s : SpinSys) (c d : Nat) :
    (s.trapped c).agent d = if d = c then some (.trap c) else s.agent d := by
  by_cases hd : d = c
  · subst hd
    rw [if_pos rfl]
    exact agent_trap (update_self ..)
  · rw [if_neg hd]
    unfold SpinSys.agent SpinSys.trapped
    simp only [update_of_ne hd]

theorem Placed.trapped (hs : Placed A P s) (hrun : s.inTrap c = false)
    (hpark : ∀ t, s.k.current c = some t → P (s.ie c) (s.thread (.task t)))
    (hok : A (s.k.ncli c) (s.k.intena c) false c ⟨.out, [], false⟩) : Placed A P (s.trapped c) := by
  have hthread : ∀ b, b ≠ .trap c → (s.trapped c).thread b = s.thread b := fun b hb => update_of_ne hb ..
  constructor
  case cpuInv => exact hs.cpuInv
  case agent =>
    intro d b hb
    rw [trapped_agent] at hb
    by_cases hd : d = c
    · subst hd
      rw [if_pos rfl] at hb
      cases hb
      have hx : (s.trapped d).thread (.trap d) = ⟨.out, [], false⟩ := update_self ..
      have hie : (s.trapped d).ie d = false := update_self ..
      rw [hx, hie]
      exact hok
    · rw [if_neg hd] at hb
      have hie : (s.trapped c).ie d = s.ie d := update_of_ne hd ..
      rw [hthread b (agent_ne_trap hb hd), hie]
      exact hs.agent hb
  case parked =>
    intro t ht
    rw [hthread _ Agent.noConfusion]
    by_cases hc : s.k.current c = some t
    · have hmask : (s.trapped c).mask t = s.ie c := by
        simp only [SpinSys.trapped, hc, update_self]
      rw [hmask]
      exact hpark t hc
    · have hmask : (s.trapped c).mask t = s.mask t := by
        unfold SpinSys.trapped
        cases hu : s.k.current c with
        | none => rfl
        | some u =>
          have hne : t ≠ u := by
            rintro rfl
            exact hc hu
          exact update_of_ne hne ..
      rw [hmask]
      refine hs.parked t fun d hd => ?_
      by_cases hdc : d = c
      · subst hdc
        exact hc (agent_task.mp hd).2
      · refine ht d ?_
        rw [trapped_agent, if_neg hdc, hd]

theorem sched_agent {k : Kmt} (htrap : s.inTrap c = true) (hcur : ∀ d, d ≠ c → k.current d = s.k.current d)
    (d : Nat) : SpinSys.agent { s with k := k } d = s.agent d := by
  by_cases hd : d = c
  · subst hd
    rw [agent_trap htrap]
    exact agent_trap htrap
  · unfold SpinSys.agent
    rw [hcur d hd]

theorem Placed.sched {k : Kmt} {ctx rc : Context} (hs : Placed A P s) (htrap : s.inTrap c = true)
    (h : kmtSchedule s.k c ctx = .ok (k, rc))
    (hok : A (k.ncli c) (k.intena c) (s.ie c) c (s.thread (.trap c))) : Placed A P { s with k := k } := by
  obtain ⟨hinv, next, hsw⟩ := kmtSchedule_ok hs.cpuInv h
  obtain ⟨_, -, hncli, hintena⟩ := kmtSchedule_counters h
  have hagent : ∀ d, SpinSys.agent { s with k := k } d = s.agent d := by
    refine sched_agent htrap fun d hd => ?_
    rw [hsw.current, update_of_ne hd]
  constructor
  case cpuInv => exact hinv
  case agent =>
    intro d b hb
    rw [hagent] at hb
    by_cases hd : d = c
    · subst hd
      rw [agent_trap htrap] at hb
      cases hb
      exact hok
    · have hn : k.ncli d = s.k.ncli d := by rw [hncli, update_of_ne hd]
      have hi : k.intena d = s.k.intena d := by rw [hintena, update_of_ne hd]
      simp only [hn, hi]
      exact hs.agent hb
  case parked =>
    intro t ht
    simp only [hagent] at ht
    exact hs.parked t ht

theorem iret_agent (s : SpinSys) (c d : Nat) :
    (s.iret c).agent d = if d = c then (s.k.current c).map .task else s.agent d := by
  by_cases hd : d = c
  · subst hd
    rw [if_pos rfl]
    exact agent_run (update_self ..)
  · rw [if_neg hd]
    unfold SpinSys.agent SpinSys.iret
    simp only [update_of_ne hd]

theorem Placed.iret (hs : Placed A P s) (htrap : s.inTrap c = true)
    (hres : ∀ t, s.k.current c = some t → P (s.mask t) (s.thread (.task t)) →
      A (s.k.ncli c) (s.k.intena c) (s.mask t) c (s.thread (.task t))) : Placed A P (s.iret c) := by
  constructor
  case cpuInv => exact hs.cpuInv
  case agent =>
    intro d b hb
    rw [iret_agent] at hb
    by_cases hd : d = c
    · subst hd
      rw [if_pos rfl] at hb
      obtain ⟨t, ht, rfl⟩ := map_eq_some_iff.mp hb
      have hie : (s.iret d).ie d = s.mask t := by simp only [SpinSys.iret, ht, update_self]
      rw [hie]
      exact hres t ht (hs.of_trap htrap ht)
    · rw [if_neg hd] at hb
      have hie : (s.iret c).ie d = s.ie d := update_of_ne hd ..
      rw [hie]
      exact hs.agent hb
  case parked =>
    intro t ht
    refine hs.parked t fun d hd => ?_
    by_cases hdc : d = c
    · rw [hdc, agent_trap htrap] at hd
      cases hd
    · refine ht d ?_
      rw [iret_agent, if_neg hdc, hd]

theorem Placed.create {k : Kmt} {i : Nat} {ctx : Context} (hs : Placed A P s) (hl : s.k.live (.kernel i) ≠ true)
    (h : kmtCreate s.k (.kernel i) (some ctx) = .ok k) (hnew : P true ⟨.out, [], true⟩) :
    Placed A P (s.created i k) := by
  have hinv : CpuInv k := by
    refine hs.cpuInv.create (fun _ => TaskRef.noConfusion) hl ?_ h
    exact fun c hnext => hs.cpuInv.listed c (Or.inr ⟨_, hnext⟩)
  cases h
  constructor
  case cpuInv => exact hinv
  case agent =>
    intro d b hb
    have hb : s.agent d = some b := hb
    have hne : b ≠ .task (.kernel i) := by
      rintro rfl
      exact hl (hs.cpuInv.live (Or.inl (agent_task.mp hb).2))
    simp only [SpinSys.created, update_of_ne hne]
    exact hs.agent hb
  case parked =>
    intro t ht
    by_cases he : t = .kernel i
    · subst he
      simp only [SpinSys.created, update_self]
      exact hnew
    · have hne : Agent.task t ≠ .task (.kernel i) := by
        intro heq
        cases heq
        exact he rfl
      simp only [SpinSys.created, update_of_ne he, update_of_ne hne]
      exact hs.parked t ht

theorem Placed.mark {t : TaskRef} {st : TaskState} (hs : Placed A P s) :
    Placed A P { s with k := s.k.set t { s.k.tasks t with state := st } } :=
  ⟨hs.cpuInv.congr (SameCpu.set rfl rfl rfl), hs.agent, hs.parked⟩

theorem Placed.panic (hs : Placed A P s) : Placed A P { s with panicked := true } :=
  ⟨hs.cpuInv, hs.agent, hs.parked⟩

/-! ## Steps -/

theorem sameCpu_counters (k : Kmt) (ncli intena : Nat → Int) :
    SameCpu k { k with ncli := ncli, intena := intena } :=
  ⟨rfl, rfl, rfl, rfl, fun _ => rfl, fun _ => rfl, fun _ => rfl⟩

theorem threadStep (locks : Nat → Spinlock) (panicked : Bool) :
    ThreadStep s c a x { s.setThread a x with locks := locks, panicked := panicked } :=
  ⟨rfl, rfl, rfl, rfl, SameCpu.refl _, fun _ _ => rfl⟩

theorem ThreadStep.setIe (h : ThreadStep s c a x s') (b : Bool) : ThreadStep s c a x (s'.setIe c b) :=
  { h with ie := fun d hd => (update_of_ne hd ..).trans (h.ie d hd) }

theorem ThreadStep.setNcli (h : ThreadStep s c a x s') (cpu : Nat) (n : Int) :
    ThreadStep s c a x (s'.setNcli cpu n) :=
  { h with sched := h.sched.trans (sameCpu_counters ..) }

theorem ThreadStep.setIntena (h : ThreadStep s c a x s') (cpu : Nat) (b : Bool) :
    ThreadStep s c a x (s'.setIntena cpu b) :=
  { h with sched := h.sched.trans (sameCpu_counters ..) }

inductive Stmt (s : SpinSys) (c : Nat) (a : Agent) : SpinSys → Prop
  | readCpu {l held b} (h : s.thread a = ⟨.readCpu l, held, b⟩) : Stmt s c a (s.setThread a ⟨.readIe l c, held, b⟩)
  | readIe {l cpu held b} (h : s.thread a = ⟨.readIe l cpu, held, b⟩) :
      Stmt s c a (s.setThread a ⟨.disable l cpu (s.ie c), held, b⟩)
  | disable {l cpu was held b} (h : s.thread a = ⟨.disable l cpu was, held, b⟩) :
      Stmt s c a ((s.setThread a ⟨.saveIe l cpu was, held, b⟩).setIe c false)
  | saveIe {l cpu was held b} (h : s.thread a = ⟨.saveIe l cpu was, held, b⟩) (h0 : s.k.ncli cpu = 0) :
      Stmt s c a ((s.setThread a ⟨.incNcli l cpu, held, b⟩).setIntena cpu was)
  | keepIe {l cpu was held b} (h : s.thread a = ⟨.saveIe l cpu was, held, b⟩) (h0 : s.k.ncli cpu ≠ 0) :
      Stmt s c a (s.setThread a ⟨.incNcli l cpu, held, b⟩)
  | incNcli {l cpu held b} (h : s.thread a = ⟨.incNcli l cpu, held, b⟩) :
      Stmt s c a ((s.setThread a ⟨.checkHeld l, held, b⟩).setNcli cpu (s.k.ncli cpu + 1))
  | reacquire {l held b} (h : s.thread a = ⟨.checkHeld l, held, b⟩) (hcpu : (s.locks l).cpu = some c) :
      Stmt s c a { s with panicked := true }
  | checkHeld {l held b} (h : s.thread a = ⟨.checkHeld l, held, b⟩) (hcpu : (s.locks l).cpu ≠ some c) :
      Stmt s c a (s.setThread a ⟨.spin l, held, b⟩)
  | spin {l held b} (h : s.thread a = ⟨.spin l, held, b⟩) (hl : (s.locks l).locked = true) : Stmt s c a s
  | acquire {l held b} (h : s.thread a = ⟨.spin l, held, b⟩) (hl : (s.locks l).locked = false) :
      Stmt s c a ((s.setThread a ⟨.setCpu l, l :: held, b⟩).setLock l { s.locks l with locked := true })
  | setCpu {l held b} (h : s.thread a = ⟨.setCpu l, held, b⟩) :
      Stmt s c a ((s.setThread a ⟨.out, held, b⟩).setLock l { s.locks l with cpu := some c })
  | notHeld {l held b} (h : s.thread a = ⟨.checkOwner l, held, b⟩) (hcpu : (s.locks l).cpu ≠ some c) :
      Stmt s c a { s with panicked := true }
  | checkOwner {l held b} (h : s.thread a = ⟨.checkOwner l, held, b⟩) (hcpu : (s.locks l).cpu = some c) :
      Stmt s c a (s.setThread a ⟨.clearCpu l, held, b⟩)
  | clearCpu {l held b} (h : s.thread a = ⟨.clearCpu l, held, b⟩) :
      Stmt s c a ((s.setThread a ⟨.release l, held, b⟩).setLock l { s.locks l with cpu := none })
  | release {l held b} (h : s.thread a = ⟨.release l, held, b⟩) :
      Stmt s c a ((s.setThread a ⟨.popCpu, held.erase l, b⟩).setLock l { s.locks l with locked := false })
  | popCpu {held b} (h : s.thread a = ⟨.popCpu, held, b⟩) : Stmt s c a (s.setThread a ⟨.decNcli c, held, b⟩)
  | decNcli {cpu held b} (h : s.thread a = ⟨.decNcli cpu, held, b⟩) (hn : 0 < s.k.ncli cpu) :
      Stmt s c a ((s.setThread a ⟨.enable cpu, held, b⟩).setNcli cpu (s.k.ncli cpu - 1))
  | clampNcli {cpu held b} (h : s.thread a = ⟨.decNcli cpu, held, b⟩) (hn : ¬0 < s.k.ncli cpu) :
      Stmt s c a (s.setThread a ⟨.enable cpu, held, b⟩)
  | enable {cpu held b} (h : s.thread a = ⟨.enable cpu, held, b⟩) (hn : s.k.ncli cpu = 0 ∧ s.k.intena cpu ≠ 0) :
      Stmt s c a ((s.setThread a ⟨.out, held, b⟩).setIe c true)
  | keepOff {cpu held b} (h : s.thread a = ⟨.enable cpu, held, b⟩)
      (hn : ¬(s.k.ncli cpu = 0 ∧ s.k.intena cpu ≠ 0)) : Stmt s c a (s.setThread a ⟨.out, held, b⟩)

theorem exec_stmt (h : s.exec c a = some s') : Stmt s c a s' := by
  unfold SpinSys.exec at h
  rcases hx : s.thread a with ⟨pc, held, b⟩
  have hgoto : ∀ pc', s.goto a pc' = s.setThread a ⟨pc', held, b⟩ := by
    intro pc'
    rw [SpinSys.goto, hx]
  rw [hx] at h
  simp only [hgoto] at h
  cases pc <;> dsimp only at h
  case out => cases h
  case readCpu => cases h; exact .readCpu hx
  case readIe => cases h; exact .readIe hx
  case disable => cases h; exact .disable hx
  case saveIe =>
    split at h
    · cases h; exact .saveIe hx ‹_›
    · cases h; exact .keepIe hx ‹_›
  case incNcli =>
    split at h
    · cases h
    · next hn =>
      obtain ⟨rfl, -, -⟩ := intOf_ok hn
      cases h
      exact .incNcli hx
  case checkHeld =>
    split at h
    · cases h; exact .reacquire hx ‹_›
    · cases h; exact .checkHeld hx ‹_›
  case spin =>
    split at h
    · cases h; exact .spin hx ‹_›
    · next hl => cases h; exact .acquire hx (Bool.eq_false_iff.mpr hl)
  case setCpu => cases h; exact .setCpu hx
  case checkOwner =>
    split at h
    · cases h; exact .notHeld hx ‹_›
    · next hc => cases h; exact .checkOwner hx (not_not.mp hc)
  case clearCpu => cases h; exact .clearCpu hx
  case release => cases h; exact .release hx
  case popCpu => cases h; exact .popCpu hx
  case decNcli =>
    split at h
    · cases h; exact .decNcli hx ‹_›
    · cases h; exact .clampNcli hx ‹_›
  case enable =>
    split at h
    · cases h; exact .enable hx ‹_›
    · cases h; exact .keepOff hx ‹_›

end

inductive Moved (s : SpinSys) : SpinAct → SpinSys → Prop
  | create {i ctx k} (hl : s.k.live (.kernel i) ≠ true) (h : kmtCreate s.k (.kernel i) (some ctx) = .ok k) :
      Moved s (.create i ctx) (s.created i k)
  | mark {t st} : Moved s (.mark t st) { s with k := s.k.set t { s.k.tasks t with state := st } }
  | lock {c l a held b} (ha : s.agent c = some a) (h : s.thread a = ⟨.out, held, b⟩) :
      Moved s (.lock c l) (s.setThread a ⟨.readCpu l, held, if held = [] then s.ie c else b⟩)
  | unlock {c l a held b} (ha : s.agent c = some a) (h : s.thread a = ⟨.out, held, b⟩) (hl : l ∈ held) :
      Moved s (.unlock c l) (s.setThread a ⟨.checkOwner l, held, b⟩)
  | stmt {c a s'} (ha : s.agent c = some a) (h : Stmt s c a s') : Moved s (.stmt c) s'
  | timer {c} (hrun : s.inTrap c = false) (hie : s.ie c = true) : Moved s (.timer c) (s.trapped c)
  | yield {c} (hrun : s.inTrap c = false) (hidle : ∀ t, s.k.current c = some t → (s.thread (.task t)).idle) :
      Moved s (.yield c) (s.trapped c)
  | sched {c ctx k rc} (htrap : s.inTrap c = true) (hidle : (s.thread (.trap c)).idle)
      (h : kmtSchedule s.k c ctx = .ok (k, rc)) : Moved s (.sched c ctx) { s with k := k }
  | iret {c} (htrap : s.inTrap c = true) (hidle : (s.thread (.trap c)).idle) : Moved s (.iret c) (s.iret c)

theorem step_moved {s s' : SpinSys} {act : SpinAct} (h : s.step act = some s') :
    s.panicked = false ∧ Moved s act s' := by
  unfold SpinSys.step at h
  split at h
  · cases h
  next hp =>
  refine ⟨Bool.eq_false_iff.mpr hp, ?_⟩
  cases act <;> dsimp only at h
  case create i ctx =>
    split at h
    · cases h
    next hl =>
    split at h
    · cases h
    next k hk =>
    cases h
    exact .create hl hk
  case mark t st =>
    cases h
    exact .mark
  case lock c l =>
    obtain ⟨a, ha, h⟩ := bind_eq_some_iff.mp h
    rcases hx : s.thread a with ⟨pc, held, b⟩
    rw [hx] at h
    dsimp only at h
    split at h
    · next hpc =>
      cases h
      cases hpc
      exact .lock ha hx
    · cases h
  case unlock c l =>
    obtain ⟨a, ha, h⟩ := bind_eq_some_iff.mp h
    unfold SpinSys.goto at h
    rcases hx : s.thread a with ⟨pc, held, b⟩
    rw [hx] at h
    dsimp only at h
    split at h
    · next hpc =>
      cases h
      obtain ⟨rfl, hl⟩ := hpc
      exact .unlock ha hx hl
    · cases h
  case stmt c =>
    obtain ⟨a, ha, h⟩ := bind_eq_some_iff.mp h
    exact .stmt ha (exec_stmt h)
  case timer c =>
    split at h
    · next hc => cases h; exact .timer hc.1 hc.2
    · cases h
  case yield c =>
    split at h
    · next hc => cases h; exact .yield hc.1 hc.2
    · cases h
  case sched c ctx =>
    split at h
    · next hc =>
      split at h
      · cases h
      next k rc hk =>
      cases h
      exact .sched hc.1 hc.2 hk
    · cases h
  case iret c =>
    split at h
    · next hc => cases h; exact .iret hc.1 hc.2
    · cases h

/-! ## The invariant -/

@[simp] def SpinPc.off : SpinPc → Bool
  | .out | .readCpu _ | .readIe .. | .disable .. => false
  | _ => true

@[simp] def SpinPc.saved : SpinPc → Bool
  | .out | .readCpu _ | .readIe .. | .disable .. | .saveIe .. => false
  | _ => true

@[simp] def SpinPc.cpu : SpinPc → Option Nat
  | .readIe _ cpu | .disable _ cpu _ | .saveIe _ cpu _ | .incNcli _ cpu | .decNcli cpu | .enable cpu => some cpu
  | _ => none

@[simp] def SpinPc.was : SpinPc → Option Bool
  | .disable _ _ was | .saveIe _ _ was => some was
  | _ => none

@[simp] def SpinPc.lock : SpinPc → Option Nat
  | .setCpu l | .checkOwner l | .clearCpu l | .release l => some l
  | _ => none

@[simp] def SpinThread.depth (x : SpinThread) : Nat :=
  match x.pc with
  | .checkHeld _ | .spin _ | .popCpu | .decNcli _ => x.held.length + 1
  | _ => x.held.length

theorem depth_of_off {x : SpinThread} (h : x.pc.off = false) : x.depth = x.held.length := by
  rcases x with ⟨pc, held, b⟩
  cases pc <;> first | rfl | cases h

theorem off_of_saved {pc : SpinPc} (h : pc.saved = true) : pc.off = true := by
  cases pc <;> first | rfl | cases h

theorem off_of_lock {pc : SpinPc} {l : Nat} (h : l ∈ pc.lock) : pc.off = true := by
  cases pc <;> first | rfl | cases h

structure AgentOk (ncli intena : Int) (ie : Bool) (c : Nat) (x : SpinThread) : Prop where
  ncli : ncli = x.depth
  off : x.pc.off = true ∨ x.held ≠ [] → ie = false
  on : x.pc.off = false → x.held = [] → ie = x.before
  intena : x.pc.saved = true ∨ x.held ≠ [] → intena = if x.before then 1 else 0
  cpu : ∀ d ∈ x.pc.cpu, d = c
  was : ∀ w ∈ x.pc.was, x.held = [] → w = x.before
  lock : ∀ l ∈ x.pc.lock, l ∈ x.held

structure Parked (mask : Bool) (x : SpinThread) : Prop where
  off : x.pc.off = false
  held : x.held = []
  mask : mask = x.before
  was : ∀ w ∈ x.pc.was, w = x.before

theorem AgentOk.resume {mask : Bool} {intena : Int} {c : Nat} {x : SpinThread} (h : Parked mask x)
    (hcpu : ∀ d ∈ x.pc.cpu, d = c) : AgentOk 0 intena mask c x where
  ncli := by rw [depth_of_off h.off, h.held]; rfl
  off := by
    rintro (hoff | hne)
    · exact absurd h.off (by rw [hoff]; decide)
    · exact absurd h.held hne
  on := fun _ _ => h.mask
  intena := by
    rintro (hsaved | hne)
    · exact absurd h.off (by rw [off_of_saved hsaved]; decide)
    · exact absurd h.held hne
  cpu := hcpu
  was := fun w hw _ => h.was w hw
  lock := by
    intro l hl
    exact absurd h.off (by rw [off_of_lock hl]; decide)

structure SpinInv (s : SpinSys) : Prop extends Placed AgentOk Parked s where
  saved : ∀ t, (∀ c, s.k.current c ≠ some t) → (s.k.tasks t).savedNcli = 0
  boot : ∀ c, s.agent c = none → s.k.ncli c = 0

theorem spinInv_start : SpinInv SpinSys.start where
  cpuInv := cpuInv_init
  agent := by intro c a h; cases h
  parked := fun t _ => ⟨rfl, rfl, rfl, by simp [SpinSys.start]⟩
  saved := by intro t _; cases t <;> rfl
  boot := fun _ _ => rfl

section
variable {s s' : SpinSys} {a : Agent} {c : Nat} {x : SpinThread}

structure LocalStep (s : SpinSys) (c : Nat) (a : Agent) (x : SpinThread) (s' : SpinSys) : Prop
    extends ThreadStep s c a x s' where
  ncli : ∀ d, d ≠ c → s'.k.ncli d = s.k.ncli d
  intena : ∀ d, d ≠ c → s'.k.intena d = s.k.intena d

theorem localStep_thread (locks : Nat → Spinlock) (panicked : Bool) :
    LocalStep s c a x { s.setThread a x with locks := locks, panicked := panicked } :=
  ⟨threadStep _ _, fun _ _ => rfl, fun _ _ => rfl⟩

theorem LocalStep.setIe (h : LocalStep s c a x s') (b : Bool) : LocalStep s c a x (s'.setIe c b) :=
  ⟨h.toThreadStep.setIe b, h.ncli, h.intena⟩

theorem LocalStep.setNcli (h : LocalStep s c a x s') (n : Int) : LocalStep s c a x (s'.setNcli c n) :=
  ⟨h.toThreadStep.setNcli c n, fun d hd => (update_of_ne hd ..).trans (h.ncli d hd), h.intena⟩

theorem LocalStep.setIntena (h : LocalStep s c a x s') (b : Bool) : LocalStep s c a x (s'.setIntena c b) :=
  ⟨h.toThreadStep.setIntena c b, h.ncli, fun d hd => (update_of_ne hd ..).trans (h.intena d hd)⟩

theorem SpinInv.local (hs : SpinInv s) (ha : s.agent c = some a) (h : LocalStep s c a x s')
    (hok : AgentOk (s'.k.ncli c) (s'.k.intena c) (s'.ie c) c x) : SpinInv s' := by
  refine ⟨hs.toPlaced.local ha h.toThreadStep ?_ hok, ?_, ?_⟩
  · intro d y hd hy
    rw [h.ncli d hd, h.intena d hd]
    exact hy
  · intro t ht
    rw [h.sched.current] at ht
    rw [h.tasks]
    exact hs.saved t ht
  · intro d hd
    rw [h.agent] at hd
    have hne : d ≠ c := by
      rintro rfl
      rw [ha] at hd
      cases hd
    rw [h.ncli d hne]
    exact hs.boot d hd

theorem SpinInv.panic (hs : SpinInv s) : SpinInv { s with panicked := true } :=
  ⟨hs.toPlaced.panic, hs.saved, hs.boot⟩

theorem SpinInv.stmt (hs : SpinInv s) (ha : s.agent c = some a) (h : Stmt s c a s') : SpinInv s' := by
  have hok := hs.agent ha
  cases h with
  | readCpu h =>
    rw [h] at hok
    exact hs.local ha (localStep_thread _ _) ⟨hok.ncli, hok.off, hok.on, hok.intena, by simp, by simp, by simp⟩
  | readIe h =>
    rw [h] at hok
    refine hs.local ha (localStep_thread _ _) ⟨hok.ncli, hok.off, hok.on, hok.intena, hok.cpu, ?_, by simp⟩
    intro w hw hheld
    cases hw
    exact hok.on rfl hheld
  | disable h =>
    rw [h] at hok
    have hie : ∀ s : SpinSys, (s.setIe c false).ie c = false := fun s => update_self ..
    refine hs.local ha ((localStep_thread _ _).setIe _) ⟨hok.ncli, fun _ => hie _, ?_, ?_, hok.cpu, hok.was, by simp⟩
    · intro hoff
      cases hoff
    · exact hok.intena
  | saveIe h h0 =>
    rw [h] at hok
    cases hok.cpu _ rfl
    -- the outermost lock: no other one is held
    have hheld := List.length_eq_zero_iff.mp (Int.natCast_eq_zero.mp (hok.ncli.symm.trans h0))
    refine hs.local ha ((localStep_thread _ _).setIntena _)
      ⟨hok.ncli, hok.off, hok.on, fun _ => ?_, hok.cpu, by simp, by simp⟩
    rw [← hok.was _ rfl hheld]
    exact update_self ..
  | keepIe h h0 =>
    rw [h] at hok
    cases hok.cpu _ rfl
    refine hs.local ha (localStep_thread _ _) ⟨hok.ncli, hok.off, hok.on, fun _ => ?_, hok.cpu, by simp, by simp⟩
    refine hok.intena (Or.inr fun hheld => h0 ?_)
    rw [hok.ncli]
    exact congrArg (fun l : List Nat => (l.length : Int)) hheld
  | incNcli h =>
    rw [h] at hok
    cases hok.cpu _ rfl
    refine hs.local ha ((localStep_thread _ _).setNcli _) ⟨?_, hok.off, hok.on, hok.intena, by simp, by simp, by simp⟩
    rw [hok.ncli]
    exact update_self ..
  | reacquire => exact hs.panic
  | notHeld => exact hs.panic
  | spin => exact hs
  | checkHeld h =>
    rw [h] at hok
    exact hs.local ha (localStep_thread _ _) ⟨hok.ncli, hok.off, hok.on, hok.intena, by simp, by simp, by simp⟩
  | acquire h =>
    rw [h] at hok
    exact hs.local ha (localStep_thread _ _) ⟨hok.ncli, fun _ => hok.off (Or.inl rfl), (fun hoff => nomatch hoff),
      fun _ => hok.intena (Or.inl rfl), by simp, by simp, by simp⟩
  | setCpu h =>
    rw [h] at hok
    have hmem := hok.lock _ rfl
    refine hs.local ha (localStep_thread _ _) ⟨hok.ncli, fun _ => hok.off (Or.inl rfl), ?_,
      fun _ => hok.intena (Or.inl rfl), by simp, by simp, by simp⟩
    intro _ hnil
    exact absurd hnil (List.ne_nil_of_mem hmem)
  | checkOwner h =>
    rw [h] at hok
    exact hs.local ha (localStep_thread _ _) ⟨hok.ncli, hok.off, hok.on, hok.intena, by simp, by simp, hok.lock⟩
  | clearCpu h =>
    rw [h] at hok
    exact hs.local ha (localStep_thread _ _) ⟨hok.ncli, hok.off, hok.on, hok.intena, by simp, by simp, hok.lock⟩
  | release h =>
    rw [h] at hok
    have hlen := List.length_erase_add_one (hok.lock _ rfl)
    refine hs.local ha (localStep_thread _ _) ⟨?_, fun _ => hok.off (Or.inl rfl), (fun hoff => nomatch hoff),
      fun _ => hok.intena (Or.inl rfl), by simp, by simp, by simp⟩
    exact hok.ncli.trans (congrArg Nat.cast hlen.symm)
  | popCpu h =>
    rw [h] at hok
    exact hs.local ha (localStep_thread _ _) ⟨hok.ncli, hok.off, hok.on, hok.intena, by simp, by simp, by simp⟩
  | decNcli h =>
    rw [h] at hok
    cases hok.cpu _ rfl
    refine hs.local ha ((localStep_thread _ _).setNcli _) ⟨?_, hok.off, hok.on, hok.intena, hok.cpu, by simp, by simp⟩
    rw [hok.ncli]
    exact (update_self ..).trans (by simp)
  | clampNcli h hn =>
    -- `ncli` still counts the lock that was released
    rw [h] at hok
    cases hok.cpu _ rfl
    have := hok.ncli
    simp only [SpinThread.depth] at this
    omega
  | enable h hn =>
    rw [h] at hok
    cases hok.cpu _ rfl
    have hheld := List.length_eq_zero_iff.mp (Int.natCast_eq_zero.mp (hok.ncli.symm.trans hn.1))
    have hb := hok.intena (Or.inl rfl)
    have hie : ∀ s : SpinSys, (s.setIe c true).ie c = true := fun s => update_self ..
    refine hs.local ha ((localStep_thread _ _).setIe _) ⟨hok.ncli, ?_, fun _ _ => ?_, ?_, by simp, by simp, by simp⟩
    · rintro (hoff | hne)
      · cases hoff
      · exact absurd hheld hne
    · rw [hie]
      by_contra hbf
      have hbf : _ = false := Bool.eq_false_iff.mpr (Ne.symm hbf)
      rw [hbf] at hb
      exact hn.2 hb
    · exact fun _ => hok.intena (Or.inl rfl)
  | keepOff h hn =>
    rw [h] at hok
    cases hok.cpu _ rfl
    have hb := hok.intena (Or.inl rfl)
    refine hs.local ha (localStep_thread _ _) ⟨hok.ncli, fun _ => hok.off (Or.inl rfl), fun _ hheld => ?_,
      fun _ => hb, by simp, by simp, by simp⟩
    have h0 : s.k.ncli c = 0 := hok.ncli.trans (congrArg (fun l : List Nat => (l.length : Int)) hheld)
    have hoff : s.ie c = false := hok.off (Or.inl rfl)
    rw [show (SpinSys.setThread s a _).ie c = s.ie c from rfl, hoff]
    by_contra hbf
    have hbt : _ = true := Bool.eq_true_of_not_eq_false (Ne.symm hbf)
    rw [hbt] at hb
    exact hn ⟨h0, by rw [hb]; decide⟩

theorem SpinInv.lock {l : Nat} {held : List Nat} {b : Bool} (hs : SpinInv s) (ha : s.agent c = some a)
    (h : s.thread a = ⟨.out, held, b⟩) :
    SpinInv (s.setThread a ⟨.readCpu l, held, if held = [] then s.ie c else b⟩) := by
  have hok := hs.agent ha
  rw [h] at hok
  refine hs.local ha (localStep_thread _ _) ⟨hok.ncli, ?_, ?_, ?_, by simp, by simp, by simp⟩
  · rintro (hoff | hne)
    · cases hoff
    · exact hok.off (Or.inr hne)
  · intro _ hnil
    exact (if_pos hnil).symm
  · rintro (hsaved | hne)
    · cases hsaved
    · simp only [if_neg hne]
      exact hok.intena (Or.inr hne)

theorem SpinInv.unlock {l : Nat} {held : List Nat} {b : Bool} (hs : SpinInv s) (ha : s.agent c = some a)
    (h : s.thread a = ⟨.out, held, b⟩) (hl : l ∈ held) : SpinInv (s.setThread a ⟨.checkOwner l, held, b⟩) := by
  have hok := hs.agent ha
  rw [h] at hok
  have hne : held ≠ [] := List.ne_nil_of_mem hl
  refine hs.local ha (localStep_thread _ _) ⟨hok.ncli, fun _ => hok.off (Or.inr hne), ?_,
    fun _ => hok.intena (Or.inr hne), by simp, by simp, ?_⟩
  · intro hoff
    cases hoff
  · intro l' hl'
    cases hl'
    exact hl

theorem SpinInv.ncli_trap (hs : SpinInv s) (htrap : s.inTrap c = true) (hidle : (s.thread (.trap c)).idle) :
    s.k.ncli c = 0 := by
  rw [(hs.agent (agent_trap htrap)).ncli, SpinThread.depth, hidle.1, hidle.2]
  rfl

/-- A trap strikes a task outside the statements that run with interrupts disabled. -/
theorem SpinInv.trapped (hs : SpinInv s) (hrun : s.inTrap c = false)
    (hoff : ∀ t, s.k.current c = some t → (s.thread (.task t)).pc.off = false ∧ (s.thread (.task t)).held = []) :
    SpinInv (s.trapped c) := by
  have hok : ∀ t, s.k.current c = some t → AgentOk (s.k.ncli c) (s.k.intena c) (s.ie c) c (s.thread (.task t)) :=
    fun t ht => hs.agent (agent_task.mpr ⟨hrun, ht⟩)
  have hncli : s.k.ncli c = 0 := by
    cases ht : s.k.current c with
    | none => exact hs.boot c (by rw [agent_run hrun, ht]; rfl)
    | some t =>
      obtain ⟨hpc, hheld⟩ := hoff t ht
      rw [(hok t ht).ncli, depth_of_off hpc, hheld]
      rfl
  refine ⟨hs.toPlaced.trapped hrun ?_ ?_, hs.saved, ?_⟩
  · intro t ht
    obtain ⟨hpc, hheld⟩ := hoff t ht
    exact ⟨hpc, hheld, (hok t ht).on hpc hheld, fun w hw => (hok t ht).was w hw hheld⟩
  · exact ⟨hncli, fun _ => rfl, fun _ _ => rfl, by simp, by simp, by simp, by simp⟩
  · intro d hd
    rw [trapped_agent] at hd
    by_cases hdc : d = c
    · rw [if_pos hdc] at hd
      cases hd
    · rw [if_neg hdc] at hd
      exact hs.boot d hd

theorem SpinInv.sched {k : Kmt} {ctx rc : Context} (hs : SpinInv s) (htrap : s.inTrap c = true)
    (hidle : (s.thread (.trap c)).idle) (h : kmtSchedule s.k c ctx = .ok (k, rc)) : SpinInv { s with k := k } := by
  obtain ⟨-, next, hsw⟩ := kmtSchedule_ok hs.cpuInv h
  obtain ⟨next', hnext', hncli, -⟩ := kmtSchedule_counters h
  rw [hsw.current, update_self] at hnext'
  cases hnext'
  have hok := hs.agent (agent_trap htrap)
  have h0 := hs.ncli_trap htrap hidle
  have hcur : ∀ d, d ≠ c → k.current d = s.k.current d := by
    intro d hd
    rw [hsw.current, update_of_ne hd]
  -- the task that leaves the CPU takes a zero along, the others have one
  have hzero : ∀ t, (∀ d, d ≠ c → s.k.current d ≠ some t) → (k.tasks t).savedNcli = 0 := by
    intro t ht
    by_cases hc : s.k.current c = some t
    · rw [hsw.saved t hc]
      exact h0
    · rw [hsw.other t hc]
      refine hs.saved t fun d => ?_
      by_cases hd : d = c
      · rw [hd]
        exact hc
      · exact ht d hd
  have hn : k.ncli c = 0 := by
    rw [hncli, update_self]
    exact hzero next fun e he hcur => he (hsw.free e (Or.inl hcur))
  refine ⟨hs.toPlaced.sched htrap h ⟨?_, hok.off, hok.on, ?_, hok.cpu, hok.was, hok.lock⟩, ?_, ?_⟩
  · exact hn.trans (h0.symm.trans hok.ncli)
  · simp [hidle.1, hidle.2]
  · intro t ht
    refine hzero t fun d hd => ?_
    rw [← hcur d hd]
    exact ht d
  · intro d hd
    rw [sched_agent htrap hcur] at hd
    by_cases hdc : d = c
    · rw [hdc]
      exact hn
    · exact (congrFun hncli d).trans ((update_of_ne hdc ..).trans (hs.boot d hd))

theorem SpinInv.iret (hs : SpinInv s) (htrap : s.inTrap c = true) (hidle : (s.thread (.trap c)).idle)
    (hcpu : ∀ t, s.k.current c = some t → ∀ d ∈ (s.thread (.task t)).pc.cpu, d = c) : SpinInv (s.iret c) := by
  have h0 := hs.ncli_trap htrap hidle
  refine ⟨hs.toPlaced.iret htrap ?_, hs.saved, ?_⟩
  · -- the task resumes `push_off` with the number of this very CPU, if with any
    intro t ht hp
    rw [h0]
    exact AgentOk.resume hp (hcpu t ht)
  · intro d hd
    rw [iret_agent] at hd
    by_cases hdc : d = c
    · rw [hdc]
      exact h0
    · rw [if_neg hdc] at hd
      exact hs.boot d hd

theorem SpinInv.create {k : Kmt} {i : Nat} {ctx : Context} (hs : SpinInv s) (hl : s.k.live (.kernel i) ≠ true)
    (h : kmtCreate s.k (.kernel i) (some ctx) = .ok k) : SpinInv (s.created i k) := by
  have hplaced := hs.toPlaced.create hl h ⟨rfl, rfl, rfl, by simp⟩
  have hold := (kmtCreate_ok h).1
  cases h
  refine ⟨hplaced, ?_, hs.boot⟩
  intro t ht
  by_cases he : t = .kernel i
  · subst he
    simp [SpinSys.created, kmtRegister]
  · exact (congrArg Task.savedNcli (hold t he)).trans (hs.saved t ht)

theorem SpinInv.mark {t : TaskRef} {st : TaskState} (hs : SpinInv s) :
    SpinInv { s with k := s.k.set t { s.k.tasks t with state := st } } := by
  refine ⟨hs.toPlaced.mark, ?_, hs.boot⟩
  intro u hu
  rw [← hs.saved u hu]
  exact set_field Task.savedNcli (by rfl) u

/-! ## Runs -/

/-- No task returns from a trap between the statements of `push_off` that read the CPU number
and use it, unless it is still on that CPU. -/
def SpinSafe (s : SpinSys) : SpinAct → Prop
  | .iret c => ∀ t ∈ s.k.current c, ∀ d ∈ (s.thread (.task t)).pc.cpu, d = c
  | _ => True

instance (s : SpinSys) (a : SpinAct) : Decidable (SpinSafe s a) := by
  induction a using SpinAct.casesOn <;> unfold SpinSafe <;> infer_instance

theorem SpinInv.step {act : SpinAct} (hs : SpinInv s) (hsafe : SpinSafe s act) (h : Moved s act s') :
    SpinInv s' := by
  cases h with
  | create hl h => exact hs.create hl h
  | mark => exact hs.mark
  | lock ha h => exact hs.lock ha h
  | unlock ha h hl => exact hs.unlock ha h hl
  | stmt ha h => exact hs.stmt ha h
  | timer hrun hie =>
    refine hs.trapped hrun fun t ht => ?_
    have hok := hs.agent (agent_task.mpr ⟨hrun, ht⟩)
    rw [hie] at hok
    constructor
    · exact Bool.eq_false_iff.mpr fun hoff => Bool.noConfusion (hok.off (Or.inl hoff))
    · by_contra hne
      exact Bool.noConfusion (hok.off (Or.inr hne))
  | yield hrun hidle =>
    refine hs.trapped hrun fun t ht => ?_
    obtain ⟨hpc, hheld⟩ := hidle t ht
    rw [hpc]
    exact ⟨rfl, hheld⟩
  | sched htrap hidle h => exact hs.sched htrap hidle h
  | iret htrap hidle => exact hs.iret htrap hidle hsafe

theorem spinInv_run {as : List SpinAct} (hsafe : Along SpinSys.step SpinSafe SpinSys.start as)
    (hr : run SpinSys.step SpinSys.start as = some s) : SpinInv s :=
  run_inv_along (fun _ _ _ hs hc h => hs.step hc (step_moved h).2) as _ _ spinInv_start hsafe hr

/-- A task with a lock is on a CPU, with interrupts disabled; once its last lock is released,
interrupts are enabled again if they were before the first one. -/
theorem locks_mask_interrupts {as : List SpinAct} (hsafe : Along SpinSys.step SpinSafe SpinSys.start as)
    (hr : run SpinSys.step SpinSys.start as = some s) (t : TaskRef) :
    ((s.thread (.task t)).held ≠ [] → ∃ c, s.agent c = some (.task t) ∧ s.ie c = false) ∧
      ∀ c, s.agent c = some (.task t) → (s.thread (.task t)).idle → (s.thread (.task t)).before = true →
        s.ie c = true := by
  have hs := spinInv_run hsafe hr
  constructor
  · intro hheld
    by_contra hno
    have hnone : ∀ c, s.agent c ≠ some (.task t) := by
      intro c hc
      exact hno ⟨c, hc, (hs.agent hc).off (Or.inr hheld)⟩
    exact hheld (hs.parked t hnone).held
  · intro c hc hidle hb
    rw [← hb]
    exact (hs.agent hc).on (by rw [hidle.1]; rfl) hidle.2

def switchActs (enter : SpinAct) (c : Nat) : List SpinAct := [enter, .sched c blankContext, .iret c]

def lockActs (c l : Nat) : List SpinAct := .lock c l :: List.replicate 8 (.stmt c)

def unlockActs (c l : Nat) : List SpinAct := .unlock c l :: List.replicate 6 (.stmt c)

def createActs (n : Nat) : List SpinAct := (List.range n).map fun i => .create i blankContext

def nestedActs : List SpinAct :=
  createActs 1 ++ switchActs (.yield 0) 0 ++ lockActs 0 0 ++ lockActs 0 1 ++ unlockActs 0 0 ++ unlockActs 0 1

theorem locks_mask_interrupts_nested : ∃ s, run SpinSys.step SpinSys.start nestedActs = some s ∧
    s.agent 0 = some (.task (.kernel 0)) ∧ s.ie 0 = true := by
  have hrun : passes SpinSys.step (fun s a => decide (SpinSafe s a)) (fun s =>
      decide (s.agent 0 = some (.task (.kernel 0)) ∧ (s.thread (.task (.kernel 0))).idle ∧
        (s.thread (.task (.kernel 0))).before = true)) SpinSys.start nestedActs = true := by decide +kernel
  obtain ⟨s, hs, hc, h⟩ := passes_run (fun s a h => of_decide_eq_true h) hrun
  obtain ⟨hagent, hidle, hbefore⟩ := of_decide_eq_true h
  exact ⟨s, hs, hagent, (locks_mask_interrupts hc hs (.kernel 0)).2 0 hagent hidle hbefore⟩

/-- Task 2 reads the number of CPU 0 in `push_off` and is preempted; it goes on on CPU 1 and
counts its lock on CPU 0, where task 0 then takes a lock and releases it. -/
def migratedActs : List SpinAct :=
  createActs 3 ++ switchActs (.yield 0) 0 ++ [.lock 0 0, .stmt 0] ++ switchActs (.timer 0) 0 ++
    switchActs (.timer 0) 0 ++ switchActs (.yield 1) 1 ++ List.replicate 4 (.stmt 1) ++ lockActs 0 1 ++ unlockActs 0 1

theorem interrupts_stay_off : ∃ s, run SpinSys.step SpinSys.start migratedActs = some s ∧
    s.agent 0 = some (.task (.kernel 0)) ∧ (s.thread (.task (.kernel 0))).idle ∧
      (s.thread (.task (.kernel 0))).before = true ∧ s.ie 0 = false := by
  have hrun : ((run SpinSys.step SpinSys.start migratedActs).any fun s =>
      s.agent 0 = some (.task (.kernel 0)) ∧ (s.thread (.task (.kernel 0))).idle ∧
        (s.thread (.task (.kernel 0))).before = true ∧ s.ie 0 = false) = true := by decide +kernel
  obtain ⟨s, hs, h⟩ := (any_eq_true _ _).mp hrun
  exact ⟨s, hs, of_decide_eq_true h⟩

end

end NjuOs
