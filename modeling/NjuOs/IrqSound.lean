import Mathlib.Data.List.ReduceOption
import NjuOs.Irq

/-!
# The order in which handlers run

A registration is known by its place in the sequence of all registrations. The table holds
exactly the registrations made, by ascending sequence number and, within one number, in the order
they came. A trap therefore calls those that want the event in that order.
-/

namespace NjuOs

open Function List

structure Registration (η : Type*) where
  seq : Int
  event : Int
  handler : η

section
variable {η σ κ : Type*}

def Registration.entry (r : Registration η) : IrqEntry η := ⟨r.seq, r.event, some r.handler⟩

def Registration.wants (ev : Event) (r : Registration η) : Bool := r.event = eventNull ∨ r.event = ev.event

def registerAll (s : IrqTable η) (regs : List (Registration η)) : Except Halt (IrqTable η) :=
  regs.foldlM (fun s r => osOnIrq s r.seq r.event r.handler) s

def Before (a b : Registration η × Nat) : Prop := a.1.seq < b.1.seq ∨ a.1.seq = b.1.seq ∧ a.2 < b.2

def invoke (ev : Event) (context : κ) : List (Handler σ κ) → σ → Except Halt (σ × List (Option κ))
  | [], w => .ok (w, [])
  | f :: fs, w => do
    let (w, r) ← f ev context w
    let (w, rs) ← invoke ev context fs w
    return (w, r :: rs)

def resume (ienabled : σ → Bool) (ev : Event) (context : κ) (hs : List (Handler σ κ)) (w : σ) :
    Except Halt (σ × κ) := do
  let (w, rs) ← invoke ev context hs w
  match rs.reduceOption.getLast? with
  | none => .error (.panic "returning to NULL context")
  | some next =>
    if ienabled w = true then .error (.panic "kernel context with interrupts on")
    else return (w, next)

/-! ## The table -/

def IrqTable.entries (s : IrqTable η) : List (IrqEntry η) := (List.range s.nhandler).map s.handlers

/-- The place that the loop makes: what stands behind it has greater numbers, what stands right
before it has not. -/
theorem shiftLoop_insert (seq : Int) (e : IrqEntry η) : ∀ (n : Nat) (h : Nat → IrqEntry η), ∃ A C,
    (List.range n).map h = A ++ C ∧
    (List.range (n + 1)).map (update (shiftLoop seq n h).2 (shiftLoop seq n h).1 e) = A ++ e :: C ∧
    (∀ x ∈ C, seq < x.seq) ∧ (∀ x ∈ A.getLast?, x.seq ≤ seq) ∧ (shiftLoop seq n h).1 ≤ n ∧
    ∀ k, n < k → (shiftLoop seq n h).2 k = h k
  | 0, h => by
    refine ⟨[], [], rfl, ?_, nofun, nofun, Nat.le_refl _, fun _ _ => rfl⟩
    simp [shiftLoop]
  | n + 1, h => by
    by_cases hs : (h n).seq > seq
    · have hloop : shiftLoop seq (n + 1) h = shiftLoop seq n (update h (n + 1) (h n)) := by
        rw [shiftLoop, if_pos hs]
      obtain ⟨A, C, hAC, hins, hC, hA, hi, hframe⟩ :=
        shiftLoop_insert seq e n (update h (n + 1) (h n))
      have hsame : (List.range n).map (update h (n + 1) (h n)) = (List.range n).map h := by
        refine map_congr_left fun k hk => update_of_ne ?_ ..
        have := mem_range.mp hk
        omega
      rw [hloop]
      refine ⟨A, C ++ [h n], ?_, ?_, ?_, hA, by omega, fun k hk => ?_⟩
      · rw [range_succ, map_append, ← hsame, hAC, append_assoc]
        rfl
      · -- the entry moved up is the last one, and the loop does not come back to it
        rw [range_succ, map_append, hins, map_singleton, update_of_ne (by omega),
          hframe _ (by omega), update_self, append_assoc, cons_append]
      · intro x hx
        rcases mem_append.mp hx with hx | hx
        · exact hC x hx
        · rw [mem_singleton.mp hx]
          exact hs
      · rw [hframe k (by omega), update_of_ne (by omega)]
    · have hloop : shiftLoop seq (n + 1) h = (n + 1, h) := by rw [shiftLoop, if_neg hs]
      rw [hloop]
      refine ⟨(List.range (n + 1)).map h, [], (append_nil _).symm, ?_, nofun, ?_, Nat.le_refl _, fun _ _ => rfl⟩
      · rw [range_succ, map_append, map_singleton, update_self]
        congr 1
        refine map_congr_left fun k hk => update_of_ne ?_ ..
        have := mem_range.mp hk
        omega
      · intro x hx
        rw [range_succ, map_append, map_singleton, getLast?_concat] at hx
        cases hx
        exact Int.not_lt.mp hs

structure TableInv (s : IrqTable η) (regs : List (Registration η)) (order : List (Registration η × Nat)) : Prop where
  count : s.nhandler = regs.length
  entries : s.entries = order.map fun x => x.1.entry
  perm : order.Perm regs.zipIdx
  sorted : order.Pairwise Before

theorem TableInv.lt {s : IrqTable η} {regs : List (Registration η)} {order : List (Registration η × Nat)}
    (h : TableInv s regs order) {x : Registration η × Nat} (hx : x ∈ order) : x.2 < regs.length := by
  have := snd_lt_of_mem_zipIdx (h.perm.mem_iff.mp hx)
  omega

theorem TableInv.register {s : IrqTable η} {regs : List (Registration η)} {order : List (Registration η × Nat)}
    (h : TableInv s regs order) (r : Registration η) (hlen : regs.length < maxHandler) :
    ∃ s' order', osOnIrq s r.seq r.event r.handler = .ok s' ∧ TableInv s' (regs ++ [r]) order' := by
  obtain ⟨A, C, hAC, hins, hC, hA, -⟩ := shiftLoop_insert r.seq r.entry s.nhandler s.handlers
  have hsplit : order.map (fun x => x.1.entry) = A ++ C := h.entries.symm.trans hAC
  obtain ⟨u, v, rfl, hu, hv⟩ := map_eq_append_iff.mp hsplit
  have hsort := pairwise_append.mp h.sorted
  -- the whole front part has sequence numbers up to the new one, since its last member has
  have hfront : ∀ x ∈ u, x.1.seq ≤ r.seq := by
    intro x hx
    obtain rfl | ⟨u', z, rfl⟩ := u.eq_nil_or_concat'
    · cases hx
    have hlast : A.getLast? = some z.1.entry := by
      rw [← hu, map_append, map_singleton, getLast?_concat]
    have hz : z.1.seq ≤ r.seq := hA z.1.entry hlast
    rcases mem_append.mp hx with hx | hx
    · rcases (pairwise_append.mp hsort.1).2.2 x hx z (by simp) with hlt | heq
      · omega
      · omega
    · rw [mem_singleton.mp hx]
      exact hz
  have hback : ∀ x ∈ v, r.seq < x.1.seq := fun x hx => hC x.1.entry (hv ▸ mem_map_of_mem hx)
  have hnot : ¬s.nhandler ≥ maxHandler := by
    rw [h.count]
    omega
  refine ⟨_, u ++ (r, regs.length) :: v, if_neg hnot, ?_, ?_, ?_, ?_⟩
  · rw [length_append, h.count]
    rfl
  · rw [map_append, map_cons, hu, hv]
    exact hins
  · rw [zipIdx_append, Nat.zero_add]
    exact perm_middle.trans ((h.perm.cons _).trans (perm_append_singleton _ _).symm)
  · refine pairwise_append.mpr ⟨hsort.1, pairwise_cons.mpr ⟨fun x hx => Or.inl (hback x hx), hsort.2.1⟩, ?_⟩
    intro x hx y hy
    rcases mem_cons.mp hy with rfl | hy
    · have hlt := h.lt (mem_append_left _ hx)
      rcases Int.lt_or_eq_of_le (hfront x hx) with hseq | hseq
      · exact Or.inl hseq
      · exact Or.inr ⟨hseq, hlt⟩
    · exact hsort.2.2 x hx y hy

theorem TableInv.registerAll : ∀ (rs : List (Registration η)) {regs : List (Registration η)} {s : IrqTable η}
    {order : List (Registration η × Nat)}, TableInv s regs order → (regs ++ rs).length ≤ maxHandler →
    ∃ s' order', registerAll s rs = .ok s' ∧ TableInv s' (regs ++ rs) order'
  | [], regs, s, order, h, _ => ⟨s, order, rfl, by rwa [append_nil]⟩
  | r :: rs, regs, s, order, h, hlen => by
    rw [append_cons] at hlen ⊢
    have hr : regs.length < maxHandler := by
      simp only [length_append, length_singleton] at hlen
      omega
    obtain ⟨s₁, order₁, hs₁, h₁⟩ := h.register r hr
    obtain ⟨s', order', hs', h'⟩ := TableInv.registerAll rs h₁ hlen
    refine ⟨s', order', ?_, h'⟩
    rw [NjuOs.registerAll, foldlM_cons, hs₁]
    exact hs'

/-! ## The calls -/

def trapEntries (ev : Event) (context : κ) : List (Registration (Handler σ κ)) → σ → Option κ →
    Except Halt (σ × Option κ)
  | [], w, next => .ok (w, next)
  | r :: rs, w, next =>
    if r.wants ev = true then do
      let (w, c) ← r.handler ev context w
      trapEntries ev context rs w (c.or next)
    else trapEntries ev context rs w next

theorem trapLoop_entries {s : IrqTable (Handler σ κ)} {ev : Event} {context : κ} :
    ∀ {rs : List (Registration (Handler σ κ))} {n i : Nat} {w : σ} {next : Option κ},
    (List.range' i n).map s.handlers = rs.map Registration.entry →
    trapLoop s ev context n i w next = trapEntries ev context rs w next
  | [], 0, _, _, _, _ => rfl
  | [], n + 1, _, _, _, h => by cases h
  | _ :: _, 0, _, _, _, h => by cases h
  | r :: rs, n + 1, i, w, next, h => by
    rw [range'_succ, map_cons, map_cons] at h
    obtain ⟨hi, hrest⟩ := List.cons.inj h
    rw [trapLoop, trapEntries, hi]
    by_cases hw : r.entry.event = eventNull ∨ r.entry.event = ev.event
    · have hb : r.wants ev = true := decide_eq_true hw
      rw [if_pos hw, if_pos hb]
      simp only [Registration.entry]
      cases r.handler ev context w with
      | error e => rfl
      | ok x => exact trapLoop_entries hrest
    · have hb : ¬r.wants ev = true := fun hb => hw (of_decide_eq_true hb)
      rw [if_neg hw, if_neg hb]
      exact trapLoop_entries hrest

theorem getLast?_reduceOption_cons (c : Option κ) (cs : List (Option κ)) (next : Option κ) :
    ((c :: cs).reduceOption.getLast?).or next = (cs.reduceOption.getLast?).or (c.or next) := by
  cases c with
  | none => rw [reduceOption_cons_of_none, Option.none_or]
  | some c =>
    rw [reduceOption_cons_of_some, getLast?_cons]
    cases cs.reduceOption.getLast? <;> rfl

theorem trapEntries_invoke (ev : Event) (context : κ) :
    ∀ (rs : List (Registration (Handler σ κ))) (w : σ) (next : Option κ), trapEntries ev context rs w next =
      (invoke ev context ((rs.filter (Registration.wants ev)).map Registration.handler) w).map
        fun x => (x.1, (x.2.reduceOption.getLast?).or next)
  | [], _, _ => rfl
  | r :: rs, w, next => by
    by_cases hb : r.wants ev = true
    · rw [trapEntries, if_pos hb, filter_cons_of_pos hb, map_cons, invoke]
      cases hf : r.handler ev context w with
      | error e => rfl
      | ok x =>
        obtain ⟨w₁, c⟩ := x
        have ih := trapEntries_invoke ev context rs w₁ (c.or next)
        simp only [Except.bind, bind, ih]
        cases invoke ev context ((rs.filter (Registration.wants ev)).map Registration.handler) w₁ with
        | error e => rfl
        | ok y =>
          have hlast := getLast?_reduceOption_cons c y.2 next
          exact congrArg (fun o => Except.ok (y.1, o)) hlast.symm
    · rw [trapEntries, if_neg hb, filter_cons_of_neg hb]
      exact trapEntries_invoke ev context rs w next

theorem osTrap_eq {ienabled : σ → Bool} {s : IrqTable (Handler σ κ)} {rs : List (Registration (Handler σ κ))}
    (h : s.entries = rs.map Registration.entry) (ev : Event) (context : κ) (w : σ) :
    osTrap ienabled s ev context w =
      resume ienabled ev context ((rs.filter (Registration.wants ev)).map Registration.handler) w := by
  rw [IrqTable.entries, range_eq_range'] at h
  -- the loop starts without a context to resume
  have hnone : (fun x : σ × List (Option κ) => (x.1, x.2.reduceOption.getLast?.or none)) =
      fun x => (x.1, x.2.reduceOption.getLast?) := by
    funext x
    rw [Option.or_none]
  rw [osTrap, resume, trapLoop_entries h, trapEntries_invoke, hnone]
  cases invoke ev context ((rs.filter (Registration.wants ev)).map Registration.handler) w with
  | error e => rfl
  | ok x => rfl

/-! ## The result -/

/-- Up to `MAX_HANDLER` registrations are all accepted, and a trap then calls exactly those that
want its event, each once, by sequence number and registration, and resumes the last context that
any of them returned. -/
theorem os_trap_dispatch (ienabled : σ → Bool) (regs : List (Registration (Handler σ κ)))
    (hlen : regs.length ≤ maxHandler) :
    ∃ s, registerAll IrqTable.zero regs = .ok s ∧ ∀ ev, ∃ order : List (Registration (Handler σ κ) × Nat),
      order.Perm (regs.zipIdx.filter fun x => x.1.wants ev) ∧ order.Pairwise Before ∧
      ∀ context w, osTrap ienabled s ev context w =
        resume ienabled ev context (order.map fun x => x.1.handler) w := by
  have hzero : TableInv (IrqTable.zero : IrqTable (Handler σ κ)) [] [] := ⟨rfl, rfl, List.Perm.nil, List.Pairwise.nil⟩
  obtain ⟨s, order, hs, h⟩ := TableInv.registerAll regs hzero hlen
  refine ⟨s, hs, fun ev => ⟨order.filter fun x => x.1.wants ev, h.perm.filter _, h.sorted.filter _, ?_⟩⟩
  intro context w
  have hentries : s.entries = (order.map Prod.fst).map Registration.entry := by
    rw [map_map]
    exact h.entries
  rw [osTrap_eq hentries, filter_map, map_map]
  rfl

end

def noting (i : Nat) (r : Option Nat) : Handler (List Nat) Nat := fun _ _ w => .ok (w ++ [i], r)

def notingTable : List (Registration (Handler (List Nat) Nat)) :=
  [⟨5, eventNull, noting 0 (some 7)⟩, ⟨5, eventYield, noting 1 (some 9)⟩, ⟨-1, eventYield, noting 2 none⟩,
    ⟨0, eventSyscall, noting 3 (some 8)⟩]

theorem os_trap_dispatch_yield : ∃ s, registerAll IrqTable.zero notingTable = .ok s ∧ ∀ ev,
    ∃ order : List (Registration (Handler (List Nat) Nat) × Nat),
      order.Perm (notingTable.zipIdx.filter fun x => x.1.wants ev) ∧ order.Pairwise Before ∧
      ∀ context w, osTrap (fun _ => false) s ev context w =
        resume (fun _ => false) ev context (order.map fun x => x.1.handler) w :=
  os_trap_dispatch (fun _ => false) notingTable (by decide)

example : (do osTrap (fun _ => false) (← registerAll IrqTable.zero notingTable) ⟨eventYield, 0, 0, none⟩ 0 []) =
    .ok ([2, 0, 1], 9) := by rfl

/-! ## The kernel's handlers -/

inductive KernelHandler
  | kmtSchedule
  | uprocSyscall
  | uprocPagefault
  | uprocTick
  deriving DecidableEq

def int32Min : Int := -2 ^ 31

def kernelHandlers : List (Registration KernelHandler) :=
  [⟨int32Min, eventIrqTimer, .kmtSchedule⟩, ⟨int32Min, eventYield, .kmtSchedule⟩,
    ⟨0, eventSyscall, .uprocSyscall⟩, ⟨0, eventPagefault, .uprocPagefault⟩,
    ⟨int32Min, eventIrqTimer, .uprocTick⟩, ⟨int32Min, eventYield, .uprocTick⟩]

-- the scheduler runs before the tick that is registered at the same number
example : (registerAll IrqTable.zero kernelHandlers).map (fun s =>
    (s.entries.filter fun e => e.event = eventIrqTimer).map IrqEntry.handler) =
    .ok [some .kmtSchedule, some .uprocTick] := by rfl

end NjuOs
