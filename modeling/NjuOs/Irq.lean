import NjuOs.CBase

/-!
# Trap dispatch (`os.c`)

The table of handlers and the two functions that use it. `os_on_irq` runs under `handler_lock`,
so that registrations never overlap. A handler is a function of the event, the interrupted context
and the machine's state `σ`; contexts are pointers `κ`, `none` the null pointer.
-/

namespace NjuOs

structure Event where
  event : Int
  cause : Nat
  ref : Nat
  msg : Option (List UInt8)

def eventNull : Int := 0
def eventYield : Int := 1
def eventSyscall : Int := 2
def eventPagefault : Int := 3
def eventIrqTimer : Int := 5
def eventIrqIodev : Int := 6

def maxHandler : Nat := 32

structure IrqEntry (η : Type*) where
  seq : Int
  event : Int
  handler : Option η

structure IrqTable (η : Type*) where
  handlers : Nat → IrqEntry η
  nhandler : Nat

section
variable {η σ κ : Type*}

def IrqTable.zero : IrqTable η := ⟨fun _ => ⟨0, 0, none⟩, 0⟩

/-- `while (i > 0 && handlers[i - 1].seq > seq)`: the entries behind the new one move up. -/
def shiftLoop (seq : Int) : Nat → (Nat → IrqEntry η) → Nat × (Nat → IrqEntry η)
  | 0, h => (0, h)
  | i + 1, h => if (h i).seq > seq then shiftLoop seq i (Function.update h (i + 1) (h i)) else (i + 1, h)

def osOnIrq (s : IrqTable η) (seq event : Int) (handler : η) : Except Halt (IrqTable η) :=
  if s.nhandler ≥ maxHandler then .error (.panic "too many IRQ handlers")
  else
    let (i, h) := shiftLoop seq s.nhandler s.handlers
    .ok ⟨Function.update h i ⟨seq, event, some handler⟩, s.nhandler + 1⟩

abbrev Handler (σ κ : Type*) := Event → κ → σ → Except Halt (σ × Option κ)

def trapLoop (s : IrqTable (Handler σ κ)) (ev : Event) (context : κ) :
    Nat → Nat → σ → Option κ → Except Halt (σ × Option κ)
  | 0, _, w, next => .ok (w, next)
  | n + 1, i, w, next =>
    if (s.handlers i).event = eventNull ∨ (s.handlers i).event = ev.event then
      match (s.handlers i).handler with
      | none => .error .undefined
      | some f => do
        let (w, r) ← f ev context w
        -- last non-NULL wins
        trapLoop s ev context n (i + 1) w (r.or next)
    else trapLoop s ev context n (i + 1) w next

def osTrap (ienabled : σ → Bool) (s : IrqTable (Handler σ κ)) (ev : Event) (context : κ) (w : σ) :
    Except Halt (σ × κ) := do
  let (w, next) ← trapLoop s ev context s.nhandler 0 w none
  match next with
  | none => .error (.panic "returning to NULL context")
  | some next =>
    if ienabled w = true then .error (.panic "kernel context with interrupts on")
    else return (w, next)

end

end NjuOs
