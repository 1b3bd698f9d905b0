import NumericEngine.Fault

/-!
# Frames

The registers and stack slots of one activation. A register or slot holds
nothing until it is written.
-/

namespace NumericEngine

structure Frame where
  /-- Name of the function, for reports. -/
  function : String
  regs : Array (Option Value)
  slots : Array (Option Value)
  deriving Inhabited

namespace Frame

def get (f : Frame) (r : Reg) : Except Fault Value :=
  match f.regs[r.index.toNat]? with
  | some (some v) => .ok v
  | _ => .error (.internal (.undefinedRegister r f.function))

def set (f : Frame) (r : Reg) (v : Value) : Except Fault Frame :=
  if r.index.toNat < f.regs.size then
    .ok { f with regs := f.regs.setIfInBounds r.index.toNat (some v) }
  else .error (.internal (.registerRange r))

/-- Reads a register and leaves it empty. -/
def take (f : Frame) (r : Reg) : Except Fault (Value × Frame) := do
  let v ← f.get r
  return (v, { f with regs := f.regs.setIfInBounds r.index.toNat none })

def load (f : Frame) (slot : UInt32) : Except Fault Value :=
  match f.slots[slot.toNat]? with
  | some (some v) => .ok v
  | _ => .error (.internal (.unsetSlot slot))

def store (f : Frame) (slot : UInt32) (v : Value) : Except Fault Frame :=
  if slot.toNat < f.slots.size then
    .ok { f with slots := f.slots.setIfInBounds slot.toNat (some v) }
  else .error (.internal (.slotRange slot))

def setAll (f : Frame) : List (Reg × Value) → Except Fault Frame
  | [] => .ok f
  | (r, v) :: rest => do (← f.set r v).setAll rest

/-- A frame with the arguments in the parameter registers. -/
def new (function : String) (params : List Reg) (regs slots : Nat) (args : List Value) :
    Except Fault Frame :=
  if args.length = params.length then
    let empty : Frame :=
      { function, regs := Array.replicate regs none, slots := Array.replicate slots none }
    empty.setAll (params.zip args)
  else .error (.internal (.frameArguments function params.length args.length))

end Frame

end NumericEngine
