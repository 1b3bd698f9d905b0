import NumericEngine.Memory.Heap

/-!
# Memory of the machine

A stack region for frames and a heap for records and buffers, at fixed bases.
-/

namespace NumericEngine

structure MachineMemory where
  stack : Region
  heap : Heap
  deriving Repr, Inhabited

namespace MachineMemory

def stackBase : UInt64 := 0x200000000

def heapBase : UInt64 := 0x300000000

def stackLimit : Nat := 8 <<< 20

def heapLimit : Nat := 256 <<< 20

def new (stack heap : Nat) : MachineMemory where
  stack := { base := stackBase, limit := stack }
  heap := Heap.new heapBase heap

def load (m : MachineMemory) (addr : UInt64) (n : Nat) : Except Fault (List UInt8) :=
  if heapBase ≤ addr then m.heap.load addr n else m.stack.load addr n

@[inline] def onStack {α : Type} (a : Transition Region α) : Transition MachineMemory α := fun m =>
  let (r, stack) := a m.stack
  (r, { m with stack })

@[inline] def onHeap {α : Type} (a : Transition Heap α) : Transition MachineMemory α := fun m =>
  let (r, heap) := a m.heap
  (r, { m with heap })

def store (addr : UInt64) (bs : List UInt8) : Transition MachineMemory Unit :=
  if heapBase ≤ addr then onHeap (Heap.store addr bs) else onStack (Region.store addr bs)

def alloc (size align : Nat) : Transition MachineMemory UInt64 := onHeap (Heap.alloc size align)

instance : Memory MachineMemory := ⟨load, store, alloc⟩

def pushFrame (size : Nat) : Transition MachineMemory UInt64 := fun m =>
  match onStack (Region.alloc size 16) m with
  | (.ok addr, m) => (.ok addr, m)
  | (.error _, m) => (.error (.nativeStack m.stack.used), m)

def popFrame (m : MachineMemory) (fp : UInt64) : MachineMemory :=
  { m with stack := m.stack.release fp }

end MachineMemory

end NumericEngine
