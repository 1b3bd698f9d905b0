import NumericEngine.Machine.Step
import NumericEngine.Proofs.Value.Record

/-!
# Work on memory never leads code astray

Reads and writes of memory, the records of values in it and the helpers that
work on them fail in many ways, but they leave control where it is and the
stack as large as it is.
-/

namespace NumericEngine

/-- Where a region lies, and how much of it is in use. -/
def Region.extent (r : Region) : UInt64 × Nat × Nat := (r.base, r.limit, r.used)

/-- A transition of memory that fails as values do, and leaves the stack as large as it is. -/
def Transition.Calm {α : Type} (x : Transition MachineMemory α) : Prop :=
  ∀ m, Except.Calm (x m).1 ∧ (x m).2.stack.extent = m.stack.extent

namespace Transition.Calm

variable {α : Type}

theorem outcome (hx : Except.Calm x) :
    Transition.Calm (Transition.outcome x : Transition MachineMemory α) := fun _ => ⟨hx, rfl⟩

theorem safe (hx : Except.Safe x) :
    Transition.Calm (Transition.outcome x : Transition MachineMemory α) := outcome hx.calm

theorem pure (a : α) : Transition.Calm (Pure.pure a : Transition MachineMemory α) := outcome (.ok a)

theorem defect (h : (Fault.internal d).isCalm = true) :
    Transition.Calm (Transition.defect d : Transition MachineMemory α) := outcome (.error h)

theorem bind (hx : Transition.Calm x) (hk : ∀ a, Transition.Calm (k a)) : Transition.Calm (x >>= k) := by
  intro m
  have hm := hx m
  rw [Transition.bind_apply]
  generalize x m = r at hm
  obtain ⟨_ | a, m'⟩ := r
  · exact ⟨.error (hm.1 _ rfl), hm.2⟩
  · exact ⟨(hk a m').1, (hk a m').2.trans hm.2⟩

end Transition.Calm

/-! ## Memory -/

theorem Region.calm_load (r : Region) (addr : UInt64) (n : Nat) : Except.Calm (r.load addr n) := by
  unfold load
  split
  · exact .ok _
  · exact .error rfl

theorem Region.calm_store (addr : UInt64) (bs : List UInt8) (r : Region) :
    Except.Calm (store addr bs r).1 ∧ (store addr bs r).2.extent = r.extent := by
  unfold store
  split
  · exact ⟨.ok _, by simp [extent, used]⟩
  · exact ⟨.error rfl, rfl⟩

theorem Heap.calm_alloc (size align : Nat) (h : Heap) : Except.Calm (alloc size align h).1 := by
  unfold alloc
  dsimp only
  split
  · rename_i start gaps hcarve
    have hstore := (Region.calm_store (UInt64.ofNat start) (List.replicate (max size 1) 0) h.region).1
    simp only [onRegion]
    generalize Region.store (UInt64.ofNat start) (List.replicate (max size 1) 0) h.region = o at hstore
    obtain ⟨_ | _, region⟩ := o
    · exact .error (hstore _ rfl)
    · exact .ok _
  · unfold grow
    dsimp only
    split
    · exact .error rfl
    · exact .ok _

namespace MachineMemory

theorem calm_load (m : MachineMemory) (addr : UInt64) (n : Nat) : Except.Calm (m.load addr n) := by
  unfold load
  split
  · exact Region.calm_load _ _ _
  · exact Region.calm_load _ _ _

theorem calm_store (addr : UInt64) (bs : List UInt8) : Transition.Calm (store addr bs) := by
  intro m
  unfold store
  split
  · exact ⟨(Region.calm_store addr bs m.heap.region).1, rfl⟩
  · exact Region.calm_store addr bs m.stack

theorem calm_alloc (size align : Nat) : Transition.Calm (alloc size align) := fun m =>
  ⟨Heap.calm_alloc size align m.heap, rfl⟩

theorem pushFrame_apply (size : Nat) (m : MachineMemory) : pushFrame size m =
    if m.stack.full (Word.add (m.stack.next 16) size) then (.error (.nativeStack m.stack.used), m)
    else (.ok (m.stack.address (m.stack.next 16)),
      { m with stack := m.stack.resize (Word.add (m.stack.next 16) size) }) := by
  unfold pushFrame onStack Region.alloc
  cases h : m.stack.full (Word.add (m.stack.next 16) size)
  · simp only [h, Bool.false_eq_true, if_false]
  · simp only [h, if_true]

end MachineMemory

/-! ## Records -/

namespace Value

open Transition.Calm (bind outcome)

theorem calm_closed : Closed Transition.Calm where
  outcome := .outcome
  bind := .bind
  newBuffer _ _ _ := bind (outcome Memory.calm_reserve) fun _ => bind (MachineMemory.calm_alloc _ _) fun _ =>
    bind (MachineMemory.calm_store _ _) fun _ => .pure _

theorem calm_store (v : Value) (addr : UInt64) :
    Transition.Calm (v.store addr : Transition MachineMemory Unit) :=
  bind (calm_closed.encode v) fun _ => MachineMemory.calm_store _ _

theorem calm_decodeContainer {m : MachineMemory} : Except.Calm (decodeContainer m t bs) := by
  unfold decodeContainer
  split
  · split
    · exact .ok _
    · exact .error rfl
  · unfold decodeDescriptor
    dsimp only
    split
    · exact .error rfl
    · exact .bind Memory.calm_reserve fun _ => .bind (MachineMemory.calm_load _ _ _) fun _ =>
        .mapError fun _ => rfl
  · exact .error rfl

theorem calm_record : Except.Calm (record t bs) := by
  unfold record
  split
  · exact .error rfl
  · exact .ok _

mutual
theorem calm_decode (m : MachineMemory) (t : Ty) (bs : List UInt8) : Except.Calm (decode m t bs) := by
  cases t <;> unfold decode <;> refine .bind calm_record fun _ => ?_
  case prim | complex =>
    split
    · exact .ok _
    · exact .error rfl
  case vector | tensor => exact calm_decodeContainer
  case struct fs _ => exact .map (calm_decodeFields m fs _ _) _
  case function =>
    unfold decodeFunction
    dsimp only
    split
    · exact .ok _
    · exact .error rfl
  case reference => exact .error rfl
theorem calm_decodeFields (m : MachineMemory) (fs : List (String × Ty)) (offsets : List Nat) (bs : List UInt8) :
    Except.Calm (decodeFields m fs offsets bs) := by
  cases fs with
  | nil =>
    unfold decodeFields
    exact .ok _
  | cons f fs =>
    cases offsets with
    | nil =>
      unfold decodeFields
      exact .ok _
    | cons _ rest =>
      unfold decodeFields
      exact .bind (calm_decode m f.2 _) fun _ => .bind (calm_decodeFields m fs rest bs) fun _ => .ok _
end

theorem calm_load (m : MachineMemory) (t : Ty) (addr : UInt64) : Except.Calm (load m t addr) :=
  .bind Memory.calm_reserve fun _ => .bind (MachineMemory.calm_load _ _ _) fun _ => calm_decode _ _ _

end Value

/-! ## Kernels and helpers -/

namespace Code.Site

open Transition.Calm (bind outcome safe)
open Value (safe_expect calm_store safe_asParts safe_asView safe_arith calm_kernel safe_conform)

theorem calm_operand {s : Site} : Transition.Calm (s.operand i addr : Transition MachineMemory Value) :=
  bind (safe (safe_expect _ rfl)) fun t m => ⟨Value.calm_load m t addr, rfl⟩

theorem calm_arithOp (s : Site) : Except.Calm s.arithOp := by
  unfold arithOp
  split
  · exact .ok _
  · exact .error rfl

theorem calm_run {s : Site} (h : Helper) :
    Transition.Calm (s.run args h : Transition MachineMemory Unit) := by
  cases h with
  | complexBinary =>
    exact bind calm_operand fun _ => bind calm_operand fun _ =>
      bind (safe (safe_expect _ rfl)) fun _ => bind (outcome (calm_arithOp s)) fun _ =>
      bind (safe (safe_asParts _)) fun _ => bind (safe (safe_asParts _)) fun _ =>
      bind (safe (safe_arith _)) fun _ => calm_store _ _
  | complexCompare =>
    refine bind (safe (safe_expect _ rfl)) fun _ => bind calm_operand fun _ =>
      bind calm_operand fun _ => bind (safe (safe_expect _ rfl)) fun _ => ?_
    split
    · exact bind (safe (safe_asParts _)) fun _ => bind (safe (safe_asParts _)) fun _ =>
        bind (safe (safe_arith _)) fun _ => calm_store _ _
    · exact .defect rfl
  | tensorBinary =>
    exact bind calm_operand fun _ => bind calm_operand fun _ =>
      bind (safe (safe_asView _)) fun _ => bind (safe (safe_asView _)) fun _ =>
      bind (outcome (calm_arithOp s)) fun _ => bind (outcome (calm_kernel _)) fun _ => calm_store _ _
  | tensorScale =>
    exact bind calm_operand fun _ => bind calm_operand fun _ =>
      bind (safe (safe_expect _ rfl)) fun _ => bind (safe (safe_asView _)) fun _ =>
      bind (outcome (calm_kernel _)) fun _ => calm_store _ _
  | tensorDot =>
    exact bind calm_operand fun _ => bind calm_operand fun _ =>
      bind (safe (safe_asView _)) fun _ => bind (safe (safe_asView _)) fun _ =>
      bind (outcome (calm_kernel _)) fun _ => calm_store _ _
  | tensorMatmul =>
    exact bind calm_operand fun _ => bind calm_operand fun _ =>
      bind (safe (safe_asView _)) fun _ => bind (safe (safe_asView _)) fun _ =>
      bind (outcome (calm_kernel _)) fun _ => bind (safe (safe_conform _ _)) fun _ => calm_store _ _
  | tensorSum =>
    exact bind calm_operand fun _ => bind (safe (safe_asView _)) fun _ =>
      bind (outcome (calm_kernel _)) fun _ => calm_store _ _
  | tensorExtract =>
    exact bind calm_operand fun _ =>
      bind (fun m => ⟨MachineMemory.calm_load m _ _, rfl⟩) fun _ => bind (safe (safe_asView _)) fun _ =>
      bind (outcome (calm_kernel _)) fun _ => bind (outcome (calm_kernel _)) fun _ => calm_store _ _
  | tensorCast =>
    refine bind calm_operand fun v => ?_
    split
    · exact bind (safe (safe_conform _ _)) fun _ => calm_store _ _
    · exact .defect rfl

end Code.Site

end NumericEngine
