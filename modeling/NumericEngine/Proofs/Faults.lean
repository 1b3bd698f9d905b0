import NumericEngine.Exec.Operand
import NumericEngine.Proofs.Effects

/-!
# Ways to fail

A result is looked at through the faults that it may be. Some faults show that
code went astray: there is no instruction where it goes on, an instruction has
no meaning, a helper does not exist, a register is read before it is written, a
phi has no input for an edge. Kernels and conversions of values may fail in many
ways, but never in these.
-/

namespace NumericEngine

/-- Faults of code that lost its way, in contrast to those of the values it works on. -/
def Fault.isControl : Fault → Bool
  | .internal (.pcOutside ..) | .internal (.invalidOpcode _) | .internal (.unknownHelper _)
  | .internal (.undefinedRegister ..) | .internal (.phiInput ..) => true
  | _ => false

/-- The fault of a machine without room for a frame. -/
def Fault.isOverflow : Fault → Bool
  | .nativeStack _ => true
  | _ => false

/-- Faults of values, and of chains. -/
def Fault.isMild (f : Fault) : Bool := !f.isControl && !f.isOverflow

/-- Faults of values. -/
def Fault.isCalm (f : Fault) : Bool := f.isMild && f.kind != .aborted

/-- Faults of values, but for accesses outside of a buffer. -/
def Fault.isSafe (f : Fault) : Bool := f.isCalm && f.kind != .crash

theorem Fault.isMild_of_isCalm {f : Fault} (h : f.isCalm = true) : f.isMild = true := (Bool.and_eq_true_iff.1 h).1

theorem Fault.kind_of_isCalm {f : Fault} (h : f.isCalm = true) : f.kind ≠ .aborted :=
  bne_iff_ne.1 (Bool.and_eq_true_iff.1 h).2

theorem Fault.isControl_of_isMild {f : Fault} (h : f.isMild = true) : f.isControl = false := by
  simp only [isMild, Bool.and_eq_true, Bool.not_eq_true'] at h
  exact h.1

theorem Fault.isOverflow_of_isMild {f : Fault} (h : f.isMild = true) : f.isOverflow = false := by
  simp only [isMild, Bool.and_eq_true, Bool.not_eq_true'] at h
  exact h.2

/-- Of the requests for functions of `p` that an executor makes over its bridge, one after the other, the
last ends with a fault. -/
inductive Bridge.Raises {σ : Type} (b : Bridge σ) (p : FuncId → Prop) (f : Fault) :
    Session σ → Session σ → Prop where
  | undecided {s s' : Session σ} {id : FuncId} (hp : p id)
    (h : b.runsInterpreted id s = some (.error f, s')) : Raises b p f s s'
  | unlinked {s s' : Session σ} {id : FuncId} (hp : p id)
    (h : b.native? id s = some (.error f, s')) : Raises b p f s s'
  | failed {s s' : Session σ} {id : FuncId} {args : List Value} (hp : p id)
    (h : b.call id args s = some (.error f, s')) : Raises b p f s s'
  | decided {s t s' : Session σ} {id : FuncId} {interpreted : Bool} (hp : p id)
    (h : b.runsInterpreted id s = some (.ok interpreted, t)) (ht : Raises b p f t s') : Raises b p f s s'
  | linked {s t s' : Session σ} {id : FuncId} {code : Option Code.Native} (hp : p id)
    (h : b.native? id s = some (.ok code, t)) (ht : Raises b p f t s') : Raises b p f s s'
  | answered {s t s' : Session σ} {id : FuncId} {args : List Value} {v : Value} (hp : p id)
    (h : b.call id args s = some (.ok v, t)) (ht : Raises b p f t s') : Raises b p f s s'

/-- A bridge without functions. -/
def Bridge.closed : Bridge Unit where
  runsInterpreted f := throw (.unknownFunction f)
  native? f := throw (.unknownFunction f)
  call f _ := throw (.unknownFunction f)

/-- A result that fails in allowed ways only. -/
def Except.Fails {α : Type} (allowed : Fault → Prop) (x : Except Fault α) : Prop :=
  ∀ f, x = .error f → allowed f

/-- A result that fails as values do. -/
abbrev Except.Calm {α : Type} (x : Except Fault α) : Prop := Except.Fails (·.isCalm = true) x

/-- A result that fails as values do, but for accesses outside of a buffer. -/
abbrev Except.Safe {α : Type} (x : Except Fault α) : Prop := Except.Fails (·.isSafe = true) x

namespace Except.Fails

variable {α : Type} {allowed : Fault → Prop} {x : Except Fault α}

theorem ok (a : α) : Except.Fails allowed (.ok a : Except Fault α) := fun _ h => nomatch h

theorem error (h : allowed f) : Except.Fails allowed (.error f : Except Fault α) :=
  fun _ heq => Except.error.inj heq ▸ h

theorem mono (hx : Except.Fails allowed x) (hle : ∀ f, allowed f → allowed' f) :
    Except.Fails allowed' x := fun f h => hle f (hx f h)

theorem bind_ok (hx : Except.Fails allowed x)
    (hk : ∀ a, x = .ok a → Except.Fails allowed (k a)) : Except.Fails allowed (x >>= k) := by
  intro f h
  rcases Except.bind_eq_error.1 h with h | ⟨a, ha, h⟩
  · exact hx f h
  · exact hk a ha f h

theorem bind (hx : Except.Fails allowed x)
    (hk : ∀ a, Except.Fails allowed (k a)) : Except.Fails allowed (x >>= k) := hx.bind_ok fun a _ => hk a

theorem map (hx : Except.Fails allowed x) (k : α → β) :
    Except.Fails allowed (k <$> x) := fun f h => hx f (Except.map_eq_error.1 h)

theorem mapM {xs : List α} (hk : ∀ a ∈ xs, Except.Fails allowed (k a)) :
    Except.Fails allowed (xs.mapM k) := by
  intro f h
  obtain ⟨x, hx, h⟩ := mapM_eq_error h
  exact hk x hx f h

theorem mapError {x : Except ε α} (hk : ∀ e, allowed (k e)) : Except.Fails allowed (x.mapError k) := by
  cases x with
  | ok a => exact ok a
  | error e => exact error (hk e)

end Except.Fails

theorem Except.Safe.calm (h : Except.Safe x) : Except.Calm x :=
  h.mono fun _ hf => (Bool.and_eq_true_iff.1 hf).1

/-- A result that is no lack of room for a frame. -/
abbrev Except.Roomy {α : Type} (x : Except Fault α) : Prop := Except.Fails (·.isOverflow = false) x

theorem mild_of_calm (h : Except.Calm x) : Except.Fails (·.isMild = true) x :=
  h.mono fun _ => Fault.isMild_of_isCalm

theorem roomy_of_calm (h : Except.Calm x) : Except.Roomy x :=
  (mild_of_calm h).mono fun _ => Fault.isOverflow_of_isMild

theorem Fault.isSafe_ofArith (e : ArithError) : (Fault.ofArith e).isSafe = true := by
  cases e <;> rfl

theorem Fault.isSafe_ofTensor (h : e ≠ .crash) : (Fault.ofTensor e).isSafe = true := by
  cases e with
  | arith e => exact isSafe_ofArith e
  | crash => exact absurd rfl h
  | _ => rfl

theorem Chain.mild_checkAbort (c : Chain) : Except.Fails (·.isMild = true) c.checkAbort := by
  unfold checkAbort
  split
  · exact .error rfl
  · exact .ok _

theorem Chain.roomy_checkAbort (c : Chain) : Except.Roomy c.checkAbort :=
  c.mild_checkAbort.mono fun _ => Fault.isOverflow_of_isMild

theorem Chain.calm_enter {c : Chain} : Except.Calm c.enter := by
  unfold enter
  split
  · exact .error rfl
  · exact .ok _

namespace Value

theorem safe_expect (x : Option α) (h : (Fault.internal d).isSafe = true) : Except.Safe (expect x d) := by
  cases x with
  | none => exact .error h
  | some a => exact .ok a

theorem safe_asParts (v : Value) : Except.Safe v.asParts := by
  cases v with
  | complex => exact .ok _
  | _ => exact .error rfl

theorem safe_asSlot (v : Value) : Except.Safe v.asSlot := by
  cases v with
  | ref => exact .ok _
  | _ => exact .error rfl

theorem safe_asView (v : Value) : Except.Safe v.asView := safe_expect _ rfl

theorem safe_arith (x : Except ArithError α) : Except.Safe (arith x) :=
  .mapError Fault.isSafe_ofArith

theorem safe_kernel {x : Except TensorError α} (h : x ≠ .error .crash) : Except.Safe (kernel x) := by
  cases x with
  | ok a => exact .ok a
  | error e => exact .error (Fault.isSafe_ofTensor fun he => h (congrArg _ he))

theorem calm_kernel (x : Except TensorError α) : Except.Calm (kernel x) := by
  by_cases h : x = .error .crash
  · exact h ▸ .error rfl
  · exact (safe_kernel h).calm

theorem safe_conform (t : Ty) (shape : Shape) : Except.Safe (conform t shape) := by
  unfold conform Shape.conform
  split
  · exact .error rfl
  · split
    · exact .ok _
    · exact .error rfl
    · rename_i h
      split at h
      · cases h
      · cases h
        exact .error rfl

end Value

end NumericEngine
