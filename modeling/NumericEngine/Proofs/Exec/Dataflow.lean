import Mathlib
import NumericEngine.Proofs.Exec.Soundness
import NumericEngine.Proofs.Faults
import NumericEngine.Proofs.Ir.Verified

/-!
# Verified code reads what it has written

In a function without faults, a register whose definition reaches a position
holds a value whenever the interpreter gets there. Along an edge this is so
because what dominates the target, but is not the target, dominates the source;
and the phis of the target have an input for every block that leads to it.

One kind of register is left out: a phi of the entry block has no input when its
function starts, so it may be read before it is written.
-/

namespace NumericEngine

open List hiding elem
open Ir

/-- The registers that phis of the entry block define. -/
def Ir.Function.entryPhis (f : Function) : List Reg :=
  match f.blocks with
  | [] => []
  | b :: _ => dsts (b.instrs.filter Instr.isPhi)

theorem Ir.Function.mem_entryPhis {f : Function} (hb : f.blocks[0]? = some b)
    (hi : i ∈ b.instrs) (hphi : i.isPhi = true) (hr : i.dst? = some r) : r ∈ f.entryPhis := by
  unfold entryPhis
  split
  · rename_i heq
    simp [heq] at hb
  · rename_i c _ heq
    obtain rfl : c = b := by simpa [heq] using hb
    exact mem_filterMap.2 ⟨i, mem_filter.2 ⟨hi, hphi⟩, hr⟩

namespace Exec

/-! ## Operations -/

theorem get_eq_error {frame : Frame} (h : frame.get r = .error e) :
    e = .internal (.undefinedRegister r frame.function) ∧ ¬Defined frame r := by
  refine ⟨?_, fun ⟨v, hv⟩ => by rw [hv] at h; cases h⟩
  unfold Frame.get at h
  split at h
  · cases h
  · exact (Except.error.inj h).symm

open Value (kernel safe_expect safe_asParts safe_asView safe_asSlot safe_arith calm_kernel safe_conform)

/-- The view of the tensor in a register. -/
def Views (frame : Frame) (r : Reg) (v : View) : Prop := ∃ x, frame.get r = .ok x ∧ x.asView = .ok v

/-- The kernels that a right-hand side runs on its operands fail in allowed ways only. -/
def KernelsFail (allowed : Fault → Prop) (frame : Frame) : Rhs → Prop
  | .tensorBinary op l r checked => ∀ a b, Views frame l a → Views frame r b →
      Except.Fails allowed (kernel (a.elementwise op b checked))
  | .tensorScale s _ checked => ∀ a x, Views frame s a → Except.Fails allowed (kernel (a.scale x checked))
  | .dot l r => ∀ a b, Views frame l a → Views frame r b → Except.Fails allowed (kernel (a.dot b false))
  | .matmul l r => ∀ a b, Views frame l a → Views frame r b → Except.Fails allowed (kernel (a.matmul b false))
  | .sum s => ∀ a, Views frame s a → Except.Fails allowed (kernel (a.sum false))
  | .extractElement s _ => ∀ a is, Views frame s a → Except.Fails allowed (kernel (a.shape.flatIndex is)) ∧
      ∀ i, a.shape.flatIndex is = .ok i → Except.Fails allowed (kernel (a.get i))
  | _ => True

theorem kernelsFail_of_calm (h : ∀ e, e.isCalm = true → allowed e) (frame : Frame) (rhs : Rhs) :
    KernelsFail allowed frame rhs := by
  cases rhs with
  | tensorBinary | dot | matmul => exact fun _ _ _ _ => (calm_kernel _).mono h
  | tensorScale => exact fun _ _ _ => (calm_kernel _).mono h
  | sum => exact fun _ _ => (calm_kernel _).mono h
  | extractElement => exact fun _ _ _ => ⟨(calm_kernel _).mono h, fun _ _ => (calm_kernel _).mono h⟩
  | _ => trivial

section
variable {allowed : Fault → Prop} {frame : Frame} (hsafe : ∀ e, e.isSafe = true → allowed e)
include hsafe

theorem safely (hx : Except.Safe x) (hk : ∀ a, Except.Fails allowed (k a)) : Except.Fails allowed (x >>= k) :=
  .bind (hx.mono hsafe) hk

theorem reads {form : Value → Except Fault α} (h : Except.Fails allowed (frame.get r))
    (hform : ∀ v, Except.Safe (form v)) (hk : ∀ a, Except.Fails allowed (k a)) :
    Except.Fails allowed (frame.get r >>= fun v => form v >>= k) :=
  .bind h fun v => safely hsafe (hform v) hk

theorem views (h : Except.Fails allowed (frame.get r))
    (hk : ∀ a, Views frame r a → Except.Fails allowed (k a)) :
    Except.Fails allowed (frame.get r >>= fun v => v.asView >>= k) :=
  h.bind_ok fun v hv => ((safe_asView v).mono hsafe).bind_ok fun a ha => hk a ⟨v, hv, ha⟩

theorem fails_fill (h : ∀ r ∈ rs, Except.Fails allowed (frame.get r)) :
    Except.Fails allowed (fill frame elem i data rs) := by
  induction rs generalizing i data with
  | nil => exact .ok _
  | cons q rs ih =>
    exact reads hsafe (h q mem_cons_self) (fun _ => safe_expect _ rfl) fun _ =>
      ih fun r hr => h r (mem_cons_of_mem q hr)

theorem fails_makeTensor (h : ∀ r ∈ rs, Except.Fails allowed (frame.get r)) :
    Except.Fails allowed (makeTensor frame t rs) := by
  unfold makeTensor
  split
  · exact .bind (fails_fill hsafe h) fun _ => .ok _
  · exact .error (hsafe _ rfl)

theorem fails_index (h : Except.Fails allowed (frame.get r)) : Except.Fails allowed (index frame r) :=
  reads hsafe h (fun _ => safe_expect _ rfl) fun _ => .ok _

/-- Evaluation fails as reading its operands does, as its kernels do, or as other work on values. -/
theorem fails_eval (m : Ir.Module) (f : Ir.Function) (dst : Reg) {rhs : Rhs}
    (hget : ∀ r ∈ rhs.uses, Except.Fails allowed (frame.get r)) (hkernels : KernelsFail allowed frame rhs) :
    Except.Fails allowed (eval m f frame dst rhs) := by
  have hbits (v : Value) : Except.Safe v.asBits := safe_expect _ rfl
  have hty : Except.Safe (regTy m f dst) := safe_expect _ rfl
  cases rhs with
  | const c => exact (safe_expect _ rfl).mono hsafe
  | binary op k l r checked | compare op k l r =>
    refine reads hsafe (hget l (by simp [Rhs.uses])) hbits fun _ =>
      reads hsafe (hget r (by simp [Rhs.uses])) hbits fun _ => ?_
    first
      | exact .ok _
      | exact safely hsafe (safe_arith _) fun _ => .ok _
  | unary op k s checked =>
    exact reads hsafe (hget s (by simp [Rhs.uses])) hbits fun _ => safely hsafe (safe_arith _) fun _ => .ok _
  | convert a b s => exact reads hsafe (hget s (by simp [Rhs.uses])) hbits fun _ => .ok _
  | complexBinary op k l r | complexCompare op k l r =>
    exact reads hsafe (hget l (by simp [Rhs.uses])) safe_asParts fun _ =>
      reads hsafe (hget r (by simp [Rhs.uses])) safe_asParts fun _ => safely hsafe (safe_arith _) fun _ => .ok _
  | complexUnary op k s =>
    exact reads hsafe (hget s (by simp [Rhs.uses])) safe_asParts fun _ =>
      safely hsafe (safe_arith _) fun _ => .ok _
  | complexPart p k s => exact reads hsafe (hget s (by simp [Rhs.uses])) safe_asParts fun _ => .ok _
  | makeComplex k re im =>
    exact reads hsafe (hget re (by simp [Rhs.uses])) hbits fun _ =>
      reads hsafe (hget im (by simp [Rhs.uses])) hbits fun _ => .ok _
  | makeStruct rs => exact .bind (.mapM hget) fun _ => safely hsafe hty fun _ => .ok _
  | extractField s i => exact .bind (hget s (by simp [Rhs.uses])) fun _ => (safe_expect _ rfl).mono hsafe
  | insertField s i v =>
    refine .bind (hget s (by simp [Rhs.uses])) fun w => ?_
    cases w with
    | struct t fields =>
      dsimp only
      split
      · exact .bind (hget v (by simp [Rhs.uses])) fun _ => .ok _
      · exact .error (hsafe _ rfl)
    | _ => exact .error (hsafe _ rfl)
  | stackSlot s | funcRef g => exact safely hsafe hty fun _ => .ok _
  | load addr =>
    refine reads hsafe (hget addr (by simp [Rhs.uses])) safe_asSlot fun s => ?_
    unfold Frame.load
    split
    · exact .ok _
    · exact .error (hsafe _ rfl)
  | makeTensor rs => exact safely hsafe hty fun _ => fails_makeTensor hsafe hget
  | tensorBinary op l r checked =>
    refine (hget l (by simp [Rhs.uses])).bind_ok fun x hx => (hget r (by simp [Rhs.uses])).bind_ok fun y hy => ?_
    refine ((safe_asView x).mono hsafe).bind_ok fun a ha => ((safe_asView y).mono hsafe).bind_ok fun b hb => ?_
    exact .bind (hkernels a b ⟨x, hx, ha⟩ ⟨y, hy, hb⟩) fun _ => safely hsafe hty fun _ => .ok _
  | tensorScale s g checked =>
    refine (hget s (by simp [Rhs.uses])).bind_ok fun x hx => reads hsafe (hget g (by simp [Rhs.uses]))
      (fun _ => safe_expect _ rfl) fun y => ((safe_asView x).mono hsafe).bind_ok fun a ha => ?_
    exact .bind (hkernels a y ⟨x, hx, ha⟩) fun _ => safely hsafe hty fun _ => .ok _
  | dot l r =>
    exact views hsafe (hget l (by simp [Rhs.uses])) fun a ha =>
      views hsafe (hget r (by simp [Rhs.uses])) fun b hb =>
      .bind (hkernels a b ha hb) fun _ => .ok _
  | matmul l r =>
    exact views hsafe (hget l (by simp [Rhs.uses])) fun a ha =>
      views hsafe (hget r (by simp [Rhs.uses])) fun b hb =>
      .bind (hkernels a b ha hb) fun _ => safely hsafe hty fun _ => safely hsafe (safe_conform _ _) fun _ => .ok _
  | sum s => exact views hsafe (hget s (by simp [Rhs.uses])) fun a ha => .bind (hkernels a ha) fun _ => .ok _
  | extractElement s is =>
    refine views hsafe (hget s mem_cons_self) fun a ha =>
      .bind (.mapM fun r hr => fails_index hsafe (hget r (mem_cons_of_mem s hr))) fun xs => ?_
    obtain ⟨hflat, hentry⟩ := hkernels a xs ha
    refine hflat.bind_ok fun i hi => .bind (hentry i ?_) fun _ => .ok _
    cases h : a.shape.flatIndex xs with
    | error e => simp [kernel, h, Except.mapError] at hi
    | ok j => simpa [kernel, h, Except.mapError] using hi
  | dim s axis =>
    exact reads hsafe (hget s (by simp [Rhs.uses])) safe_asView fun _ =>
      safely hsafe (safe_expect _ rfl) fun _ => .ok _
  | tensorCast s =>
    refine safely hsafe hty fun _ => .bind (hget s (by simp [Rhs.uses])) fun w => ?_
    cases w with
    | tensor t shape data => exact safely hsafe (safe_conform _ _) fun _ => .ok _
    | _ => exact .error (hsafe _ rfl)
  | call | callIndirect | phi => exact .error (hsafe _ rfl)

end

/-- What an operation on registers may fail with: as values do, or because one of the registers
holds nothing. -/
def Reading (frame : Frame) (rs : List Reg) (e : Fault) : Prop :=
  e.isCalm = true ∨ ∃ r ∈ rs, frame.get r = .error e

section
variable {frame : Frame} {rs : List Reg}

theorem reading_of_safe (h : e.isSafe = true) : Reading frame rs e := .inl (Bool.and_eq_true_iff.1 h).1

theorem reading_of_calm (h : Except.Calm x) : Except.Fails (Reading frame rs) x :=
  h.mono fun _ => .inl

theorem reading_get (h : r ∈ rs) : Except.Fails (Reading frame rs) (frame.get r) :=
  fun _ heq => .inr ⟨r, h, heq⟩

theorem reading_mapM_get {qs : List Reg} (h : ∀ r ∈ qs, r ∈ rs) :
    Except.Fails (Reading frame rs) (qs.mapM frame.get) := .mapM fun r hr => reading_get (h r hr)

/-- Evaluation fails to read only the registers that its right-hand side uses. -/
theorem reading_eval (m : Ir.Module) (f : Ir.Function) (frame : Frame) (dst : Reg) (rhs : Rhs) :
    Except.Fails (Reading frame rhs.uses) (eval m f frame dst rhs) :=
  fails_eval (fun _ => reading_of_safe) m f dst (fun _ => reading_get)
    (kernelsFail_of_calm (fun _ => .inl) frame rhs)

end

theorem calm_set {frame : Frame} : Except.Calm (frame.set r v) := by
  unfold Frame.set
  split
  · exact .ok _
  · exact .error rfl

theorem calm_setAll {frame : Frame} : Except.Calm (frame.setAll copies) := by
  induction copies generalizing frame with
  | nil => exact .ok _
  | cons c copies ih => exact .bind calm_set fun _ => ih

theorem calm_store (frame : Frame) (s : UInt32) (v : Value) : Except.Calm (frame.store s v) := by
  unfold Frame.store
  split
  · exact .ok _
  · exact .error rfl

theorem reading_execInstr {i : Instr} : Except.Fails (Reading frame i.uses) (execInstr m f frame i) := by
  cases i with
  | define dst rhs => exact .bind (reading_eval m f frame dst rhs) fun _ => reading_of_calm calm_set
  | store addr value =>
    exact reads (fun _ => reading_of_safe) (reading_get (by simp [Instr.uses])) safe_asSlot fun _ =>
      .bind (reading_get (by simp [Instr.uses])) fun _ => reading_of_calm (calm_store _ _ _)

theorem defined_of_execInstr (h : execInstr m f frame i = .ok frame') :
    (∀ r, Defined frame r → Defined frame' r) ∧ ∀ r, i.dst? = some r → Defined frame' r := by
  cases i with
  | define dst rhs =>
    obtain ⟨v, -, hset⟩ := Except.bind_eq_ok.1 h
    refine ⟨fun r hr => hr.of_set hset, fun r hr => ?_⟩
    cases hr
    exact ⟨v, Frame.get_of_set_self hset⟩
  | store addr value =>
    obtain ⟨_, -, h⟩ := Except.bind_eq_ok.1 h
    obtain ⟨_, -, h⟩ := Except.bind_eq_ok.1 h
    obtain ⟨_, -, h⟩ := Except.bind_eq_ok.1 h
    exact ⟨fun r ⟨v, hv⟩ => ⟨v, (Frame.get_of_store h r).trans hv⟩, fun _ hr => nomatch hr⟩

end Exec

/-! ## Definitions along edges -/

theorem Ir.Flow.Reaches.mono {fl : Flow} (h : fl.Reaches r index (some p))
    (hle : p ≤ q) : fl.Reaches r index (some q) := by
  obtain ⟨site, hsite, havailable⟩ := h
  refine ⟨site, hsite, ?_⟩
  unfold Flow.available at havailable ⊢
  split
  · rename_i hblock
    simp only [hblock, if_true, Option.all_some, decide_eq_true_eq] at havailable ⊢
    omega
  · rename_i hblock
    simpa only [hblock, if_false] using havailable

namespace Ir.Function

variable {f : Function} {r : Reg}

theorem reaches_end (hb : f.blocks[index]? = some b)
    (h : f.flow.Reaches r index none) : f.flow.Reaches r index (some (b.instrs.length + 1)) := by
  obtain ⟨site, hsite, havailable⟩ := h
  refine ⟨site, hsite, ?_⟩
  unfold Flow.available at havailable ⊢
  split
  · rename_i hblock
    rcases Definitions.defines_of_sites hsite with ⟨-, rfl⟩ | ⟨c, k, i, hc, hk, hi, -⟩
    · simp
    · obtain rfl : c = b := Option.some.inj ((hblock ▸ hc).symm.trans hb)
      have := (List.getElem?_eq_some_iff.1 hi).1
      simp [hk]
      omega
  · rename_i hblock
    simpa only [hblock, if_false] using havailable

/-- A definition that reaches the start of a block is a parameter, or from another block that
dominates it. -/
theorem reaches_first (h : f.flow.Reaches r index (some 1)) : r ∈ f.params ∨
    ∃ site, f.flow.sites[r.index.toNat]? = some (some site) ∧ site.block ≠ index ∧
      f.flow.doms.dominates site.block index = true := by
  obtain ⟨site, hsite, havailable⟩ := h
  unfold Flow.available at havailable
  split at havailable
  · rcases Definitions.defines_of_sites hsite with ⟨hparam, -⟩ | ⟨_, k, _, -, hk, -⟩
    · exact .inl hparam
    · simp [hk] at havailable
  · exact .inr ⟨site, hsite, ‹_›, havailable⟩

theorem settled_flow (hn : f.blocks ≠ []) : (dominators f.graph).Settled f.graph :=
  settled_dominators (by simpa using length_pos_iff.2 hn)

/-- A definition that reaches the start of a block reaches the end of every block that leads
there, parameters apart. -/
theorem reaches_start (hn : f.blocks ≠ []) (hedge : f.graph.Edge p index)
    (hp : f.graph.Reached p) (h : f.flow.Reaches r index (some 1)) :
    r ∈ f.params ∨ f.flow.Reaches r p none := by
  refine (reaches_first h).imp_right ?_
  rintro ⟨site, hsite, hne, hdominates⟩
  refine ⟨site, hsite, ?_⟩
  unfold Flow.available
  split
  · rfl
  · exact (settled_flow hn).edge hdominates hne hedge hp

theorem reaches_zero (hn : f.blocks ≠ []) (h : f.flow.Reaches r 0 (some 1)) : r ∈ f.params := by
  refine (reaches_first h).resolve_right ?_
  rintro ⟨site, -, hne, hdominates⟩
  exact hne (((settled_flow hn).closing.entry _).1 hdominates)

theorem reaches_succ (hb : f.blocks[index]? = some b)
    (hi : b.instrs[k]? = some i) (h : f.flow.Reaches r index (some (k + 2))) :
    i.dst? = some r ∨ f.flow.Reaches r index (some (k + 1)) := by
  obtain ⟨site, hsite, havailable⟩ := h
  unfold Flow.available at havailable
  split at havailable
  · rename_i hblock
    by_cases hlt : site.position < k + 1
    · exact .inr ⟨site, hsite, by simp [Flow.available, hblock, hlt]⟩
    · have hk : site.position = k + 1 := by
        have : site.position < k + 2 := by simpa using havailable
        omega
      rcases Definitions.defines_of_sites hsite with ⟨-, rfl⟩ | ⟨c, k', j, hc, hk', hj, hr⟩
      · cases hk
      · obtain rfl : c = b := Option.some.inj ((hblock ▸ hc).symm.trans hb)
        obtain rfl : k' = k := by omega
        exact .inl (Option.some.inj (hj.symm.trans hi) ▸ hr)
  · rename_i hblock
    exact .inr ⟨site, hsite, by simp [Flow.available, hblock, havailable]⟩

end Ir.Function

/-! ## Activations -/

namespace Exec.Activation

variable {m : Ir.Module} {a : Activation} {b : Block} {k : Nat} {rest : List Instr}

/-- The register holds a value, or is a phi of the entry. -/
def Holds (a : Activation) (r : Reg) : Prop := Defined a.frame r ∨ r ∈ a.func.entryPhis

/-- What verified code may fail with: as values do, or by reading a phi of the entry. -/
def Tolerates (a : Activation) (e : Fault) : Prop :=
  e.isMild = true ∨ ∃ r ∈ a.func.entryPhis, e = .internal (.undefinedRegister r a.frame.function)

theorem Tolerates.of_calm (he : e.isCalm = true) : a.Tolerates e := .inl (Fault.isMild_of_isCalm he)

theorem Holds.tolerates (h : a.Holds r) (he : a.frame.get r = .error e) : a.Tolerates e := by
  obtain ⟨heq, hundefined⟩ := get_eq_error he
  exact .inr ⟨r, h.resolve_left hundefined, heq⟩

/-- An activation before the `k`-th instruction of a block that can be reached, which holds what
its definition reaches this position, and the phis of the block. -/
structure At (m : Ir.Module) (b : Block) (k : Nat) (a : Activation) : Prop where
  checked : Scope.Checked ⟨m, a.func⟩
  block : a.func.blocks[a.block.index.toNat]? = some b
  reached : a.func.graph.Reached a.block.index.toNat
  pending : a.pending = b.instrs.drop k
  terminator : a.terminator = some b.terminator
  params : ∀ r ∈ a.func.params, Defined a.frame r
  holds : ∀ r, a.func.flow.Reaches r a.block.index.toNat (some (k + 1)) → a.Holds r
  phis : ∀ i ∈ b.instrs, i.isPhi = true → ∀ r, i.dst? = some r → a.Holds r

def OnCourse (m : Ir.Module) (a : Activation) : Prop := ∃ b k, a.At m b k

/-- An activation that is on course once it has its result. -/
def Awaits (m : Ir.Module) (a : Activation) (dst : Reg) : Prop :=
  ∀ v a', a.setReg dst v = .ok a' → a'.OnCourse m

section

variable (ha : a.At m b k) (hp : a.pending = i :: rest)
include ha hp

theorem At.instr :
    b.instrs[k]? = some i ∧ rest = b.instrs.drop (k + 1) := by
  have hdrop := ha.pending.symm.trans hp
  refine ⟨?_, ?_⟩
  · rw [← head?_drop, hdrop]
    rfl
  · rw [← tail_drop, hdrop]
    rfl

theorem At.next {frame : Frame} (hkeep : ∀ r, Defined a.frame r → Defined frame r)
    (hdst : ∀ r, i.dst? = some r → i.isPhi = true ∨ Defined frame r) : { a.rest with frame }.At m b (k + 1) := by
  obtain ⟨hi, hrest⟩ := ha.instr hp
  have hholds : ∀ r, a.Holds r → { a.rest with frame }.Holds r := fun r => Or.imp_left (hkeep r)
  refine ⟨ha.checked, ha.block, ha.reached, ?_, ha.terminator, fun r hr => hkeep r (ha.params r hr),
    fun r hr => ?_, fun j hj hphi r hr => hholds r (ha.phis j hj hphi r hr)⟩
  · simp only [rest_of_cons hp]
    exact hrest
  · rcases Function.reaches_succ ha.block hi hr with hr | hr
    · rcases hdst r hr with hphi | hdefined
      · exact hholds r (ha.phis i (mem_of_getElem? hi) hphi r hr)
      · exact .inl hdefined
    · exact hholds r (ha.holds r hr)

theorem At.uses (hphi : i.isPhi = false) (hr : r ∈ i.uses) : a.Holds r := by
  obtain ⟨hi, -⟩ := ha.instr hp
  have hserves := (ha.checked.instr _ b ha.block ha.reached k i hi).1
  unfold Flow.Serves at hserves
  split at hserves
  · cases hphi
  · exact ha.holds r (hserves r hr)

end

theorem Tolerates.of_reading (hrs : ∀ r ∈ rs, a.Holds r) (he : Reading a.frame rs e) : a.Tolerates e := by
  rcases he with he | ⟨r, hr, he⟩
  · exact .of_calm he
  · exact (hrs r hr).tolerates he

/-- What a computation comes to: a fault that verified code may have, or a result of some form. -/
def Ends {α : Type} (a : Activation) (Q : α → Prop) : Except Fault α → Prop
  | .error e => a.Tolerates e
  | .ok x => Q x

theorem Ends.bind {k : α → Except Fault β}
    (hx : Except.Fails a.Tolerates x) (hk : ∀ y, x = .ok y → a.Ends Q (k y)) : a.Ends Q (x >>= k) := by
  cases x with
  | error e => exact hx e rfl
  | ok y => exact hk y rfl

/-- What is left of a step, by what it leads to. -/
def Continues (m : Ir.Module) : Event → Prop
  | .next b => b.OnCourse m
  | .call b dst _ _ => b.Awaits m dst
  | .done _ _ => True

theorem At.awaits (ha : a.At m b k) {rhs : Rhs}
    (hp : a.pending = .define dst rhs :: rest) : a.rest.Awaits m dst := by
  intro v a' h
  obtain ⟨frame, hset, h⟩ := Except.bind_eq_ok.1 h
  cases h
  refine ⟨b, k + 1, ha.next hp (fun r hr => hr.of_set hset) fun r hr => .inr ?_⟩
  cases hr
  exact ⟨v, Frame.get_of_set_self hset⟩

theorem At.advanceInstr (ha : a.At m b k) {i : Instr} (hp : a.pending = i :: rest) :
    a.Ends (Continues m) (a.advanceInstr m i) := by
  have hread : ∀ {α : Type} {x : Except Fault α}, i.isPhi = false →
      Except.Fails (Reading a.frame i.uses) x → Except.Fails a.Tolerates x := fun hphi hx =>
    hx.mono fun _ => .of_reading fun _ hr => ha.uses hp hphi hr
  unfold Activation.advanceInstr
  split
  · exact ⟨b, k + 1, ha.next hp (fun _ h => h) fun _ _ => .inl rfl⟩
  · exact .bind (hread rfl (reading_mapM_get fun _ h => h)) fun _ _ => ha.awaits hp
  · exact .bind (hread rfl (reading_get mem_cons_self)) fun _ _ =>
      .bind ((Value.safe_expect _ rfl).calm.mono fun _ => .of_calm) fun _ _ =>
      .bind (hread rfl (reading_mapM_get fun _ => mem_cons_of_mem _)) fun _ _ => ha.awaits hp
  · rename_i hne _ _
    have hphi := eq_false_of_ne_true fun h => (Instr.isPhi_iff.1 h).elim fun dst h => h.elim (hne dst)
    refine .bind (hread hphi reading_execInstr) fun frame hexec => ?_
    obtain ⟨hkeep, hdst⟩ := defined_of_execInstr hexec
    exact ⟨b, k + 1, ha.next hp hkeep fun r hr => .inr (hdst r hr)⟩

/-! ## Edges -/

theorem phiCopies_cases (frame : Frame)
    (h : ∀ dst incoming, .define dst (.phi incoming) ∈ is → ∃ p ∈ incoming, p.1 = source) :
    Except.Fails (fun e => ∃ dst incoming p, .define dst (.phi incoming) ∈ is ∧ p ∈ incoming ∧
        p.1 = source ∧ frame.get p.2 = .error e) (phiCopies frame source is) ∧
      ∀ copies, phiCopies frame source is = .ok copies → ∀ (k : Nat) (i : Instr), is[k]? = some i →
        (is.take (k + 1)).all Instr.isPhi = true → ∀ r, i.dst? = some r → r ∈ copies.map (·.1) := by
  induction is with
  | nil => exact ⟨.ok _, fun _ _ k i hi => by simp at hi⟩
  | cons x is ih =>
    obtain ⟨hfails, hcopies⟩ := ih fun dst incoming hd => h dst incoming (mem_cons_of_mem x hd)
    by_cases hphi : ∃ dst incoming, x = .define dst (.phi incoming)
    · obtain ⟨dst, incoming, rfl⟩ := hphi
      obtain ⟨q, hq, hsource⟩ := h dst incoming mem_cons_self
      obtain ⟨p, hp⟩ := Option.isSome_iff_exists.1
        (find?_isSome (p := fun x => x.1 == source) |>.2 ⟨q, hq, by simp [hsource]⟩)
      have hmem := mem_of_find?_eq_some hp
      have hpsource : p.1 = source := by simpa using find?_some hp
      obtain ⟨s, src⟩ := p
      have heq : phiCopies frame source (.define dst (.phi incoming) :: is) = do
          let v ← frame.get src
          let copies ← phiCopies frame source is
          return (dst, v) :: copies := by
        simp [phiCopies, hp]
      rw [heq]
      refine ⟨.bind ?_ fun _ => .bind ?_ fun _ => .ok _, fun copies hok k i hi hall r hr => ?_⟩
      · exact fun e he => ⟨dst, incoming, _, mem_cons_self, hmem, hpsource, he⟩
      · refine hfails.mono fun e he => ?_
        obtain ⟨dst, incoming, p, hd, hp⟩ := he
        exact ⟨dst, incoming, p, mem_cons_of_mem _ hd, hp⟩
      · obtain ⟨v, -, hok⟩ := Except.bind_eq_ok.1 hok
        obtain ⟨rest, hrest, hok⟩ := Except.bind_eq_ok.1 hok
        cases hok
        cases k with
        | zero =>
          cases hi
          cases hr
          exact mem_cons_self
        | succ k =>
          have hall : (is.take (k + 1)).all Instr.isPhi = true := by
            rw [take_succ_cons, all_cons] at hall
            exact (Bool.and_eq_true_iff.1 hall).2
          exact mem_cons_of_mem _ (hcopies rest hrest k i (by simpa using hi) hall r hr)
    · have heq : phiCopies frame source (x :: is) = .ok [] := by
        unfold phiCopies
        split
        · rename_i hx
          cases hx
          exact absurd ⟨_, _, rfl⟩ hphi
        · rfl
      have hfalse : x.isPhi = false := eq_false_of_ne_true (mt Instr.isPhi_iff.1 hphi)
      refine ⟨by rw [heq]; exact .ok _, fun copies hok k i hi hall r hr => ?_⟩
      simp [hfalse] at hall

theorem at_enterBlock (target : BlockId) {frame : Frame} (ha : a.func = f)
    (hf : Scope.Checked ⟨m, f⟩) (hb : f.blocks[target.index.toNat]? = some b)
    (hreached : f.graph.Reached target.index.toNat) (hparams : ∀ r ∈ f.params, Defined frame r)
    (hholds : ∀ r, f.flow.Reaches r target.index.toNat (some 1) → Defined frame r ∨ r ∈ f.entryPhis)
    (hphis : ∀ i ∈ b.instrs, i.isPhi = true → ∀ r, i.dst? = some r → Defined frame r ∨ r ∈ f.entryPhis) :
    ({ a with frame }.enterBlock target).At m b 0 := by
  subst ha
  have hblock : a.func.block? target = some b := hb
  refine ⟨hf, hb, hreached, ?_, ?_, hparams, hholds, hphis⟩
  · simp [enterBlock, hblock]
  · simp [enterBlock, hblock]

theorem At.transfer (ha : a.At m b k) (hp : a.pending = [])
    (ht : target ∈ b.terminator.successors) (chain : Chain) :
    a.Ends (OnCourse m) (a.transfer target chain) := by
  have hindexed := ha.checked.indexed
  have hmem := mem_of_getElem? ha.block
  have hid : b.id = a.block := BlockId.ext_toNat (hindexed.ids _ b ha.block)
  have hedge : a.func.graph.Edge a.block.index.toNat target.index.toNat := hid ▸ hindexed.edge hmem ht
  obtain ⟨l, hl⟩ := ha.reached
  have hreached : a.func.graph.Reached target.index.toNat := ⟨_, hl.step hedge⟩
  obtain ⟨c, hc⟩ : ∃ c, a.func.blocks[target.index.toNat]? = some c :=
    ⟨_, getElem?_eq_getElem (hindexed.targets b hmem target ht)⟩
  -- all instructions of the block are done, so what reaches its end is there
  have hlen : b.instrs.length ≤ k := drop_eq_nil_iff.1 (ha.pending.symm.trans hp)
  have hend : ∀ r, a.func.flow.Reaches r a.block.index.toNat none → a.Holds r :=
    fun r hr => ha.holds r ((Function.reaches_end ha.block hr).mono (by omega))
  have hserves := fun k i hi => (ha.checked.instr _ c hc hreached k i hi).1
  have hphi : ∀ dst incoming, .define dst (.phi incoming) ∈ c.instrs →
      (∃ p ∈ incoming, p.1 = a.block) ∧ ∀ p ∈ incoming, a.func.flow.Reaches p.2 p.1.index.toNat none := by
    intro dst incoming hd
    obtain ⟨j, hj⟩ := getElem?_of_mem hd
    obtain ⟨-, hperm, hinputs⟩ := hserves j _ hj
    have hpred : a.block ∈ a.func.predecessorsOf target.index.toNat :=
      Function.mem_predecessorsOf.2 ⟨b, hmem, ⟨target, ht, rfl⟩, hid⟩
    obtain ⟨p, hp, hsource⟩ := mem_map.1 (hperm.mem_iff.2 hpred)
    exact ⟨⟨p, hp, hsource⟩, hinputs⟩
  obtain ⟨hfails, hcopies⟩ := phiCopies_cases a.frame fun dst incoming hd => (hphi dst incoming hd).1
  have hblock : a.func.block? target = some c := hc
  have hgo : a.Ends (OnCourse m) (do
      let copies ← phiCopies a.frame a.block c.instrs
      let frame ← a.frame.setAll copies
      return { a with frame }.enterBlock target) := by
    refine .bind (hfails.mono fun e he => ?_) fun copies hphis => ?_
    · obtain ⟨dst, incoming, p, hd, hp, hsource, he⟩ := he
      exact (hend p.2 (hsource ▸ (hphi dst incoming hd).2 p hp)).tolerates he
    refine .bind (calm_setAll.mono fun _ => .of_calm) fun frame hset => ?_
    have hkeep : ∀ r, Defined a.frame r → Defined frame r := by
      intro r hr
      by_cases hmem : r ∈ copies.map (·.1)
      · exact defined_of_setAll hset hmem
      · obtain ⟨v, hv⟩ := hr
        exact ⟨v, (Frame.get_of_setAll_not_mem hset hmem).trans hv⟩
    refine ⟨c, 0, at_enterBlock _ rfl ha.checked hc hreached
      (fun r hr => hkeep r (ha.params r hr)) (fun r hr => ?_) fun i hi hphi r hr => .inl ?_⟩
    · rcases Function.reaches_start ha.checked.nonempty hedge ⟨l, hl⟩ hr with hr | hr
      · exact .inl (hkeep r (ha.params r hr))
      · exact (hend r hr).imp_left (hkeep r)
    · obtain ⟨j, hj⟩ := getElem?_of_mem hi
      refine defined_of_setAll hset (hcopies copies hphis j i hj ?_ r hr)
      obtain ⟨dst, incoming, rfl⟩ := Instr.isPhi_iff.1 hphi
      rw [take_add_one, hj, all_append, (hserves j _ hj).1]
      rfl
  unfold Activation.transfer
  simp only [hblock]
  split
  · exact .bind ((chain.mild_checkAbort).mono fun _ => .inl) fun _ _ => hgo
  · exact hgo

theorem OnCourse.advance (ha : a.OnCourse m) (chain : Chain) : a.Ends (Continues m) (a.advance m chain) := by
  obtain ⟨b, k, ha⟩ := ha
  cases hp : a.pending with
  | cons i rest =>
    rw [advance_cons hp]
    exact ha.advanceInstr hp
  | nil =>
    rw [advance_nil hp ha.terminator]
    have hend := (ha.checked.terminator _ b ha.block ha.reached).1
    have hlen : b.instrs.length ≤ k := drop_eq_nil_iff.1 (ha.pending.symm.trans hp)
    have hread : ∀ r ∈ b.terminator.uses, Except.Fails a.Tolerates (a.frame.get r) := fun r hr _ he =>
      (ha.holds r ((hend r hr).mono (by omega))).tolerates he
    have hgo : ∀ target ∈ b.terminator.successors,
        a.Ends (Continues m) (do return .next (← a.transfer target chain)) := by
      intro target ht
      have htransfer := ha.transfer hp ht chain
      generalize a.transfer target chain = x at htransfer
      cases x with
      | error | ok => exact htransfer
    unfold advanceEnd
    cases hterm : b.terminator with
    | jump target => exact hgo target (by simp [hterm, Terminator.successors])
    | branch cond thenBlock elseBlock =>
      refine .bind (hread cond (by simp [hterm, Terminator.uses])) fun v _ => ?_
      refine .bind ((Value.safe_expect _ rfl).calm.mono fun _ => .of_calm) fun c _ => hgo _ ?_
      cases c <;> simp [hterm, Terminator.successors]
    | ret r =>
      exact .bind (.bind (hread r (by simp [hterm, Terminator.uses])) fun _ => .ok _) fun _ _ => trivial

theorem onCourse_of_new (hf : Scope.Checked ⟨m, f⟩) {args : List Value}
    (h : Activation.new f args = .ok a) : a.OnCourse m := by
  obtain ⟨frame, hframe, h⟩ := Except.bind_eq_ok.1 h
  cases h
  obtain ⟨b, rest, hblocks⟩ := exists_cons_of_ne_nil hf.nonempty
  have hb : f.blocks[0]? = some b := by rw [hblocks]; rfl
  have hparams : ∀ r ∈ f.params, Defined frame r := by
    intro r hr
    unfold Frame.new at hframe
    split at hframe
    · rename_i hlen
      refine defined_of_setAll hframe ?_
      rwa [map_fst_zip (by omega)]
    · cases hframe
  have hzero : (⟨0⟩ : BlockId).index.toNat = 0 := rfl
  refine ⟨b, 0, at_enterBlock (a := ⟨f, frame, ⟨0⟩, [], none⟩) ⟨0⟩ rfl hf ?_ ?_ hparams
    (fun r hr => ?_) fun i hi hphi r hr => .inr (Function.mem_entryPhis hb hi hphi hr)⟩
  · rw [hzero, hb]
  · rw [hzero]
    exact ⟨_, .start⟩
  · rw [hzero] at hr
    exact .inl (hparams r (Function.reaches_zero hf.nonempty hr))

end Exec.Activation

/-! ## Interpreters -/

namespace Exec.Interpreter

variable {σ : Type} {m : Ir.Module} {bridge : Bridge σ} {i j : Interpreter σ}

theorem calm_new : Except.Calm (Activation.new f args) := by
  refine .bind ?_ fun _ => .ok _
  unfold Frame.new
  split
  · exact calm_setAll
  · exact .error rfl

theorem calm_setReg {a : Activation} : Except.Calm (a.setReg dst v) :=
  .bind calm_set fun _ => .ok _

/-- The active function is on course, and so is every caller once it has its result. -/
structure OnCourse (m : Ir.Module) (i : Interpreter σ) : Prop where
  active : i.active.OnCourse m
  suspended : ∀ p ∈ i.suspended, p.1.Awaits m p.2

theorem OnCourse.step (hm : m.Checked) (hi : i.OnCourse m) (hstep : step m bridge i = some (.ok none, j)) :
    j.OnCourse m := by
  have hadv := hi.active.advance i.session.chain
  cases step_cases hstep with
  | next h =>
    rw [h] at hadv
    exact ⟨hadv, hi.suspended⟩
  | returned _ hs hset =>
    obtain ⟨hcaller, hrest⟩ := forall_mem_cons.1 (hs ▸ hi.suspended)
    exact ⟨hcaller _ _ hset, hrest⟩
  | called h hcall =>
    rw [h] at hadv
    cases hcall with
    | started _ hf _ hnew =>
      exact ⟨Activation.onCourse_of_new (hm _ (mem_of_getElem? hf)) hnew,
        forall_mem_cons.2 ⟨hadv, hi.suspended⟩⟩
    | answered _ _ hset => exact ⟨hadv _ _ hset, hi.suspended⟩

theorem OnCourse.steps (hm : m.Checked) (hi : i.OnCourse m) (h : StepsTo m bridge n i j) :
    j.OnCourse m := by
  induction n generalizing i with
  | zero => exact h ▸ hi
  | succ n ih =>
    obtain ⟨k, hstep, hrest⟩ := h
    exact ih (hi.step hm hstep) hrest

/-- The next step is a call, which goes over the bridge and fails there. -/
def Refused (m : Ir.Module) (bridge : Bridge σ) (i : Interpreter σ) (e : Fault) (j : Interpreter σ) : Prop :=
  ∃ a dst target args, i.active.advance m i.session.chain = .ok (.call a dst target args) ∧
    bridge.Raises (· = target) e i.session j.session

/-- How a step of an interpreter on course fails. -/
theorem OnCourse.faults (hi : i.OnCourse m) (hstep : Interpreter.step m bridge i = some (.error e, j)) :
    i.active.Tolerates e ∨ i.Refused m bridge e j := by
  cases step_cases hstep with
  | failed h =>
    have hadv := hi.active.advance i.session.chain
    rw [h] at hadv
    exact .inl hadv
  | unset _ _ hset => exact .inl (.of_calm (calm_setReg e hset))
  | refused h hcall =>
    cases hcall with
    | aborted habort => exact .inl (.inl (Chain.mild_checkAbort _ e habort))
    | undecided hmode => exact .inr ⟨_, _, _, _, h, .undecided rfl hmode⟩
    | unknown => exact .inl (.inl rfl)
    | tooDeep _ henter => exact .inl (.of_calm (Chain.calm_enter e henter))
    | unbound _ _ _ hnew => exact .inl (.of_calm (calm_new e hnew))
    | failed hmode hcall => exact .inr ⟨_, _, _, _, h, .decided rfl hmode (.failed rfl hcall)⟩
    | unset _ _ hset => exact .inl (.of_calm (calm_setReg e hset))

theorem length_of_paramTys (hf : Scope.Checked ⟨m, f⟩)
    (hps : m.paramTys? f = some ps) : ps.length = f.params.length := by
  have hall : ∀ r ∈ f.params, (f.regType? r).isSome = true := fun r hr => by
    simpa [Function.regType?] using Definitions.params_lt hf.definitions hr
  have hlen : f.paramTypes.length = f.params.length := by
    unfold Function.paramTypes
    rw [length_filterMap_eq_countP, countP_eq_length]
    exact hall
  rw [← hlen]
  exact (mapM_eq_some.1 hps).length_eq.symm

/-- In a valid module, every function starts on arguments of the types of its parameters, and
whatever it runs, an edge has an input for each phi of its target and a register that is read
holds a value, unless it is a phi of the entry block. -/
theorem verified_code_reads_defined {m : Ir.Module} {strict : Bool}
    (hvalid : m.verify.valid strict = true) {f : Ir.Function} (hf : f ∈ m.functions) {ps : List Ty}
    (hps : m.paramTys? f = some ps) {args : List Value} (hargs : args.map Value.ty = ps) :
    ∃ a, Activation.new f args = .ok a ∧ ∀ {σ : Type} (bridge : Bridge σ) (session : Session σ) (n : Nat)
      (i : Interpreter σ), StepsTo m bridge n ⟨a, [], session⟩ i → ∀ e j,
        step m bridge i = some (.error e, j) → i.Refused m bridge e j ∨
          (∀ dst source, e ≠ .internal (.phiInput dst source)) ∧
          ∀ r name, e = .internal (.undefinedRegister r name) → r ∈ i.active.func.entryPhis := by
  have hm := Module.checked_of_valid hvalid
  have hlen : args.length = f.params.length := by
    rw [← length_of_paramTys (hm f hf) hps, ← hargs, List.length_map]
  obtain ⟨frame, hframe⟩ : ∃ g, Frame.new f.name f.params f.regTypes.size f.slotTypes.size args = .ok g :=
    Frame.new_isOk hlen fun r hr => Definitions.params_lt (hm f hf).definitions hr
  obtain ⟨a, ha⟩ : ∃ a, Activation.new f args = .ok a :=
    ⟨_, by simp only [Activation.new, hframe, Except.ok_bind]; rfl⟩
  refine ⟨a, ha, fun bridge session n i hsteps e j hstep => ?_⟩
  have hstart : OnCourse m ⟨a, [], session⟩ := ⟨Activation.onCourse_of_new (hm f hf) ha, by simp⟩
  rcases (hstart.steps hm hsteps).faults hstep with (hcalm | ⟨r, hr, rfl⟩) | hraised
  · refine .inr ⟨?_, ?_⟩
    · rintro dst source rfl
      cases hcalm
    · rintro r name rfl
      cases hcalm
  · refine .inr ⟨fun _ _ h => (by cases h), fun r' name h => ?_⟩
    cases h
    exact hr
  · exact .inl hraised

/-- A loop that goes on as long as its argument is true, with a phi that carries the argument. -/
def carry : Ir.Module where
  types := ⟨#[.bool]⟩
  functions := [{
    id := ⟨0⟩, name := "carry", params := [⟨0⟩], retType := ⟨0⟩
    regTypes := #[⟨0⟩, ⟨0⟩], slotTypes := #[]
    blocks := [
      ⟨⟨0⟩, "entry", [], .jump ⟨1⟩⟩,
      ⟨⟨1⟩, "loop", [.define ⟨1⟩ (.phi [(⟨0⟩, ⟨0⟩), (⟨1⟩, ⟨1⟩)])], .branch ⟨1⟩ ⟨1⟩ ⟨2⟩⟩,
      ⟨⟨2⟩, "exit", [], .ret ⟨1⟩⟩] }]

theorem verified_code_reads_defined_carry :
    carry.verify.valid true = true ∧ ∃ f ∈ carry.functions, ∃ a i,
      Activation.new f [.ofBool true] = .ok a ∧
      StepsTo carry .closed 5 ⟨a, [], ⟨{ maxDepth := 1 }, ()⟩⟩ i ∧ i.active.func.entryPhis = [] ∧
      ∀ e j, step carry .closed i = some (.error e, j) → i.Refused carry .closed e j ∨
        (∀ dst source, e ≠ .internal (.phiInput dst source)) ∧
        ∀ r name, e = .internal (.undefinedRegister r name) → r ∈ i.active.func.entryPhis := by
  have hvalid : carry.verify.valid true = true := by cbv
  have hargs : [Value.ofBool true].map Value.ty = [.bool] := rfl
  obtain ⟨a, ha, hreads⟩ := verified_code_reads_defined hvalid (f := carry.functions.head (by simp [carry]))
    (List.head_mem _) rfl hargs
  obtain ⟨i, hi, hphis⟩ : ∃ i, StepsTo carry .closed 5 ⟨a, [], ⟨{ maxDepth := 1 }, ()⟩⟩ i ∧
      i.active.func.entryPhis = [] := by
    cases ha
    exact ⟨_, ⟨_, rfl, _, rfl, _, rfl, _, rfl, _, rfl, rfl⟩, rfl⟩
  exact ⟨hvalid, _, List.head_mem _, a, i, ha, hi, hphis, hreads _ _ _ _ hi⟩

/-- A function whose entry block has a phi, and leads back to it. -/
def selfPhi : Ir.Module where
  types := ⟨#[.bool]⟩
  constants := ⟨#[.ofBool true]⟩
  functions := [{
    id := ⟨0⟩, name := "f", params := [], retType := ⟨0⟩
    regTypes := #[⟨0⟩, ⟨0⟩], slotTypes := #[]
    blocks := [
      ⟨⟨0⟩, "entry", [.define ⟨0⟩ (.phi [(⟨0⟩, ⟨0⟩)]), .define ⟨1⟩ (.const ⟨0⟩)], .branch ⟨1⟩ ⟨1⟩ ⟨0⟩⟩,
      ⟨⟨1⟩, "exit", [], .ret ⟨0⟩⟩] }]

/-- A phi of the entry block is accepted, and read before anything has written it. -/
theorem entry_phi_read_undefined :
    selfPhi.verify.valid true = true ∧ ∃ f ∈ selfPhi.functions, selfPhi.paramTys? f = some [] ∧
      ∃ a i j, Activation.new f [] = .ok a ∧
        StepsTo selfPhi .closed 3 ⟨a, [], ⟨{ maxDepth := 1 }, ()⟩⟩ i ∧
        step selfPhi .closed i = some (.error (.internal (.undefinedRegister ⟨0⟩ "f")), j) ∧
        ¬i.Refused selfPhi .closed (.internal (.undefinedRegister ⟨0⟩ "f")) j := by
  refine ⟨by cbv, _, List.mem_singleton.2 rfl, rfl, _, _, _, rfl,
    ⟨_, rfl, _, rfl, _, rfl, rfl⟩, rfl, fun h => ?_⟩
  obtain ⟨_, _, _, _, h, -⟩ := h
  cases h

end Exec.Interpreter

end NumericEngine
