import NumericEngine.Proofs.Exec.Dataflow

/-!
# Where a request to abort is seen

An activation looks at its chain only when control goes to a block that is no
later, and the interpreter does so for each call. Code in which neither happens
never ends because of a request to abort.
-/

namespace NumericEngine

open Exec
open Ir (Instr)

/-- Faults that code comes to by itself, whatever chain and stack it runs on. -/
def Fault.isOwn (f : Fault) : Bool := !f.isOverflow && f.kind != .aborted

theorem Fault.isOwn_of_isCalm {f : Fault} (h : f.isCalm = true) : f.isOwn = true := by
  simp [isOwn, isOverflow_of_isMild (isMild_of_isCalm h), kind_of_isCalm h]

theorem Fault.isOverflow_of_isOwn {f : Fault} (h : f.isOwn = true) : f.isOverflow = false := by
  simp only [isOwn, Bool.and_eq_true, Bool.not_eq_true'] at h
  exact h.1

theorem Fault.kind_of_isOwn {f : Fault} (h : f.isOwn = true) : f.kind ≠ .aborted :=
  bne_iff_ne.1 (Bool.and_eq_true_iff.1 h).2

abbrev Except.Own {α : Type} (x : Except Fault α) : Prop := Except.Fails (·.isOwn = true) x

theorem own_of_calm (h : Except.Calm x) : Except.Own x := h.mono fun _ => Fault.isOwn_of_isCalm

theorem own_of_reading (h : Except.Fails (Reading frame rs) x) : Except.Own x := by
  refine h.mono fun e he => ?_
  rcases he with he | ⟨r, -, he⟩
  · exact Fault.isOwn_of_isCalm he
  · rw [(get_eq_error he).1]
    rfl

theorem own_get {frame : Frame} (r : Reg) : Except.Own (frame.get r) :=
  own_of_reading (reading_get (List.mem_singleton_self r))

def Ir.Instr.isCall : Instr → Bool
  | .define _ (.call ..) | .define _ (.callIndirect ..) => true
  | _ => false

/-- Code that does not call, and whose control goes to later blocks only. -/
structure Ir.Function.Unpolled (f : Ir.Function) : Prop where
  edges : ∀ (i : Nat) b, f.blocks[i]? = some b → ∀ t ∈ b.terminator.successors, i < t.index.toNat
  calls : ∀ b ∈ f.blocks, ∀ x ∈ b.instrs, x.isCall = false

namespace Exec

namespace Activation

variable {a a' : Activation}

theorem own_phiCopies {frame : Frame} : Except.Own (phiCopies frame source is) := by
  fun_induction phiCopies frame source is with
  | case1 => exact .error rfl
  | case2 => exact .bind (own_get _) fun _ => .bind ‹_› fun _ => .ok _
  | case3 => exact .ok _

/-- What going along an edge does once the chain has been looked at. -/
def follow (a : Activation) (target : BlockId) : Except Fault Activation :=
  match a.func.block? target with
  | none => .error (.internal (.missingBlock target))
  | some b => do
    let copies ← phiCopies a.frame a.block b.instrs
    let frame ← a.frame.setAll copies
    return { a with frame }.enterBlock target

/-- An edge to a block that is no later looks at the chain, and no other does. -/
theorem transfer_eq (target : BlockId) (chain : Chain) : a.transfer target chain =
    if target.index ≤ a.block.index then chain.checkAbort >>= fun _ => a.follow target else a.follow target := by
  unfold transfer follow
  cases a.func.block? target <;> rfl

theorem own_follow : Except.Own (a.follow target) := by
  unfold follow
  split
  · exact .error rfl
  · exact .bind own_phiCopies fun _ => .bind (own_of_calm calm_setAll) fun _ => .ok _

theorem transfer_fails : Except.Fails (fun e => e.isOwn = true ∨ chain.checkAbort = .error e ∧
    target.index ≤ a.block.index) (a.transfer target chain) := by
  rw [transfer_eq]
  split
  · exact .bind (fun e he => .inr ⟨he, ‹_›⟩) fun _ => own_follow.mono fun _ => .inl
  · exact own_follow.mono fun _ => .inl

/-- What a step may fail with: a request to abort only where control may go to a block that is no later. -/
def Polls (a : Activation) (chain : Chain) (e : Fault) : Prop :=
  e.isOwn = true ∨ chain.checkAbort = .error e ∧
    ∃ t s, a.terminator = some t ∧ s ∈ t.successors ∧ s.index ≤ a.block.index

theorem advance_fails : Except.Fails (a.Polls chain) (a.advance m chain) := by
  have hown {α : Type} {x : Except Fault α} (h : Except.Own x) : Except.Fails (a.Polls chain) x :=
    h.mono fun _ => .inl
  have hargs (args : List Reg) : Except.Own (args.mapM a.frame.get) := .mapM fun r _ => own_get r
  unfold advance
  split
  · refine hown ?_
    unfold advanceInstr
    split
    · exact .ok _
    · exact .bind (hargs _) fun _ => .ok _
    · exact .bind (own_get _) fun _ => .bind (own_of_calm (Value.safe_expect _ rfl).calm) fun _ =>
        .bind (hargs _) fun _ => .ok _
    · exact .bind (own_of_reading reading_execInstr) fun _ => .ok _
  · split
    · rename_i t ht
      have hedge (s : BlockId) (hs : s ∈ t.successors) : Except.Fails (a.Polls chain) (a.transfer s chain) :=
        transfer_fails.mono fun e he => he.imp_right fun ⟨habort, hle⟩ => ⟨habort, t, s, ht, hs, hle⟩
      cases t with
      | jump target => exact .bind (hedge target (by simp [Ir.Terminator.successors])) fun _ => .ok _
      | branch cond thenBlock elseBlock =>
        refine .bind (hown (own_get _)) fun v =>
          .bind (hown (own_of_calm (Value.safe_expect _ rfl).calm)) fun b =>
          .bind (hedge _ ?_) fun _ => .ok _
        cases b <;> simp [Ir.Terminator.successors]
      | ret r => exact hown (.bind (.bind (own_get _) fun _ => .ok _) fun _ => .ok _)
    · exact hown (.error rfl)

/-- An activation of such code. -/
structure Unpolled (a : Activation) : Prop where
  func : a.func.Unpolled
  pending : ∀ x ∈ a.pending, x.isCall = false
  terminator : ∀ t, a.terminator = some t → ∀ s ∈ t.successors, a.block.index.toNat < s.index.toNat

theorem unpolled_enterBlock (hf : a.func.Unpolled) (id : BlockId) : (a.enterBlock id).Unpolled := by
  cases hb : a.func.block? id with
  | none => exact ⟨hf, by simp [enterBlock, hb], by simp [enterBlock, hb]⟩
  | some b =>
    refine ⟨hf, ?_, ?_⟩
    · simpa [enterBlock, hb] using hf.calls b (List.mem_of_getElem? hb)
    · simpa [enterBlock, hb] using hf.edges _ b hb

theorem Unpolled.transfer (ha : a.Unpolled) (h : a.transfer target chain = .ok a') : a'.Unpolled := by
  have hfollow (h : a.follow target = .ok a') : a'.Unpolled := by
    unfold follow at h
    split at h
    · cases h
    · obtain ⟨copies, -, h⟩ := Except.bind_eq_ok.1 h
      obtain ⟨frame, -, h⟩ := Except.bind_eq_ok.1 h
      cases h
      exact unpolled_enterBlock (a := { a with frame }) ha.func target
  rw [transfer_eq] at h
  split at h
  · obtain ⟨_, -, h⟩ := Except.bind_eq_ok.1 h
    exact hfollow h
  · exact hfollow h

theorem Unpolled.advance (ha : a.Unpolled) (h : a.advance m chain = .ok event) :
    (∃ a', event = .next a' ∧ a'.Unpolled) ∨ ∃ v a', event = .done v a' := by
  unfold Activation.advance at h
  split at h
  · rename_i x rest hp
    have hrest : a.rest.Unpolled := ⟨ha.func, fun y hy => ha.pending y (List.mem_of_mem_tail hy), ha.terminator⟩
    have hcall := ha.pending x (by simp [hp])
    unfold advanceInstr at h
    split at h
    · cases h
      exact .inl ⟨_, rfl, hrest⟩
    · cases hcall
    · cases hcall
    · obtain ⟨frame, -, h⟩ := Except.bind_eq_ok.1 h
      cases h
      exact .inl ⟨_, rfl, hrest.func, hrest.pending, hrest.terminator⟩
  · split at h
    · rename_i t ht
      cases t with
      | jump target =>
        obtain ⟨a', ha', h⟩ := Except.bind_eq_ok.1 h
        cases h
        exact .inl ⟨a', rfl, ha.transfer ha'⟩
      | branch cond thenBlock elseBlock =>
        obtain ⟨_, -, h⟩ := Except.bind_eq_ok.1 h
        obtain ⟨_, -, h⟩ := Except.bind_eq_ok.1 h
        obtain ⟨a', ha', h⟩ := Except.bind_eq_ok.1 h
        cases h
        exact .inl ⟨a', rfl, ha.transfer ha'⟩
      | ret r =>
        obtain ⟨⟨v, frame⟩, -, h⟩ := Except.bind_eq_ok.1 h
        cases h
        exact .inr ⟨v, _, rfl⟩
    · cases h

end Activation

namespace Interpreter

variable {σ : Type} {i j : Interpreter σ}

/-- A run of such code, which has made no calls. -/
def Unpolled (i : Interpreter σ) : Prop := i.active.Unpolled ∧ i.suspended = []

theorem Unpolled.next (hi : i.Unpolled) (h : step m bridge i = some (.ok none, j)) : j.Unpolled := by
  cases step_cases h with
  | next hadvance =>
    rcases hi.1.advance hadvance with ⟨a, heq, ha⟩ | ⟨v, a, heq⟩
    · cases heq
      exact ⟨ha, hi.2⟩
    · cases heq
  | called hadvance => rcases hi.1.advance hadvance with ⟨a, heq, -⟩ | ⟨v, a, heq⟩ <;> cases heq
  | returned _ hs => cases hi.2.symm.trans hs

theorem Unpolled.faults (hi : i.Unpolled) (h : step m bridge i = some (.error e, j)) : e.kind ≠ .aborted := by
  cases step_cases h with
  | failed hadvance =>
    rcases Activation.advance_fails e hadvance with he | ⟨-, t, s, ht, hs, hle⟩
    · exact Fault.kind_of_isOwn he
    · exact absurd (UInt32.le_iff_toNat_le.1 hle) (Nat.not_le.2 (hi.1.terminator t ht s hs))
  | refused hadvance => rcases hi.1.advance hadvance with ⟨a, heq, -⟩ | ⟨v, a, heq⟩ <;> cases heq
  | unset _ hs => cases hi.2.symm.trans hs

theorem run_unpolled {f : Ir.Function} (hf : f.Unpolled) (h : run m bridge limit f args s = some (.error e, s')) :
    e.kind ≠ .aborted := by
  rcases run_cases h with ⟨e', hnew, heq, -⟩ | ⟨a, i, hnew, hi, -⟩
  · cases heq
    exact Fault.kind_of_isCalm (calm_new e hnew)
  · obtain ⟨frame, -, hnew⟩ := Except.bind_eq_ok.1 hnew
    cases hnew
    obtain ⟨j, hj, hlast⟩ := Run.iterate_last (fun _ _ => Unpolled.next)
      ⟨Activation.unpolled_enterBlock hf _, rfl⟩ hi
    exact hj.faults hlast

end Interpreter

end Exec

end NumericEngine
