import NumericEngine.Proofs.Code.Program

/-!
# What a check of code establishes

A program has no errors exactly when each of its instructions follows the rules
at its place, there is at least one, the last one never goes on to a next slot,
and all of them fit into the slots that a function may have.
-/

namespace NumericEngine.Code

/-- The slots at which the instructions of a program start. -/
def starts (p : List Insn) : List Nat := (placed 0 p).map (·.1)

/-- An instruction that follows the rules at its slot, in a program whose instructions start at the
given slots. -/
structure Insn.Checked (functions : Nat) (starts : List Nat) (slot : Nat) (i : Insn) : Prop where
  known : i.isKnown = true
  dst : i.dst ≤ fp
  src : i.src ≤ fp
  frame : i.writesDst = true → i.dst ≠ fp
  jump : i.isJump = true → ∃ t ∈ starts, jumpTarget slot i = t
  function : i.form = .callFunction → i.imm.toUInt32.toNat < functions
  helper : i.form = .callHelper → (Helper.ofHash? i.imm.toUInt32).isSome = true

theorem lands_iff {starts : List Nat} : lands starts target = true ↔ ∃ t ∈ starts, target = t := by
  simp only [lands, Bool.and_eq_true, decide_eq_true_eq, List.contains_iff_mem]
  constructor
  · rintro ⟨hpos, hmem⟩
    exact ⟨_, hmem, (Int.toNat_of_nonneg hpos).symm⟩
  · rintro ⟨t, hmem, rfl⟩
    exact ⟨Int.natCast_nonneg t, by simpa using hmem⟩

theorem callErrors_eq_nil :
    callErrors functions slot i = [] ↔
      (i.form = .callFunction → i.imm.toUInt32.toNat < functions) ∧
        (i.form = .callHelper → (Helper.ofHash? i.imm.toUInt32).isSome = true) := by
  unfold callErrors
  cases i.form with
  | callFunction => simp
  | callHelper => cases h : Helper.ofHash? i.imm.toUInt32 <;> simp [h]
  | _ => simp

theorem insnErrors_eq_nil {functions : Nat} {starts : List Nat} :
    insnErrors functions starts slot i = [] ↔ i.Checked functions starts slot := by
  have hregs : ([i.dst, i.src].filterMap fun r =>
      if fp < r then some (CodeError.invalidRegister (slot * 8) r) else none) = [] ↔
        i.dst ≤ fp ∧ i.src ≤ fp := by
    simp [List.filterMap_eq_nil_iff, UInt8.not_lt]
  have hframe : (if i.writesDst && i.dst == fp then [CodeError.framePointerWrite (slot * 8)] else []) =
      [] ↔ (i.writesDst = true → i.dst ≠ fp) := by
    simp
  have hjump : (if i.isJump && !lands starts (jumpTarget slot i) then
      [CodeError.badJumpTarget (slot * 8) (jumpTarget slot i)] else []) = [] ↔
        (i.isJump = true → ∃ t ∈ starts, jumpTarget slot i = t) := by
    simp [← lands_iff]
  unfold insnErrors
  cases hknown : i.isKnown with
  | false => exact ⟨fun h => by simp at h, fun h => by simp [h.known] at hknown⟩
  | true =>
    simp only [Bool.not_true, Bool.false_eq_true, if_false, List.append_eq_nil_iff, hregs, hframe, hjump,
      callErrors_eq_nil]
    exact ⟨fun ⟨⟨⟨⟨hd, hs⟩, hf⟩, hj⟩, hfun, hh⟩ => ⟨hknown, hd, hs, hf, hj, hfun, hh⟩,
      fun h => ⟨⟨⟨⟨h.dst, h.src⟩, h.frame⟩, h.jump⟩, h.function, h.helper⟩⟩

theorem endErrors_eq_nil : endErrors p = [] ↔ ∀ i, p.getLast? = some i → i.isTerminal = true := by
  unfold endErrors
  cases p.getLast? with
  | none => simp
  | some i => simp

/-- A program that follows the rules, whatever its size. -/
structure Sound (functions : Nat) (p : List Insn) : Prop where
  nonempty : p ≠ []
  insn : ∀ slot i, (slot, i) ∈ placed 0 p → i.Checked functions (starts p) slot
  last : ∀ i, p.getLast? = some i → i.isTerminal = true

theorem sound_of_check (h : (check functions p).errors = []) : Sound functions p := by
  simp only [check, List.append_eq_nil_iff] at h
  obtain ⟨⟨⟨hempty, -⟩, hinsns⟩, hlast⟩ := h
  refine ⟨fun hp => by simp [hp] at hempty, fun slot i hmem => ?_, endErrors_eq_nil.1 hlast⟩
  exact insnErrors_eq_nil.1 (List.flatMap_eq_nil_iff.1 hinsns (slot, i) hmem)

namespace Sound

theorem encodable (h : Sound functions p) (hwide : ∀ i ∈ p, i.wide.isSome ↔ i.opcode = Insn.lddw) :
    ∀ i ∈ p, i.Encodable := by
  intro i hi
  obtain ⟨slot, hslot⟩ := placed_of_mem 0 hi
  have hc := h.insn slot i hslot
  have hlt : fp < 16 := by decide
  exact ⟨UInt8.lt_of_le_of_lt hc.dst hlt, UInt8.lt_of_le_of_lt hc.src hlt, hwide i hi⟩

theorem zero_mem_starts (h : Sound functions p) : 0 ∈ starts p := by
  cases p with
  | nil => exact absurd rfl h.nonempty
  | cons i p => simp [starts, placed]

theorem next (h : Sound functions p) (hmem : (slot, i) ∈ placed 0 p)
    (hterm : i.isTerminal = false) : slot + i.slots ∈ starts p :=
  (placed_next hmem).resolve_right fun hlast => by simp [h.last i hlast] at hterm

end Sound

end NumericEngine.Code
