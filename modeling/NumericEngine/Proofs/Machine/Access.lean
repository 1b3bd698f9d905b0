import NumericEngine.Proofs.Machine.Work

/-!
# Words in registers and in memory

Loads and stores of the machine, and the words that they move. The operations on
numbers take canonical words to canonical words, and a load that extends a word
as its kind asks for gives back the canonical word that was stored.
-/

namespace NumericEngine

open Code

/-! ## Operations -/

namespace Scalar

variable {k : Kind} {a : UInt64}

theorem canonical_unary (ha : k.Canonical a) (h : unary op k a checked = .ok r) : k.Canonical r := by
  by_cases hf : k.isFloat = true
  · cases k with
    | f64 => rfl
    | f32 =>
      have hword := Kind.canonical_f32_iff.1 (Kind.canonical_of_canonical .f32 a)
      cases op with
      | neg =>
        obtain ⟨r', hr', hcanonical⟩ := canonical_neg (k := .f32) rfl a checked
        cases h.symm.trans hr'
        exact hcanonical
      | abs =>
        cases h
        rw [Kind.canonical_f32_iff, UInt64.toNat_and]
        exact Nat.lt_of_le_of_lt Nat.and_le_left hword
      | sqrt =>
        cases h
        exact Floating.canonical_settle_f32 (Kind.canonical_f32_toUInt64 _)
      | not => cases h
    | _ => cases hf
  · by_cases hb : k = .bool
    · subst hb
      cases op with
      | not =>
        cases h
        rcases Kind.canonical_bool_iff.1 ha with rfl | rfl <;> decide
      | _ => cases h
    · rw [unary_of_int (eq_false_of_ne_true hf) hb] at h
      cases op with
      | not =>
        cases h
        exact k.canonical_of_canonical _
      | neg => exact canonical_binary h
      | abs =>
        simp only at h
        split at h
        · exact canonical_binary h
        · cases h
          exact ha
      | sqrt => cases h

theorem canonical_truth (p : Bool) : Kind.bool.Canonical (if p then 1 else 0) := by
  cases p <;> decide

theorem canonical_convert (source target : Kind) (ha : source.Canonical a) :
    target.Canonical (convert source target a) := by
  unfold convert
  split
  · rename_i heq
    exact heq ▸ ha
  split
  · rename_i htarget
    subst htarget
    exact canonical_truth _
  split
  · cases target with
    | f32 => exact Floating.canonical_narrow _
    | f64 => rfl
    | _ => exact Kind.canonical_of_canonical _ _
  · cases target with
    | f32 =>
      cases hsigned : source.isSigned <;> exact Kind.canonical_f32_toUInt64 _
    | f64 => rfl
    | _ => exact Kind.canonical_of_canonical _ _

end Scalar

namespace Kind

variable {k : Kind} {w : UInt64}

theorem lt_of_canonical (hw : k.Canonical w) (hk : k.isSigned = false) : w.toNat < 2 ^ (8 * k.size) := by
  rw [Canonical] at hw
  rw [← hw]
  cases k with
  | i8 | i16 | i32 | i64 => cases hk
  | bool =>
    rw [canonical]
    split <;> decide
  | u8 => exact w.toUInt8.toNat_lt
  | u16 => exact w.toUInt16.toNat_lt
  | u32 | f32 => exact w.toUInt32.toNat_lt
  | u64 | f64 => exact w.toNat_lt

/-- Bytes of a canonical word give the word back, when they are extended as the kind asks for. -/
theorem extend_bytes (hw : k.Canonical w) : (if k.isSigned then Machine.signExtend (.ofKind k)
    (ofLeBytes (k.bytes w)) else ofLeBytes (k.bytes w)) = w := by
  split
  · rename_i hsigned
    have hread := read_bytes hw []
    rw [List.append_nil, read, bytes, List.take_of_length_le (Nat.le_of_eq (length_leBytes ..))] at hread
    cases k with
    | i8 | i16 | i32 | i64 => exact hread
    | _ => cases hsigned
  · rename_i hsigned
    exact ofLeBytes_leBytes k.size_le (lt_of_canonical hw (eq_false_of_ne_true hsigned))

end Kind

/-! ## Accesses -/

namespace Code.Insn

/-- An opcode with a source register. -/
def bare (opcode src : UInt8) : Insn := ⟨opcode, 0, src, 0, 0, none⟩

/-- What an instruction asks for is told by its opcode, unless it is a call. -/
theorem form_eq_opcode (i : Insn) (h : i.opcode &&& 0x07 ≠ 5) : i.form = (bare i.opcode 0).form := by
  have hcls : (bare i.opcode 0).cls = i.cls := rfl
  unfold form
  rw [hcls]
  split
  case h_6 hc => exact absurd hc h
  all_goals rfl

@[simp] theorem form_load (w : Width) (dst src : UInt8) (offset : Int16) (signed : Bool) :
    (load w dst src offset signed).form = .load w signed := by
  have hform : (0x01 ||| w.code ||| (if signed then 0x80 else 0x60)) &&& 0x07 ≠ 5 ∧
      (bare (0x01 ||| w.code ||| (if signed then 0x80 else 0x60)) 0).form = .load w signed := by
    cases w <;> cases signed <;> decide
  exact (form_eq_opcode (load w dst src offset signed) hform.1).trans hform.2

@[simp] theorem form_store (w : Width) (dst src : UInt8) (offset : Int16) :
    (store w dst src offset).form = .store w := by
  have hform : (0x03 ||| w.code ||| 0x60) &&& 0x07 ≠ 5 ∧
      (bare (0x03 ||| w.code ||| 0x60) 0).form = .store w := by
    cases w <;> decide
  exact (form_eq_opcode (store w dst src offset) hform.1).trans hform.2

end Code.Insn

theorem MachineMemory.load_store {m m' : MachineMemory} (h : store addr bs m = (.ok (), m')) :
    m'.load addr bs.length = .ok bs := by
  unfold store at h
  unfold load
  split at h
  · rename_i hheap
    rw [if_pos hheap]
    cases hs : Region.store addr bs m.heap.region with | mk r region => ?_
    simp only [onHeap, Heap.store, Heap.onRegion, hs] at h
    cases h
    exact Region.load_store_same hs
  · rename_i hstack
    rw [if_neg hstack]
    cases hs : Region.store addr bs m.stack with | mk r region => ?_
    simp only [onStack, hs] at h
    cases h
    exact Region.load_store_same hs

namespace Machine

variable {σ : Type} (m : Ir.Module) (bridge : Bridge σ) {s : Machine σ} {dst src : UInt8} {offset : Int16}

theorem exec_load (w : Width) (signed : Bool)
    (h : s.memory.load (s.reg src + offset.toInt64.toUInt64) w.bytes = .ok bs) :
    exec m bridge (.load w dst src offset signed) s =
      some (.ok false, s.withReg dst (if signed then signExtend w (ofLeBytes bs) else ofLeBytes bs)) := by
  unfold exec
  simp only [Insn.form_load, Run.bind_apply, address, getReg, Run.get_apply, Run.pure_apply, Run.outcome_apply]
  rw [show (Insn.load w dst src offset signed).src = src from rfl,
    show (Insn.load w dst src offset signed).offset = offset from rfl, h]
  rfl

theorem exec_store (w : Width) :
    exec m bridge (.store w dst src offset) s =
      (let r := MachineMemory.store (s.reg dst + offset.toInt64.toUInt64) (leBytes w.bytes (s.reg src)) s.memory
      some (r.1.map fun _ => false, { s with memory := r.2 })) := by
  unfold exec
  simp only [Insn.form_store, Run.bind_apply, address, getReg, Run.get_apply, Run.pure_apply, onMemory]
  rw [show (Insn.store w dst src offset).src = src from rfl, show (Insn.store w dst src offset).dst =
    dst from rfl, show (Insn.store w dst src offset).offset = offset from rfl]
  rcases MachineMemory.store _ _ s.memory with ⟨_ | _, _⟩ <;> rfl

theorem reg_withReg (h : dst.toNat < s.regs.size) (w : UInt64) : (s.withReg dst w).reg dst = w := by
  simp [withReg, reg, h]

/-- An offset of an instruction stands for itself. -/
theorem imm16_eq_ok (h : imm16 n = .ok offset) : n ≤ 32767 ∧ offset.toInt64.toUInt64 = UInt64.ofNat n := by
  unfold imm16 at h
  split at h
  · rename_i hle
    cases h
    have hword : (Int16.ofNat n).toInt64 = Int64.ofNat n := by
      apply Int64.toInt_inj.1
      rw [Int16.toInt_toInt64, Int16.toInt_ofNat_of_lt (by omega), Int64.toInt_ofNat_of_lt (by omega)]
    rw [hword]
    exact ⟨hle, rfl⟩
  · cases h

theorem bytes_ofKind (k : Kind) : (Width.ofKind k).bytes = k.size := by cases k <;> rfl

/-- What was stored is loaded, where the store is within memory. -/
theorem load_stored {k : Kind} {base : UInt8} {n : Nat} {s' : Machine σ} {store load : Insn}
    (hstore : storeScalar k base n src = .ok store) (hload : loadScalar dst k base n = .ok load)
    (hx : k.Canonical (s.reg src)) (hs : exec m bridge store s = some (.ok false, s')) :
    exec m bridge load s' = some (.ok false, s'.withReg dst (s.reg src)) ∧ s'.regs = s.regs := by
  obtain ⟨off, hoff, heq⟩ := Except.bind_eq_ok.1 hstore
  cases heq
  obtain ⟨off', hoff', heq⟩ := Except.bind_eq_ok.1 hload
  cases heq
  cases hoff.symm.trans hoff'
  rw [exec_store, bytes_ofKind] at hs
  cases hr : MachineMemory.store (s.reg base + off.toInt64.toUInt64) (k.bytes (s.reg src)) s.memory with
    | mk r memory => ?_
  rw [show leBytes k.size (s.reg src) = k.bytes (s.reg src) from rfl, hr] at hs
  cases r with
  | error e => cases hs
  | ok =>
    cases hs
    have hback := MachineMemory.load_store hr
    rw [show (k.bytes (s.reg src)).length = k.size from length_leBytes .., ← bytes_ofKind k] at hback
    rw [exec_load m bridge (.ofKind k) k.isSigned (s := { s with memory }) hback, Kind.extend_bytes hx]
    exact ⟨rfl, rfl⟩

end Machine

/-- The operations on numbers take canonical words to canonical words. A canonical word is read back
from its bytes in a buffer, and from memory by the load that goes with its kind. -/
theorem canonical_closed :
    (∀ op k a b checked r, k.Canonical a → k.Canonical b → Scalar.binary op k a b checked = .ok r →
    k.Canonical r) ∧ (∀ op k a checked r, k.Canonical a → Scalar.unary op k a checked = .ok r → k.Canonical r) ∧
    (∀ op k a b, Kind.bool.Canonical (if Scalar.compare op k a b then 1 else 0)) ∧
    (∀ (source target : Kind) a, source.Canonical a → target.Canonical (Scalar.convert source target a)) ∧
    (∀ op k a b p, Complex.binary op k a b = .ok p → k.Canonical p.1 ∧ k.Canonical p.2) ∧
    (∀ k a p, k.Canonical a.1 → k.Canonical a.2 → Complex.neg k a = .ok p ∨ Complex.conj k a = .ok p →
      k.Canonical p.1 ∧ k.Canonical p.2) ∧
    (∀ (k : Kind) x (buffer : Bytes) start, k.Canonical x → start + k.size ≤ buffer.size →
      k.read ((buffer.overwrite start (k.bytes x)).window start k.size) = x) ∧
    ∀ {σ : Type} m (bridge : Bridge σ) (k : Kind) base src dst offset store load s s', k.Canonical (s.reg src) →
      storeScalar k base offset src = .ok store → loadScalar dst k base offset = .ok load →
      Machine.exec m bridge store s = some (.ok false, s') → dst.toNat < s.regs.size →
      ∃ s'', Machine.exec m bridge load s' = some (.ok false, s'') ∧ s''.reg dst = s.reg src := by
  refine ⟨fun op k a b checked r _ _ => Scalar.canonical_binary, fun op k a checked r => Scalar.canonical_unary,
    fun op k a b => Scalar.canonical_truth _, fun source target a => Scalar.canonical_convert source target,
    fun op k a b p => Complex.canonical_binary, fun k a p ha hb h => ?_, fun k x buffer start hx hsize => ?_,
    fun m bridge k base src dst offset store load s s' hx hstore hload hs hdst => ?_⟩
  · rcases h with h | h
    · obtain ⟨re, hre, h⟩ := Except.bind_eq_ok.1 h
      obtain ⟨im, him, h⟩ := Except.bind_eq_ok.1 h
      cases h
      exact ⟨Scalar.canonical_unary ha hre, Scalar.canonical_unary hb him⟩
    · obtain ⟨im, him, h⟩ := Except.bind_eq_ok.1 h
      cases h
      exact ⟨ha, Scalar.canonical_unary hb him⟩
  · have hlength : (k.bytes x).length = k.size := length_leBytes ..
    have hwindow : (buffer.overwrite start (k.bytes x)).window start (k.bytes x).length = k.bytes x :=
      Bytes.window_overwrite (hlength.symm ▸ hsize)
    rw [hlength] at hwindow
    rw [hwindow, ← List.append_nil (k.bytes x)]
    exact Kind.read_bytes hx []
  · obtain ⟨hload, hregs⟩ := Machine.load_stored m bridge hstore hload hx hs
    exact ⟨_, hload, Machine.reg_withReg (hregs ▸ hdst) _⟩

/-- A machine with sixteen bytes of stack, and -2 in a register. -/
def Machine.negative : Machine Unit where
  code := default
  memory := { MachineMemory.new 16 16 with stack.bytes := Bytes.zeros 16 }
  regs := #[0xfffffffffffffffe, MachineMemory.stackBase]
  session := ⟨{ maxDepth := 1 }, ()⟩

theorem canonical_closed_negative :
    Kind.i8.Canonical (Scalar.convert .i64 .i8 254) ∧
    Kind.i16.read (((Bytes.zeros 4).overwrite 1 (Kind.i16.bytes 0xfffffffffffffffe)).window 1 2) =
    0xfffffffffffffffe ∧ ∃ store load s' s'', storeScalar .i16 1 3 0 = .ok store ∧
    loadScalar 0 .i16 1 3 = .ok load ∧
      Machine.exec {} .closed store .negative = some (.ok false, s') ∧
      Machine.exec {} .closed load s' = some (.ok false, s'') ∧ s''.reg 0 = 0xfffffffffffffffe := by
  obtain ⟨-, -, -, hconvert, -, -, hbuffer, hmachine⟩ := canonical_closed
  obtain ⟨s', hs'⟩ : ∃ s', Machine.exec {} .closed (.store .half 1 0 3) .negative = some (.ok false, s') := by
    rw [Machine.exec_store]
    exact ⟨_, rfl⟩
  obtain ⟨s'', hs'', hreg⟩ := hmachine {} .closed .i16 1 0 0 3 _ _ .negative s' (by decide)
    rfl rfl hs' (by decide)
  exact ⟨hconvert .i64 .i8 254 rfl, hbuffer .i16 _ (Bytes.zeros 4) 1 (by decide) (by decide), _, _, s', s'', rfl,
    rfl, hs', hs'', hreg⟩

end NumericEngine
