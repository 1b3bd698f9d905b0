import NumericEngine.Proofs.Effects
import NumericEngine.Proofs.Word.Bytes

/-!
# Programs by slot

A program whose wide loads, and no other instructions, carry an upper half is
read back from its bytes with one entry per slot. The slots at which its
instructions start are those that `placed` lists, and each entry there is the
instruction itself.
-/

namespace NumericEngine.Code

open List

variable {p : List Insn} {i : Insn}

/-- An instruction that its bytes determine. -/
structure Insn.Encodable (i : Insn) : Prop where
  dst : i.dst < 16
  src : i.src < 16
  wide : i.wide.isSome ↔ i.opcode = lddw

/-- A program with one entry per slot. -/
def bySlot : List Insn → List Insn
  | [] => []
  | i :: p => List.replicate i.slots i ++ bySlot p

/-! ## One slot -/

theorem nibbles {s : UInt8} (hd : d < 16) (hs : s < 16) :
    ((s <<< 4) ||| (d &&& 0x0f)) &&& 0x0f = d ∧ ((s <<< 4) ||| (d &&& 0x0f)) >>> 4 = s := by
  have hall : ∀ a b : Fin 16, let d := UInt8.ofNat a; let s := UInt8.ofNat b
      ((s <<< 4) ||| (d &&& 0x0f)) &&& 0x0f = d ∧ ((s <<< 4) ||| (d &&& 0x0f)) >>> 4 = s := by
    decide +kernel
  have h := hall ⟨d.toNat, hd⟩ ⟨s.toNat, hs⟩
  simpa only [UInt8.ofNat_toNat] using h

namespace Insn

variable {i : Insn}

/-- A slot without the upper half of an immediate. -/
def lower (i : Insn) : Insn := { i with wide := none }

theorem ofSlot_bytes (hdst : i.dst < 16) (hsrc : i.src < 16) :
    ofSlot i.opcode ((i.src <<< 4) ||| (i.dst &&& 0x0f)) (leBytes 2 i.offset.toUInt16.toUInt64)
      (leBytes 4 i.imm.toUInt32.toUInt64) = i.lower := by
  have hoffset : ofLeBytes (leBytes 2 i.offset.toUInt16.toUInt64) = i.offset.toUInt16.toUInt64 :=
    ofLeBytes_leBytes (by decide) (UInt16.toNat_lt _)
  have himm : ofLeBytes (leBytes 4 i.imm.toUInt32.toUInt64) = i.imm.toUInt32.toUInt64 :=
    ofLeBytes_leBytes (by decide) (UInt32.toNat_lt _)
  obtain ⟨hdst, hsrc⟩ := nibbles hdst hsrc
  simp [ofSlot, lower, hoffset, himm, hdst, hsrc]

/-- The slot that holds the upper half of an immediate. -/
def upper (w : UInt32) : Insn := ofSlot 0 0 [0, 0] (leBytes 4 w.toUInt64)

@[simp] theorem imm_upper (w : UInt32) : (upper w).imm.toUInt32 = w := by
  have h : ofLeBytes (leBytes 4 w.toUInt64) = w.toUInt64 :=
    ofLeBytes_leBytes (by decide) (UInt32.toNat_lt _)
  simp [upper, ofSlot, h]

theorem length_encode (i : Insn) : i.encode.length = 8 * i.slots := by
  unfold encode slots
  cases i.wide <;> simp

theorem narrow_encode (hdst : i.dst < 16) (hsrc : i.src < 16) (bs : List UInt8) :
    narrow (i.encode ++ bs) = i.lower :: (i.wide.toList.map upper ++ narrow bs) := by
  have hslot := ofSlot_bytes hdst hsrc
  simp only [leBytes] at hslot
  unfold encode
  cases i.wide with
  | none | some w =>
    simp only [leBytes, cons_append, nil_append, narrow, hslot]
    rfl

theorem form_of_lddw (h : i.opcode = lddw) : i.form = .wideLoad := by
  have hcls : i.cls = 0 := by rw [cls, h]; rfl
  simp [form, hcls, h]

theorem slots_eq_one (h : i.Encodable) (hform : i.form ≠ .wideLoad) : i.slots = 1 := by
  have hwide : i.wide.isSome = false := by
    rw [Bool.eq_false_iff]
    exact fun hsome => hform (form_of_lddw (h.wide.1 hsome))
  simp [slots, hwide]

end Insn

/-! ## Whole programs -/

theorem length_encode (p : List Insn) : (encode p).length = 8 * slotCount p := by
  induction p with
  | nil => rfl
  | cons i p ih =>
    simp only [encode, slotCount, flatMap_cons, length_append, foldr_cons] at ih ⊢
    rw [ih, Insn.length_encode, Nat.mul_add]

theorem joinWide_cons (h : i.opcode ≠ Insn.lddw)
    (hrest : joinWide (n + 1) rest = .ok program) : joinWide n (i :: rest) = .ok (i :: program) := by
  unfold joinWide
  rw [if_neg h, hrest]
  rfl

theorem joinWide_narrow (h : ∀ i ∈ p, i.Encodable) (n : Nat) :
    joinWide n (narrow (encode p)) = .ok (bySlot p) := by
  induction p generalizing n with
  | nil => rfl
  | cons i p ih =>
    have hi := h i mem_cons_self
    have ih := ih fun j hj => h j (mem_cons_of_mem i hj)
    have hsplit : encode (i :: p) = i.encode ++ encode p := rfl
    rw [hsplit, Insn.narrow_encode hi.dst hi.src]
    cases hw : i.wide with
    | none =>
      have hop : i.opcode ≠ Insn.lddw := fun hop => by simpa [hw] using hi.wide.2 hop
      have hlower : i.lower = i := by cases i; cases hw; rfl
      have hslots : i.slots = 1 := by simp [Insn.slots, hw]
      rw [hlower, bySlot, hslots]
      exact joinWide_cons hop (ih (n + 1))
    | some w =>
      have hop : i.lower.opcode = Insn.lddw := hi.wide.1 (by simp [hw])
      have hwide : (⟨i.lower.opcode, i.lower.dst, i.lower.src, i.lower.offset, i.lower.imm, some w⟩ :
          Insn) = i := by cases i; cases hw; rfl
      simp only [Option.toList_some, map_cons, map_nil, cons_append, nil_append,
        joinWide, if_pos hop, Insn.imm_upper, hwide, ih, Except.ok_bind, Except.pure_eq_ok, bySlot,
        Insn.slots, hw]
      rfl

/-- Bytes of a program are read back slot by slot. -/
theorem decode_encode (h : ∀ i ∈ p, i.Encodable) : decode (encode p) = .ok (bySlot p) := by
  have hlen : (encode p).length % 8 = 0 := by simp [length_encode]
  simp [decode, hlen, joinWide_narrow h]

theorem bySlot_of_placed
    (h : (slot, i) ∈ placed base p) : base ≤ slot ∧ (bySlot p)[slot - base]? = some i := by
  induction p generalizing base with
  | nil => cases h
  | cons j p ih =>
    have hpos : 0 < j.slots := by unfold Insn.slots; split <;> decide
    rcases mem_cons.1 h with heq | h
    · cases heq
      simp [bySlot, hpos]
    · obtain ⟨hle, hget⟩ := ih h
      refine ⟨by omega, ?_⟩
      rw [bySlot, getElem?_append_right (by simp; omega), length_replicate]
      rwa [Nat.sub_sub]

theorem placed_next (h : (slot, i) ∈ placed base p) :
    slot + i.slots ∈ (placed base p).map (·.1) ∨ p.getLast? = some i := by
  induction p generalizing base with
  | nil => cases h
  | cons j p ih =>
    rcases mem_cons.1 h with heq | h
    · cases heq
      cases p with
      | nil => exact .inr rfl
      | cons k p => exact .inl (by simp [placed])
    · refine (ih h).imp (fun hmem => mem_cons_of_mem _ hmem) fun hlast => ?_
      rw [getLast?_cons, hlast]
      rfl

theorem mem_of_placed (h : (slot, i) ∈ placed base p) : i ∈ p := by
  induction p generalizing base with
  | nil => cases h
  | cons j p ih =>
    rcases mem_cons.1 h with heq | h
    · cases heq
      exact mem_cons_self
    · exact mem_cons_of_mem j (ih h)

theorem placed_of_mem (base : Nat) (h : i ∈ p) : ∃ slot, (slot, i) ∈ placed base p := by
  induction p generalizing base with
  | nil => cases h
  | cons j p ih =>
    rcases mem_cons.1 h with rfl | h
    · exact ⟨base, mem_cons_self⟩
    · obtain ⟨slot, hslot⟩ := ih (base + j.slots) h
      exact ⟨slot, mem_cons_of_mem _ hslot⟩

end NumericEngine.Code
