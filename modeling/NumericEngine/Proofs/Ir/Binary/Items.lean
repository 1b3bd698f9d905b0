import NumericEngine.Ir.Binary.Decode
import NumericEngine.Proofs.Ir.Binary.Reader

/-!
# Reading back what is written: operands and instructions

Tags, registers and right-hand sides are read as they were written, and only
what is written is read.
-/

namespace NumericEngine.Ir

/-- The lists of a right-hand side are short enough for their lengths to be written. -/
def Rhs.Short : Rhs → Prop
  | .makeStruct rs | .makeTensor rs | .call _ rs | .callIndirect _ rs | .extractElement _ rs =>
    rs.length < 2 ^ 32
  | .phi incoming => incoming.length < 2 ^ 32
  | _ => True

def Instr.Short : Instr → Prop
  | .define _ rhs => rhs.Short
  | .store .. => True

namespace Reader

/-! ## Ids and tags -/

instance : Codec reg Binary.reg := .map (fun _ => rfl) fun r => ⟨r.index, rfl⟩

instance : Codec block Binary.block := .map (fun _ => rfl) fun b => ⟨b.index, rfl⟩

instance : Codec func Binary.func := .map (fun _ => rfl) fun f => ⟨f.index, rfl⟩

instance : Codec typeId Binary.typeId := .map (fun _ => rfl) fun t => ⟨t.index, rfl⟩

theorem reads_regs {rs : List Reg} (h : rs.length < 2 ^ 32) : Reads regs (Binary.regs rs) rs :=
  reads_list h

instance : Exact regs Binary.regs := inferInstanceAs (Exact (seq reg) (Binary.seq Binary.reg))

instance : Codec kind Binary.kind where
  toExact := .of_start <| .bind fun tag => by
    split
    · rename_i k hk
      have hcode : k.code = tag := by simpa using List.find?_some hk
      exact .pure (congrArg (fun b => [b]) hcode.symm)
    · exact .throw
  read k := by cases k <;> exact fun _ _ => rfl
  pos _ := Nat.one_pos

/-- A choice is read as it is written when each member is written as its position, and all are members. -/
theorem codec_choice {members : List α} (hsize : members.length ≤ 256)
    (h : members.map enc = (List.range members.length).map fun i => [UInt8.ofNat i])
    (hall : ∀ x, x ∈ members) : Codec (choice what members) enc := by
  have henc : ∀ (i : Nat) (hi : i < members.length), enc members[i] = [UInt8.ofNat i] := by
    intro i hi
    have hy : (members.map enc)[i]? = some (enc members[i]) := by simp [hi]
    rw [h, List.getElem?_map, List.getElem?_range hi] at hy
    exact (Option.some.inj hy).symm
  refine { toExact := .of_start <| .bind fun tag => ?_, read := fun x => ?_, pos := fun x => ?_ }
  · split
    · rename_i y hm
      obtain ⟨hlt, rfl⟩ := List.getElem?_eq_some_iff.1 hm
      exact .pure (by rw [henc _ hlt, UInt8.ofNat_toNat]; rfl)
    · exact .throw
  all_goals
    obtain ⟨i, hi, rfl⟩ := List.mem_iff_getElem.1 (hall x)
    rw [henc i hi]
  · have htag : (UInt8.ofNat i).toNat = i := UInt8.toNat_ofNat_of_lt' (Nat.lt_of_lt_of_le hi hsize)
    intro rest offset
    refine bind_ok.2 ⟨_, _, reads u8 (UInt8.ofNat i) rest offset, ?_⟩
    rw [htag, List.getElem?_eq_getElem hi]
    rfl
  · exact Nat.one_pos

instance : Codec primKind Binary.primKind := codec_choice (by decide) (by decide) fun k => by cases k <;> decide

instance : Codec arithOp Binary.arithOp := codec_choice (by decide) (by decide) fun op => by cases op <;> decide

instance : Codec cmpOp Binary.cmpOp := codec_choice (by decide) (by decide) fun op => by cases op <;> decide

instance : Codec unaryOp Binary.unaryOp := codec_choice (by decide) (by decide) fun op => by cases op <;> decide

instance : Codec complexOp Binary.complexOp := codec_choice (by decide)
    (by decide) fun op => by cases op <;> decide

instance : Codec complexPart Binary.complexPart :=
    codec_choice (by decide) (by decide) fun p => by cases p <;> decide

instance : Codec (do return (← block, ← reg)) fun p => Binary.block p.1 ++ Binary.reg p.2 where
  toExact := .of_start <| .bind fun _ => .bind fun _ => .pure rfl
  read p := (reads block p.1).bind (reads reg p.2).map
  pos p := Nat.lt_of_lt_of_le (Codec.pos block p.1) (by simp)

end Reader

/-! ## Instructions -/

namespace Rhs

/-- The byte that tells the form of a right-hand side. -/
def tag : Rhs → UInt8
  | .const _ => 0
  | .binary .. => 1
  | .compare .. => 2
  | .unary .. => 3
  | .convert .. => 4
  | .complexBinary .. => 5
  | .complexCompare .. => 6
  | .complexUnary .. => 7
  | .complexPart .. => 8
  | .makeComplex .. => 9
  | .makeStruct _ => 10
  | .extractField .. => 11
  | .insertField .. => 12
  | .stackSlot _ => 13
  | .load _ => 14
  | .call .. => 16
  | .funcRef _ => 17
  | .callIndirect .. => 18
  | .phi _ => 19
  | .makeTensor _ => 20
  | .tensorBinary .. => 21
  | .tensorScale .. => 22
  | .dot .. => 23
  | .matmul .. => 24
  | .sum _ => 25
  | .extractElement .. => 26
  | .dim .. => 27
  | .tensorCast _ => 28

/-- The bytes that follow the register that is defined. -/
def operandBytes : Rhs → List UInt8
  | .const c => Binary.u32 c.index
  | .binary op k l r checked =>
    Binary.arithOp op ++ (Binary.kind k ++ (Binary.reg l ++ (Binary.reg r ++ Binary.bool checked)))
  | .compare op k l r => Binary.cmpOp op ++ (Binary.kind k ++ (Binary.reg l ++ Binary.reg r))
  | .unary op k s checked =>
    Binary.unaryOp op ++ (Binary.kind k ++ (Binary.reg s ++ Binary.bool checked))
  | .convert source target s => Binary.kind source ++ (Binary.kind target ++ Binary.reg s)
  | .complexBinary op k l r =>
    Binary.arithOp op ++ (Binary.kind k ++ (Binary.reg l ++ Binary.reg r))
  | .complexCompare op k l r =>
    Binary.cmpOp op ++ (Binary.kind k ++ (Binary.reg l ++ Binary.reg r))
  | .complexUnary op k s => Binary.complexOp op ++ (Binary.kind k ++ Binary.reg s)
  | .complexPart p k s => Binary.complexPart p ++ (Binary.kind k ++ Binary.reg s)
  | .makeComplex k re im => Binary.kind k ++ (Binary.reg re ++ Binary.reg im)
  | .makeStruct fields => Binary.regs fields
  | .extractField s i => Binary.reg s ++ Binary.u32 i
  | .insertField s i v => Binary.reg s ++ (Binary.u32 i ++ Binary.reg v)
  | .stackSlot slot => Binary.u32 slot
  | .load addr => Binary.reg addr
  | .call f args => Binary.func f ++ Binary.regs args
  | .funcRef f => Binary.func f
  | .callIndirect callee args => Binary.reg callee ++ Binary.regs args
  | .phi incoming => Binary.seq (fun p => Binary.block p.1 ++ Binary.reg p.2) incoming
  | .makeTensor elements => Binary.regs elements
  | .tensorBinary op l r checked =>
    Binary.arithOp op ++ (Binary.reg l ++ (Binary.reg r ++ Binary.bool checked))
  | .tensorScale t f checked => Binary.reg t ++ (Binary.reg f ++ Binary.bool checked)
  | .dot l r => Binary.reg l ++ Binary.reg r
  | .matmul l r => Binary.reg l ++ Binary.reg r
  | .sum s => Binary.reg s
  | .extractElement s indices => Binary.reg s ++ Binary.regs indices
  | .dim s axis => Binary.reg s ++ Binary.u32 axis
  | .tensorCast s => Binary.reg s

theorem define_eq (dst : Reg) (r : Rhs) :
    Binary.define dst r = r.tag :: (Binary.reg dst ++ r.operandBytes) := by
  cases r <;> simp [Binary.define, tag, operandBytes]

theorem tag_ne (r : Rhs) : r.tag ≠ 15 ∧ ¬ 28 < r.tag := by
  cases r <;> simp [tag]

end Rhs

namespace Reader

theorem reads_rhs {r : Rhs} (h : r.Short) : Reads (rhs r.tag) r.operandBytes r := by
  cases r
  case makeStruct | makeTensor => exact (reads_regs h).map
  case call | callIndirect | extractElement => exact (reads _ _).bind (reads_regs h).map
  case phi => exact (reads_list h).map
  -- Each other form is a sequence of readers that read whatever is written.
  all_goals
    rw [Rhs.operandBytes]
    repeat first
      | exact (reads _ _).map
      | refine (reads _ _).bind ?_

theorem rhs_ok (h : rhs t c = .ok (r, c')) : r.tag = t ∧ c.rest = r.operandBytes ++ c'.rest := by
  unfold rhs at h
  split at h
  -- Each form is a sequence of readers that are exact; an unknown tag reads nothing.
  all_goals
    repeat
      obtain ⟨_, _, hx, h⟩ := bind_ok.1 h
      have hx := Exact.rest hx
    first
      | exact (invalidTag_ok.1 h).elim
      | obtain ⟨rfl, rfl⟩ := pure_ok.1 h
        exact ⟨rfl, by simp [*, Rhs.operandBytes]⟩

theorem reads_instr {i : Instr} (h : i.Short) : Reads instr (Binary.instr i) i := by
  cases i with
  | store addr v => exact (reads u8 15).bind ((reads reg addr).bind (reads reg v).map)
  | define dst r =>
    obtain ⟨hstore, hlast⟩ := r.tag_ne
    have hbytes : Binary.instr (.define dst r) = [r.tag] ++ (Binary.reg dst ++ r.operandBytes) :=
      r.define_eq dst
    rw [hbytes]
    refine (reads u8 r.tag).bind ?_
    rw [if_neg hstore, if_neg hlast]
    exact (reads reg dst).bind (reads_rhs h).map

instance : Exact instr Binary.instr := by
  refine ⟨fun h => ?_⟩
  obtain ⟨t, c₁, ht, h⟩ := bind_ok.1 h
  split at h
  · obtain ⟨addr, c₂, haddr, h⟩ := bind_ok.1 h
    obtain ⟨v, c₃, hv, h⟩ := bind_ok.1 h
    obtain ⟨rfl, rfl⟩ := pure_ok.1 h
    subst t
    rw [Exact.rest ht, Exact.rest haddr, Exact.rest hv]
    simp [Binary.instr]
  · split at h
    · exact (invalidTag_ok.1 h).elim
    · obtain ⟨dst, c₂, hdst, h⟩ := bind_ok.1 h
      obtain ⟨r, c₃, hr, h⟩ := bind_ok.1 h
      obtain ⟨rfl, rfl⟩ := pure_ok.1 h
      obtain ⟨rfl, hrest⟩ := rhs_ok hr
      rw [Exact.rest ht, Exact.rest hdst, hrest, Binary.instr, Rhs.define_eq]
      simp

instance : Codec terminator Binary.terminator where
  toExact := .of_start <| .bind fun tag => by
    split
    · exact .bind fun _ => .pure rfl
    · exact .bind fun _ => .bind fun _ => .bind fun _ => .pure rfl
    · exact .bind fun _ => .pure rfl
    · exact .throw
  read t := by
    cases t with
    | jump b => exact (reads u8 0).bind (reads block b).map
    | branch r t e =>
      rw [Binary.terminator, List.cons_append, List.cons_append, List.append_assoc]
      exact (reads u8 1).bind ((reads reg r).bind
        ((reads block t).bind (reads block e).map))
    | ret r => exact (reads u8 2).bind (reads reg r).map
  pos t := by cases t <;> simp [Binary.terminator]

end Reader

end NumericEngine.Ir
