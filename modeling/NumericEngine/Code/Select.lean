import NumericEngine.Code.FramePlan
import NumericEngine.Value.Record

/-!
# Code of instructions

An instruction loads its operands from their homes, computes, and stores its
result in its home; nothing stays in a machine register from one instruction to
the next. A function finds the address of its argument record in `r1` and that
of its result in `r2`.

The moves of the phis of a block belong to the edges that lead to it. A single
phi is copied directly. Several are copied to their shadows first, so that phis
that read each other see the values from before the edge.
-/

namespace NumericEngine.Code

/-- A piece of code before its place is known. -/
inductive Item where
  | insn (i : Insn)
  /-- The call of a helper, with the number of its site. -/
  | helper (site : Site)
  | jump (target : BlockId)
  /-- A jump over so many slots, when `r0` is zero. -/
  | skipIfZero (slots : Nat)
  deriving DecidableEq, Repr, Inhabited

namespace Item

def slots : Item → Nat
  | insn i => i.slots
  | helper _ => 2
  | jump _ | skipIfZero _ => 1

end Item

def itemSlots (items : List Item) : Nat := items.foldr (·.slots + ·) 0

/-- A function to be lowered, for a target. -/
structure Subject where
  module : Ir.Module
  func : Ir.Function
  target : Target
  frame : FramePlan

/-- A scratch register for copies. -/
def copyReg : UInt8 := 5

/-- Holds addresses from references, and function values. -/
def pointerReg : UInt8 := 6

def imm16 (offset : Nat) : Except Obstacle Int16 :=
  if offset ≤ 32767 then .ok (Int16.ofNat offset) else .error (.offsetRange offset)

def loadConst (dst : UInt8) (w : UInt64) : Insn :=
  let n := w.toInt64.toInt
  if -2147483648 ≤ n ∧ n ≤ 2147483647 then .moveImm dst w.toUInt32.toInt32 else .wideLoad dst w

def loadScalar (dst : UInt8) (k : Kind) (base : UInt8) (offset : Nat) : Except Obstacle Insn := do
  return .load (.ofKind k) dst base (← imm16 offset) k.isSigned

def storeScalar (k : Kind) (base : UInt8) (offset : Nat) (src : UInt8) : Except Obstacle Insn := do
  return .store (.ofKind k) base src (← imm16 offset)

/-- A run of bytes that one access moves. -/
structure Piece where
  start : Nat
  size : Nat
  deriving DecidableEq, Repr, Inhabited

/-- The largest of a width and its halves that is not more than what is left. -/
def fitting (width left : Nat) : Nat :=
  ([width, width / 2, width / 4].find? (· ≤ left)).getD 1

/-- `left` bytes from `start` on, in pieces no larger than `width`. -/
def piecesFrom : (fuel width start left : Nat) → List Piece
  | 0, _, _, _ => []
  | fuel + 1, width, start, left =>
    if left = 0 then []
    else
      let size := fitting width left
      ⟨start, size⟩ :: piecesFrom fuel size (start + size) (left - size)

/-- A record of `length` bytes in pieces that its alignment allows. -/
def pieces (length align : Nat) : List Piece :=
  piecesFrom length (min (max align 1) 8) 0 length

def copyPiece (dstBase : UInt8) (dst : Nat) (srcBase : UInt8) (src : Nat) (p : Piece) :
    Except Obstacle (List Insn) :=
  match Width.ofBytes? p.size with
  | none => .error (.copyChunk p.size)
  | some w => do
    let source ← imm16 (src + p.start)
    let target ← imm16 (dst + p.start)
    return [.load w copyReg srcBase source false, .store w dstBase copyReg target]

/-- Copies bytes from an offset of one base register to an offset of another. -/
def copyBytes (dstBase : UInt8) (dst : Nat) (srcBase : UInt8) (src length align : Nat) :
    Except Obstacle (List Insn) := do
  let parts ← (pieces length align).mapM (copyPiece dstBase dst srcBase src)
  return parts.flatten

def copy (dstBase : UInt8) (dst : Nat) (srcBase : UInt8) (src : Nat) (l : Layout) :
    Except Obstacle (List Insn) :=
  copyBytes dstBase dst srcBase src l.size l.align

/-- Sets a register to an address in the frame. -/
def frameAddr (dst : UInt8) (offset : Nat) : Except Obstacle (List Insn) := do
  let off ← imm16 offset
  return .move dst fp :: if off = 0 then [] else [.addImm dst off.toInt32]

/-- No memory at all: whatever needs a buffer fails. -/
inductive NoMemory where
  | none

instance : Memory NoMemory where
  load _ _ _ := .error (.internal .constantReads)
  store _ _ := throw .outOfLineConstant
  alloc _ _ := throw .outOfLineConstant

/-- The record of a constant, when it needs no buffer. -/
def constantRecord (v : Value) : Except Obstacle (List UInt8) :=
  match (Value.encode v : Transition NoMemory Bytes) .none with
  | (.ok bs, _) => .ok bs.toList
  | (.error _, _) => .error (.outOfLineConstant v.ty)

/-- Writes a record at an offset of the frame, in chunks of a size. -/
def storeRecord (chunk : Nat) : (fuel : Nat) → (offset : Nat) → List UInt8 →
    Except Obstacle (List Insn)
  | 0, _, _ => .ok []
  | _, _, [] => .ok []
  | fuel + 1, offset, bs =>
    match Width.ofBytes? (bs.take chunk).length with
    | none => .error .constantChunk
    | some w => do
      let off ← imm16 offset
      let rest ← storeRecord chunk fuel (offset + chunk) (bs.drop chunk)
      return loadConst 0 (ofLeBytes (bs.take chunk)) :: .store w fp 0 off :: rest

namespace Subject

variable (s : Subject)

def need (what : String) (c : Capability) : Except Obstacle Unit :=
  if s.target.has c then .ok () else .error (.lacks what c)

def needWhen (needed : Bool) (what : String) (c : Capability) : Except Obstacle Unit :=
  if needed then s.need what c else .ok ()

def home (r : Reg) : Except Obstacle Home :=
  match s.frame.regs[r.index.toNat]? with
  | some h => .ok h
  | none => .error (.registerRange r)

def ty (r : Reg) : Except Obstacle Ty := typeOf s.module s.func r

def tys (rs : List Reg) : Except Obstacle (List Ty) := rs.mapM s.ty

def offsets (rs : List Reg) : Except Obstacle (List Nat) := rs.mapM fun r => (·.offset) <$> s.home r

/-- The call of a helper: the result's address in `r1`, the operands' in `r2` and `r3`. -/
def helperCall (h : Helper) (op : SiteOp) (dst : Reg) (operands : List Nat) (tys : List Ty)
    (checked : Bool) : Except Obstacle (List Item) := do
  let result ← s.ty dst
  let d ← s.home dst
  let dstAddr ← frameAddr 1 d.offset
  let addrs ← ([(2 : UInt8), 3].zip operands).mapM fun (r, off) => frameAddr r off
  return (dstAddr ++ addrs.flatten).map .insn ++ [.helper ⟨h, op, result, tys, checked⟩]

def complexHelper (what : String) (h : Helper) (op : SiteOp) (dst lhs rhs : Reg) :
    Except Obstacle (List Item) := do
  s.need what .complexHelpers
  let tys ← s.tys [lhs, rhs]
  let operands ← s.offsets [lhs, rhs]
  s.helperCall h op dst operands tys false

def tensorHelper (h : Helper) (op : SiteOp) (dst : Reg) (operands : List Reg) (checked : Bool) :
    Except Obstacle (List Item) := do
  s.need h.symbol .tensorHelpers
  s.needWhen checked h.symbol .checkedArith
  let tys ← s.tys operands
  let offsets ← s.offsets operands
  s.helperCall h op dst offsets tys checked

/-- Copies fields from their homes into a record. -/
def gather (base : Nat) : List Reg → List Nat → Except Obstacle (List Insn)
  | r :: rs, offset :: offsets => do
    let h ← s.home r
    let code ← copy fp (base + offset) fp h.offset h.layout
    let rest ← gather base rs offsets
    return code ++ rest
  | _, _ => .ok []

/-- Places the argument record and the addresses that a callee expects. -/
def passArgs (dst : Reg) (args : List Reg) : Except Obstacle (List Insn) := do
  let tys ← s.tys args
  let record ← s.gather s.frame.outgoing args (Ty.record tys).layout.offsets
  let d ← s.home dst
  let argsAddr ← frameAddr 1 s.frame.outgoing
  let dstAddr ← frameAddr 2 d.offset
  return record ++ argsAddr ++ dstAddr

/-- Copies indices into the outgoing area, from the `i`-th word on. -/
def passIndices (i : Nat) : List Reg → Except Obstacle (List Insn)
  | [] => .ok []
  | r :: rs => do
    let h ← s.home r
    let code ← copyBytes fp (s.frame.outgoing + 8 * i) fp h.offset 8 8
    let rest ← passIndices (i + 1) rs
    return code ++ rest

/-- Copies elements into a tensor literal, from the `i`-th element on. -/
def passElements (base elemSize i : Nat) : List Reg → Except Obstacle (List Insn)
  | [] => .ok []
  | r :: rs => do
    let h ← s.home r
    let code ← copyBytes fp (base + i * elemSize) fp h.offset (min elemSize h.layout.size)
      h.layout.align
    let rest ← passElements base elemSize (i + 1) rs
    return code ++ rest

def moveReg (dst src : Reg) : Except Obstacle (List Insn) := do
  let d ← s.home dst
  let h ← s.home src
  copy fp d.offset fp h.offset d.layout

/-- Loads operands, computes, and stores the result. -/
def scalarCode (dst : Reg) (operands : List (UInt8 × Kind × Reg)) (compute : List Insn)
    (result : Kind) : Except Obstacle (List Insn) := do
  let homes ← operands.mapM fun (r, k, src) => return (r, k, (← s.home src).offset)
  let d ← s.home dst
  let loads ← homes.mapM fun (r, k, off) => loadScalar r k fp off
  let stored ← storeScalar result fp d.offset 0
  return loads ++ compute ++ [stored]

/-- Moves one component of a complex number, through an operation. -/
def moveComponent (k : Kind) (dst src : Nat) (compute : List Insn) :
    Except Obstacle (List Insn) := do
  let load ← loadScalar 0 k fp src
  let store ← storeScalar k fp dst 0
  return load :: compute ++ [store]

def fieldOffset (l : Layout) (index : UInt32) : Except Obstacle Nat :=
  match l.offsets[index.toNat]? with
  | some off => .ok off
  | none => .error (.noField index)

/-- The extent of an axis, from the type or from the descriptor. -/
def extentCode (src : Reg) (axis : UInt32) : Except Obstacle Insn := do
  let t ← s.ty src
  match t.declaredShape? with
  | none => .error (.dimOf t)
  | some declared =>
    match declared[axis.toNat]? with
    | none => .error (.axisOf axis t)
    | some (some n) => return loadConst 0 n
    | some none =>
      let h ← s.home src
      match h.layout.storage with
      | .descriptor _ =>
        return .load .double 0 fp (← imm16 (h.offset + Layout.extentsOffset + 8 * axis.toNat)) false
      | _ => .error (.noDescriptor t)

def rhsCode (dst : Reg) : Ir.Rhs → Except Obstacle (List Item)
  | .const c => do
    match s.module.constants.get? c with
    | none => .error .constantRange
    | some v =>
      let bs ← constantRecord v
      let d ← s.home dst
      let code ← storeRecord (min (max d.layout.align 1) 8) bs.length d.offset bs
      return code.map .insn
  | .binary op k lhs rhs checked => do
    s.needWhen checked "checked binary" .checkedArith
    let code ← s.scalarCode dst [(0, k, lhs), (1, k, rhs)] [.arith op k 0 1 checked] k
    return code.map .insn
  | .compare op k lhs rhs => do
    let code ← s.scalarCode dst [(0, k, lhs), (1, k, rhs)] [.compare op k 0 1] .bool
    return code.map .insn
  | .unary op k src checked => do
    s.needWhen checked "checked unary" .checkedArith
    let code ← s.scalarCode dst [(0, k, src)] [.unary op k 0 checked] k
    return code.map .insn
  | .convert source target src => do
    let code ← s.scalarCode dst [(1, source, src)] [.convert source target 0 1] target
    return code.map .insn
  | .complexBinary op _ lhs rhs =>
    s.complexHelper "complex arithmetic" .complexBinary (.arith op) dst lhs rhs
  | .complexCompare op _ lhs rhs =>
    s.complexHelper "complex comparison" .complexCompare (.compare op) dst lhs rhs
  | .complexUnary op k src => do
    let h ← s.home src
    let d ← s.home dst
    let negate := [Insn.unary .neg k 0 false]
    let re ← moveComponent k d.offset h.offset (if op = .neg then negate else [])
    let im ← moveComponent k (d.offset + k.size) (h.offset + k.size) negate
    return (re ++ im).map .insn
  | .complexPart part k src => do
    let h ← s.home src
    let d ← s.home dst
    let start := match part with
      | .re => h.offset
      | .im => h.offset + k.size
    let code ← moveComponent k d.offset start []
    return code.map .insn
  | .makeComplex k re im => do
    let d ← s.home dst
    let r ← s.home re
    let first ← moveComponent k d.offset r.offset []
    let i ← s.home im
    let second ← moveComponent k (d.offset + k.size) i.offset []
    return (first ++ second).map .insn
  | .makeStruct fields => do
    let d ← s.home dst
    let code ← s.gather d.offset fields d.layout.offsets
    return code.map .insn
  | .extractField src index => do
    let h ← s.home src
    let d ← s.home dst
    let off ← fieldOffset h.layout index
    let code ← copy fp d.offset fp (h.offset + off) d.layout
    return code.map .insn
  | .insertField src index value => do
    let whole ← s.moveReg dst src
    let d ← s.home dst
    let v ← s.home value
    let off ← fieldOffset d.layout index
    let field ← copy fp (d.offset + off) fp v.offset v.layout
    return (whole ++ field).map .insn
  | .stackSlot slot => do
    match s.frame.slots[slot.toNat]? with
    | none => .error (.noSlot slot)
    | some h =>
      let d ← imm16 (← s.home dst).offset
      let addr ← frameAddr 0 h.offset
      return (addr ++ [Insn.store .double fp 0 d]).map .insn
  | .load addr => do
    let a ← imm16 (← s.home addr).offset
    let d ← s.home dst
    let code ← copy fp d.offset pointerReg 0 d.layout
    return (.load .double pointerReg fp a false :: code).map .insn
  | .call f args => do
    let code ← s.passArgs dst args
    return (code ++ [Insn.callFunction f.index]).map .insn
  | .funcRef f => do
    let d ← imm16 (← s.home dst).offset
    return [.insn (loadConst 0 f.index.toUInt64), .insn (.store .double fp 0 d)]
  | .callIndirect callee args => do
    let code ← s.passArgs dst args
    let off ← imm16 (← s.home callee).offset
    return (code ++ [Insn.load .double pointerReg fp off false, .callValue pointerReg]).map .insn
  | .phi _ => .ok []
  | .makeTensor elements => do
    let d ← s.home dst
    match d.layout.storage with
    | .inline elemSize _ =>
      let code ← s.passElements d.offset elemSize 0 elements
      return code.map .insn
    | _ => .error .dynamicLiteral
  | .tensorBinary op lhs rhs checked =>
    s.tensorHelper .tensorBinary (.arith op) dst [lhs, rhs] checked
  | .tensorScale tensor factor checked =>
    s.tensorHelper .tensorScale (.arith .mul) dst [tensor, factor] checked
  | .dot lhs rhs => s.tensorHelper .tensorDot .none dst [lhs, rhs] false
  | .matmul lhs rhs => s.tensorHelper .tensorMatmul .none dst [lhs, rhs] false
  | .sum src => s.tensorHelper .tensorSum .none dst [src] false
  | .extractElement src indices => do
    s.need Helper.tensorExtract.symbol .tensorHelpers
    let code ← s.passIndices 0 indices
    let t ← s.ty src
    let h ← s.home src
    let call ← s.helperCall .tensorExtract .none dst [h.offset, s.frame.outgoing]
      (t :: List.replicate indices.length .i64) false
    return code.map .insn ++ call
  | .dim src axis => do
    let extent ← s.extentCode src axis
    let d ← s.home dst
    let stored ← storeScalar .i64 fp d.offset 0
    return [.insn extent, .insn stored]
  | .tensorCast src => s.tensorHelper .tensorCast .none dst [src] false

def instrCode : Ir.Instr → Except Obstacle (List Item)
  | .define dst rhs => s.rhsCode dst rhs
  | .store addr value => do
    let a ← imm16 (← s.home addr).offset
    let v ← s.home value
    let code ← copy pointerReg 0 fp v.offset v.layout
    return (.load .double pointerReg fp a false :: code).map .insn

/-- What each phi of a block takes on the edge from a predecessor. -/
def edgeInputs (source : BlockId) :
    List (Reg × List (BlockId × Reg)) → Except Obstacle (List (Reg × Reg))
  | [] => .ok []
  | (dst, incoming) :: phis =>
    match incoming.find? (·.1 == source) with
    | none => .error (.phiInput dst source)
    | some (_, src) => do
      let rest ← edgeInputs source phis
      return (dst, src) :: rest

/-- A phi on an edge, with its shadow and the home of its input. -/
structure Staged where
  dst : Reg
  shadow : Nat
  input : Home

def stage (move : Reg × Reg) : Except Obstacle Staged :=
  match s.frame.shadows.lookup move.1 with
  | none => .error (.noShadow move.1)
  | some shadow => return { dst := move.1, shadow, input := ← s.home move.2 }

def phiMoves : List (Reg × Reg) → Except Obstacle (List Insn)
  | [] => .ok []
  | [(dst, src)] => s.moveReg dst src
  | moves => do
    let first ← moves.mapM fun m => do
      let p ← s.stage m
      let code ← copy fp p.shadow fp p.input.offset p.input.layout
      return (p, code)
    let second ← first.mapM fun (p, _) => do
      let d ← s.home p.dst
      copy fp d.offset fp p.shadow p.input.layout
    return (first.map (·.2)).flatten ++ second.flatten

/-- The code of an edge. No jump is needed to the next block when control may fall through. -/
def edgeCode (source target : BlockId) (fallsThrough : Bool) : Except Obstacle (List Item) :=
  match s.func.block? target with
  | none => .error (.missingBlock target)
  | some b => do
    let moves ← edgeInputs source (leadingPhis b.instrs)
    let code ← s.phiMoves moves
    let jump :=
      if fallsThrough && target.index.toNat == source.index.toNat + 1 then [] else [.jump target]
    return code.map .insn ++ jump

def terminatorCode (block : BlockId) : Ir.Terminator → Except Obstacle (List Item)
  | .jump target => s.edgeCode block target true
  | .branch cond thenBlock elseBlock => do
    let c ← s.home cond
    let load ← loadScalar 0 .bool fp c.offset
    let thenEdge ← s.edgeCode block thenBlock false
    let elseEdge ← s.edgeCode block elseBlock true
    return .insn load :: .skipIfZero (itemSlots thenEdge) :: (thenEdge ++ elseEdge)
  | .ret r => do
    let h ← s.home r
    let code ← copy 1 0 fp h.offset h.layout
    let addr : Insn := .load .double 1 fp (Int16.ofNat resultOffset) false
    return (addr :: code ++ [Insn.exit]).map .insn

/-- Saves the result's address and copies the parameters out of the argument record. -/
def prologue : Except Obstacle (List Item) := do
  let tys ← s.tys s.func.params
  let code ← params s.func.params (Ty.record tys).layout.offsets
  return (.store .double fp 2 (Int16.ofNat resultOffset) :: code).map .insn
where
  params : List Reg → List Nat → Except Obstacle (List Insn)
    | r :: rs, offset :: offsets => do
      let h ← s.home r
      let code ← copy fp h.offset 1 offset h.layout
      let rest ← params rs offsets
      return code ++ rest
    | _, _ => .ok []

def blockCode (b : Ir.Block) : Except Obstacle (List Item) := do
  let code ← b.instrs.mapM s.instrCode
  let last ← s.terminatorCode b.id b.terminator
  return code.flatten ++ last

end Subject

end NumericEngine.Code
