import NumericEngine.Ir.Binary.Encode
import NumericEngine.Ir.Binary.Reader

/-!
# Reading modules from bytes

The inverse of writing. Every id of a module that is read denotes something,
and every constant is well formed.
-/

namespace NumericEngine.Ir

namespace Reader

def reg : Reader Reg := return ⟨← u32⟩

def regs : Reader (List Reg) := seq reg

def block : Reader BlockId := return ⟨← u32⟩

def func : Reader FuncId := return ⟨← u32⟩

def typeId : Reader TypeId := return ⟨← u32⟩

def kind : Reader Kind := do
  let tag ← u8
  match Kind.ofCode? tag with
  | some k => return k
  | none => invalidTag .kind tag

/-- One of the members of a list, by its position. -/
def choice {α : Type} (what : Tagged) (members : List α) : Reader α := do
  let tag ← u8
  match members[tag.toNat]? with
  | some x => return x
  | none => invalidTag what tag

def primKind : Reader PrimKind := choice .primitive [.signedInt, .unsignedInt, .float, .bool]

def arithOp : Reader ArithOp := choice .arithOp ArithOp.all

def cmpOp : Reader CmpOp := choice .compareOp CmpOp.all

def unaryOp : Reader UnaryOp := choice .unaryOp UnaryOp.all

def complexOp : Reader ComplexUnary := choice .complexOp [.neg, .conj]

def complexPart : Reader ComplexPart := choice .complexPart [.re, .im]

def dim : Reader Dim := do
  match ← u8 with
  | 0 => return .fixed (← u64)
  | 1 => return .dynamic
  | tag => invalidTag .dim tag

/-- A type nested at most `depth` deep. Every level takes a byte, so the length of the input is
deep enough. -/
def type : (depth : Nat) → Reader Ty
  | 0 => do throw (.unexpectedEnd (← get).offset)
  | depth + 1 => do
    match ← u8 with
    | 0 =>
      let k ← primKind
      let width ← u8
      let t := Ty.prim k width
      if t.kind?.isSome then return t else malformed (.primitiveWidth width)
    | 1 =>
      let elem ← type depth
      return .vector elem (← u64)
    | 2 =>
      let elem ← type depth
      return .tensor elem (← seq dim)
    | 3 => return .complex (← type depth)
    | 4 =>
      let fields ← seq do
        let name ← text
        let t ← type depth
        return (name, t)
      return .struct fields
    | 5 =>
      let params ← seq (type depth)
      return .function params (← type depth)
    | 6 =>
      let target ← type depth
      return .reference target (if ← bool then .mutable else .shared)
    | tag => invalidTag .type tag

/-- A payload for a type; `field` reads the fields of a struct. -/
def payload (t : Ty) (field : Reader Value) : Reader Value := do
  match ← u8 with
  | 0 => return .scalar t (← u64)
  | 1 =>
    let re ← u64
    return .complex t re (← u64)
  | 2 =>
    let shape ← seq u64
    let n ← count
    return .tensor t shape (← take n).toArray
  | 3 => return .struct t (← seq field)
  | 4 => return .function t (← func)
  | 5 => return .ref t (← u32)
  | tag => invalidTag .value tag

def value : (depth : Nat) → Reader Value
  | 0 => do throw (.unexpectedEnd (← get).offset)
  | depth + 1 => do
    let t ← type (depth + 1)
    let v ← payload t (value depth)
    match v.check with
    | .ok () => return v
    | .error d => malformed (.invalidValue d)

/-- The operands of a definition, by its tag. -/
def rhs (tag : UInt8) : Reader Rhs := do
  match tag with
  | 0 => return .const ⟨← u32⟩
  | 1 => return .binary (← arithOp) (← kind) (← reg) (← reg) (← bool)
  | 2 => return .compare (← cmpOp) (← kind) (← reg) (← reg)
  | 3 => return .unary (← unaryOp) (← kind) (← reg) (← bool)
  | 4 => return .convert (← kind) (← kind) (← reg)
  | 5 => return .complexBinary (← arithOp) (← kind) (← reg) (← reg)
  | 6 => return .complexCompare (← cmpOp) (← kind) (← reg) (← reg)
  | 7 => return .complexUnary (← complexOp) (← kind) (← reg)
  | 8 => return .complexPart (← complexPart) (← kind) (← reg)
  | 9 => return .makeComplex (← kind) (← reg) (← reg)
  | 10 => return .makeStruct (← regs)
  | 11 => return .extractField (← reg) (← u32)
  | 12 => return .insertField (← reg) (← u32) (← reg)
  | 13 => return .stackSlot (← u32)
  | 14 => return .load (← reg)
  | 16 => return .call (← func) (← regs)
  | 17 => return .funcRef (← func)
  | 18 => return .callIndirect (← reg) (← regs)
  | 19 => return .phi (← seq do return (← block, ← reg))
  | 20 => return .makeTensor (← regs)
  | 21 => return .tensorBinary (← arithOp) (← reg) (← reg) (← bool)
  | 22 => return .tensorScale (← reg) (← reg) (← bool)
  | 23 => return .dot (← reg) (← reg)
  | 24 => return .matmul (← reg) (← reg)
  | 25 => return .sum (← reg)
  | 26 => return .extractElement (← reg) (← regs)
  | 27 => return .dim (← reg) (← u32)
  | 28 => return .tensorCast (← reg)
  | tag => invalidTag .instruction tag

def instr : Reader Instr := do
  let tag ← u8
  if tag = 15 then return .store (← reg) (← reg)
  else if 28 < tag then invalidTag .instruction tag
  else return .define (← reg) (← rhs tag)

def terminator : Reader Terminator := do
  match ← u8 with
  | 0 => return .jump (← block)
  | 1 => return .branch (← reg) (← block) (← block)
  | 2 => return .ret (← reg)
  | tag => invalidTag .terminator tag

def basicBlock : Reader Block := do
  let id ← block
  let label ← text
  let instrs ← seq instr
  let terminator ← terminator
  return { id, label, instrs, terminator }

def function : Reader Function := do
  let id ← func
  let name ← text
  let params ← regs
  let retType ← typeId
  let regTypes ← seq typeId
  let slotTypes ← seq typeId
  let blocks ← seq basicBlock
  return { id, name, params, retType, blocks,
           regTypes := regTypes.toArray, slotTypes := slotTypes.toArray }

/-- Functions whose ids are their positions, from `index` on. -/
def functionsFrom (index : Nat) : Nat → Reader (List Function)
  | 0 => return []
  | n + 1 => do
    let f ← function
    if f.id.index.toNat = index then
      let fs ← functionsFrom (index + 1) n
      return f :: fs
    else malformed (.functionId f.name f.id index)

def functions : Reader (List Function) := do
  let n ← count
  functionsFrom 0 n

/-- The tables and functions of a module whose types and values nest at most `depth` deep. -/
def module (depth : Nat) : Reader Module := do
  if (← take 4) ≠ Binary.magic then throw .badMagic
  let version := (← word 2).toNat
  if version ≠ Binary.version then throw (.unsupportedVersion version)
  let types ← seq (type depth)
  let constants ← seq (value depth)
  let functions ← functions
  let c ← get
  if c.rest.isEmpty then
    return { types := ⟨types.toArray⟩, constants := ⟨constants.toArray⟩, functions }
  else malformed (.trailing c.rest.length)

end Reader

namespace Module

/-- What an instruction refers to without it being there. -/
def dangling? (m : Module) : Instr → Option Referent
  | .define _ (.const c) => if (m.constants.get? c).isSome then none else some .constant
  | .define _ (.call f _) => if (m.function? f).isSome then none else some .function
  | .define _ (.funcRef f) => if (m.function? f).isSome then none else some .function
  | _ => none

def danglingIn? (m : Module) (f : Function) (index : Nat) (b : Block) : Option Referent :=
  if b.id.index.toNat ≠ index then some .blockOrder
  else if b.terminator.successors.any (f.blocks.length ≤ ·.index.toNat) then some .block
  else b.instrs.findSome? m.dangling?

def danglingFrom? (m : Module) (f : Function) (index : Nat) : List Block → Option Referent
  | [] => none
  | b :: bs => (m.danglingIn? f index b).or (m.danglingFrom? f (index + 1) bs)

/-- The first thing a function refers to without it being there. -/
def danglingOf? (m : Module) (f : Function) : Option Referent :=
  let known (t : TypeId) : Bool := t.index.toNat < m.types.size
  if !(known f.retType && f.regTypes.all known && f.slotTypes.all known) then some .type
  else m.danglingFrom? f 0 f.blocks

/-- Checks that every id denotes something. -/
def checkIds (m : Module) : Except DecodeError Unit :=
  m.functions.forM fun f =>
    match m.danglingOf? f with
    | some referent => .error (.malformed (.unknown f.name referent))
    | none => .ok ()

def decode (bs : List UInt8) : Except DecodeError Module := do
  let (m, _) ← (Reader.module (bs.length + 1)).run { rest := bs }
  m.checkIds
  return m

end Module

end NumericEngine.Ir
