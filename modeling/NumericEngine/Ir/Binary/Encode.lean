import NumericEngine.Ir.Module

/-!
# Writing modules as bytes

A module is written as the four letters `TSIR`, the version of the format, then
the types, the constants and the functions. Numbers are little-endian, a
collection or a text follows its length, and a choice is one tag byte.
-/

namespace NumericEngine.Ir.Binary

def magic : List UInt8 := [0x54, 0x53, 0x49, 0x52]

def version : Nat := 1

def u32 (n : UInt32) : List UInt8 := leBytes 4 n.toUInt64

def u64 (n : UInt64) : List UInt8 := leBytes 8 n

/-- A length, or any number below `2 ^ 32`. -/
def count (n : Nat) : List UInt8 := leBytes 4 (UInt64.ofNat n)

def bool (b : Bool) : List UInt8 := [if b then 1 else 0]

def text (s : String) : List UInt8 := count s.utf8ByteSize ++ s.toUTF8.toList

/-- A collection: its length, then its members. -/
def seq {α : Type} (item : α → List UInt8) (xs : List α) : List UInt8 :=
  count xs.length ++ xs.flatMap item

def reg (r : Reg) : List UInt8 := u32 r.index

def regs (rs : List Reg) : List UInt8 := seq reg rs

def block (b : BlockId) : List UInt8 := u32 b.index

def func (f : FuncId) : List UInt8 := u32 f.index

def typeId (t : TypeId) : List UInt8 := u32 t.index

def kind (k : Kind) : List UInt8 := [k.code]

def primKind : PrimKind → List UInt8
  | .signedInt => [0]
  | .unsignedInt => [1]
  | .float => [2]
  | .bool => [3]

def arithOp : ArithOp → List UInt8
  | .add => [0]
  | .sub => [1]
  | .mul => [2]
  | .div => [3]
  | .rem => [4]
  | .and => [5]
  | .or => [6]
  | .xor => [7]
  | .shl => [8]
  | .shr => [9]

def cmpOp : CmpOp → List UInt8
  | .eq => [0]
  | .ne => [1]
  | .lt => [2]
  | .le => [3]
  | .gt => [4]
  | .ge => [5]

def unaryOp : UnaryOp → List UInt8
  | .neg => [0]
  | .not => [1]
  | .abs => [2]
  | .sqrt => [3]

def complexOp : ComplexUnary → List UInt8
  | .neg => [0]
  | .conj => [1]

def complexPart : ComplexPart → List UInt8
  | .re => [0]
  | .im => [1]

def dim : Dim → List UInt8
  | .fixed n => 0 :: u64 n
  | .dynamic => [1]

mutual
def type : Ty → List UInt8
  | .prim k width => 0 :: primKind k ++ [width]
  | .vector elem len => 1 :: type elem ++ u64 len
  | .tensor elem dims => 2 :: type elem ++ seq dim dims
  | .complex elem => 3 :: type elem
  | .struct fields => 4 :: count fields.length ++ fieldTypes fields
  | .function params ret => 5 :: count params.length ++ types params ++ type ret
  | .reference target m => 6 :: type target ++ bool (m == .mutable)
def types : List Ty → List UInt8
  | [] => []
  | t :: ts => type t ++ types ts
def fieldTypes : List (String × Ty) → List UInt8
  | [] => []
  | (n, t) :: fs => text n ++ type t ++ fieldTypes fs
end

mutual
/-- A value: its type, then its payload. -/
def value : Value → List UInt8
  | .scalar t w => type t ++ 0 :: u64 w
  | .complex t re im => type t ++ 1 :: u64 re ++ u64 im
  | .tensor t shape data => type t ++ 2 :: seq u64 shape ++ count data.size ++ data.toList
  | .struct t fs => type t ++ 3 :: count fs.length ++ values fs
  | .function t id => type t ++ 4 :: func id
  | .ref t slot => type t ++ 5 :: u32 slot
def values : List Value → List UInt8
  | [] => []
  | v :: vs => value v ++ values vs
end

/-- The tag of a definition, the register that it defines, then the operands. -/
def define (dst : Reg) : Rhs → List UInt8
  | .const c => 0 :: reg dst ++ u32 c.index
  | .binary op k l r checked =>
    1 :: reg dst ++ arithOp op ++ kind k ++ reg l ++ reg r ++ bool checked
  | .compare op k l r => 2 :: reg dst ++ cmpOp op ++ kind k ++ reg l ++ reg r
  | .unary op k s checked => 3 :: reg dst ++ unaryOp op ++ kind k ++ reg s ++ bool checked
  | .convert source target s => 4 :: reg dst ++ kind source ++ kind target ++ reg s
  | .complexBinary op k l r => 5 :: reg dst ++ arithOp op ++ kind k ++ reg l ++ reg r
  | .complexCompare op k l r => 6 :: reg dst ++ cmpOp op ++ kind k ++ reg l ++ reg r
  | .complexUnary op k s => 7 :: reg dst ++ complexOp op ++ kind k ++ reg s
  | .complexPart p k s => 8 :: reg dst ++ complexPart p ++ kind k ++ reg s
  | .makeComplex k re im => 9 :: reg dst ++ kind k ++ reg re ++ reg im
  | .makeStruct fields => 10 :: reg dst ++ regs fields
  | .extractField s i => 11 :: reg dst ++ reg s ++ u32 i
  | .insertField s i v => 12 :: reg dst ++ reg s ++ u32 i ++ reg v
  | .stackSlot slot => 13 :: reg dst ++ u32 slot
  | .load addr => 14 :: reg dst ++ reg addr
  | .call f args => 16 :: reg dst ++ func f ++ regs args
  | .funcRef f => 17 :: reg dst ++ func f
  | .callIndirect callee args => 18 :: reg dst ++ reg callee ++ regs args
  | .phi incoming => 19 :: reg dst ++ seq (fun p => block p.1 ++ reg p.2) incoming
  | .makeTensor elements => 20 :: reg dst ++ regs elements
  | .tensorBinary op l r checked => 21 :: reg dst ++ arithOp op ++ reg l ++ reg r ++ bool checked
  | .tensorScale t f checked => 22 :: reg dst ++ reg t ++ reg f ++ bool checked
  | .dot l r => 23 :: reg dst ++ reg l ++ reg r
  | .matmul l r => 24 :: reg dst ++ reg l ++ reg r
  | .sum s => 25 :: reg dst ++ reg s
  | .extractElement s indices => 26 :: reg dst ++ reg s ++ regs indices
  | .dim s axis => 27 :: reg dst ++ reg s ++ u32 axis
  | .tensorCast s => 28 :: reg dst ++ reg s

def instr : Instr → List UInt8
  | .define dst rhs => define dst rhs
  | .store addr v => 15 :: reg addr ++ reg v

def terminator : Terminator → List UInt8
  | .jump b => 0 :: block b
  | .branch c t e => 1 :: reg c ++ block t ++ block e
  | .ret r => 2 :: reg r

def basicBlock (b : Block) : List UInt8 :=
  block b.id ++ text b.label ++ seq instr b.instrs ++ terminator b.terminator

def function (f : Function) : List UInt8 :=
  func f.id ++ text f.name ++ regs f.params ++ typeId f.retType ++
    seq typeId f.regTypes.toList ++ seq typeId f.slotTypes.toList ++ seq basicBlock f.blocks

def module (m : Module) : List UInt8 :=
  magic ++ leBytes 2 (UInt64.ofNat version) ++ seq type m.types.types.toList ++
    seq value m.constants.values.toList ++ seq function m.functions

end Binary

def Module.encode (m : Module) : List UInt8 := Binary.module m

end NumericEngine.Ir
