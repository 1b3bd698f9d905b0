import NumericEngine.Scalar.Kind
import NumericEngine.Scalar.Operator

/-!
# Machine instructions

A 64-bit register machine with eleven registers, of which the last is the
frame pointer. An instruction takes a slot of eight bytes:

* byte 0: the opcode, its class in bits 0 to 2, its operation in bits 4 to 7;
* byte 1: the destination in the low half, the source in the high half;
* bytes 2 and 3: a signed offset, or the code of a scalar kind;
* bytes 4 to 7: a signed immediate.

A wide load takes a second slot, which holds the upper half of its immediate.
-/

namespace NumericEngine.Code

structure Insn where
  opcode : UInt8
  dst : UInt8
  src : UInt8
  offset : Int16
  imm : Int32
  /-- The upper half of the immediate of a wide load. -/
  wide : Option UInt32 := none
  deriving DecidableEq, Repr, Inhabited

/-- The frame pointer. -/
def fp : UInt8 := 10

/-- How many bytes an instruction reads or writes. -/
inductive Width where
  | byte
  | half
  | word
  | double
  deriving DecidableEq, Repr, Inhabited

namespace Width

def bytes : Width → Nat
  | byte => 1
  | half => 2
  | word => 4
  | double => 8

def code : Width → UInt8
  | word => 0x00
  | half => 0x08
  | byte => 0x10
  | double => 0x18

def ofBytes? : Nat → Option Width
  | 1 => some byte
  | 2 => some half
  | 4 => some word
  | 8 => some double
  | _ => none

def ofKind (k : Kind) : Width :=
  match k.size with
  | 1 => byte
  | 2 => half
  | 4 => word
  | _ => double

def ofOpcode (opcode : UInt8) : Width :=
  match opcode &&& 0x18 with
  | 0x10 => byte
  | 0x08 => half
  | 0x00 => word
  | _ => double

end Width

def arithCode : ArithOp → UInt8
  | .add => 0x00
  | .sub => 0x10
  | .mul => 0x20
  | .div => 0x30
  | .or => 0x40
  | .and => 0x50
  | .shl => 0x60
  | .shr => 0x70
  | .rem => 0x90
  | .xor => 0xa0

def unaryCode : UnaryOp → UInt8
  | .neg => 0x80
  | .not => 0xc0
  | .abs => 0xd0
  | .sqrt => 0xe0

def cmpCode : CmpOp → UInt8
  | .eq => 0x00
  | .ne => 0x10
  | .lt => 0x20
  | .le => 0x30
  | .gt => 0x40
  | .ge => 0x50

/-- What an opcode asks for. -/
inductive Form where
  | wideLoad
  | load (width : Width) (signed : Bool)
  | store (width : Width)
  | move
  | convert
  | unary (op : UnaryOp) (checked : Bool)
  | arith (op : ArithOp) (checked : Bool)
  | compare (op : CmpOp)
  | jump
  /-- A jump when the destination register equals the immediate, or when it differs. -/
  | jumpWhen (equal : Bool)
  | callFunction
  | callHelper
  | callValue
  | exit
  | badCompare
  | badJump
  | bad
  deriving DecidableEq, Repr, Inhabited

namespace Insn

def lddw : UInt8 := 0x18

def cls (i : Insn) : UInt8 := i.opcode &&& 0x07

def op (i : Insn) : UInt8 := i.opcode &&& 0xf0

/-- The mode of a memory access: 3 extends with zeros, 4 with the sign. -/
def mode (i : Insn) : UInt8 := i.opcode >>> 5

/-- Whether the second operand is a register. -/
def usesReg (i : Insn) : Bool := i.opcode &&& 0x08 != 0

def slots (i : Insn) : Nat := if i.wide.isSome then 2 else 1

def imm64 (i : Insn) : UInt64 :=
  ((i.wide.getD 0).toUInt64 <<< 32) ||| i.imm.toUInt32.toUInt64

/-- The immediate, extended with its sign. -/
def immediate (i : Insn) : UInt64 := i.imm.toInt64.toUInt64

def aluForm (i : Insn) (checked : Bool) : Form :=
  match i.op with
  | 0x80 => .unary .neg checked
  | 0xb0 => .move
  | 0xc0 => .unary .not checked
  | 0xd0 => .unary .abs checked
  | 0xe0 => .unary .sqrt checked
  | 0xf0 => .convert
  | op =>
    match ArithOp.all.find? (arithCode · == op) with
    | some a => .arith a checked
    | none => .bad

def form (i : Insn) : Form :=
  match i.cls with
  | 0 => if i.opcode = lddw then .wideLoad else .bad
  | 1 => .load (.ofOpcode i.opcode) (i.mode == 4)
  | 2 =>
    match CmpOp.all.find? (cmpCode · == i.op) with
    | some op => .compare op
    | none => .badCompare
  | 3 => .store (.ofOpcode i.opcode)
  | 4 => i.aluForm false
  | 5 =>
    match i.op with
    | 0x00 => .jump
    | 0x10 => .jumpWhen true
    | 0x50 => .jumpWhen false
    | 0x80 => if i.src = 1 then .callFunction else .callHelper
    | 0x90 => .exit
    | 0xe0 => .callValue
    | _ => .badJump
  | 6 => i.aluForm true
  | _ => .bad

/-- Whether the opcode belongs to the instruction set. -/
def isKnown (i : Insn) : Bool :=
  match i.form with
  | .load .. => i.mode == 3 || i.mode == 4
  | .store _ => i.mode == 3
  | .badCompare | .badJump | .bad => false
  | _ => true

def isJump (i : Insn) : Bool :=
  match i.form with
  | .jump | .jumpWhen _ => true
  | _ => false

/-- Whether the instruction sets its destination register. -/
def writesDst (i : Insn) : Bool :=
  match i.form with
  | .wideLoad | .load .. | .move | .convert | .unary .. | .arith .. | .compare _ => true
  | _ => false

/-! ## Instructions by name -/

def ofKindCode (k : Kind) : Int16 := Int16.ofNat k.code.toNat

def wideLoad (dst : UInt8) (w : UInt64) : Insn :=
  ⟨lddw, dst, 0, 0, w.toUInt32.toInt32, some (w >>> 32).toUInt32⟩

def aluClass (checked : Bool) : UInt8 := if checked then 6 else 4

/-- Arithmetic on `dst` and `src`. -/
def arith (op : ArithOp) (k : Kind) (dst src : UInt8) (checked : Bool) : Insn :=
  ⟨aluClass checked ||| arithCode op ||| 0x08, dst, src, ofKindCode k, 0, none⟩

def move (dst src : UInt8) : Insn := ⟨0xbc, dst, src, ofKindCode .u64, 0, none⟩

def moveImm (dst : UInt8) (imm : Int32) : Insn := ⟨0xb4, dst, 0, ofKindCode .u64, imm, none⟩

def addImm (dst : UInt8) (imm : Int32) : Insn := ⟨0x04, dst, 0, ofKindCode .u64, imm, none⟩

def unary (op : UnaryOp) (k : Kind) (dst : UInt8) (checked : Bool) : Insn :=
  ⟨aluClass checked ||| unaryCode op ||| 0x08, dst, dst, ofKindCode k, 0, none⟩

def convert (source target : Kind) (dst src : UInt8) : Insn :=
  ⟨0xfc, dst, src, ofKindCode source, Int32.ofNat target.code.toNat, none⟩

def compare (op : CmpOp) (k : Kind) (dst src : UInt8) : Insn :=
  ⟨0x02 ||| cmpCode op ||| 0x08, dst, src, ofKindCode k, 0, none⟩

/-- Loads from the address in `src` plus the offset. -/
def load (w : Width) (dst src : UInt8) (offset : Int16) (signed : Bool) : Insn :=
  ⟨0x01 ||| w.code ||| (if signed then 0x80 else 0x60), dst, src, offset, 0, none⟩

/-- Stores `src` at the address in `dst` plus the offset. -/
def store (w : Width) (dst src : UInt8) (offset : Int16) : Insn :=
  ⟨0x03 ||| w.code ||| 0x60, dst, src, offset, 0, none⟩

def jump (offset : Int16) : Insn := ⟨0x05, 0, 0, offset, 0, none⟩

def jumpIfZero (dst : UInt8) (offset : Int16) : Insn := ⟨0x15, dst, 0, offset, 0, none⟩

def callFunction (id : UInt32) : Insn := ⟨0x85, 0, 1, 0, id.toInt32, none⟩

def callHelper (hash : UInt32) : Insn := ⟨0x85, 0, 0, 0, hash.toInt32, none⟩

/-- Calls the function whose id is in `dst`. -/
def callValue (dst : UInt8) : Insn := ⟨0xe5, dst, 0, 0, 0, none⟩

def exit : Insn := ⟨0x95, 0, 0, 0, 0, none⟩

end Insn

end NumericEngine.Code
