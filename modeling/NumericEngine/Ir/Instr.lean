import NumericEngine.Ir.Id
import NumericEngine.Scalar.Kind
import NumericEngine.Scalar.Operator

/-!
# Instructions

Code is in static single assignment form: an instruction defines one register
by a right-hand side, or stores through a reference. A phi takes its value from
the register that belongs to the edge on which its block was entered.
-/

namespace NumericEngine.Ir

inductive Rhs where
  | const (value : ConstId)
  | binary (op : ArithOp) (kind : Kind) (lhs rhs : Reg) (checked : Bool)
  | compare (op : CmpOp) (kind : Kind) (lhs rhs : Reg)
  | unary (op : UnaryOp) (kind : Kind) (src : Reg) (checked : Bool)
  | convert (source target : Kind) (src : Reg)
  | complexBinary (op : ArithOp) (elem : Kind) (lhs rhs : Reg)
  | complexCompare (op : CmpOp) (elem : Kind) (lhs rhs : Reg)
  | complexUnary (op : ComplexUnary) (elem : Kind) (src : Reg)
  | complexPart (part : ComplexPart) (elem : Kind) (src : Reg)
  | makeComplex (elem : Kind) (re im : Reg)
  | makeStruct (fields : List Reg)
  | extractField (src : Reg) (index : UInt32)
  | insertField (src : Reg) (index : UInt32) (value : Reg)
  | stackSlot (slot : UInt32)
  | load (addr : Reg)
  | call (func : FuncId) (args : List Reg)
  | funcRef (func : FuncId)
  | callIndirect (callee : Reg) (args : List Reg)
  | phi (incoming : List (BlockId × Reg))
  | makeTensor (elements : List Reg)
  | tensorBinary (op : ArithOp) (lhs rhs : Reg) (checked : Bool)
  | tensorScale (tensor factor : Reg) (checked : Bool)
  | dot (lhs rhs : Reg)
  | matmul (lhs rhs : Reg)
  | sum (src : Reg)
  | extractElement (src : Reg) (indices : List Reg)
  | dim (src : Reg) (axis : UInt32)
  | tensorCast (src : Reg)
  deriving DecidableEq, Repr, Inhabited

namespace Rhs

/-- The registers read, in the order of the operands. -/
def uses : Rhs → List Reg
  | const _ | stackSlot _ | funcRef _ => []
  | binary _ _ l r _ | compare _ _ l r | complexBinary _ _ l r | complexCompare _ _ l r
  | tensorBinary _ l r _ | dot l r | matmul l r => [l, r]
  | unary _ _ s _ | convert _ _ s | complexUnary _ _ s | complexPart _ _ s | extractField s _
  | sum s | dim s _ | tensorCast s | load s => [s]
  | makeComplex _ re im => [re, im]
  | makeStruct rs | makeTensor rs | call _ rs => rs
  | insertField s _ v => [s, v]
  | callIndirect f rs => f :: rs
  | phi incoming => incoming.map (·.2)
  | tensorScale t f _ => [t, f]
  | extractElement s is => s :: is

/-- The right-hand side with every register read replaced. -/
def mapUses (f : Reg → Reg) : Rhs → Rhs
  | const c => const c
  | stackSlot s => stackSlot s
  | funcRef g => funcRef g
  | binary op k l r c => binary op k (f l) (f r) c
  | compare op k l r => compare op k (f l) (f r)
  | complexBinary op k l r => complexBinary op k (f l) (f r)
  | complexCompare op k l r => complexCompare op k (f l) (f r)
  | tensorBinary op l r c => tensorBinary op (f l) (f r) c
  | dot l r => dot (f l) (f r)
  | matmul l r => matmul (f l) (f r)
  | unary op k s c => unary op k (f s) c
  | convert a b s => convert a b (f s)
  | complexUnary op k s => complexUnary op k (f s)
  | complexPart p k s => complexPart p k (f s)
  | extractField s i => extractField (f s) i
  | sum s => sum (f s)
  | dim s a => dim (f s) a
  | tensorCast s => tensorCast (f s)
  | load s => load (f s)
  | makeComplex k re im => makeComplex k (f re) (f im)
  | makeStruct rs => makeStruct (rs.map f)
  | makeTensor rs => makeTensor (rs.map f)
  | call g rs => call g (rs.map f)
  | insertField s i v => insertField (f s) i (f v)
  | callIndirect g rs => callIndirect (f g) (rs.map f)
  | phi incoming => phi (incoming.map fun p => (p.1, f p.2))
  | tensorScale t g c => tensorScale (f t) (f g) c
  | extractElement s is => extractElement (f s) (is.map f)

/-- Whether a definition may go when nothing reads it: it neither fails nor has effects. -/
def isRemovable : Rhs → Bool
  | binary op _ _ _ checked => !checked && !op.divides
  | unary _ _ _ checked => !checked
  | const _ | compare .. | convert .. | complexBinary .. | complexCompare .. | complexUnary ..
  | complexPart .. | makeComplex .. | makeStruct _ | extractField .. | insertField .. | funcRef _
  | phi _ | makeTensor _ | dim .. | load _ => true
  | stackSlot _ | call .. | callIndirect .. | tensorBinary .. | tensorScale .. | dot .. | matmul ..
  | sum _ | extractElement .. | tensorCast _ => false

def mnemonic : Rhs → String
  | const _ => "const"
  | binary .. => "binary"
  | compare .. => "cmp"
  | unary .. => "unary"
  | convert .. => "convert"
  | complexBinary .. => "cbinary"
  | complexCompare .. => "ccmp"
  | complexUnary .. => "cunary"
  | complexPart .. => "cpart"
  | makeComplex .. => "mkcomplex"
  | makeStruct _ => "mkstruct"
  | extractField .. => "extract"
  | insertField .. => "insert"
  | stackSlot _ => "slot"
  | load _ => "load"
  | call .. => "call"
  | funcRef _ => "funcref"
  | callIndirect .. => "callind"
  | phi _ => "phi"
  | makeTensor _ => "mktensor"
  | tensorBinary .. => "tbinary"
  | tensorScale .. => "tscale"
  | dot .. => "dot"
  | matmul .. => "matmul"
  | sum _ => "sum"
  | extractElement .. => "element"
  | dim .. => "dim"
  | tensorCast _ => "tcast"

end Rhs

inductive Instr where
  | define (dst : Reg) (rhs : Rhs)
  | store (addr value : Reg)
  deriving DecidableEq, Repr, Inhabited

namespace Instr

def dst? : Instr → Option Reg
  | define dst _ => some dst
  | store .. => none

def uses : Instr → List Reg
  | define _ rhs => rhs.uses
  | store addr value => [addr, value]

def mapUses (f : Reg → Reg) : Instr → Instr
  | define dst rhs => define dst (rhs.mapUses f)
  | store addr value => store (f addr) (f value)

def isRemovable : Instr → Bool
  | define _ rhs => rhs.isRemovable
  | store .. => false

def isPhi : Instr → Bool
  | define _ (.phi _) => true
  | _ => false

def mnemonic : Instr → String
  | define _ rhs => rhs.mnemonic
  | store .. => "store"

end Instr

inductive Terminator where
  | jump (target : BlockId)
  | branch (cond : Reg) (thenBlock elseBlock : BlockId)
  | ret (value : Reg)
  deriving DecidableEq, Repr, Inhabited

namespace Terminator

def successors : Terminator → List BlockId
  | jump b => [b]
  | branch _ t e => [t, e]
  | ret _ => []

def uses : Terminator → List Reg
  | jump _ => []
  | branch c _ _ => [c]
  | ret r => [r]

def mapUses (f : Reg → Reg) : Terminator → Terminator
  | jump b => jump b
  | branch c t e => branch (f c) t e
  | ret r => ret (f r)

end Terminator

end NumericEngine.Ir
