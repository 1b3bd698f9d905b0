import NumericEngine.Ir.Text
import NumericEngine.Source.Document

/-!
# Modules as documents
-/

namespace NumericEngine.Ir

def number (n : UInt32) : Json := .nat n.toNat

def regs (rs : List Reg) : Json := .arr (rs.map fun r => number r.index)

def kindDocument (k : Kind) : Json := .str k.name.capitalize

/-- A right-hand side as an object with one member; the defined register comes first. -/
def Rhs.document (dst : Reg) (rhs : Rhs) : Json :=
  let item (tag : String) (members : List (String × Json)) : Json :=
    .tagged tag (.obj (("dst", number dst.index) :: members))
  let reg (r : Reg) : Json := number r.index
  match rhs with
  | const c => item "Const" [("value", number c.index)]
  | binary op k l r checked =>
    item "Binary" [("op", .str op.name), ("kind", kindDocument k), ("lhs", reg l), ("rhs", reg r),
      ("checked", .bool checked)]
  | compare op k l r =>
    item "Compare" [("op", .str op.name), ("kind", kindDocument k), ("lhs", reg l), ("rhs", reg r)]
  | unary op k s checked =>
    item "Unary" [("op", .str op.name), ("kind", kindDocument k), ("src", reg s),
      ("checked", .bool checked)]
  | convert a b s =>
    item "Convert" [("from", kindDocument a), ("to", kindDocument b), ("src", reg s)]
  | complexBinary op k l r =>
    item "ComplexBinary" [("op", .str op.name), ("elem", kindDocument k), ("lhs", reg l),
      ("rhs", reg r)]
  | complexCompare op k l r =>
    item "ComplexCompare" [("op", .str op.name), ("elem", kindDocument k), ("lhs", reg l),
      ("rhs", reg r)]
  | complexUnary op k s =>
    let name := match op with
      | .neg => "Neg"
      | .conj => "Conj"
    item "ComplexUnary" [("op", .str name), ("elem", kindDocument k), ("src", reg s)]
  | complexPart p k s =>
    let name := match p with
      | .re => "Re"
      | .im => "Im"
    item "ComplexPart" [("part", .str name), ("elem", kindDocument k), ("src", reg s)]
  | makeComplex k re im =>
    item "MakeComplex" [("elem", kindDocument k), ("re", reg re), ("im", reg im)]
  | makeStruct rs => item "MakeStruct" [("fields", regs rs)]
  | extractField s i => item "ExtractField" [("src", reg s), ("index", number i)]
  | insertField s i v =>
    item "InsertField" [("src", reg s), ("index", number i), ("value", reg v)]
  | stackSlot s => item "StackSlot" [("slot", number s)]
  | load a => item "Load" [("addr", reg a)]
  | call f args => item "Call" [("func", number f.index), ("args", regs args)]
  | funcRef f => item "FuncRef" [("func", number f.index)]
  | callIndirect c args => item "CallIndirect" [("callee", reg c), ("args", regs args)]
  | phi incoming =>
    item "Phi" [("incoming", .arr (incoming.map fun p => .arr [number p.1.index, reg p.2]))]
  | makeTensor rs => item "MakeTensor" [("elements", regs rs)]
  | tensorBinary op l r checked =>
    item "TensorBinary" [("op", .str op.name), ("lhs", reg l), ("rhs", reg r),
      ("checked", .bool checked)]
  | tensorScale t f checked =>
    item "TensorScale" [("tensor", reg t), ("factor", reg f), ("checked", .bool checked)]
  | dot l r => item "Dot" [("lhs", reg l), ("rhs", reg r)]
  | matmul l r => item "MatMul" [("lhs", reg l), ("rhs", reg r)]
  | sum s => item "Sum" [("src", reg s)]
  | extractElement s is => item "ExtractElement" [("src", reg s), ("indices", regs is)]
  | dim s axis => item "Dim" [("src", reg s), ("axis", number axis)]
  | tensorCast s => item "TensorCast" [("src", reg s)]

def Instr.document : Instr → Json
  | define dst rhs => rhs.document dst
  | store addr value =>
    .tagged "Store" (.obj [("addr", number addr.index), ("value", number value.index)])

def Terminator.document : Terminator → Json
  | jump b => .tagged "Jump" (number b.index)
  | branch c t e =>
    .tagged "Branch" (.obj [("cond", number c.index), ("then_block", number t.index),
      ("else_block", number e.index)])
  | ret r => .tagged "Return" (number r.index)

def Block.document (b : Block) : Json :=
  .obj [("id", number b.id.index), ("label", .str b.label),
    ("instructions", .arr (b.instrs.map Instr.document)), ("terminator", b.terminator.document)]

def typeIds (ts : List TypeId) : Json := .arr (ts.map fun t => number t.index)

def Function.document (f : Function) : Json :=
  .obj [("id", number f.id.index), ("name", .str f.name), ("params", regs f.params),
    ("ret_type", number f.retType.index), ("blocks", .arr (f.blocks.map Block.document)),
    ("reg_types", typeIds f.regTypes.toList), ("slot_types", typeIds f.slotTypes.toList)]

def Module.document (m : Module) : Json :=
  .obj [("types", .obj [("types", .arr (m.types.types.toList.map Ty.document))]),
    ("constants", .arr (m.constants.values.toList.map fun v => .str (v.text ++ ": " ++ v.ty.text))),
    ("functions", .arr (m.functions.map Function.document))]

end NumericEngine.Ir
