import NumericEngine.Ir.Module
import NumericEngine.Value.Text

/-!
# Text of modules
-/

namespace NumericEngine.Ir

def regList (rs : List Reg) : String := ", ".intercalate (rs.map toString)

/-- The mark of a checked operator. -/
def bang (checked : Bool) : String := if checked then "!" else ""

def Rhs.text (m : Module) : Rhs → String
  | const c =>
    match m.constants.get? c with
    | some v => "const " ++ v.text
    | none => "const c" ++ toString c.index.toNat ++ "?"
  | binary op k l r checked =>
    toString l ++ " " ++ op.symbol ++ bang checked ++ " " ++ toString r ++ "  ; " ++ k.name
  | compare op k l r => toString l ++ " " ++ op.symbol ++ " " ++ toString r ++ "  ; " ++ k.name
  | unary op k s checked => op.mnemonic ++ bang checked ++ " " ++ toString s ++ "  ; " ++ k.name
  | convert a b s => "convert " ++ toString s ++ " " ++ a.name ++ " -> " ++ b.name
  | complexBinary op _ l r => toString l ++ " " ++ op.symbol ++ " " ++ toString r ++ "  ; complex"
  | complexCompare op _ l r => toString l ++ " " ++ op.symbol ++ " " ++ toString r ++ "  ; complex"
  | complexUnary .neg _ s => "neg " ++ toString s
  | complexUnary .conj _ s => "conj " ++ toString s
  | complexPart .re _ s => "re " ++ toString s
  | complexPart .im _ s => "im " ++ toString s
  | makeComplex _ re im => "complex(" ++ toString re ++ ", " ++ toString im ++ ")"
  | makeStruct rs => "\x7b" ++ regList rs ++ "\x7d"
  | extractField s i => toString s ++ "." ++ toString i.toNat
  | insertField s i v => toString s ++ " with ." ++ toString i.toNat ++ " = " ++ toString v
  | stackSlot s => "slot " ++ toString s.toNat
  | load a => "load " ++ toString a
  | call f args =>
    let name := ((m.function? f).map (·.name)).getD "?"
    "call " ++ toString f ++ " " ++ name ++ "(" ++ regList args ++ ")"
  | funcRef f => "funcref " ++ toString f
  | callIndirect c args => "call *" ++ toString c ++ "(" ++ regList args ++ ")"
  | phi incoming =>
    let edge (p : BlockId × Reg) : String := "[" ++ toString p.1 ++ ", " ++ toString p.2 ++ "]"
    "phi " ++ " ".intercalate (incoming.map edge)
  | makeTensor rs => "[" ++ regList rs ++ "]"
  | tensorBinary op l r checked =>
    toString l ++ " ." ++ op.symbol ++ bang checked ++ " " ++ toString r
  | tensorScale t f checked => "scale" ++ bang checked ++ " " ++ toString t ++ " by " ++ toString f
  | dot l r => "dot " ++ toString l ++ ", " ++ toString r
  | matmul l r => "matmul " ++ toString l ++ ", " ++ toString r
  | sum s => "sum " ++ toString s
  | extractElement s is => toString s ++ "[" ++ regList is ++ "]"
  | dim s axis => "dim " ++ toString s ++ ", " ++ toString axis.toNat
  | tensorCast s => "tcast " ++ toString s

def Terminator.text : Terminator → String
  | jump b => "jump " ++ toString b
  | branch c t e => "branch " ++ toString c ++ ", " ++ toString t ++ ", " ++ toString e
  | ret r => "ret " ++ toString r

/-- The text of a type, or a question mark. -/
def tyText (t : Option Ty) : String := (t.map Ty.text).getD "?"

def Instr.text (m : Module) (f : Function) : Instr → String
  | define dst rhs => toString dst ++ ": " ++ tyText (m.regTy? f dst) ++ " = " ++ rhs.text m
  | store addr value => "store " ++ toString addr ++ " <- " ++ toString value

def Block.lines (m : Module) (f : Function) (b : Block) : List String :=
  (b.label ++ ":  ; " ++ toString b.id) :: b.instrs.map (fun i => "  " ++ i.text m f) ++
    ["  " ++ b.terminator.text]

def Function.lines (m : Module) (f : Function) : List String :=
  let params := f.params.map fun r => toString r ++ ": " ++ tyText (m.regTy? f r)
  let slots := f.slotTypes.toList.map fun t => tyText (m.ty? t)
  let head := "fn " ++ toString f.id ++ " " ++ f.name ++ "(" ++ ", ".intercalate params ++
    ") -> " ++ tyText (m.ty? f.retType) ++ " \x7b"
  head :: (if slots.isEmpty then [] else ["  slots: [" ++ ", ".intercalate slots ++ "]"]) ++
    f.blocks.flatMap (·.lines m f) ++ ["\x7d"]

def Module.text (m : Module) : String :=
  String.join (m.functions.map fun f => String.join ((f.lines m).map (· ++ "\n")))

end NumericEngine.Ir
