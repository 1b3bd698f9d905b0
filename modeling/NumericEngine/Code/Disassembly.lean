import NumericEngine.Code.Helper
import NumericEngine.Code.Program
import NumericEngine.Word.Hex

/-!
# Assembly text
-/

namespace NumericEngine.Code

/-- The kind with a code that stands in an offset or an immediate. -/
def kindOfCode? (code : Int16) : Option Kind :=
  let n := code.toInt
  if 0 ≤ n ∧ n < 256 then Kind.ofCode? (UInt8.ofNat n.toNat) else none

def kindText (code : Int16) : String :=
  match kindOfCode? code with
  | some k => k.name
  | none => "k" ++ toString code.toInt

def signedText (n : Int) : String := (if n < 0 then "" else "+") ++ toString n

def arithMnemonic : ArithOp → String
  | .add => "add"
  | .sub => "sub"
  | .mul => "mul"
  | .div => "div"
  | .rem => "rem"
  | .and => "and"
  | .or => "or"
  | .xor => "xor"
  | .shl => "shl"
  | .shr => "shr"

def cmpMnemonic : CmpOp → String
  | .eq => "seteq"
  | .ne => "setne"
  | .lt => "setlt"
  | .le => "setle"
  | .gt => "setgt"
  | .ge => "setge"

namespace Insn

def regText (r : UInt8) : String := "r" ++ toString r.toNat

def operandText (i : Insn) : String :=
  if i.usesReg then regText i.src else toString i.imm.toInt

def opcodeText (i : Insn) : String := "0x" ++ hexPadded 2 i.opcode.toNat

/-- An address: a register and an offset. -/
def placeText (r : UInt8) (i : Insn) : String :=
  "[" ++ regText r ++ signedText i.offset.toInt ++ "]"

def text (i : Insn) : String :=
  let dst := regText i.dst
  let src := regText i.src
  let kind := kindText i.offset
  let target := signedText i.offset.toInt
  match i.form with
  | .wideLoad => "lddw " ++ dst ++ ", 0x" ++ hex i.imm64.toNat
  | .load w signed =>
    "ldx" ++ toString (w.bytes * 8) ++ (if signed then "sx" else "") ++ " " ++ dst ++ ", " ++
      placeText i.src i
  | .store w => "stx" ++ toString (w.bytes * 8) ++ " " ++ placeText i.dst i ++ ", " ++ src
  | .move => "mov." ++ kind ++ " " ++ dst ++ ", " ++ i.operandText
  | .convert =>
    "conv " ++ kind ++ " -> " ++ kindText i.imm.toInt16 ++ " " ++ dst ++ ", " ++ src
  | .unary op checked =>
    op.mnemonic ++ (if checked then "!" else "") ++ "." ++ kind ++ " " ++ dst
  | .arith op checked =>
    arithMnemonic op ++ (if checked then "!" else "") ++ "." ++ kind ++ " " ++ dst ++ ", " ++
      i.operandText
  | .compare op => cmpMnemonic op ++ "." ++ kind ++ " " ++ dst ++ ", " ++ src
  | .jump => "ja " ++ target
  | .jumpWhen equal =>
    (if equal then "jeq " else "jne ") ++ dst ++ ", " ++ toString i.imm.toInt ++ ", " ++ target
  | .callFunction => "call f" ++ toString i.imm.toInt
  | .callHelper =>
    match Helper.ofHash? i.imm.toUInt32 with
    | some h => "call " ++ h.symbol
    | none => "call 0x" ++ hexPadded 8 i.imm.toUInt32.toNat
  | .callValue => "callx " ++ dst
  | .exit => "exit"
  | .badCompare => "cmp?" ++ i.opcodeText
  | .badJump => "jmp?" ++ i.opcodeText
  | .bad => "unknown " ++ i.opcodeText

end Insn

/-- The number of a slot, of four digits at least. -/
def slotText (slot : Nat) : String :=
  let ds := Nat.toDigits 10 slot
  String.ofList (List.replicate (4 - ds.length) '0' ++ ds)

/-- One line per instruction of a program that is given by slot, from a slot on. -/
def lines (slot : Nat) : List Insn → List String
  | [] => []
  | i :: rest =>
    let line := slotText slot ++ ": " ++ i.text
    if i.slots = 2 then
      match rest with
      | [] => [line]
      | _ :: rest => line :: lines (slot + 2) rest
    else line :: lines (slot + 1) rest

def disassemble (bs : List UInt8) : List String :=
  match decode bs with
  | .ok program => lines 0 program
  | .error e => ["<undecodable: " ++ e.text ++ ">"]

end NumericEngine.Code
