import NumericEngine.Code.Helper
import NumericEngine.Code.Insn
import NumericEngine.Word.Hex

/-!
# Checking code

Code may be run when every jump lands on the start of an instruction, registers
exist and the frame pointer is never set, control cannot run off the end, and
every call names a helper or a function that exists.
-/

namespace NumericEngine.Code

inductive CodeError where
  | empty
  | tooLarge (slots limit : Nat)
  | invalidOpcode (offset : Nat) (opcode : UInt8)
  | invalidRegister (offset : Nat) (reg : UInt8)
  | framePointerWrite (offset : Nat)
  | badJumpTarget (offset : Nat) (target : Int)
  | unknownHelper (offset : Nat) (hash : UInt32)
  | unknownFunction (offset : Nat) (id : UInt32)
  | fallsOffEnd
  deriving DecidableEq, Repr, Inhabited

def CodeError.message : CodeError → String
  | empty => "Function has no instructions"
  | tooLarge slots limit =>
    "Function too large: " ++ toString slots ++ " slots (limit: " ++ toString limit ++ ")"
  | invalidOpcode offset opcode =>
    "Invalid opcode 0x" ++ hexPadded 2 opcode.toNat ++ " at offset " ++ toString offset
  | invalidRegister offset reg =>
    "Invalid register " ++ toString reg.toNat ++ " at offset " ++ toString offset
  | framePointerWrite offset => "Write to r10 at offset " ++ toString offset
  | badJumpTarget offset target =>
    "Jump at offset " ++ toString offset ++ " targets slot " ++ toString target
  | unknownHelper offset hash =>
    "Unknown helper 0x" ++ hexPadded 8 hash.toNat ++ " at offset " ++ toString offset
  | unknownFunction offset id =>
    "Call to unknown function " ++ toString id.toNat ++ " at offset " ++ toString offset
  | fallsOffEnd => "Control can run past the last instruction"

def maxSlots : Nat := 1 <<< 20

/-- Counts over a program. -/
structure CodeStats where
  instructions : Nat
  size : Nat
  helperCalls : Nat
  functionCalls : Nat
  backwardJumps : Nat
  deriving DecidableEq, Repr, Inhabited

structure CodeReport where
  errors : List CodeError
  warnings : List String
  stats : CodeStats
  deriving Repr, Inhabited

/-- Whether code may be run; in strict mode without warnings. -/
def CodeReport.valid (r : CodeReport) (strict : Bool) : Bool :=
  r.errors.isEmpty && (!strict || r.warnings.isEmpty)

/-- Instructions with the slots they start at. -/
def placed (slot : Nat) : List Insn → List (Nat × Insn)
  | [] => []
  | i :: rest => (slot, i) :: placed (slot + i.slots) rest

def slotCount (program : List Insn) : Nat := program.foldr (·.slots + ·) 0

/-- The slot that a jump in a slot leads to. -/
def jumpTarget (slot : Nat) (i : Insn) : Int := slot + 1 + i.offset.toInt

def callErrors (functions slot : Nat) (i : Insn) : List CodeError :=
  let imm := i.imm.toUInt32
  match i.form with
  | .callFunction => if functions ≤ imm.toNat then [.unknownFunction (slot * 8) imm] else []
  | .callHelper => if (Helper.ofHash? imm).isNone then [.unknownHelper (slot * 8) imm] else []
  | _ => []

/-- Whether a jump to a slot lands on the start of an instruction. -/
def lands (starts : List Nat) (target : Int) : Bool :=
  decide (0 ≤ target) && starts.contains target.toNat

/-- The errors of an instruction in a program whose instructions start at the given slots. -/
def insnErrors (functions : Nat) (starts : List Nat) (slot : Nat) (i : Insn) : List CodeError :=
  if !i.isKnown then [.invalidOpcode (slot * 8) i.opcode]
  else
    let regs := [i.dst, i.src].filterMap fun r =>
      if fp < r then some (CodeError.invalidRegister (slot * 8) r) else none
    let frame := if i.writesDst && i.dst == fp then [CodeError.framePointerWrite (slot * 8)] else []
    let target := jumpTarget slot i
    let jump :=
      if i.isJump && !lands starts target then [CodeError.badJumpTarget (slot * 8) target] else []
    regs ++ frame ++ jump ++ callErrors functions slot i

/-- Whether control never goes on to the next slot. -/
def Insn.isTerminal (i : Insn) : Bool :=
  match i.form with
  | .jump | .exit => true
  | _ => false

def endErrors (program : List Insn) : List CodeError :=
  match program.getLast? with
  | some i => if i.isTerminal then [] else [.fallsOffEnd]
  | none => []

def statsOf (program : List Insn) : CodeStats where
  instructions := program.length
  size := slotCount program * 8
  helperCalls := program.countP fun i => i.form == .callHelper
  functionCalls := program.countP fun i => i.form == .callFunction
  backwardJumps := program.countP fun i => i.isJump && i.offset < 0

def codeWarnings (s : CodeStats) : List String :=
  if 0 < s.backwardJumps && s.functionCalls == 0 && s.helperCalls == 0 then
    [toString s.backwardJumps ++
      " loop back-edge(s) with no calls; abort is only observed on back-edges"]
  else []

def check (functions : Nat) (program : List Insn) : CodeReport :=
  let slots := slotCount program
  let placed := placed 0 program
  let starts := placed.map (·.1)
  let stats := statsOf program
  { errors :=
      (if program.isEmpty then [.empty] else []) ++
      (if maxSlots < slots then [.tooLarge slots maxSlots] else []) ++
      placed.flatMap (fun p => insnErrors functions starts p.1 p.2) ++
      endErrors program
    warnings := codeWarnings stats
    stats }

end NumericEngine.Code
