import NumericEngine.Code.Insn

/-!
# Code as bytes

The bytes of a program are the slots of its instructions. Read back, a program
is a list with one entry per slot: both slots of a wide load hold it, so that
an index into the list is an address.
-/

namespace NumericEngine.Code

namespace Insn

def encode (i : Insn) : List UInt8 :=
  let slot := i.opcode :: ((i.src <<< 4) ||| (i.dst &&& 0x0f)) ::
    (leBytes 2 i.offset.toUInt16.toUInt64 ++ leBytes 4 i.imm.toUInt32.toUInt64)
  match i.wide with
  | some upper => slot ++ [0, 0, 0, 0] ++ leBytes 4 upper.toUInt64
  | none => slot

def ofSlot (opcode regs : UInt8) (offset imm : List UInt8) : Insn :=
  ⟨opcode, regs &&& 0x0f, regs >>> 4, (ofLeBytes offset).toUInt16.toInt16,
    (ofLeBytes imm).toUInt32.toInt32, none⟩

end Insn

/-- Why bytes are no program. -/
inductive Unreadable where
  /-- The length is no multiple of eight. -/
  | truncated (length : Nat)
  /-- A wide load in the last slot. -/
  | missingHalf (slot : Nat)
  deriving DecidableEq, Repr, Inhabited

def Unreadable.text : Unreadable → String
  | truncated n => "Truncated(" ++ toString n ++ ")"
  | missingHalf i => "MissingWideHalf(" ++ toString i ++ ")"

def encode (program : List Insn) : List UInt8 := program.flatMap Insn.encode

/-- The instructions of whole slots, none of them wide. -/
def narrow : List UInt8 → List Insn
  | a :: b :: c :: d :: e :: f :: g :: h :: rest =>
    Insn.ofSlot a b [c, d] [e, f, g, h] :: narrow rest
  | _ => []

/-- Joins the halves of wide loads; the first instruction is at slot `i`. -/
def joinWide (i : Nat) : List Insn → Except Unreadable (List Insn)
  | [] => .ok []
  | insn :: rest =>
    if insn.opcode = Insn.lddw then
      match rest with
      | [] => .error (.missingHalf i)
      | upper :: rest => do
        let wide := { insn with wide := some upper.imm.toUInt32 }
        let program ← joinWide (i + 2) rest
        return wide :: wide :: program
    else do
      let program ← joinWide (i + 1) rest
      return insn :: program

def decode (bs : List UInt8) : Except Unreadable (List Insn) :=
  if bs.length % 8 ≠ 0 then .error (.truncated bs.length) else joinWide 0 (narrow bs)

end NumericEngine.Code
