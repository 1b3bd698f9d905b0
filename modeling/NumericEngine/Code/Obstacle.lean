import NumericEngine.Code.Check
import NumericEngine.Code.Program
import NumericEngine.Ir.Module
import NumericEngine.Ty.Text

/-!
# Obstacles to machine code

Why a function has no machine code: the target lacks something it needs, a
number does not fit its field, or the function is not well formed.
-/

namespace NumericEngine.Code

/-- What a target may lack. -/
inductive Capability where
  | tensorHelpers
  | complexHelpers
  | checkedArith
  deriving DecidableEq, Repr, Inhabited

def Capability.name : Capability → String
  | tensorHelpers => "tensor helpers"
  | complexHelpers => "complex helpers"
  | checkedArith => "checked arithmetic"

structure Target where
  tensorHelpers : Bool := true
  complexHelpers : Bool := true
  checkedArith : Bool := true
  deriving DecidableEq, Repr, Inhabited

def Target.has (t : Target) : Capability → Bool
  | .tensorHelpers => t.tensorHelpers
  | .complexHelpers => t.complexHelpers
  | .checkedArith => t.checkedArith

inductive Obstacle where
  -- capabilities
  | lacks (what : String) (capability : Capability)
  | outOfLineConstant (ty : Ty)
  | dynamicLiteral
  -- limits of the encoding
  | frameSize (size : Nat)
  | offsetRange (offset : Nat)
  | jumpRange (slots : Int)
  -- shapes that no access fits
  | constantChunk
  | copyChunk (bytes : Nat)
  | axisOf (axis : UInt32) (ty : Ty)
  | noFunction
  -- ill-formed functions
  | unknownType (id : TypeId)
  | untyped (reg : Reg)
  | untypedArgument
  | registerRange (reg : Reg)
  | constantRange
  | noField (index : UInt32)
  | noSlot (slot : UInt32)
  | dimOf (ty : Ty)
  | noDescriptor (ty : Ty)
  | missingBlock (block : BlockId)
  | phiInput (dst : Reg) (source : BlockId)
  | noShadow (dst : Reg)
  | unboundBlock (block : BlockId)
  | rejected (error : CodeError)
  | unreadable (cause : Unreadable)
  | unresolvedParams
  | unresolvedReturn
  deriving DecidableEq, Repr, Inhabited

def Obstacle.message : Obstacle → String
  | lacks what c => what ++ " needs " ++ c.name ++ ", which the target lacks"
  | outOfLineConstant t => "constant of type " ++ t.text ++ " needs an out-of-line buffer"
  | dynamicLiteral => "tensor literal without a fixed shape"
  | frameSize n => "frame of " ++ toString n ++ " bytes exceeds the 16-bit offset range"
  | offsetRange n => "offset " ++ toString n ++ " exceeds the 16-bit range"
  | jumpRange n => "jump of " ++ toString n ++ " slots exceeds the 16-bit range"
  | constantChunk => "constant record is not chunk aligned"
  | copyChunk n => "copy chunk of " ++ toString n ++ " bytes"
  | axisOf axis t => "axis " ++ toString axis.toNat ++ " of " ++ t.text
  | noFunction => "no such function"
  | unknownType t => "unknown type TypeId(" ++ toString t.index.toNat ++ ")"
  | untyped r => toString r ++ " has no type"
  | untypedArgument => "untyped call argument"
  | registerRange r => toString r ++ " outside the register table"
  | constantRange => "constant out of range"
  | noField i => "no field " ++ toString i.toNat
  | noSlot s => "no stack slot " ++ toString s.toNat
  | dimOf t => "dim of " ++ t.text
  | noDescriptor t => t.text ++ " has no descriptor"
  | missingBlock b => "missing block " ++ toString b
  | phiInput dst source => "phi " ++ toString dst ++ " has no input from " ++ toString source
  | noShadow dst => "phi " ++ toString dst ++ " has no shadow"
  | unboundBlock b => "unbound label Block(BlockId(" ++ toString b.index.toNat ++ "))"
  | rejected e => "generated code rejected: " ++ e.message
  | unreadable e => e.text
  | unresolvedParams => "unresolved parameter types"
  | unresolvedReturn => "unresolved return type"

end NumericEngine.Code
