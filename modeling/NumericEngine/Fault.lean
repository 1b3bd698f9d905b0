import NumericEngine.Value.Validity

/-!
# Faults

Everything that can stop a running program. A fault says what happened; its
kind and its text are functions of that. Faults of kind `internal` show a
broken invariant: verified code has none.
-/

namespace NumericEngine

inductive FaultKind where
  | overflow
  | divisionByZero
  | shapeMismatch
  | indexOutOfBounds
  | unresolvedNativeFeature
  | stackOverflow
  | outOfMemory
  | aborted
  | argumentMismatch
  | unknownFunction
  | internal
  /-- The whole program ends, with no answer. -/
  | crash
  deriving DecidableEq, Repr, Inhabited

def FaultKind.name : FaultKind → String
  | overflow => "Overflow"
  | divisionByZero => "DivisionByZero"
  | shapeMismatch => "ShapeMismatch"
  | indexOutOfBounds => "IndexOutOfBounds"
  | unresolvedNativeFeature => "UnresolvedNativeFeature"
  | stackOverflow => "StackOverflow"
  | outOfMemory => "OutOfMemory"
  | aborted => "Aborted"
  | argumentMismatch => "ArgumentMismatch"
  | unknownFunction => "UnknownFunction"
  | internal => "Internal"
  | crash => "Crash"

/-- A broken invariant of the engine. -/
inductive Defect where
  | unsupportedOperator
  -- memory
  | access (length : Nat) (addr base : UInt64) (used : Nat)
  | regionExhausted (base : UInt64) (needed limit : Nat)
  -- records
  | recordSize (found needed : Nat) (ty : Ty)
  | scalarPayload
  | complexPayload
  | descriptorRank (found rank : Nat)
  | referenceInRecord
  | payloadLayout (ty : Ty)
  | noScalarKind (ty : Ty)
  | notComplex (ty : Ty)
  | noFixedShape (ty : Ty)
  | noElementKind (ty : Ty)
  | invalidValue (defect : ValueDefect)
  | functionIdRange
  | constantReads
  -- frames
  | frameArguments (function : String) (expected found : Nat)
  | undefinedRegister (reg : Reg) (function : String)
  | registerRange (reg : Reg)
  | unsetSlot (slot : UInt32)
  | slotRange (slot : UInt32)
  -- interpretation
  | missingBlock (block : BlockId)
  | notAFunction
  | untypedRegister (reg : Reg)
  | constantRange
  | noField (index : UInt32)
  | insertIntoNonStruct
  | unbuildable (ty : Ty)
  | elementNotNumber
  | indexNotInteger
  | axisRange (axis : UInt32)
  | castOfNonTensor
  | phiInput (dst : Reg) (source : BlockId)
  | expectedScalar (ty : Ty)
  | expectedBool (ty : Ty)
  | expectedComplex (ty : Ty)
  | expectedNumber (ty : Ty)
  | expectedTensor (ty : Ty)
  | notAReference
  | notATensorType (ty : Ty)
  | callOutsideRun
  -- native code
  | missingCode (function : FuncId)
  | nativeLowering (reason : String)
  | pcOutside (pc : Nat) (symbol : String)
  | functionValueRange
  | jumpBeforeStart
  | argumentRecord
  | unknownHelper (hash : UInt32)
  | noHelperSite (site : UInt64) (symbol : String)
  | badKindCode (code : Int)
  | invalidOpcode (opcode : UInt8)
  | siteOperand (index : Nat)
  | siteArith
  | siteCompare
  deriving Repr, Inhabited, DecidableEq

def Defect.message : Defect → String
  | unsupportedOperator => "operator not defined for operand kind"
  | access n addr base used =>
    "access of " ++ toString n ++ " bytes at 0x" ++ hex addr.toNat ++ " outside region 0x" ++
      hex base.toNat ++ "+" ++ toString used
  | regionExhausted base needed limit =>
    "region at 0x" ++ hex base.toNat ++ " exhausted (" ++ toString needed ++ " of " ++
      toString limit ++ " bytes)"
  | recordSize found needed t =>
    toString found ++ " bytes for a " ++ toString needed ++ "-byte " ++ t.text
  | scalarPayload => "scalar payload without scalar type"
  | complexPayload => "complex payload without complex type"
  | descriptorRank found rank =>
    "rank " ++ toString found ++ " value for a rank " ++ toString rank ++ " descriptor"
  | referenceInRecord => "references cannot cross the value ABI"
  | payloadLayout t => "payload does not match the layout of " ++ t.text
  | noScalarKind t => t.text ++ " has no scalar kind"
  | notComplex t => t.text ++ " is not complex"
  | noFixedShape t => t.text ++ " has no fixed shape"
  | noElementKind t => t.text ++ " has no element kind"
  | invalidValue d => "Invalid value: " ++ d.message
  | functionIdRange => "function id out of range"
  | constantReads => "constant encoding reads no memory"
  | frameArguments name expected found =>
    "`" ++ name ++ "` takes " ++ toString expected ++ " arguments, frame got " ++ toString found
  | undefinedRegister r name => toString r ++ " read before definition in `" ++ name ++ "`"
  | registerRange r => toString r ++ " outside the register file"
  | unsetSlot s => "slot " ++ toString s.toNat ++ " read before any store"
  | slotRange s => "slot " ++ toString s.toNat ++ " outside the frame"
  | missingBlock b => "missing block " ++ toString b
  | notAFunction => "call through a non-function value"
  | untypedRegister r => toString r ++ " has no type"
  | constantRange => "constant out of range"
  | noField i => "no field " ++ toString i.toNat
  | insertIntoNonStruct => "insert into a non-struct"
  | unbuildable t => "cannot build a " ++ t.text
  | elementNotNumber => "tensor element is not a number"
  | indexNotInteger => "non-integer index"
  | axisRange axis => "axis " ++ toString axis.toNat ++ " out of range"
  | castOfNonTensor => "cast of a non-tensor"
  | phiInput dst source => "phi " ++ toString dst ++ " has no input from " ++ toString source
  | expectedScalar t => "expected a scalar, found " ++ t.text
  | expectedBool t => "expected a bool, found " ++ t.text
  | expectedComplex t => "expected a complex, found " ++ t.text
  | expectedNumber t => "expected a number, found " ++ t.text
  | expectedTensor t => "expected a tensor, found " ++ t.text
  | notAReference => "dereference of a non-reference"
  | notATensorType t => t.text ++ " is not a tensor type"
  | callOutsideRun => "calls are executed by the run loop"
  | missingCode f => toString f ++ " is native but has no code"
  | nativeLowering reason => "native lowering failed: " ++ reason
  | pcOutside pc symbol => "pc " ++ toString pc ++ " outside " ++ symbol
  | functionValueRange => "function value out of range"
  | jumpBeforeStart => "jump before function start"
  | argumentRecord => "argument record is not a struct"
  | unknownHelper hash => "unknown helper 0x" ++ hexPadded 8 hash.toNat
  | noHelperSite site symbol => "no helper site " ++ toString site.toNat ++ " in " ++ symbol
  | badKindCode code => "bad kind code " ++ toString code
  | invalidOpcode opcode => "invalid opcode 0x" ++ hexPadded 2 opcode.toNat
  | siteOperand i => "helper site has no operand " ++ toString i
  | siteArith => "helper site has no arithmetic operator"
  | siteCompare => "complex compare site without a comparison"

inductive Fault where
  | overflow
  | divisionByZero
  /-- Shapes that disagree; when a value is to become a tensor of a type, with that type. -/
  | shapeMismatch (expected found : Shape) (target : Option Ty)
  | indexOutOfBounds (index : Int) (extent : UInt64)
  | outOfLineConstant
  | callDepth (limit : Nat)
  | modeSwitches (limit : Nat)
  | nativeStack (used : Nat)
  | outOfMemory (requested live limit : Nat)
  | aborted (depth : Nat)
  | argumentCount (function : FuncId) (expected found : Nat)
  | argumentType (index : Nat) (function : FuncId) (expected found : Ty)
  | argumentValue (index : Nat) (function : FuncId) (defect : ValueDefect)
  | unknownFunction (function : FuncId)
  | unknownName (name : String)
  | internal (defect : Defect)
  | crash
  deriving Repr, Inhabited, DecidableEq

namespace Fault

def kind : Fault → FaultKind
  | overflow => .overflow
  | divisionByZero => .divisionByZero
  | shapeMismatch .. => .shapeMismatch
  | indexOutOfBounds .. => .indexOutOfBounds
  | outOfLineConstant => .unresolvedNativeFeature
  | callDepth _ | modeSwitches _ | nativeStack _ => .stackOverflow
  | outOfMemory .. => .outOfMemory
  | aborted _ => .aborted
  | argumentCount .. | argumentType .. | argumentValue .. => .argumentMismatch
  | unknownFunction _ | unknownName _ => .unknownFunction
  | internal _ => .internal
  | crash => .crash

def message : Fault → String
  | overflow => "arithmetic overflow"
  | divisionByZero => "division by zero"
  | shapeMismatch expected found target =>
    let shapes := "expected shape " ++ expected.text ++ ", found " ++ found.text
    match target with
    | some t => shapes ++ " (target " ++ t.text ++ ")"
    | none => shapes
  | indexOutOfBounds i extent =>
    "index " ++ toString i ++ " outside axis of extent " ++ toString extent.toNat
  | outOfLineConstant => "out-of-line constant"
  | callDepth limit => "call depth limit of " ++ toString limit ++ " exceeded"
  | modeSwitches limit => "more than " ++ toString limit ++ " nested mode switches"
  | nativeStack used => "native stack exhausted (" ++ toString used ++ " bytes in use)"
  | outOfMemory requested live limit =>
    "native heap exhausted: " ++ toString requested ++ " bytes requested, " ++ toString live ++
      " of " ++ toString limit ++ " bytes live"
  | aborted depth => "frame chain aborted at depth " ++ toString depth
  | argumentCount f expected found =>
    toString f ++ " expects " ++ toString expected ++ " argument(s), got " ++ toString found
  | argumentType i f expected found =>
    "argument " ++ toString i ++ " of " ++ toString f ++ ": expected " ++ expected.text ++
      ", got " ++ found.text
  | argumentValue i f d =>
    "argument " ++ toString i ++ " of " ++ toString f ++ ": Invalid value: " ++ d.message
  | unknownFunction f => "no function " ++ toString f
  | unknownName name => "no function named '" ++ name ++ "'"
  | internal d => d.message
  | crash => "access outside of a buffer"

/-- Kind and description in one line. -/
def text (f : Fault) : String := f.kind.name ++ ": " ++ f.message

def ofArith : ArithError → Fault
  | .overflow => overflow
  | .divisionByZero => divisionByZero
  | .unsupported => internal .unsupportedOperator

def ofTensor : TensorError → Fault
  | .shapeMismatch expected found => shapeMismatch expected found none
  | .indexOutOfBounds i extent => indexOutOfBounds i extent
  | .arith e => ofArith e
  | .crash => crash

end Fault

/-- A change of a state with a result. A fault keeps the state reached so far. -/
abbrev Transition (σ : Type) := ExceptT Fault (StateM σ)

namespace Transition

def defect {σ α : Type} (d : Defect) : Transition σ α := throw (.internal d)

/-- A result that does not touch the state. -/
def outcome {σ α : Type} (x : Except Fault α) : Transition σ α := fun s => (x, s)

/-- The value of an option, or a defect. -/
def need {σ α : Type} (x : Option α) (d : Defect) : Transition σ α :=
  match x with
  | some a => pure a
  | none => throw (.internal d)

end Transition

end NumericEngine
