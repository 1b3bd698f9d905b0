import NumericEngine.Code.Obstacle
import NumericEngine.Fault
import NumericEngine.Ir.Binary.Error
import NumericEngine.Ir.VerifyError
import NumericEngine.Lowering.Builder
import NumericEngine.Typing.Error

/-!
# Errors

A program that is well typed may still fail to become code: its body may end
without a value, its code may not pass verification, or the machine may not be
able to run it. All errors of the engine are gathered in one type.
-/

namespace NumericEngine

inductive LoweringErrorKind where
  | missingReturn
  | unsupported
  | verification
  | unresolvedNativeFeature
  | encodingLimit
  deriving DecidableEq, Repr, Inhabited

namespace LoweringErrorKind

def name : LoweringErrorKind → String
  | missingReturn => "MissingReturn"
  | unsupported => "Unsupported"
  | verification => "Verification"
  | unresolvedNativeFeature => "UnresolvedNativeFeature"
  | encodingLimit => "EncodingLimit"

def text : LoweringErrorKind → String
  | missingReturn => "missing return"
  | unsupported => "unsupported construct"
  | verification => "verification failed"
  | unresolvedNativeFeature => "unresolved native feature"
  | encodingLimit => "encoding limit"

end LoweringErrorKind

def Lowering.Fault.kind : Lowering.Fault → LoweringErrorKind
  | .missingReturn _ => .missingReturn
  | _ => .unsupported

def Code.Obstacle.kind : Code.Obstacle → LoweringErrorKind
  | .lacks .. | .outOfLineConstant _ | .dynamicLiteral => .unresolvedNativeFeature
  | .frameSize _ | .offsetRange _ | .jumpRange _ => .encodingLimit
  | .constantChunk | .copyChunk _ | .axisOf .. | .noFunction => .unsupported
  | _ => .verification

/-- The step after which code was verified. -/
inductive Step where
  | lowering
  | optimization
  deriving DecidableEq, Repr, Inhabited

def Step.name : Step → String
  | lowering => "lowering"
  | optimization => "optimization"

inductive LoweringCause where
  | source (fault : Lowering.Fault)
  | verify (after : Step) (error : Ir.VerifyError)
  | native (obstacle : Code.Obstacle)
  deriving DecidableEq, Repr, Inhabited

namespace LoweringCause

def kind : LoweringCause → LoweringErrorKind
  | source f => f.kind
  | verify .. => .verification
  | native o => o.kind

def message : LoweringCause → String
  | source f => f.message
  | verify after e => "after " ++ after.name ++ ": " ++ e.message
  | native o => o.message

end LoweringCause

structure LoweringError where
  function : String
  cause : LoweringCause
  span : Option Source.Span := none
  deriving DecidableEq, Repr, Inhabited

namespace LoweringError

def kind (e : LoweringError) : LoweringErrorKind := e.cause.kind

def text (e : LoweringError) : String :=
  let place := match e.span with
    | some s => " at " ++ toString s
    | none => ""
  e.kind.text ++ " in `" ++ e.function ++ "`" ++ place ++ ": " ++ e.cause.message

end LoweringError

/-- The stage of work at which an error arises. -/
inductive Stage where
  | compileTime
  | runtime
  | decode
  deriving DecidableEq, Repr, Inhabited

def Stage.name : Stage → String
  | compileTime => "CompileTime"
  | runtime => "Runtime"
  | decode => "Decode"

inductive Error where
  | type (e : TypeError)
  | lowering (e : LoweringError)
  | runtime (f : Fault)
  | decode (e : Ir.DecodeError)
  | invalidValue (d : ValueDefect)
  /-- No function can be made undecided. -/
  | pinUnresolved
  deriving DecidableEq, Repr, Inhabited

namespace Error

def stage : Error → Stage
  | type _ | lowering _ => .compileTime
  | runtime _ | invalidValue _ | pinUnresolved => .runtime
  | decode _ => .decode

/-- The family of the error and its kind. -/
def name : Error → String
  | type e => "Type." ++ e.fault.kind.name
  | lowering e => "Lowering." ++ e.kind.name
  | runtime f => "Runtime." ++ f.kind.name
  | decode e => "Decode." ++ e.name
  | invalidValue _ | pinUnresolved => "InvalidValue"

def message : Error → String
  | type e => "Type error: " ++ e.text
  | lowering e => "Lowering error: " ++ e.text
  | runtime f => "Runtime error: " ++ f.text
  | decode e => "Decode error: " ++ e.message
  | invalidValue d => "Invalid value: " ++ d.message
  | pinUnresolved => "Invalid value: cannot pin a function to Unresolved"

end Error

end NumericEngine
