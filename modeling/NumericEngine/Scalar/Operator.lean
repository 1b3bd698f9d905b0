/-!
# Scalar operators

The operators shared by expressions, instructions and machine code, with the
symbols and names that dumps print.
-/

namespace NumericEngine

inductive ArithOp where
  | add
  | sub
  | mul
  | div
  | rem
  | and
  | or
  | xor
  | shl
  | shr
  deriving DecidableEq, Repr, Inhabited

namespace ArithOp

def all : List ArithOp := [add, sub, mul, div, rem, and, or, xor, shl, shr]

/-- Operators that floats have. -/
def onFloats : ArithOp → Bool
  | add | sub | mul | div | rem => true
  | _ => false

/-- Operators that fail on a zero integer divisor. -/
def divides : ArithOp → Bool
  | div | rem => true
  | _ => false

def symbol : ArithOp → String
  | add => "+"
  | sub => "-"
  | mul => "*"
  | div => "/"
  | rem => "%"
  | and => "&"
  | or => "|"
  | xor => "^"
  | shl => "<<"
  | shr => ">>"

def name : ArithOp → String
  | add => "Add"
  | sub => "Sub"
  | mul => "Mul"
  | div => "Div"
  | rem => "Rem"
  | and => "And"
  | or => "Or"
  | xor => "Xor"
  | shl => "Shl"
  | shr => "Shr"

end ArithOp

inductive CmpOp where
  | eq
  | ne
  | lt
  | le
  | gt
  | ge
  deriving DecidableEq, Repr, Inhabited

namespace CmpOp

def all : List CmpOp := [eq, ne, lt, le, gt, ge]

def symbol : CmpOp → String
  | eq => "=="
  | ne => "!="
  | lt => "<"
  | le => "<="
  | gt => ">"
  | ge => ">="

def name : CmpOp → String
  | eq => "Eq"
  | ne => "Ne"
  | lt => "Lt"
  | le => "Le"
  | gt => "Gt"
  | ge => "Ge"

end CmpOp

inductive UnaryOp where
  | neg
  | not
  | abs
  | sqrt
  deriving DecidableEq, Repr, Inhabited

namespace UnaryOp

def all : List UnaryOp := [neg, not, abs, sqrt]

def name : UnaryOp → String
  | neg => "Neg"
  | not => "Not"
  | abs => "Abs"
  | sqrt => "Sqrt"

def mnemonic : UnaryOp → String
  | neg => "neg"
  | not => "not"
  | abs => "abs"
  | sqrt => "sqrt"

end UnaryOp

inductive ComplexPart where
  | re
  | im
  deriving DecidableEq, Repr, Inhabited

inductive ComplexUnary where
  | neg
  | conj
  deriving DecidableEq, Repr, Inhabited

end NumericEngine
