import NumericEngine.Value.Validity

/-!
# Unreadable modules
-/

namespace NumericEngine.Ir

/-- What a tag byte stands for. -/
inductive Tagged where
  | bool
  | primitive
  | dim
  | type
  | value
  | kind
  | arithOp
  | compareOp
  | unaryOp
  | complexOp
  | complexPart
  | instruction
  | terminator
  deriving DecidableEq, Repr, Inhabited

def Tagged.name : Tagged → String
  | bool => "bool"
  | primitive => "primitive kind"
  | dim => "dim"
  | type => "type"
  | value => "value"
  | kind => "scalar kind"
  | arithOp => "arith op"
  | compareOp => "compare op"
  | unaryOp => "unary op"
  | complexOp => "complex op"
  | complexPart => "complex part"
  | instruction => "instruction"
  | terminator => "terminator"

/-- What a function refers to. -/
inductive Referent where
  | type
  | blockOrder
  | block
  | constant
  | function
  deriving DecidableEq, Repr, Inhabited

def Referent.name : Referent → String
  | type => "type"
  | blockOrder => "block order"
  | block => "block"
  | constant => "constant"
  | function => "function"

inductive Malformation where
  | primitiveWidth (width : UInt8)
  | invalidValue (defect : ValueDefect)
  | functionId (name : String) (id : FuncId) (index : Nat)
  | trailing (count : Nat)
  | unknown (function : String) (referent : Referent)
  deriving DecidableEq, Repr, Inhabited

def Malformation.message : Malformation → String
  | primitiveWidth w => "primitive width " ++ toString w.toNat
  | invalidValue d => "Invalid value: " ++ d.message
  | functionId name id index =>
    "function `" ++ name ++ "` has id " ++ toString id ++ " at index " ++ toString index
  | trailing n => toString n ++ " trailing bytes"
  | unknown name referent => "`" ++ name ++ "` refers to an unknown " ++ referent.name

inductive DecodeError where
  | unexpectedEnd (offset : Nat)
  | badMagic
  | unsupportedVersion (version : Nat)
  | invalidTag (what : Tagged) (tag : UInt8)
  | invalidName
  | malformed (cause : Malformation)
  deriving DecidableEq, Repr, Inhabited

def DecodeError.name : DecodeError → String
  | unexpectedEnd _ => "UnexpectedEof"
  | badMagic => "BadMagic"
  | unsupportedVersion _ => "UnsupportedVersion"
  | invalidTag .. => "InvalidTag"
  | invalidName => "InvalidUtf8"
  | malformed _ => "Malformed"

def DecodeError.message : DecodeError → String
  | unexpectedEnd offset => "unexpected end of input at offset " ++ toString offset
  | badMagic => "bad magic bytes"
  | unsupportedVersion v => "unsupported format version " ++ toString v
  | invalidTag what tag => "invalid " ++ what.name ++ " tag 0x" ++ hexPadded 2 tag.toNat
  | invalidName => "invalid UTF-8 in name"
  | malformed cause => "malformed module: " ++ cause.message

end NumericEngine.Ir
