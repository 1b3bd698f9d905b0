/-!
# Identifiers of the intermediate representation

Registers, blocks, constants and functions are numbered with 32-bit words.
-/

namespace NumericEngine

structure Reg where
  index : UInt32
  deriving DecidableEq, Repr, Inhabited

instance : ToString Reg := ⟨fun r => "%" ++ toString r.index.toNat⟩

structure BlockId where
  index : UInt32
  deriving DecidableEq, Repr, Inhabited

instance : ToString BlockId := ⟨fun b => "bb" ++ toString b.index.toNat⟩

structure ConstId where
  index : UInt32
  deriving DecidableEq, Repr, Inhabited

structure FuncId where
  index : UInt32
  deriving DecidableEq, Repr, Inhabited

instance : ToString FuncId := ⟨fun f => "f" ++ toString f.index.toNat⟩

end NumericEngine
