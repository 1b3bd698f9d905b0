import NumericEngine.Value.Basic

/-!
# Constant pools

Values with dense ids, compared bit for bit. Interning a value that is already
there returns the least id that holds it.
-/

namespace NumericEngine

structure ConstantPool where
  values : Array Value := #[]
  deriving DecidableEq, Inhabited

namespace ConstantPool

def size (p : ConstantPool) : Nat := p.values.size

def get? (p : ConstantPool) (id : ConstId) : Option Value := p.values[id.index.toNat]?

/-- The least id that holds the value. -/
def find? (p : ConstantPool) (v : Value) : Option ConstId :=
  (p.values.findIdx? (· == v)).map fun i => ⟨UInt32.ofNat i⟩

def intern (p : ConstantPool) (v : Value) : ConstId × ConstantPool :=
  match p.find? v with
  | some id => (id, p)
  | none => (⟨UInt32.ofNat p.size⟩, ⟨p.values.push v⟩)

end ConstantPool

end NumericEngine
