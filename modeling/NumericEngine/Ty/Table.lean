import NumericEngine.Ty.Layout

/-!
# Type tables

A table gives types dense ids. Interning a type that is already there returns
the least id that holds it; ids stay valid for ever. A layout memo remembers
the layouts asked for by id.
-/

namespace NumericEngine

structure TypeId where
  index : UInt32
  deriving DecidableEq, Repr, Inhabited

instance : ToString TypeId := ⟨fun t => "t" ++ toString t.index.toNat⟩

structure TypeTable where
  types : Array Ty := #[]
  deriving DecidableEq, Inhabited

namespace TypeTable

def size (t : TypeTable) : Nat := t.types.size

def get? (t : TypeTable) (id : TypeId) : Option Ty := t.types[id.index.toNat]?

/-- The least id that holds the type. -/
def find? (t : TypeTable) (ty : Ty) : Option TypeId :=
  (t.types.findIdx? (· == ty)).map fun i => ⟨UInt32.ofNat i⟩

def intern (t : TypeTable) (ty : Ty) : TypeId × TypeTable :=
  match t.find? ty with
  | some id => (id, t)
  | none => (⟨UInt32.ofNat t.size⟩, ⟨t.types.push ty⟩)

end TypeTable

structure LayoutMemo where
  entries : List (TypeId × Layout) := []
  deriving DecidableEq, Repr, Inhabited

namespace LayoutMemo

def size (m : LayoutMemo) : Nat := m.entries.length

/-- The layout of an interned type, computed on first use. -/
def layout? (m : LayoutMemo) (table : TypeTable) (id : TypeId) : Option Layout × LayoutMemo :=
  match m.entries.lookup id with
  | some l => (some l, m)
  | none =>
    match table.get? id with
    | some ty => (some ty.layout, ⟨(id, ty.layout) :: m.entries⟩)
    | none => (none, m)

/-- The layout of any type, through the memo when the type is interned. -/
def resolve (m : LayoutMemo) (table : TypeTable) (ty : Ty) : Layout × LayoutMemo :=
  match table.find? ty with
  | some id =>
    match m.layout? table id with
    | (some l, m') => (l, m')
    | (none, m') => (ty.layout, m')
  | none => (ty.layout, m)

end LayoutMemo

end NumericEngine
