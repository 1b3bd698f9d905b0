import NumericEngine.Ir.Module

/-!
# Closing the type table

Running code lays out more types than it names: the elements of containers, the
fields of structs, the targets of references, and the argument records of
functions. All of them are interned.
-/

namespace NumericEngine

namespace Ty

/-- The types that a type calls for. -/
def parts : Ty → List Ty
  | prim .. => []
  | vector e _ | tensor e _ | complex e => [e]
  | struct fs => fs.map (·.2)
  | function ps r => record ps :: (ps ++ [r])
  | reference t _ => [t]

mutual
/-- More than the weights of the parts together. -/
def weight : Ty → Nat
  | prim .. => 1
  | vector e _ | tensor e _ | complex e => 1 + weight e
  | struct fs => 1 + fieldsWeight fs
  | function ps r => 3 + 2 * paramsWeight ps + weight r
  | reference t _ => 1 + weight t
def paramsWeight : List Ty → Nat
  | [] => 0
  | t :: ts => weight t + paramsWeight ts
def fieldsWeight : List (String × Ty) → Nat
  | [] => 0
  | (_, t) :: fs => weight t + fieldsWeight fs
end

end Ty

namespace TypeTable

/-- Interns pending types, the first one first, with all that they call for. Taking a type off
the pile for its parts makes the pile lighter, so its weight bounds the steps. -/
def closeFrom : (fuel : Nat) → (pending seen : List Ty) → TypeTable → TypeTable
  | 0, _, _, table => table
  | _, [], _, table => table
  | fuel + 1, t :: pending, seen, table =>
    if seen.contains t then closeFrom fuel pending seen table
    else closeFrom fuel (t.parts.reverse ++ pending) (t :: seen) (table.intern t).2

end TypeTable

namespace Ir.Module

/-- The types to start from; the last one is taken first. -/
def layoutRoots (m : Module) : List Ty :=
  m.types.types.toList ++ (m.functions.filterMap m.paramTys?).map Ty.record

/-- The module with all types interned that running it lays out. -/
def closeTypes (m : Module) : Module :=
  let pending := m.layoutRoots.reverse
  { m with types := m.types.closeFrom (Ty.paramsWeight pending + 1) pending [] }

end Ir.Module

end NumericEngine
