import NumericEngine.Ir.Module

/-!
# Editing modules

Changes to single blocks and functions of a module. An edit of something that
is not there changes nothing. An edited module need not be well formed.
-/

namespace NumericEngine.Ir

namespace Block

def insert (b : Block) (position : Nat) (i : Instr) : Block :=
  { b with instrs := b.instrs.insertIdx position i }

def remove (b : Block) (position : Nat) : Block :=
  { b with instrs := b.instrs.eraseIdx position }

def duplicate (b : Block) (position : Nat) : Block :=
  { b with instrs := b.instrs ++ b.instrs[position]?.toList }

def swap (b : Block) (i j : Nat) : Block :=
  match b.instrs[i]?, b.instrs[j]? with
  | some x, some y => { b with instrs := (b.instrs.set i y).set j x }
  | _, _ => b

end Block

namespace Module

def editFunction (m : Module) (f : Nat) (edit : Function → Function) : Module :=
  { m with functions := m.functions.modify f edit }

def editBlock (m : Module) (f b : Nat) (edit : Block → Block) : Module :=
  m.editFunction f fun g => { g with blocks := g.blocks.modify b edit }

def setTerminator (m : Module) (f b : Nat) (t : Terminator) : Module :=
  m.editBlock f b fun b => { b with terminator := t }

def setBlockId (m : Module) (f b : Nat) (id : BlockId) : Module :=
  m.editBlock f b fun b => { b with id }

def insertInstr (m : Module) (f b position : Nat) (i : Instr) : Module :=
  m.editBlock f b (·.insert position i)

def setRegType (m : Module) (f reg : Nat) (t : TypeId) : Module :=
  m.editFunction f fun g => { g with regTypes := g.regTypes.setIfInBounds reg t }

def setRetType (m : Module) (f : Nat) (t : TypeId) : Module :=
  m.editFunction f fun g => { g with retType := t }

def clear (m : Module) (f : Nat) : Module := m.editFunction f fun g => { g with blocks := [] }

end Module

end NumericEngine.Ir
