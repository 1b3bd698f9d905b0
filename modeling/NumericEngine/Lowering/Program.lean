import NumericEngine.Lowering.Stmt

/-!
# Code of functions and programs

The functions of a program share one table of types and one pool of constants.
-/

namespace NumericEngine.Lowering

open Build

def param (x : LocalId) : Build Reg := do
  let r ← newReg (← binding x).ty
  introduce x r
  return r

def params : List LocalId → Build (List Reg)
  | [] => return []
  | x :: xs => do
    let r ← param x
    let rs ← params xs
    return r :: rs

/-- Control that gets to the end of a body returns the unit value, where that is the result. -/
def fallOffEnd (f : TFunction) : Build Unit := do
  if (← get).current.isSome then
    if f.ret.isUnit then
      let unit ← define .unit (.makeStruct [])
      giveBack unit
    else
      refuseAt (.missingReturn f.ret) f.span

def closeBlock (index : Nat) (o : OpenBlock) : Except Refusal Ir.Block :=
  match o.terminator with
  | some terminator =>
    .ok { id := ⟨UInt32.ofNat index⟩, label := o.label, instrs := o.instrs.toList, terminator }
  | none => .error { fault := .noTerminator o.label }

def closeBlocks (index : Nat) : List OpenBlock → Except Refusal (List Ir.Block)
  | [] => .ok []
  | o :: os => do
    let b ← closeBlock index o
    let bs ← closeBlocks (index + 1) os
    return b :: bs

def function (f : TFunction) : Build Ir.Function := do
  let entry ← newBlock "entry"
  moveTo entry
  let params ← params f.params
  stmts f.body
  fallOffEnd f
  let b ← get
  let blocks ← closeBlocks 0 b.blocks.toList
  let (retType, types) := b.types.intern f.ret
  set { b with types }
  return { id := f.id, name := f.name, params, retType, blocks,
           regTypes := b.regTypes, slotTypes := b.slotTypes }

/-- A refusal, and the function that has no code. -/
abbrev Result (α : Type) := Except (String × Refusal) α

/-- The functions after those of `m`. -/
def programFrom (m : Ir.Module) : List TFunction → Result Ir.Module
  | [] => .ok m
  | f :: fs =>
    match (function f).run { locals := f.locals, types := m.types, constants := m.constants } with
    | .error e => .error (f.name, e)
    | .ok (g, b) =>
      programFrom { types := b.types, constants := b.constants, functions := m.functions ++ [g] } fs

def program (fs : List TFunction) : Result Ir.Module := programFrom {} fs

end NumericEngine.Lowering
