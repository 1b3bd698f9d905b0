import NumericEngine.Ir.Module
import NumericEngine.Typing.Tree
import NumericEngine.Ty.Text

/-!
# Building functions

The blocks of a function under construction, with the register that holds the
present value of each binding. A binding whose reference is taken lives in a
stack slot instead. Statements that cannot be reached are not built: after a
terminator there is no current block.
-/

namespace NumericEngine.Lowering

open Source (Span)
open Ir (Rhs Instr Terminator)

/-- Why a checked function has no code. Only a missing return can arise from a checked program. -/
inductive Fault where
  | missingReturn (ret : Ty)
  | afterTerminator
  | noTerminator (label : String)
  | undefinedBinding (name : String)
  | breakOutsideLoop
  | continueOutsideLoop
  | notPrimitive (ty : Ty)
  | notComplex (ty : Ty)
  | arithmeticOn (ty : Ty)
  | noSlot (name : String)
  deriving DecidableEq, Repr, Inhabited

def Fault.message : Fault → String
  | missingReturn t => "control can reach the end of a function returning " ++ t.text
  | afterTerminator => "code emitted after a terminator"
  | noTerminator label => "block " ++ label ++ " has no terminator"
  | undefinedBinding name => "binding `" ++ name ++ "` read before it is defined"
  | breakOutsideLoop => "break outside a loop"
  | continueOutsideLoop => "continue outside a loop"
  | notPrimitive t => "expected a primitive type, found " ++ t.text
  | notComplex t => "expected a complex type, found " ++ t.text
  | arithmeticOn t => "arithmetic on " ++ t.text
  | noSlot name => "reference to `" ++ name ++ "` which has no stack slot"

structure Refusal where
  fault : Fault
  span : Option Span := none
  deriving DecidableEq, Repr, Inhabited

/-- The registers that hold the bindings, in the order of the bindings' ids. -/
abbrev Bindings := List (LocalId × Reg)

namespace Bindings

def get? (b : Bindings) (x : LocalId) : Option Reg := List.lookup x b

def set (x : LocalId) (r : Reg) : Bindings → Bindings
  | [] => [(x, r)]
  | (y, s) :: rest =>
    if x.index < y.index then (x, r) :: (y, s) :: rest
    else if x = y then (x, r) :: rest
    else (y, s) :: set x r rest

end Bindings

/-- An edge into a block, with the bindings as they are on it. -/
structure Edge where
  source : BlockId
  values : Bindings
  deriving DecidableEq, Repr, Inhabited

structure OpenBlock where
  label : String
  instrs : Array Instr := #[]
  terminator : Option Terminator := none
  deriving Inhabited

structure Loop where
  header : BlockId
  exit : BlockId
  /-- The edges back to the header. -/
  continues : List Edge := []
  /-- The edges to the exit. -/
  breaks : List Edge
  deriving Inhabited

structure Builder where
  locals : Array Local
  types : TypeTable
  constants : ConstantPool
  blocks : Array OpenBlock := #[]
  regTypes : Array TypeId := #[]
  slotTypes : Array TypeId := #[]
  /-- The block that receives instructions; none after a terminator. -/
  current : Option BlockId := none
  values : Bindings := []
  /-- The addresses of the bindings in stack slots. -/
  slots : List (LocalId × Reg) := []
  loops : List Loop := []
  deriving Inhabited

abbrev Build := StateT Builder (Except Refusal)

namespace Build

variable {α : Type}

def refuse (fault : Fault) : Build α := throw { fault }

def refuseAt (fault : Fault) (span : Span) : Build α := throw { fault, span := some span }

def binding (x : LocalId) : Build Local :=
  return (← get).locals[x.index.toNat]?.getD default

def newBlock (stem : String) : Build BlockId :=
  modifyGet fun b =>
    let n := b.blocks.size
    let label := if n = 0 then stem else stem ++ toString n
    (⟨UInt32.ofNat n⟩, { b with blocks := b.blocks.push { label } })

def newReg (ty : Ty) : Build Reg :=
  modifyGet fun b =>
    let (t, types) := b.types.intern ty
    (⟨UInt32.ofNat b.regTypes.size⟩, { b with types, regTypes := b.regTypes.push t })

def newSlot (ty : Ty) : Build UInt32 :=
  modifyGet fun b =>
    let (t, types) := b.types.intern ty
    (UInt32.ofNat b.slotTypes.size, { b with types, slotTypes := b.slotTypes.push t })

def constant (v : Value) : Build ConstId :=
  modifyGet fun b =>
    let (c, constants) := b.constants.intern v
    (c, { b with constants })

def current : Build BlockId := do
  match (← get).current with
  | some b => return b
  | none => refuse .afterTerminator

def moveTo (block : Option BlockId) : Build Unit := modify fun b => { b with current := block }

def values : Build Bindings := return (← get).values

def setValues (values : Bindings) : Build Unit := modify fun b => { b with values }

def bind (x : LocalId) (r : Reg) : Build Unit :=
  modify fun b => { b with values := b.values.set x r }

def emit (i : Instr) : Build Unit := do
  let block ← current
  modify fun b =>
    { b with
      blocks := b.blocks.modify block.index.toNat fun o => { o with instrs := o.instrs.push i } }

/-- A new register of a type, and the instruction that defines it. -/
def define (ty : Ty) (rhs : Rhs) : Build Reg := do
  let dst ← newReg ty
  emit (.define dst rhs)
  return dst

/-- Ends a block. A block that has ended already stays as it is. -/
def terminate (block : BlockId) (t : Terminator) : Build Unit :=
  modify fun b =>
    { b with
      blocks := b.blocks.modify block.index.toNat fun o =>
        { o with terminator := o.terminator.or (some t) } }

/-- The edge that control would take from here, if it gets here. -/
def edge? : Build (Option Edge) := do
  let b ← get
  return b.current.map fun source => { source, values := b.values }

/-- Moves a binding into a new stack slot. -/
def spill (x : LocalId) (value : Reg) : Build Unit := do
  let ty := (← binding x).ty
  let slot ← newSlot ty
  let addr ← define (.reference ty .mutable) (.stackSlot slot)
  emit (.store addr value)
  modify fun b => { b with slots := (x, addr) :: b.slots }

/-- Gives a new binding its first value. -/
def introduce (x : LocalId) (value : Reg) : Build Unit := do
  if (← binding x).addressTaken then spill x value else bind x value

def address? (x : LocalId) : Build (Option Reg) := return (← get).slots.lookup x

def read (x : LocalId) : Build Reg := do
  match ← address? x with
  | some addr => define (← binding x).ty (.load addr)
  | none =>
    match (← values).get? x with
    | some r => return r
    | none => refuse (.undefinedBinding (← binding x).name)

def write (x : LocalId) (value : Reg) : Build Unit := do
  match ← address? x with
  | some addr => emit (.store addr value)
  | none => bind x value

/-- One binding at a join: the register that all edges agree on, or a phi. -/
def join (x : LocalId) (base : Reg) (edges : List Edge) : Build Reg := do
  let incoming := edges.map fun e => (e.source, (e.values.get? x).getD base)
  let first := (incoming.head?.map (·.2)).getD base
  if incoming.all (·.2 == first) then return first
  else define (← binding x).ty (.phi incoming)

def joinAll (edges : List Edge) : Bindings → Build Bindings
  | [] => return []
  | (x, base) :: rest => do
    let r ← join x base edges
    let rest' ← joinAll edges rest
    return (x, r) :: rest'

/-- Starts a block where edges meet. Only the bindings of `scope` outlive it. -/
def merge (scope : Bindings) (edges : List Edge) : Build Unit := do
  setValues (← joinAll edges scope)

end Build

end NumericEngine.Lowering
