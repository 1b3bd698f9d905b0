import NumericEngine.Ir.Dominance
import NumericEngine.Ir.VerifyError

/-!
# Verification

Checks on a module before anything runs it: blocks are where their ids say,
phis lead their block and cover its predecessors, every register is defined
once and before every use, and operands have the types their instruction
needs. The instructions of blocks that no path reaches are not checked.
-/

namespace NumericEngine.Ir

/-! ## Types -/

/-- Equality of types up to the mutability of a reference. -/
def sameType : Ty → Ty → Bool
  | .reference a _, .reference b _ => a == b
  | a, b => a == b

/-- A function within its module. -/
structure Scope where
  module : Module
  func : Function

namespace Scope

abbrev Fits := Except OperandFault

def ty (s : Scope) (r : Reg) : Fits Ty :=
  match s.module.regTy? s.func r with
  | some t => .ok t
  | none => .error (.untyped r)

def typeOfId (s : Scope) (id : TypeId) : Fits Ty :=
  match s.module.ty? id with
  | some t => .ok t
  | none => .error (.unknownType id)

def expect (s : Scope) (r : Reg) (expected : Ty) : Fits Unit := do
  let found ← s.ty r
  if sameType found expected then return () else .error (.wrongType r found expected)

def expectKind (s : Scope) (r : Reg) (k : Kind) : Fits Unit := s.expect r (.ofKind k)

def expectComplex (s : Scope) (r : Reg) (k : Kind) : Fits Unit := s.expect r (.complexOf k)

def expectEach (s : Scope) (expected : Ty) : List Reg → Fits Unit
  | [] => .ok ()
  | r :: rs => do
    s.expect r expected
    s.expectEach expected rs

/-- Registers against types, as far as both go. -/
def expectAll (s : Scope) : List Reg → List Ty → Fits Unit
  | r :: rs, t :: ts => do
    s.expect r t
    s.expectAll rs ts
  | _, _ => .ok ()

/-- Element type and rank of a vector or tensor. -/
def container (s : Scope) (r : Reg) : Fits (Ty × Nat) := do
  let t ← s.ty r
  match t.element?, t.dims? with
  | some elem, some dims => return (elem, dims.length)
  | _, _ => .error (.notContainer r t)

def field (s : Scope) (src : Reg) (index : UInt32) : Fits Ty := do
  match ← s.ty src with
  | .struct decl =>
    match decl[index.toNat]? with
    | some (_, t) => return t
    | none => .error (.fieldRange index)
  | t => .error (.fieldAccess t)

def checkArgs (s : Scope) (args : List Reg) (params : List Ty) : Fits Unit :=
  if args.length = params.length then s.expectAll args params
  else .error (.argumentCount args.length params.length)

/-- Kinds on which a unary operator is defined. -/
def unaryDefined (op : UnaryOp) (k : Kind) : Bool :=
  match op with
  | .neg | .abs => k != .bool
  | .not => !k.isFloat
  | .sqrt => k.isFloat

def checkRhs (s : Scope) (dst : Reg) : Rhs → Fits Unit
  | .const c =>
    match s.module.constants.get? c with
    | some v => s.expect dst v.ty
    | none => .error (.noConstant c)
  | .binary op k l r _ => do
    if k.isFloat && !op.onFloats then .error (.arithKind op k)
    else
      s.expectKind dst k
      s.expectKind l k
      s.expectKind r k
  | .compare _ k l r => do
    s.expect dst .bool
    s.expectKind l k
    s.expectKind r k
  | .unary op k src _ => do
    if unaryDefined op k then
      s.expectKind dst k
      s.expectKind src k
    else .error (.unaryKind op k)
  | .convert source target src => do
    s.expectKind dst target
    s.expectKind src source
  | .complexBinary _ k l r => do
    s.expectComplex dst k
    s.expectComplex l k
    s.expectComplex r k
  | .complexCompare _ k l r => do
    s.expect dst .bool
    s.expectComplex l k
    s.expectComplex r k
  | .complexUnary _ k src => do
    s.expectComplex dst k
    s.expectComplex src k
  | .complexPart _ k src => do
    s.expectKind dst k
    s.expectComplex src k
  | .makeComplex k re im => do
    s.expectComplex dst k
    s.expectKind re k
    s.expectKind im k
  | .makeStruct fields => do
    match ← s.ty dst with
    | .struct decl =>
      if decl.length = fields.length then s.expectAll fields (decl.map (·.2))
      else .error (.fieldCount fields.length decl.length)
    | _ => .error (.notStruct dst)
  | .extractField src index => do
    let t ← s.field src index
    s.expect dst t
  | .insertField src index value => do
    let t ← s.field src index
    s.expect value t
    s.expect dst (← s.ty src)
  | .stackSlot slot =>
    match s.func.slotTypes[slot.toNat]? with
    | none => .error (.noSlot slot)
    | some id => do
      let content ← s.typeOfId id
      match ← s.ty dst with
      | .reference target m =>
        if target = content then return () else .error (.slotAddress dst (.reference target m))
      | t => .error (.slotAddress dst t)
  | .load addr => do
    match ← s.ty addr with
    | .reference target _ => s.expect dst target
    | _ => .error (.loadThrough addr)
  | .call f args =>
    match s.module.function? f with
    | none => .error (.unknownFunction f)
    | some callee => do
      let params ← callee.paramTypes.mapM s.typeOfId
      s.checkArgs args params
      let ret ← s.typeOfId callee.retType
      s.expect dst ret
  | .funcRef f => do
    if (s.module.function? f).isNone then .error (.unknownFunction f)
    else
      match ← s.ty dst with
      | .function .. => return ()
      | t => .error (.functionValue dst t)
  | .callIndirect callee args => do
    match ← s.ty callee with
    | .function params ret =>
      s.checkArgs args params
      s.expect dst ret
    | _ => .error (.callThrough callee)
  | .phi incoming => do
    let t ← s.ty dst
    s.expectEach t (incoming.map (·.2))
  | .makeTensor elements => do
    let (elem, _) ← s.container dst
    match (← s.ty dst).fixedShape? with
    | some shape =>
      if Shape.count shape = elements.length then s.expectEach elem elements
      else .error (.elementCount elements.length shape)
    | none => s.expectEach elem elements
  | .tensorBinary _ l r _ => do
    let c ← s.container dst
    let a ← s.container l
    if a ≠ c then .error (.elementwiseOperand l dst)
    else
      let b ← s.container r
      if b ≠ c then .error (.elementwiseOperand r dst) else return ()
  | .tensorScale t f _ => do
    let c ← s.container dst
    let a ← s.container t
    if a ≠ c then .error (.scaledOperand t dst) else s.expect f c.1
  | .dot l r => do
    let (a, ra) ← s.container l
    let (b, rb) ← s.container r
    if a = b ∧ ra = 1 ∧ rb = 1 then s.expect dst a else .error .dotOperands
  | .matmul l r => do
    let (a, ra) ← s.container l
    let (b, rb) ← s.container r
    let (c, rc) ← s.container dst
    if a = b ∧ a = c ∧ ra = 2 ∧ rb = 2 ∧ rc = 2 then return () else .error .matmulOperands
  | .sum src => do
    let (elem, _) ← s.container src
    s.expect dst elem
  | .extractElement src indices => do
    let (elem, rank) ← s.container src
    if indices.length = rank then
      s.expectEach .i64 indices
      s.expect dst elem
    else .error (.indexCount indices.length rank)
  | .dim src axis => do
    let (_, rank) ← s.container src
    if axis.toNat < rank then s.expect dst .i64 else .error (.axisRange axis rank)
  | .tensorCast src => do
    let a ← s.container src
    let b ← s.container dst
    if a = b then return () else .error (.cast (← s.ty src) (← s.ty dst))

def checkInstr (s : Scope) : Instr → Fits Unit
  | .define dst rhs => s.checkRhs dst rhs
  | .store addr value => do
    match ← s.ty addr with
    | .reference target _ => s.expect value target
    | _ => .error (.storeThrough addr)

def checkTerminator (s : Scope) : Terminator → Fits Unit
  | .jump _ => .ok ()
  | .branch c _ _ => s.expect c .bool
  | .ret r => do
    let t ← s.typeOfId s.func.retType
    s.expect r t

/-- A function or constant that an instruction names and the module lacks. -/
def unknownReference (s : Scope) (block : BlockId) : Instr → Option VerifyError
  | .define _ (.call f _) | .define _ (.funcRef f) =>
    if (s.module.function? f).isNone then some (.unknownFunction block f) else none
  | .define _ (.const c) =>
    if (s.module.constants.get? c).isNone then some (.unknownConstant block) else none
  | _ => none

/-- What is wrong with the types of an instruction. -/
def instrErrors (s : Scope) (block : BlockId) (i : Instr) : List VerifyError :=
  match s.unknownReference block i with
  | some e => [e]
  | none =>
    match s.checkInstr i with
    | .ok () => []
    | .error f => [.typeMismatch block f]

end Scope

/-! ## Definitions and uses -/

/-- Where a register is defined: the index of a block and a position in it. Parameters stand at
position 0 of the entry, the instructions of a block from position 1 on. -/
structure Site where
  block : Nat
  position : Nat
  deriving DecidableEq, Repr, Inhabited

/-- The definition of each register, and the faults found on the way. -/
structure Definitions where
  sites : Array (Option Site)
  errors : List VerifyError
  deriving Inhabited

namespace Definitions

def add (d : Definitions) (block : BlockId) (reg : Reg) (site : Site) : Definitions :=
  match d.sites[reg.index.toNat]? with
  | none => { d with errors := d.errors ++ [.registerRange block reg] }
  | some (some _) => { d with errors := d.errors ++ [.multipleDefinitions reg] }
  | some none => { d with sites := d.sites.setIfInBounds reg.index.toNat (some site) }

/-- Adds the definitions of instructions, the first of which is at the given site. -/
def addInstrs (block : BlockId) (d : Definitions) (site : Site) : List Instr → Definitions
  | [] => d
  | i :: is =>
    let d' := match i.dst? with
      | some r => d.add block r site
      | none => d
    addInstrs block d' { site with position := site.position + 1 } is

def addBlocks (d : Definitions) (index : Nat) : List Block → Definitions
  | [] => d
  | b :: bs => addBlocks (addInstrs b.id d ⟨index, 1⟩ b.instrs) (index + 1) bs

def of (f : Function) : Definitions :=
  let empty : Definitions := ⟨Array.replicate f.regTypes.size none, []⟩
  let params := f.params.foldl (fun d r => d.add ⟨0⟩ r ⟨0, 0⟩) empty
  params.addBlocks 0 f.blocks

end Definitions

/-- What uses are checked against. -/
structure Flow where
  sites : Array (Option Site)
  doms : Dominators

namespace Flow

/-- Whether a definition reaches every execution of position `position` in block `block`; no
position stands for the end of the block. -/
def available (fl : Flow) (site : Site) (block : Nat) (position : Option Nat) : Bool :=
  if site.block = block then position.all (site.position < ·)
  else fl.doms.dominates site.block block

def useErrors (fl : Flow) (block : BlockId) (reg : Reg) (index : Nat) (position : Option Nat) :
    List VerifyError :=
  match fl.sites[reg.index.toNat]? with
  | none => [.registerRange block reg]
  | some none => [.undefinedRegister block reg]
  | some (some site) =>
    if fl.available site index position then [] else [.useNotDominated block reg]

def sorted (bs : List BlockId) : List BlockId := bs.mergeSort (fun a b => a.index ≤ b.index)

def phiErrors (fl : Flow) (block : BlockId) (dst : Reg) (incoming : List (BlockId × Reg))
    (preds : List BlockId) : List VerifyError :=
  (if sorted (incoming.map (·.1)) = sorted preds then [] else [.phiPredecessors block dst]) ++
    incoming.flatMap fun p => fl.useErrors block p.2 p.1.index.toNat none

end Flow

namespace Scope

/-- The faults of instructions, the first of which is at `position`; `led` tells whether only phis
came before. -/
def blockErrors (s : Scope) (fl : Flow) (index : Nat) (block : BlockId) (preds : List BlockId) :
    Nat → Bool → List Instr → List VerifyError
  | _, _, [] => []
  | position, led, i :: is =>
    let flow := match i with
      | .define dst (.phi incoming) =>
        (if led then [] else [.misplacedPhi block]) ++ fl.phiErrors block dst incoming preds
      | i => i.uses.flatMap fun r => fl.useErrors block r index (some position)
    flow ++ s.instrErrors block i ++
      s.blockErrors fl index block preds (position + 1) (led && i.isPhi) is

def terminatorErrors (s : Scope) (fl : Flow) (index : Nat) (b : Block) : List VerifyError :=
  let uses := b.terminator.uses.flatMap fun r =>
    fl.useErrors b.id r index (some (b.instrs.length + 1))
  let types := match s.checkTerminator b.terminator with
    | .ok () => []
    | .error f => [.typeMismatch b.id f]
  uses ++ types

/-- Block ids and jump targets that are not what they should be. -/
def shapeErrors (f : Function) : List VerifyError :=
  f.blocks.zipIdx.flatMap fun (b, i) =>
    (if b.id.index.toNat = i then [] else [.blockId i b.id]) ++
      (b.terminator.successors.filter fun t => f.blocks.length ≤ t.index.toNat).map fun t =>
        .targetRange b.id t

/-- The faults of a function, and the blocks that no path reaches. -/
def check (s : Scope) : List VerifyError × List BlockId :=
  let f := s.func
  if f.blocks.isEmpty then ([.emptyFunction], [])
  else if shapeErrors f ≠ [] then (shapeErrors f, [])
  else
    let defs := Definitions.of f
    let preds := f.predecessors
    let doms := dominators (preds.map fun ps => ps.map fun p => p.index.toNat)
    let fl : Flow := ⟨defs.sites, doms⟩
    let reached (i : Nat) : Bool := (doms.getD i none).isSome
    let blocks := f.blocks.zipIdx
    let errors := blocks.flatMap fun (b, i) =>
      if reached i then
        s.blockErrors fl i b.id (preds.getD i []) 1 true b.instrs ++ s.terminatorErrors fl i b
      else []
    (defs.errors ++ errors, (blocks.filter fun p => !reached p.2).map (·.1.id))

end Scope

/-! ## Modules -/

structure Diagnostic where
  function : String
  error : VerifyError
  deriving DecidableEq, Repr, Inhabited

structure Statistics where
  functions : Nat
  blocks : Nat
  instrs : Nat
  phis : Nat
  deriving DecidableEq, Repr, Inhabited

structure Verdict where
  errors : List Diagnostic
  warnings : List String
  statistics : Statistics
  deriving Inhabited

namespace Verdict

/-- No errors; in strict mode no warnings either. -/
def valid (v : Verdict) (strict : Bool) : Bool :=
  v.errors.isEmpty && (!strict || v.warnings.isEmpty)

end Verdict

namespace Module

/-- Register and slot types that have no layout. -/
def oversizedErrors (m : Module) (f : Function) : List VerifyError :=
  (f.regTypes.toList ++ f.slotTypes.toList).filterMap fun id =>
    match m.ty? id with
    | some t => if t.checkedSize?.isNone then some (.oversizedType id) else none
    | none => none

def statistics (m : Module) : Statistics :=
  let blocks := m.functions.flatMap (·.blocks)
  let instrs := blocks.flatMap (·.instrs)
  ⟨m.functions.length, blocks.length, instrs.length, instrs.countP Instr.isPhi⟩

/-- The faults of a function, and a warning for each block that no path reaches. -/
def verifyFunction (m : Module) (f : Function) : List Diagnostic × List String :=
  let (errors, unreached) := Scope.check ⟨m, f⟩
  ((m.oversizedErrors f ++ errors).map fun e => ⟨f.name, e⟩,
    unreached.map fun b => f.name ++ ": " ++ toString b ++ " is unreachable")

def verify (m : Module) : Verdict :=
  let verdicts := m.functions.map m.verifyFunction
  { errors := verdicts.flatMap (·.1)
    warnings := verdicts.flatMap (·.2)
    statistics := m.statistics }

end Module

end NumericEngine.Ir
