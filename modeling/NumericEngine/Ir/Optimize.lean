import NumericEngine.Ir.Module

/-!
# Optimisation

Three passes over a function, repeated until none changes anything:

* folding of scalar operations on constants, by the arithmetic that would run;
  an operation that would fail stays;
* removal of phis all of whose inputs are one register (from level 2 on);
* removal of definitions that nothing reads.
-/

namespace NumericEngine.Ir

structure Savings where
  folded : Nat := 0
  removed : Nat := 0
  phisRemoved : Nat := 0
  deriving DecidableEq, Repr, Inhabited

namespace Savings

def add (a b : Savings) : Savings :=
  ⟨a.folded + b.folded, a.removed + b.removed, a.phisRemoved + b.phisRemoved⟩

instance : Add Savings := ⟨add⟩

end Savings

/-! ## Constant folding -/

/-- The words of registers known to be constant, the latest first. -/
abbrev Known := List (Reg × UInt64)

/-- The value of a scalar operation whose operands are known and which does not fail. -/
def Rhs.fold? (known : Known) : Rhs → Option Value
  | binary op k l r checked =>
    match known.lookup l, known.lookup r with
    | some a, some b => (Scalar.binary op k a b checked).toOption.map (.ofScalar k)
    | _, _ => none
  | compare op k l r =>
    match known.lookup l, known.lookup r with
    | some a, some b => some (.ofBool (Scalar.compare op k a b))
    | _, _ => none
  | unary op k s checked =>
    (known.lookup s).bind fun a => (Scalar.unary op k a checked).toOption.map (.ofScalar k)
  | convert a b s => (known.lookup s).map fun w => .ofScalar b (Scalar.convert a b w)
  | _ => none

structure Folding where
  known : Known
  constants : ConstantPool
  folded : Nat := 0
  deriving Inhabited

def Folding.learn (s : Folding) (dst : Reg) (v : Value) : Known :=
  match v.bits? with
  | some w => (dst, w) :: s.known
  | none => s.known

def Folding.instr (s : Folding) (i : Instr) : Instr × Folding :=
  match i with
  | .define dst rhs =>
    match rhs.fold? s.known with
    | some v =>
      let (c, constants) := s.constants.intern v
      (.define dst (.const c), { known := s.learn dst v, constants, folded := s.folded + 1 })
    | none => (i, s)
  | .store .. => (i, s)

def Folding.instrs (s : Folding) : List Instr → List Instr × Folding
  | [] => ([], s)
  | i :: is =>
    let (i', s) := s.instr i
    let (is', s) := s.instrs is
    (i' :: is', s)

def Folding.blocks (s : Folding) : List Block → List Block × Folding
  | [] => ([], s)
  | b :: bs =>
    let (instrs, s) := s.instrs b.instrs
    let (bs', s) := s.blocks bs
    ({ b with instrs } :: bs', s)

/-- The registers that constant definitions give a word. -/
def Function.known (f : Function) (constants : ConstantPool) : Known :=
  f.blocks.foldl
    (fun acc b => b.instrs.foldl
      (fun acc i =>
        match i with
        | .define dst (.const c) =>
          match (constants.get? c).bind Value.bits? with
          | some w => (dst, w) :: acc
          | none => acc
        | _ => acc)
      acc)
    []

/-- Folds constants; also the pool with the new constants and how many were folded. -/
def Function.foldConstants (f : Function) (constants : ConstantPool) :
    Function × ConstantPool × Nat :=
  let (blocks, s) := Folding.blocks { known := f.known constants, constants } f.blocks
  ({ f with blocks }, s.constants, s.folded)

/-! ## Trivial phis -/

/-- The only register besides itself that a phi takes its value from. -/
def Instr.sole? : Instr → Option (Reg × Reg)
  | define dst (.phi incoming) =>
    match (incoming.map (·.2)).filter (· ≠ dst) with
    | [] => none
    | first :: rest => if rest.all (· == first) then some (dst, first) else none
  | _ => none

/-- Trivial phis and what replaces them, one entry for each register. -/
def Function.replacements (f : Function) : List (Reg × Reg) :=
  f.blocks.foldl
    (fun acc b => b.instrs.foldl
      (fun acc i =>
        match i.sole? with
        | some (dst, src) => (dst, src) :: acc.filter (·.1 ≠ dst)
        | none => acc)
      acc)
    []

/-- Follows replacements, at most `n` of them. -/
def resolve (replace : List (Reg × Reg)) : Nat → Reg → Reg
  | 0, r => r
  | n + 1, r =>
    match replace.lookup r with
    | some r' => resolve replace n r'
    | none => r

def Block.substitute (replace : List (Reg × Reg)) (b : Block) : Block :=
  let f := resolve replace (replace.length + 1)
  let kept := b.instrs.filter fun i =>
    !(i.isPhi && i.dst?.any fun dst => (replace.lookup dst).isSome)
  { b with instrs := kept.map (·.mapUses f), terminator := b.terminator.mapUses f }

/-- Replaces trivial phis by their input; also how many there were. -/
def Function.removePhis (f : Function) : Function × Nat :=
  let replace := f.replacements
  if replace.isEmpty then (f, 0)
  else ({ f with blocks := f.blocks.map (·.substitute replace) }, replace.length)

/-! ## Dead definitions -/

def Function.used (f : Function) : List Reg :=
  f.blocks.flatMap fun b => b.instrs.flatMap Instr.uses ++ b.terminator.uses

def Instr.live (used : List Reg) (i : Instr) : Bool :=
  match i.dst? with
  | some dst => used.contains dst || !i.isRemovable
  | none => true

/-- Removes definitions that nothing reads; also how many there were. -/
def Function.removeDead (f : Function) : Function × Nat :=
  let used := f.used
  let blocks := f.blocks.map fun b => { b with instrs := b.instrs.filter (·.live used) }
  let kept := { f with blocks }
  (kept, f.instrCount - kept.instrCount)

/-! ## Fixpoint -/

def Function.round (level : Nat) (f : Function) (constants : ConstantPool) :
    Function × ConstantPool × Savings :=
  let (f, constants, folded) := f.foldConstants constants
  let (f, phisRemoved) := if 2 ≤ level then f.removePhis else (f, 0)
  let (f, removed) := f.removeDead
  (f, constants, { folded, removed, phisRemoved })

/-- Repeats rounds until one changes nothing, at most `fuel` of them. -/
def Function.rounds (level : Nat) : Nat → Function → ConstantPool → Savings →
    Function × ConstantPool × Savings
  | 0, f, constants, total => (f, constants, total)
  | fuel + 1, f, constants, total =>
    let (f, constants, s) := f.round level constants
    if s = {} then (f, constants, total) else Function.rounds level fuel f constants (total + s)

/-- Optimises a function. Every round but the last removes an instruction or turns one into a
constant, so twice their number bounds the rounds. -/
def Function.optimize (level : Nat) (f : Function) (constants : ConstantPool) :
    Function × ConstantPool × Savings :=
  f.rounds level (2 * f.instrCount + 1) constants {}

/-- Optimises functions in turn, over one pool of constants. -/
def optimizeAll (level : Nat) : List Function → ConstantPool → Savings →
    List Function × ConstantPool × Savings
  | [], constants, total => ([], constants, total)
  | f :: fs, constants, total =>
    let (f, constants, s) := f.optimize level constants
    let (fs, constants, total) := optimizeAll level fs constants (total + s)
    (f :: fs, constants, total)

/-- Level 0 changes nothing. -/
def Module.optimize (m : Module) (level : Nat) : Module × Savings :=
  if level = 0 then (m, {})
  else
    let (functions, constants, total) := optimizeAll level m.functions m.constants {}
    ({ m with functions, constants }, total)

end NumericEngine.Ir
