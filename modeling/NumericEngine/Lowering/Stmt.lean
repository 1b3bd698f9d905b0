import NumericEngine.Lowering.Expr

/-!
# Code of statements

A conditional has a join block when one of its branches gets to its end. The
header of a loop has a phi for every binding that the body assigns to; the exit
joins the false edge and every `break`.
-/

namespace NumericEngine.Lowering

open Build
open Ir (Instr)

def conditional (cond : Build Reg) (thenBody elseBody : Build Unit) : Build Unit := do
  let c ← cond
  let source ← current
  let thenBlock ← newBlock "then"
  let elseBlock ← newBlock "else"
  terminate source (.branch c thenBlock elseBlock)
  let scope ← values
  moveTo thenBlock
  thenBody
  let thenEdge ← edge?
  setValues scope
  moveTo elseBlock
  elseBody
  let elseEdge ← edge?
  let edges := thenEdge.toList ++ elseEdge.toList
  if edges.isEmpty then
    setValues scope
    moveTo none
  else
    let join ← newBlock "endif"
    edges.forM fun e => terminate e.source (.jump join)
    moveTo join
    merge scope edges

/-- A binding that a loop assigns to, and the place of its phi in the header. -/
structure HeaderPhi where
  binding : LocalId
  position : Nat
  reg : Reg

/-- The phis of a header that is entered from `source`. -/
def headerPhis (source header : BlockId) : List LocalId → Build (List HeaderPhi)
  | [] => return []
  | x :: xs => do
    match (← values).get? x with
    | none => headerPhis source header xs
    | some init =>
      let position := ((← get).blocks[header.index.toNat]?.map (·.instrs.size)).getD 0
      let reg ← define (← binding x).ty (.phi [(source, init)])
      bind x reg
      let rest ← headerPhis source header xs
      return { binding := x, position, reg } :: rest

def extendPhi (more : List (BlockId × Reg)) : Instr → Instr
  | .define dst (.phi incoming) => .define dst (.phi (incoming ++ more))
  | i => i

/-- Completes the phis of a header with the edges back to it. -/
def closePhi (header : BlockId) (edges : List Edge) (p : HeaderPhi) : Build Unit :=
  let more := edges.map fun e => (e.source, (e.values.get? p.binding).getD p.reg)
  modify fun b =>
    { b with
      blocks := b.blocks.modify header.index.toNat fun o =>
        { o with instrs := o.instrs.modify p.position (extendPhi more) } }

def popLoop (source : BlockId) : Build Loop :=
  modifyGet fun b =>
    match b.loops with
    | l :: rest => (l, { b with loops := rest })
    | [] => ({ header := source, exit := source, breaks := [] }, b)

def loop (assigned : List LocalId) (cond : Build Reg) (body : Build Unit) : Build Unit := do
  let source ← current
  let header ← newBlock "loop"
  terminate source (.jump header)
  moveTo header
  let phis ← headerPhis source header assigned
  let c ← cond
  let condEnd ← current
  let bodyBlock ← newBlock "body"
  let exit ← newBlock "endloop"
  terminate condEnd (.branch c bodyBlock exit)
  let atHeader ← values
  modify fun b =>
    { b with loops := { header, exit, breaks := [⟨condEnd, atHeader⟩] } :: b.loops }
  moveTo bodyBlock
  body
  let back ← edge?
  let done ← popLoop header
  if let some e := back then terminate e.source (.jump header)
  phis.forM (closePhi header (done.continues ++ back.toList))
  moveTo exit
  merge atHeader done.breaks

def exitLoop : Build Unit := do
  let source ← current
  let here : Edge := ⟨source, ← values⟩
  match (← get).loops with
  | [] => refuse .breakOutsideLoop
  | l :: rest =>
    modify fun b => { b with loops := { l with breaks := l.breaks ++ [here] } :: rest }
    terminate source (.jump l.exit)
    moveTo none

def continueLoop : Build Unit := do
  let source ← current
  let here : Edge := ⟨source, ← values⟩
  match (← get).loops with
  | [] => refuse .continueOutsideLoop
  | l :: rest =>
    modify fun b => { b with loops := { l with continues := l.continues ++ [here] } :: rest }
    terminate source (.jump l.header)
    moveTo none

def giveBack (value : Reg) : Build Unit := do
  terminate (← current) (.ret value)
  moveTo none

/-- The bindings that a body assigns to, by id. -/
def assignedIn (body : List TStmt) : List LocalId :=
  (TStmt.assignedAll [] body).mergeSort fun x y => x.index ≤ y.index

mutual
def stmt : TStmt → Build Unit
  | .mk (.letBinding x value) _ => do
    let v ← expr value
    introduce x v
  | .mk (.assign x value) _ => do
    let v ← expr value
    write x v
  | .mk (.assignField x index value) _ => do
    let v ← expr value
    let src ← read x
    let updated ← define (← binding x).ty (.insertField src index v)
    write x updated
  | .mk (.store target value) _ => do
    let addr ← expr target
    let v ← expr value
    emit (.store addr v)
  | .mk (.ite cond thenBody elseBody) _ =>
    conditional (expr cond) (stmts thenBody) (stmts elseBody)
  | .mk (.while cond body) _ => loop (assignedIn body) (expr cond) (stmts body)
  | .mk .break _ => exitLoop
  | .mk .continue _ => continueLoop
  | .mk (.return value) _ => do
    let v ← expr value
    giveBack v
  | .mk (.expr value) _ => do
    let _ ← expr value
    return ()
/-- Statements in order, up to the first after which control does not go on. -/
def stmts : List TStmt → Build Unit
  | [] => return ()
  | s :: ss => do
    if (← get).current.isNone then return ()
    stmt s
    stmts ss
end

end NumericEngine.Lowering
