import NumericEngine.Decimal.Text
import NumericEngine.Document.Json
import NumericEngine.Source.Ast

/-!
# Source programs as documents

Variants are written as an object with one member, named by the variant;
variants without data as a string.
-/

namespace NumericEngine

namespace Ty

mutual
def document : Ty → Json
  | prim p w =>
    .tagged "Primitive" (.obj [("kind", .str p.name), ("width", .nat w.toNat)])
  | vector e n => .tagged "Vector" (.arr [e.document, .nat n.toNat])
  | tensor e ds =>
    let dim : Dim → Json
      | .fixed n => .tagged "Fixed" (.nat n.toNat)
      | .dynamic => .str "Dynamic"
    .tagged "Tensor" (.arr [e.document, .arr (ds.map dim)])
  | complex e => .tagged "Complex" e.document
  | struct fs => .tagged "Struct" (.arr (fieldDocuments fs))
  | function ps r => .tagged "Function" (.arr [.arr (documents ps), r.document])
  | reference t m =>
    let mutability := match m with
      | .shared => "Shared"
      | .mutable => "Mutable"
    .tagged "Reference" (.arr [t.document, .str mutability])
def documents : List Ty → List Json
  | [] => []
  | t :: ts => t.document :: documents ts
def fieldDocuments : List (String × Ty) → List Json
  | [] => []
  | (n, t) :: fs => .obj [("name", .str n), ("ty", t.document)] :: fieldDocuments fs
end

end Ty

namespace Source

def Span.document (s : Span) : Json := .obj [("line", .nat s.line), ("col", .nat s.col)]

/-- A finite double by its shortest digits; there is no text for the others. -/
def floatDocument (bits : UInt64) : Json :=
  match Dyadic.ofBits? bits with
  | some d => .number (DecimalStyle.document.finite d)
  | none => .null

def BinaryOp.documentName : BinaryOp → String
  | arith .and => "BitAnd"
  | arith .or => "BitOr"
  | arith .xor => "BitXor"
  | arith op => op.name
  | compare op => op.name
  | and => "And"
  | or => "Or"

def Intrinsic.document : Intrinsic → Json
  | dim axis => .tagged "Dim" (.nat axis.toNat)
  | op => .str op.name

mutual
def Expr.document : Expr → Json
  | .mk node span => .obj [("kind", node.document), ("span", span.document)]
def ExprNode.document : ExprNode → Json
  | .int v => .tagged "Int" (.nat v.toNat)
  | .float bits => .tagged "Float" (floatDocument bits)
  | .bool b => .tagged "Bool" (.bool b)
  | .var name => .tagged "Var" (.str name)
  | .binary op lhs rhs checked =>
    .tagged "Binary" (.obj [("op", .str op.documentName), ("lhs", lhs.document),
      ("rhs", rhs.document), ("checked", .bool checked)])
  | .unary op operand checked =>
    .tagged "Unary" (.obj [("op", .str op.name), ("operand", operand.document),
      ("checked", .bool checked)])
  | .call callee args =>
    .tagged "Call" (.obj [("callee", .str callee), ("args", .arr (exprDocuments args))])
  | .ite c t e =>
    .tagged "If" (.obj [("cond", c.document), ("then_expr", t.document),
      ("else_expr", e.document)])
  | .cast e ty => .tagged "Cast" (.obj [("expr", e.document), ("ty", ty.document)])
  | .complex re im => .tagged "Complex" (.obj [("re", re.document), ("im", im.document)])
  | .vector es => .tagged "Vector" (.arr (exprDocuments es))
  | .tensor shape es =>
    .tagged "Tensor" (.obj [("shape", .arr (shape.map fun d => .nat d.toNat)),
      ("elements", .arr (exprDocuments es))])
  | .struct fs => .tagged "Struct" (.arr (namedDocuments fs))
  | .field base name => .tagged "Field" (.obj [("base", base.document), ("name", .str name)])
  | .index base is =>
    .tagged "Index" (.obj [("base", base.document), ("indices", .arr (exprDocuments is))])
  | .intrinsic op args =>
    .tagged "Intrinsic" (.obj [("op", op.document), ("args", .arr (exprDocuments args))])
  | .ref name m => .tagged "Ref" (.obj [("name", .str name), ("mutable", .bool m)])
  | .deref e => .tagged "Deref" e.document
def exprDocuments : List Expr → List Json
  | [] => []
  | e :: es => e.document :: exprDocuments es
def namedDocuments : List (String × Expr) → List Json
  | [] => []
  | (n, e) :: es => .arr [.str n, e.document] :: namedDocuments es
end

mutual
def Stmt.document : Stmt → Json
  | .mk node span => .obj [("kind", node.document), ("span", span.document)]
def StmtNode.document : StmtNode → Json
  | .letBinding name ty mutable value =>
    .tagged "Let" (.obj [("name", .str name), ("ty", (ty.map Ty.document).getD .null),
      ("mutable", .bool mutable), ("value", value.document)])
  | .assign name value =>
    .tagged "Assign" (.obj [("name", .str name), ("value", value.document)])
  | .assignField name field value =>
    .tagged "AssignField" (.obj [("name", .str name), ("field", .str field),
      ("value", value.document)])
  | .store target value =>
    .tagged "Store" (.obj [("target", target.document), ("value", value.document)])
  | .ite cond thenBody elseBody =>
    .tagged "If" (.obj [("cond", cond.document), ("then_body", .arr (stmtDocuments thenBody)),
      ("else_body", .arr (stmtDocuments elseBody))])
  | .while cond body =>
    .tagged "While" (.obj [("cond", cond.document), ("body", .arr (stmtDocuments body))])
  | .break => .str "Break"
  | .continue => .str "Continue"
  | .return value => .tagged "Return" ((value.map Expr.document).getD .null)
  | .expr value => .tagged "Expr" value.document
def stmtDocuments : List Stmt → List Json
  | [] => []
  | s :: ss => s.document :: stmtDocuments ss
end

def Param.document (p : Param) : Json :=
  .obj [("name", .str p.name), ("ty", p.ty.document), ("span", p.span.document)]

def Function.document (f : Function) : Json :=
  .obj [("name", .str f.name), ("params", .arr (f.params.map Param.document)),
    ("ret", f.ret.document), ("body", .arr (stmtDocuments f.body)), ("span", f.span.document)]

def Program.document (p : Program) : Json :=
  .obj [("functions", .arr (p.functions.map Function.document))]

end Source

end NumericEngine
