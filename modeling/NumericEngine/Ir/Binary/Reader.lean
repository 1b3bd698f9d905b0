import NumericEngine.Ir.Binary.Error

/-!
# Reading bytes

A reader takes bytes from the front of its input and knows how many it has
taken. A length is refused when it exceeds what is left of the input.
-/

namespace NumericEngine.Ir

structure Cursor where
  rest : List UInt8
  offset : Nat := 0
  deriving DecidableEq, Repr, Inhabited

abbrev Reader := StateT Cursor (Except DecodeError)

namespace Reader

variable {α : Type}

/-- Whether a list has at least `n` members. -/
def atLeast : Nat → List UInt8 → Bool
  | 0, _ => true
  | _ + 1, [] => false
  | n + 1, _ :: bs => atLeast n bs

def invalidTag (what : Tagged) (tag : UInt8) : Reader α := throw (.invalidTag what tag)

def malformed (cause : Malformation) : Reader α := throw (.malformed cause)

def take (n : Nat) : Reader (List UInt8) := fun c =>
  if atLeast n c.rest then
    .ok (c.rest.take n, { rest := c.rest.drop n, offset := c.offset + n })
  else .error (.unexpectedEnd c.offset)

def u8 : Reader UInt8 := fun c =>
  match c.rest with
  | b :: bs => .ok (b, { rest := bs, offset := c.offset + 1 })
  | [] => .error (.unexpectedEnd c.offset)

/-- A little-endian number of `n` bytes. -/
def word (n : Nat) : Reader UInt64 := do
  let bs ← take n
  return ofLeBytes bs

def u32 : Reader UInt32 := do
  let w ← word 4
  return w.toUInt32

def u64 : Reader UInt64 := word 8

def bool : Reader Bool := do
  match ← u8 with
  | 0 => return false
  | 1 => return true
  | tag => invalidTag .bool tag

def count : Reader Nat := do
  let n := (← u32).toNat
  let c ← get
  if atLeast n c.rest then return n else throw (.unexpectedEnd c.offset)

def text : Reader String := do
  let n ← count
  let bs ← take n
  match String.fromUTF8? ⟨bs.toArray⟩ with
  | some s => return s
  | none => throw .invalidName

/-- `n` members in order. -/
def times (item : Reader α) : Nat → Reader (List α)
  | 0 => return []
  | n + 1 => do
    let x ← item
    let xs ← times item n
    return x :: xs

def seq (item : Reader α) : Reader (List α) := do
  let n ← count
  times item n

end Reader

end NumericEngine.Ir
