/-!
# JSON documents

A tree of JSON values whose objects keep the order of their members, written
in one line or indented by two spaces.
-/

namespace NumericEngine

inductive Json where
  | null
  | bool (b : Bool)
  /-- A number, by its text. -/
  | number (text : String)
  | str (s : String)
  | arr (items : List Json)
  | obj (members : List (String × Json))
  deriving Inhabited

namespace Json

def nat (n : Nat) : Json := number (toString n)

/-- A tagged value: an object with one member. -/
def tagged (tag : String) (value : Json) : Json := obj [(tag, value)]

def escapeChar (c : Char) : String :=
  match c with
  | '"' => "\\\""
  | '\\' => "\\\\"
  | '\n' => "\\n"
  | '\r' => "\\r"
  | '\t' => "\\t"
  | '\x08' => "\\b"
  | '\x0c' => "\\f"
  | c =>
    if c.toNat < 0x20 then
      "\\u00" ++ String.ofList [Nat.digitChar (c.toNat / 16), Nat.digitChar (c.toNat % 16)]
    else c.toString

def quoted (s : String) : String := "\"" ++ String.join (s.toList.map escapeChar) ++ "\""

mutual
/-- The document in one line. -/
def compact : Json → String
  | null => "null"
  | bool b => if b then "true" else "false"
  | number t => t
  | str s => quoted s
  | arr items => "[" ++ ",".intercalate (compactItems items) ++ "]"
  | obj members => "\x7b" ++ ",".intercalate (compactMembers members) ++ "\x7d"
def compactItems : List Json → List String
  | [] => []
  | x :: xs => x.compact :: compactItems xs
def compactMembers : List (String × Json) → List String
  | [] => []
  | (k, x) :: xs => (quoted k ++ ":" ++ x.compact) :: compactMembers xs
end

/-- A line break and the blanks of a nesting depth. -/
def newline (depth : Nat) : String := "\n" ++ String.ofList (List.replicate (2 * depth) ' ')

/-- Items on lines of their own between two brackets. -/
def enclose (opening closing : String) (depth : Nat) (items : List String) : String :=
  match items with
  | [] => opening ++ closing
  | items =>
    opening ++ newline (depth + 1) ++ ("," ++ newline (depth + 1)).intercalate items ++
      newline depth ++ closing

mutual
/-- The document with one item to a line, at a nesting depth. -/
def indented (depth : Nat) : Json → String
  | null => "null"
  | bool b => if b then "true" else "false"
  | number t => t
  | str s => quoted s
  | arr items => enclose "[" "]" depth (indentedItems (depth + 1) items)
  | obj members => enclose "\x7b" "\x7d" depth (indentedMembers (depth + 1) members)
def indentedItems (depth : Nat) : List Json → List String
  | [] => []
  | x :: xs => x.indented depth :: indentedItems depth xs
def indentedMembers (depth : Nat) : List (String × Json) → List String
  | [] => []
  | (k, x) :: xs => (quoted k ++ ": " ++ x.indented depth) :: indentedMembers depth xs
end

def pretty (j : Json) : String := j.indented 0

end Json

end NumericEngine
