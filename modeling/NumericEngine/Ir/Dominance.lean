import NumericEngine.Ir.Module

/-!
# Dominance

Block `a` dominates block `b` when every path from the entry to `b` passes
through `a`. The dominator sets are the greatest solution of the equations
`dom entry = {entry}` and `dom b = {b} ∪ ⋂ dom p` over the predecessors `p`,
found by shrinking full sets until nothing changes.
-/

namespace NumericEngine.Ir

/-- A set of blocks, by membership of each index. -/
abbrev BlockSet := List Bool

/-- For each block the indices of its predecessors. -/
abbrev Preds := List (List Nat)

namespace Preds

/-- Adds to a set the blocks that follow one of its members. -/
def grow (preds : Preds) (s : BlockSet) : BlockSet :=
  s.zipWith (fun here ps => here || ps.any fun p => s.getD p false) preds

/-- The blocks reached from the entry by at most `n` edges. -/
def reach (preds : Preds) : Nat → BlockSet
  | 0 => (List.range preds.length).map (· == 0)
  | n + 1 => preds.grow (preds.reach n)

/-- The blocks that some path from the entry reaches. No block needs a path of more edges than there are
blocks, so this many rounds find what a depth-first search does. -/
def reachable (preds : Preds) : BlockSet := preds.reach preds.length

end Preds

abbrev Dominators := List (Option BlockSet)

namespace Dominators

def meet (a b : BlockSet) : BlockSet := a.zipWith (· && ·) b

/-- Full sets for reachable blocks, but only itself for the entry. -/
def initial (preds : Preds) : Dominators :=
  let n := preds.length
  preds.reachable.zipWith
    (fun reached b =>
      if reached then
        some (if b = 0 then (List.range n).map (· == 0) else List.replicate n true)
      else none)
    (List.range n)

/-- What the dominators of a block's predecessors have in common, and the block itself. -/
def refine (d : Dominators) (n : Nat) (ps : List Nat) (b : Nat) : BlockSet :=
  let common := ps.foldl
    (fun s p =>
      match d[p]? with
      | some (some s') => meet s s'
      | _ => s)
    (List.replicate n true)
  common.set b true

/-- Refines the sets of the blocks from `b` on, each in view of those before it. -/
def sweepFrom (n b : Nat) (d : Dominators) : Preds → Dominators
  | [] => d
  | ps :: rest =>
    let d' := match d[b]? with
      | some (some _) => d.set b (some (refine d n ps b))
      | _ => d
    sweepFrom n (b + 1) d' rest

/-- Refines the set of every block but the entry. -/
def sweep (preds : Preds) (d : Dominators) : Dominators :=
  sweepFrom preds.length 1 d preds.tail

def settle (preds : Preds) : Nat → Dominators → Dominators
  | 0, d => d
  | fuel + 1, d =>
    let d' := sweep preds d
    if d' = d then d else settle preds fuel d'

end Dominators

/-- The dominators of all blocks. Each sweep that changes anything takes a member from a set, so
there are at most as many as members at the start. -/
def dominators (preds : Preds) : Dominators :=
  Dominators.settle preds (preds.length * preds.length + 1) (Dominators.initial preds)

def Dominators.dominates (d : Dominators) (a b : Nat) : Bool :=
  match d[b]? with
  | some (some s) => s.getD a false
  | _ => false

end NumericEngine.Ir
