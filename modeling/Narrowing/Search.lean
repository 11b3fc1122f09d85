import Narrowing.Engine.FixedPoint

/-!
Complete search in depth. A node is propagated first. If domains with several values are left, the
first of them is branched on: each of its values is tried under a checkpoint of its own, upwards.
Otherwise the values that are left are a solution. Every decision fixes a domain, so no branch is
longer than there are domains.
-/

namespace Narrowing

/-- What a search has found so far. -/
structure Tally where
  solutions : Array (List Int) := #[]
  nodes : Nat := 0
  emptyDomains : Nat := 0
  conflicts : Nat := 0
  /-- The highest level of a node. -/
  deepest : Nat := 0
  deriving DecidableEq

namespace Search

variable {P : Type} [Propagator P]

/-- A step of a search. -/
abbrev Step (P : Type) [Propagator P] (α : Type) := StateT Tally (Operation P) α

/-- An operation of the engine as a step of the search. -/
def engine {α : Type} (m : Operation P α) : Step P α := StateT.lift m

/-- The first of some domains that has several values. -/
def firstOpen (s : Domains) : List DomainId → Checked (Option DomainId)
  | [] => .ok none
  | id :: rest => do
    if ← (Variable.domain id).isFixed s then firstOpen s rest else return some id

/-- The smallest values of some domains. -/
def lowerBounds (s : Domains) : List DomainId → Checked (List Int)
  | [] => .ok []
  | id :: rest => do
    let lo ← (Variable.domain id).lower s
    return lo :: (← lowerBounds s rest)

/-- Count a contradiction by its kind. -/
def countContradiction (t : Tally) : Contradiction → Tally
  | .emptyDomain _ => { t with emptyDomains := t.emptyDomains + 1 }
  | .conflict _ _ => { t with conflicts := t.conflicts + 1 }

/-- Try the listed values of a domain, each in a `child` node that is left again for level `k`,
until there are `limit` solutions. -/
def branch (child : Step P Unit) (limit k : Nat) (id : DomainId) : List Int → Step P Unit
  | [] => return
  | v :: rest => do
    if limit ≤ (← get).solutions.size then return
    engine Engine.newCheckpoint
    let _ ← engine (Engine.impose (.domain id) (.exactly v))
    child
    engine (Engine.restoreTo k)
    branch child limit k id rest

/-- A node of the search over the domains `ids`, with at most `n` nodes on the way down from here.
-/
def node (ids : List DomainId) (limit : Nat) : Nat → Step P Unit
  | 0 => throw .diverged
  | n + 1 => do
    let k := (← engine get).level
    modify fun t : Tally => { t with nodes := t.nodes + 1, deepest := max t.deepest k }
    match ← engine Engine.settle with
    | .error c => modify fun t : Tally => countContradiction t c
    | .ok () =>
      match ← engine (Engine.onDomains (firstOpen · ids)) with
      | none =>
        let solution ← engine (Engine.onDomains (lowerBounds · ids))
        modify fun t : Tally => { t with solutions := t.solutions.push solution }
      | some id =>
        let values ← engine (Engine.onDomains (Variable.domain id).values)
        branch (node ids limit n) limit k id values

/-- Search over all domains for at most `limit` solutions, one more if the root is one. -/
def run (limit : Nat) : Operation P Tally := do
  let ids := (← get).domains.table.keys
  let (_, tally) ← (node ids limit (ids.length + 1)).run {}
  return tally

end Search

end Narrowing
