import GuidedReach.Exploration.Search

/-!
# One round of exploration

A round solves the live generation. On the way it may need distances and successors of older
generations, which are then explored in the same manner; such a nested call only ever goes to an
older generation, so the recursion follows the index.

* `openProvider` — expands a target of an older generation whose successors are needed.
* `below` — the operations on the generations below an index.
* `solveLive` — completes and solves the live generation.
* `loosen`, `resumeLive` — prepare the live generation after it was reset onto its copy.
-/

namespace GuidedReach.Exploration

open Explore

variable {S P K : Type} [DecidableEq S] [DecidableEq K]
variable (setup : Setup S P K)

section

variable (older : Older S P K) (index : Nat)

/-! ## Providers that are targets -/

/-- Expand a target and settle the targets among its new successors. -/
def expandTarget (id : NodeId) : Explore S P K Unit := do
  let new ← expand setup index id
  new.forM fun succ => do
    createSearchNode setup older index succ
    if (← node index succ).isTarget then
      setHeuristic index succ .zero
      setDistance index succ .zero

/-- Make sure that a target has its successors: move on to its coverer, cover it by another target
if possible, or expand it. -/
def openTarget : (fuel : Nat) → NodeId → Explore S P K Unit
  | 0, _ => throw .outOfFuel
  | fuel + 1, id => do
    let current ← node index id
    match current.covering with
    | some coverer =>
      demand (← node index coverer).isTarget (.targetCoveredByNonTarget id)
      openTarget fuel coverer
    | none =>
      if current.isExpanded then return
      let _ ← ensureHeuristic setup older index id
      if (← close setup older index id).isSome then
        openTarget fuel id
      else
        expandTarget setup older index id

/-- Make sure that a node, or its coverer, has its successors. Only targets can be missing them,
since a search that stops at targets does not expand them. -/
def openProvider (id : NodeId) : Explore S P K Unit := do
  let current ← node index id
  if current.isTarget then
    openTarget setup older index setup.fuel id
  else
    match current.covering with
    | some coverer =>
      let above ← node index coverer
      if above.isTarget then
        openTarget setup older index setup.fuel coverer
      else
        demand (current.isExpanded || above.isExpanded) (.providerLeftOpen id)
    | none => demand current.isExpanded (.providerLeftOpen id)

end

/-! ## Older generations -/

/-- The operations on generations below a bound. -/
def below : (bound : Nat) → Older S P K
  | 0 =>
    { solve := fun index _ _ => fail (.noSuchGeneration index)
      openProvider := fun index _ => fail (.noSuchGeneration index) }
  | bound + 1 =>
    { solve := solve setup (below bound)
      openProvider := openProvider setup (below bound) }

/-! ## The live generation -/

variable (index : Nat)

/-- Make sure that the live generation has all its init nodes, with search nodes. -/
def ensureInitialized : Explore S P K Unit := do
  let gen ← generation index
  if gen.graph.isInitialized then return
  let new ← editGraph index (Graph.seed setup.analysis gen.prec)
  new.forM (createSearchNode setup (below setup index) index)

/-- Complete the search nodes and init nodes of the live generation and solve it. -/
def solveLive (fresh : List NodeId) (stop : StopCriterion) : Explore S P K Unit := do
  let older := below setup index
  fresh.forM (createSearchNode setup older index)
  ensureInitialized setup index
  let start := (← generation index).graph.initNodes
  solve setup older index start stop

/-- Remove the covering edge that leaves a node, if the heuristic drops along it. -/
def loosen (id : NodeId) : Explore S P K Unit := do
  let gen ← generation index
  if let some coverer := (← gen.graph.node id).covering then
    if ← (← gen.heuristic coverer).lt (← gen.heuristic id) then
      editGraph index (Graph.uncover id)

/-- After the live generation was reset onto its copy: with decreasing heuristics, compute them all,
parents first, and remove the covering edges along which they drop. -/
def resumeLive : Explore S P K Unit := do
  match setup.search with
  | .decreasing =>
    let ids := (← generation index).graph.ids
    ids.forM fun id => do
      let _ ← ensureHeuristic setup (below setup index) index id
    ids.forM (loosen index)
  | _ => return

end GuidedReach.Exploration
