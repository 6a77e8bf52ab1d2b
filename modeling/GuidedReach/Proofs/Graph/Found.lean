import GuidedReach.Graph.Grow
import GuidedReach.Proofs.Finds
import GuidedReach.StopCriterion

/-!
# Changes of a graph know nothing of search nodes

A change of a graph may be refused because a node is missing or an edge may not be drawn, but it looks
up no search nodes.

* `Graph.finds_cover`, `Graph.finds_uncover` — covering edges.
* `Graph.finds_seed`, `Graph.finds_expand` — new nodes.
-/

namespace GuidedReach

namespace Graph

variable {S P K : Type} {id coverer : NodeId} {g : Graph S}

theorem finds_node : Finds (g.node id) fun n => g.get? id = some n := by
  unfold node
  split
  · assumption
  · exact fun h => h

theorem finds_mayCover {analysis : Analysis S P K} :
    Finds (g.mayCover analysis id coverer) fun _ => True := by
  unfold mayCover
  split
  · exact spares_pure trivial
  · exact Spares.bind finds_node fun _ _ _ => Spares.bind finds_node fun _ _ _ => spares_pure trivial

theorem finds_readNode : (readNode id : Edit (Graph S) _).Finds g fun _ _ => True :=
  Edit.finds_get.bind fun _ _ _ _ => (Edit.finds_lift finds_node).mono fun _ _ _ _ => trivial

theorem finds_updateNode {f : Node S → Node S} : (updateNode id f).Finds g fun _ _ => True :=
  Edit.finds_get.bind fun _ _ _ _ => (Edit.finds_lift finds_node).bind fun _ _ _ _ =>
    Edit.finds_set.mono fun _ _ _ _ => trivial

theorem finds_allocate {n : Node S} : (allocate n).Finds g fun _ _ => True :=
  Edit.finds_get.bind fun _ _ _ _ => Edit.finds_set.bind fun _ _ _ _ => Edit.finds_pure trivial

theorem finds_createInit {state : S} {isTarget isFeasible : Bool} :
    (createInit state isTarget isFeasible).Finds g fun _ _ => True :=
  finds_allocate.bind fun _ _ _ _ => Edit.finds_modify.bind fun _ _ _ _ => Edit.finds_pure trivial

theorem finds_createSucc {state : S} {isTarget isFeasible : Bool} :
    (createSucc id state isTarget isFeasible).Finds g fun _ _ => True := by
  refine finds_readNode.bind fun _ _ _ _ => (Edit.finds_lift (finds_demand ?_)).bind fun _ _ _ _ =>
    finds_allocate.bind fun _ _ _ _ => finds_updateNode.bind fun _ _ _ _ => Edit.finds_pure trivial
  exact fun h => h

theorem finds_cover : (cover id coverer : Edit (Graph S) Unit).Finds g fun _ _ => True := by
  refine (Edit.finds_lift (finds_demand ?_)).bind fun _ _ _ _ => finds_readNode.bind fun _ _ _ _ =>
    (Edit.finds_lift (finds_demand ?_)).bind fun _ _ _ _ => finds_readNode.bind fun _ _ _ _ =>
      (Edit.finds_lift (finds_demand ?_)).bind fun _ _ _ _ => finds_readNode.bind fun _ _ _ _ =>
        finds_updateNode.bind fun _ _ _ _ =>
          (Edit.finds_forM (fun _ _ _ _ => finds_updateNode) trivial).bind fun _ _ _ _ =>
            finds_updateNode.bind fun _ _ _ _ => finds_updateNode
  all_goals exact fun h => h

theorem finds_uncover : (uncover id : Edit (Graph S) Unit).Finds g fun _ _ => True := by
  refine finds_readNode.bind fun _ _ _ _ => ?_
  split
  · exact Edit.finds_pure trivial
  · exact finds_updateNode.bind fun _ _ _ _ => finds_updateNode

section

variable [DecidableEq S] {analysis : Analysis S P K} {prec : P}

theorem finds_addInitStates (states : List S) :
    (addInitStates analysis states).Finds g fun _ _ => True := by
  induction states generalizing g with
  | nil => exact Edit.finds_pure trivial
  | cons s states ih =>
    refine Edit.finds_get.bind fun _ _ _ _ => ?_
    split
    · exact ih
    · exact finds_createInit.bind fun _ _ _ _ => ih.bind fun _ _ _ _ => Edit.finds_pure trivial

theorem finds_seed : (seed analysis prec).Finds g fun _ _ => True :=
  (finds_addInitStates _).bind fun _ _ _ _ => Edit.finds_modify.bind fun _ _ _ _ =>
    Edit.finds_pure trivial

theorem finds_addSuccStates (states : List S) :
    (addSuccStates analysis id states).Finds g fun _ _ => True := by
  induction states generalizing g with
  | nil => exact Edit.finds_pure trivial
  | cons s states ih =>
    refine finds_readNode.bind fun _ _ _ _ => Edit.finds_get.bind fun _ _ _ _ => ?_
    split
    · exact ih
    · exact finds_createSucc.bind fun _ _ _ _ => ih.bind fun _ _ _ _ => Edit.finds_pure trivial

theorem finds_expand : (expand analysis id prec).Finds g fun _ _ => True := by
  have hsuccessors : ∀ state, Finds (analysis.successors? state prec) fun _ => True := fun _ =>
    Spares.bind (finds_demand fun h => h) fun _ _ _ => spares_pure trivial
  exact finds_readNode.bind fun _ _ _ _ => (Edit.finds_lift (hsuccessors _)).bind fun _ _ _ _ =>
    (finds_addSuccStates _).bind fun _ _ _ _ => finds_updateNode.bind fun _ _ _ _ =>
      Edit.finds_pure trivial

end

end Graph

theorem StopCriterion.finds_canStop {S : Type} {g : Graph S} {criterion : StopCriterion}
    {reached : List NodeId} : Finds (criterion.canStop g reached) fun _ => True := by
  cases criterion with
  | firstCounterexample =>
    exact Spares.anyM fun _ _ => Spares.bind Graph.finds_node fun _ _ _ => spares_pure trivial
  | fullExploration => exact spares_pure trivial
  | distanceKnowable => exact spares_pure trivial

end GuidedReach
