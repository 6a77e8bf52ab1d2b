import GuidedReach.SearchRun

/-!
# Sequences of calls on a search

A search changes by two kinds of calls: nodes are let wait, and nodes are handed out. A call that fails
keeps what it had written by then.

* `SearchRun.Journal` — a search with a record of what became of its calls.
* `SearchRun.Journal.record` — one call.
* `SearchRun.Journal.after` — a sequence of calls.
-/

namespace GuidedReach.SearchRun

variable {S P K : Type}

/-- A node that was found, with the node from which it was. -/
structure Find where
  node : NodeId
  parent : Option NodeId
  depth : Nat
  deriving DecidableEq, Repr

/-- A call on a search. -/
inductive Call where
  | enqueue (find : Find)
  | next (visitsReached : Bool)
  deriving DecidableEq, Repr

/-- What a call asks to let wait. -/
def Call.find? : Call → Option Find
  | .enqueue find => some find
  | .next _ => none

/-- A search and what became of the calls on it. -/
structure Journal where
  run : SearchRun
  /-- The finds for which an entry was made, oldest first. -/
  accepted : List Find := []
  /-- The entries that were taken from the waitlist, oldest first. -/
  taken : List Entry := []
  /-- The nodes that were handed out, with their depths, oldest first. -/
  handedOut : List (NodeId × Nat) := []
  deriving DecidableEq, Repr

namespace Journal

/-- Record one call. -/
def record (gen : Generation S P K) (journal : Journal) : Call → Journal
  | .enqueue find =>
    match (enqueue gen find.node find.parent find.depth).run journal.run with
    | .ok _ run =>
      { journal with
        run
        accepted :=
          if run.serial = journal.run.serial then journal.accepted else journal.accepted ++ [find] }
    | .error _ run => { journal with run }
  | .next visitsReached =>
    match (SearchRun.next gen visitsReached).run journal.run with
    | .ok handedOut run =>
      let gone := journal.run.waitlist.length - run.waitlist.length
      { journal with
        run
        taken := journal.taken ++ journal.run.waitlist.take gone
        handedOut := journal.handedOut ++ handedOut.toList }
    | .error _ run => { journal with run }

/-- The journal of a sequence of calls on a new search. -/
def after (gen : Generation S P K) (start : List NodeId) (stop : StopCriterion)
    (calls : List Call) : Journal :=
  calls.foldl (record gen) { run := { start, stop } }

end Journal

end GuidedReach.SearchRun
