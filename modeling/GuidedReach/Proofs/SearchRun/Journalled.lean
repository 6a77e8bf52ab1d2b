import Mathlib.Data.Prod.Lex
import GuidedReach.Graph.Operation
import GuidedReach.Proofs.SearchRun.Outcomes

/-!
# The waitlist under every sequence of calls

Finding a node again at a smaller depth leaves its old entry behind, weights are fixed when an entry is
made, and the stop criterion looks at the first entry before stale ones are discarded. What holds all
the same, whatever calls are made on a search of one generation, is read off one invariant: the entries
that were ever taken and those that wait are one for each accepted find.

* `Entry.rank`, `Entry.before_iff` — the order of the waitlist.
* `SearchRun.Recorded` — what a search keeps true of finds and entries.
* `SearchRun.Recorded.outcome`, `SearchRun.Recorded.takes` — what each kind of call keeps.
* `SearchRun.Journal.after_disciplined` — what holds after every sequence of calls, and of the next one.
-/

namespace GuidedReach

variable {S P K : Type} {gen : Generation S P K}

/-! ## The order of entries -/

namespace Entry

variable {a b e : Entry} {entries taken more : List Entry} {id : NodeId}

/-- The order of the waitlist: least weight first, then entries that reach a target, then those with a
small heuristic, then the older ones. -/
def rank (e : Entry) : Nat ×ₗ Nat ×ₗ Nat ×ₗ Nat :=
  toLex (e.weight, toLex (if e.reachesTarget then 0 else 1,
    toLex (if e.hasSmallHeuristic then 0 else 1, e.serial)))

theorem before_iff : a.before b = true ↔ a.rank < b.rank := by
  simp only [before, rank, Prod.Lex.toLex_lt_toLex]
  by_cases hweight : a.weight = b.weight
  · cases a.reachesTarget <;> cases b.reachesTarget <;> cases a.hasSmallHeuristic <;>
      cases b.hasSmallHeuristic <;> simp [hweight]
  · simp [hweight]

/-- Entries of the same rank were made at the same time. -/
theorem serial_eq_of_rank_eq (h : a.rank = b.rank) : a.serial = b.serial := by
  simp only [rank, toLex_inj, Prod.mk.injEq] at h
  exact h.2.2.2

theorem weight_le_of_rank_lt (h : a.rank < b.rank) : a.weight ≤ b.weight := by
  rw [rank, rank, Prod.Lex.toLex_lt_toLex] at h
  exact h.elim Nat.le_of_lt fun h => Nat.le_of_eq h.1

/-- A new entry is put into its place. -/
theorem pairwise_rank_insert (h : entries.Pairwise fun a b => a.rank < b.rank)
    (hserial : ∀ f ∈ entries, f.serial ≠ e.serial) :
    (e.insert entries).Pairwise fun a b => a.rank < b.rank := by
  induction entries with
  | nil => simp [Entry.insert]
  | cons first rest ih =>
    obtain ⟨hfirst, hrest⟩ := List.pairwise_cons.1 h
    obtain ⟨hne, hserial⟩ := List.forall_mem_cons.1 hserial
    unfold Entry.insert
    split
    · rename_i hbefore
      have hlt := before_iff.1 hbefore
      exact List.pairwise_cons.2
        ⟨List.forall_mem_cons.2 ⟨hlt, fun f hf => hlt.trans (hfirst f hf)⟩, h⟩
    · rename_i hbefore
      have hlt : first.rank < e.rank := lt_of_le_of_ne
        (not_lt.1 fun hlt => hbefore (before_iff.2 hlt)) fun heq => hne (serial_eq_of_rank_eq heq)
      refine List.pairwise_cons.2 ⟨fun f hf => ?_, ih hrest hserial⟩
      rcases SearchRun.mem_insert.1 hf with rfl | hf
      · exact hlt
      · exact hfirst f hf

theorem insert_perm (e : Entry) (entries : List Entry) : (e.insert entries).Perm (e :: entries) := by
  induction entries with
  | nil => exact .refl _
  | cons first rest ih =>
    unfold Entry.insert
    split
    · exact .refl _
    · exact (ih.cons first).trans (.swap e first rest)

end Entry

namespace SearchRun

variable {finds accepted : List Find} {taken popped : List Entry} {run run' : SearchRun} {find : Find}
variable {entry : Entry} {rest : List Entry} {isAccepted visitsReached : Bool}
variable {next : Option (NodeId × Nat)} {id : NodeId} {depth : Nat}

/-! ## What a search keeps true -/

/-- A find is the first one of its node at its depth. -/
def Find.FirstOf (find : Find) (finds : List Find) : Prop :=
  finds.find? (fun f => f.node = find.node ∧ f.depth = find.depth) = some find

theorem Find.FirstOf.append (h : find.FirstOf finds) (more : List Find) :
    find.FirstOf (finds ++ more) := by
  rw [FirstOf, List.find?_append, h, Option.some_or]

/-- Writing down a find changes the depth and the parent of no other node. -/
theorem written_of_ne (run : SearchRun) (hne : id ≠ find.node) :
    (run.depths.insert find.node find.depth).get? id = run.depth? id ∧
      ((run.parents.insert find.node find.parent).get? id).join = run.parent? id := by
  rw [NodeMap.get?_insert, if_neg hne, NodeMap.get?_insert, if_neg hne]
  exact ⟨rfl, rfl⟩

theorem written_self (run : SearchRun) (find : Find) :
    (run.depths.insert find.node find.depth).get? find.node = some find.depth ∧
      ((run.parents.insert find.node find.parent).get? find.node).join = find.parent := by
  simp [NodeMap.get?_insert]

/-- What a search keeps true of `finds`, which calls asked to let wait, of those that were `accepted`,
and of the entries that were made for these: some were `taken`, and the others wait. -/
structure Recorded (gen : Generation S P K) (finds accepted : List Find) (taken : List Entry)
    (run : SearchRun) : Prop where
  sorted : run.waitlist.Pairwise fun a b => a.rank < b.rank
  /-- The entry with the number `k` was made for the accepted find with that number, and it was either
  taken, once, or waits. -/
  serials : ((taken ++ run.waitlist).map (·.serial)).Perm (List.range accepted.length)
  serial : run.serial = accepted.length
  made : ∀ e ∈ taken ++ run.waitlist,
    ∃ parent, accepted[e.serial]? = some { node := e.node, parent, depth := e.depth }
  describes : ∀ e ∈ taken ++ run.waitlist, e.Describes gen
  sublist : accepted.Sublist finds
  admits : ∀ a ∈ accepted, gen.Admits a.node
  /-- The depth of a node is the least at which it was accepted, and its parent is the one of the first
  find at that depth. -/
  least : ∀ a ∈ accepted, ∃ b ∈ accepted, b.node = a.node ∧ b.depth ≤ a.depth ∧
    run.depth? a.node = some b.depth ∧ run.parent? a.node = b.parent ∧ b.FirstOf finds
  /-- A find that was not accepted, although its node is admitted, was no news. -/
  noted : ∀ f ∈ finds, gen.Admits f.node →
    f.node ∈ run.finished ∨ ∃ d ≤ f.depth, run.depth? f.node = some d
  finished : ∀ id, id ∈ run.finished ↔ ∃ e ∈ taken, e.node = id
  nodup : run.finished.Nodup
  /-- The entry with which a node was finished has the depth of the node. -/
  popped : ∀ {id e}, Entry.first? taken id = some e → run.depth? id = some e.depth
  reached : run.reached.Sublist run.finished
  reaches : ∀ id ∈ run.finished, id ∈ run.reached ↔ gen.reachesTarget id = .ok true

namespace Recorded

theorem start (gen : Generation S P K) (start : List NodeId) (stop : StopCriterion) :
    Recorded gen [] [] [] { start, stop } where
  sorted := .nil
  serials := .nil
  serial := rfl
  made := by simp
  describes := by simp
  sublist := .refl _
  admits := by simp
  least := by simp
  noted := by simp
  finished := by simp
  nodup := .nil
  popped h := by simp [Entry.first?] at h
  reached := .refl _
  reaches := by simp

theorem admits_of_taken (h : Recorded gen finds accepted taken run) {e : Entry}
    (he : e ∈ taken ++ run.waitlist) : gen.Admits e.node := by
  obtain ⟨parent, hfind⟩ := h.made e he
  exact h.admits _ (List.mem_of_getElem? hfind)

/-- The entry that was made for an accepted find. -/
theorem exists_entry (h : Recorded gen finds accepted taken run) {a : Find} (ha : a ∈ accepted) :
    ∃ e ∈ taken ++ run.waitlist, e.node = a.node ∧ e.depth = a.depth := by
  obtain ⟨k, hk, rfl⟩ := List.getElem_of_mem ha
  have hmem : k ∈ (taken ++ run.waitlist).map (·.serial) :=
    h.serials.symm.subset (List.mem_range.2 hk)
  obtain ⟨e, he, rfl⟩ := List.mem_map.1 hmem
  obtain ⟨parent, hfind⟩ := h.made e he
  rw [List.getElem?_eq_getElem hk, Option.some.injEq] at hfind
  exact ⟨e, he, by rw [hfind], by rw [hfind]⟩

/-- The find for which an entry was made. -/
theorem exists_find_of_entry (h : Recorded gen finds accepted taken run) {e : Entry}
    (he : e ∈ taken ++ run.waitlist) :
    ∃ a ∈ accepted, a.node = e.node ∧ a.depth = e.depth := by
  obtain ⟨parent, hfind⟩ := h.made e he
  exact ⟨_, List.mem_of_getElem? hfind, rfl, rfl⟩

/-! ## Letting a node wait -/

/-- A find that is not accepted is only noted. -/
theorem ignore (h : Recorded gen finds accepted taken run)
    (hfind : ¬ gen.Admits find.node ∨ find.node ∈ run.finished ∨
      ∃ d ≤ find.depth, run.depth? find.node = some d) :
    Recorded gen (finds ++ [find]) accepted taken run :=
  { h with
    sublist := h.sublist.trans (List.sublist_append_left _ _)
    least := fun a ha => by
      obtain ⟨b, hb, hnode, hle, hdepth, hparent, hfirst⟩ := h.least a ha
      exact ⟨b, hb, hnode, hle, hdepth, hparent, hfirst.append _⟩
    noted := fun f hf hadmits => by
      rcases List.mem_append.1 hf with hf | hf
      · exact h.noted f hf hadmits
      · obtain rfl := List.mem_singleton.1 hf
        exact hfind.resolve_left (not_not.2 hadmits) }

/-- What is written for a node that is not admitted touches no node of interest. -/
theorem lose (h : Recorded gen finds accepted taken run) (hfind : ¬ gen.Admits find.node) :
    Recorded gen (finds ++ [find]) accepted taken { run with
      depths := run.depths.insert find.node find.depth
      parents := run.parents.insert find.node find.parent } := by
  have hkeep : ∀ {i}, gen.Admits i → (run.depths.insert find.node find.depth).get? i = run.depth? i ∧
      ((run.parents.insert find.node find.parent).get? i).join = run.parent? i :=
    fun hadmits => written_of_ne run fun heq => hfind (heq ▸ hadmits)
  have hignore := h.ignore (.inl hfind)
  exact
    { hignore with
      least := fun a ha => by
        obtain ⟨b, hb, hnode, hle, hdepth, hparent, hfirst⟩ := hignore.least a ha
        obtain ⟨hdepth', hparent'⟩ := hkeep (h.admits a ha)
        exact ⟨b, hb, hnode, hle, hdepth'.trans hdepth, hparent'.trans hparent, hfirst⟩
      noted := fun f hf hadmits => (hignore.noted f hf hadmits).imp_right
        fun ⟨d, hle, hd⟩ => ⟨d, hle, (hkeep hadmits).1.trans hd⟩
      popped := fun {i e} he => by
        have hmem := List.mem_of_find?_eq_some he
        obtain rfl : e.node = i := by simpa using List.find?_some he
        exact (hkeep (h.admits_of_taken (List.mem_append_left _ hmem))).1.trans (h.popped he) }

theorem serial_lt (h : Recorded gen finds accepted taken run) {e : Entry}
    (he : e ∈ taken ++ run.waitlist) : e.serial < accepted.length := by
  obtain ⟨parent, hfind⟩ := h.made e he
  exact (List.getElem?_eq_some_iff.1 hfind).1

/-- A find that is news is the first one of its node at its depth: an earlier one would have been
noted. -/
theorem firstOf_news (h : Recorded gen finds accepted taken run) (hadmits : gen.Admits find.node)
    (hnew : find.node ∉ run.finished)
    (hnews : ∀ d, run.depth? find.node = some d → find.depth < d) :
    find.FirstOf (finds ++ [find]) := by
  have hnone : finds.find? (fun f => f.node = find.node ∧ f.depth = find.depth) = none := by
    rw [List.find?_eq_none]
    intro f hf
    simp only [decide_eq_true_eq, not_and]
    intro hfnode hfdepth
    obtain hfinished | ⟨d, hle, hd⟩ := h.noted f hf (hfnode ▸ hadmits)
    · exact hnew (hfnode ▸ hfinished)
    · have := hnews d (hfnode ▸ hd)
      omega
  rw [Find.FirstOf, List.find?_append, hnone]
  simp

/-- The entry made for an accepted find takes the next number. -/
theorem serials_insert (h : Recorded gen finds accepted taken run)
    (hserial : entry.serial = run.serial) :
    ((taken ++ entry.insert run.waitlist).map (·.serial)).Perm
      (List.range (accepted ++ [find]).length) := by
  have hperm : (taken ++ entry.insert run.waitlist).Perm (taken ++ run.waitlist ++ [entry]) :=
    ((Entry.insert_perm entry run.waitlist).append_left taken).trans
      (((List.perm_append_singleton entry run.waitlist).symm.append_left taken).trans
        (.of_eq (List.append_assoc ..).symm))
  rw [List.length_append, List.length_singleton, List.range_succ]
  refine (hperm.map _).trans ?_
  rw [List.map_append, List.map_singleton, hserial, h.serial]
  exact h.serials.append_right _

/-- Accepting a find writes down the least depth of its node, with the parent that goes with it, and
leaves those of the other nodes. -/
theorem least_insert (h : Recorded gen finds accepted taken run) (hadmits : gen.Admits find.node)
    (hnew : find.node ∉ run.finished) (hnews : ∀ d, run.depth? find.node = some d → find.depth < d)
    {a : Find} (ha : a ∈ accepted ++ [find]) :
    ∃ b ∈ accepted ++ [find], b.node = a.node ∧ b.depth ≤ a.depth ∧
      (run.depths.insert find.node find.depth).get? a.node = some b.depth ∧
      ((run.parents.insert find.node find.parent).get? a.node).join = b.parent ∧
      b.FirstOf (finds ++ [find]) := by
  by_cases hsame : a.node = find.node
  · obtain ⟨hdepth, hparent⟩ := written_self run find
    refine ⟨find, by simp, hsame.symm, ?_, hsame ▸ hdepth, hsame ▸ hparent,
      h.firstOf_news hadmits hnew hnews⟩
    rcases List.mem_append.1 ha with ha | ha
    · obtain ⟨b, -, -, hle, hb, -⟩ := h.least a ha
      have := hnews b.depth (hsame ▸ hb)
      omega
    · rw [List.mem_singleton.1 ha]
  · obtain ⟨hdepth, hparent⟩ := written_of_ne run hsame
    rcases List.mem_append.1 ha with ha | ha
    · obtain ⟨b, hb, hbnode, hle, hbdepth, hbparent, hbfirst⟩ := h.least a ha
      exact ⟨b, List.mem_append_left _ hb, hbnode, hle, hdepth.trans hbdepth,
        hparent.trans hbparent, hbfirst.append _⟩
    · exact absurd (congrArg Find.node (List.mem_singleton.1 ha)) hsame

/-- Accepting a find leaves every find noted. -/
theorem noted_insert (h : Recorded gen finds accepted taken run) (hnew : find.node ∉ run.finished)
    (hnews : ∀ d, run.depth? find.node = some d → find.depth < d) {f : Find}
    (hf : f ∈ finds ++ [find]) (hadmits : gen.Admits f.node) :
    f.node ∈ run.finished ∨
      ∃ d ≤ f.depth, (run.depths.insert find.node find.depth).get? f.node = some d := by
  by_cases hsame : f.node = find.node
  · refine .inr ⟨find.depth, ?_, hsame ▸ (written_self run find).1⟩
    rcases List.mem_append.1 hf with hf | hf
    · obtain hfinished | ⟨d, hle, hd⟩ := h.noted f hf hadmits
      · exact absurd (hsame ▸ hfinished) hnew
      · have := hnews d (hsame ▸ hd)
        omega
    · rw [List.mem_singleton.1 hf]
  · rcases List.mem_append.1 hf with hf | hf
    · exact (h.noted f hf hadmits).imp_right
        fun ⟨d, hle, hd⟩ => ⟨d, hle, (written_of_ne run hsame).1.trans hd⟩
    · exact absurd (congrArg Find.node (List.mem_singleton.1 hf)) hsame

/-- **An accepted find** is the first one of its node at its depth, and above all that were accepted
before. -/
theorem accept (h : Recorded gen finds accepted taken run) (hadmits : gen.Admits find.node)
    (hnew : find.node ∉ run.finished) (hnews : ∀ d, run.depth? find.node = some d → find.depth < d)
    (hdescribes : entry.Describes gen) (hnode : entry.node = find.node)
    (hdepth : entry.depth = find.depth) (hserial : entry.serial = run.serial) :
    Recorded gen (finds ++ [find]) (accepted ++ [find]) taken { run with
      depths := run.depths.insert find.node find.depth
      parents := run.parents.insert find.node find.parent
      waitlist := entry.insert run.waitlist
      serial := run.serial + 1 } := by
  have hmem : ∀ {e}, e ∈ taken ++ entry.insert run.waitlist →
      e = entry ∨ e ∈ taken ++ run.waitlist := by
    intro e he
    rcases List.mem_append.1 he with he | he
    · exact .inr (List.mem_append_left _ he)
    · exact (mem_insert.1 he).imp_right fun he => List.mem_append_right _ he
  exact
    { sorted := Entry.pairwise_rank_insert h.sorted fun f hf => by
        rw [hserial, h.serial]
        exact Nat.ne_of_lt (h.serial_lt (List.mem_append_right _ hf))
      serials := h.serials_insert hserial
      serial := by simp [h.serial]
      made := fun e he => by
        rcases hmem he with rfl | he
        · refine ⟨find.parent, ?_⟩
          rw [hserial, h.serial, hnode, hdepth]
          simp
        · obtain ⟨parent, hfind⟩ := h.made e he
          exact ⟨parent, by rw [List.getElem?_append_left (h.serial_lt he), hfind]⟩
      describes := fun e he => by
        rcases hmem he with rfl | he
        · exact hdescribes
        · exact h.describes e he
      sublist := h.sublist.append (.refl _)
      admits := by simpa [or_imp, forall_and] using ⟨h.admits, hadmits⟩
      least := fun a ha => h.least_insert hadmits hnew hnews ha
      noted := fun f hf hadmits => h.noted_insert hnew hnews hf hadmits
      finished := h.finished
      nodup := h.nodup
      popped := fun {i e} he => by
        have htaken := List.mem_of_find?_eq_some he
        obtain rfl : e.node = i := by simpa using List.find?_some he
        -- A taken entry is one of a finished node, and the node of the find is not finished.
        have hne : e.node ≠ find.node := fun heq => hnew (heq ▸ (h.finished _).2 ⟨e, htaken, rfl⟩)
        exact (written_of_ne run hne).1.trans (h.popped he)
      reached := h.reached
      reaches := h.reaches }

/-- **A call that asks to let a node wait** keeps the records. -/
theorem outcome (h : Recorded gen finds accepted taken run)
    (hrun : Outcome gen find run run' isAccepted) :
    Recorded gen (finds ++ [find]) (accepted ++ if isAccepted then [find] else []) taken run' := by
  cases hrun with
  | ignored hignored => simpa using h.ignore hignored
  | lost hlost => simpa using h.lose hlost
  | accepted hadmits hnew hnews hdescribes hnode hdepth hserial =>
    exact h.accept hadmits hnew hnews hdescribes hnode hdepth hserial

/-! ## Handing out the next node -/

/-- The first entry of a node that waits carries the least depth at which the node was accepted: the
entries of a node differ in nothing but depth and age, and the one at the least depth is not behind. -/
theorem depth_head (h : Recorded gen finds accepted taken run) (hwaitlist : run.waitlist = entry :: rest)
    (hnew : entry.node ∉ run.finished) : run.depth? entry.node = some entry.depth := by
  have hentry : entry ∈ taken ++ run.waitlist := by simp [hwaitlist]
  obtain ⟨a, ha, hanode, hadepth⟩ := h.exists_find_of_entry hentry
  obtain ⟨b, hb, hbnode, hle, hdepth, -⟩ := h.least a ha
  obtain ⟨e, he, henode, hedepth⟩ := h.exists_entry hb
  have hsame : e.node = entry.node := henode.trans (hbnode.trans hanode)
  have hwaits : e ∈ run.waitlist := (List.mem_append.1 he).resolve_left fun he =>
    hnew ((h.finished _).2 ⟨e, he, hsame⟩)
  have hweight : entry.weight ≤ e.weight := by
    have hsorted := h.sorted
    rw [hwaitlist] at hsorted hwaits
    rcases List.mem_cons.1 hwaits with rfl | hwaits
    · exact Nat.le_refl _
    · exact Entry.weight_le_of_rank_lt ((List.pairwise_cons.1 hsorted).1 e hwaits)
  obtain ⟨edges, hedges, hw⟩ := (h.describes entry hentry).weight
  obtain ⟨edges', hedges', hw'⟩ := (h.describes e he).weight
  rw [hsame] at hedges'
  obtain rfl := Distance.finite.inj (Except.ok.inj (hedges.symm.trans hedges'))
  have heq : b.depth = entry.depth := by omega
  rw [← hanode, hdepth, heq]

/-- A stale entry is discarded. -/
theorem skip (h : Recorded gen finds accepted taken run) (hwaitlist : run.waitlist = entry :: rest)
    (hfinished : entry.node ∈ run.finished) :
    Recorded gen finds accepted (taken ++ [entry]) { run with waitlist := rest } where
  sorted := (List.pairwise_cons.1 (hwaitlist ▸ h.sorted)).2
  serials := by simpa [hwaitlist] using h.serials
  serial := h.serial
  made := by simpa [hwaitlist] using h.made
  describes := by simpa [hwaitlist] using h.describes
  sublist := h.sublist
  admits := h.admits
  least := h.least
  noted := h.noted
  finished id := by
    rw [h.finished id]
    constructor
    · rintro ⟨e, he, hid⟩
      exact ⟨e, List.mem_append_left _ he, hid⟩
    · rintro ⟨e, he, hid⟩
      rcases List.mem_append.1 he with he | he
      · exact ⟨e, he, hid⟩
      · exact (h.finished id).1 (hid ▸ List.mem_singleton.1 he ▸ hfinished)
  nodup := h.nodup
  popped := fun {id e} he => by
    rw [Entry.first?, List.find?_append, Option.or_eq_some_iff] at he
    obtain he | ⟨hnone, he⟩ := he
    · exact h.popped he
    · -- a node that is finished was taken before
      obtain rfl := List.mem_singleton.1 (List.mem_of_find?_eq_some he)
      obtain rfl : e.node = id := by simpa using List.find?_some he
      obtain ⟨f, hf, hnode⟩ := (h.finished _).1 hfinished
      exact absurd hnode (by simpa using List.find?_eq_none.1 hnone f hf)
  reached := h.reached
  reaches := h.reaches

/-- The first entry is taken, and its node is finished. -/
theorem finish {reaches : Bool} (h : Recorded gen finds accepted taken run)
    (hwaitlist : run.waitlist = entry :: rest) (hnew : entry.node ∉ run.finished)
    (hreaches : gen.reachesTarget entry.node = .ok reaches) :
    Recorded gen finds accepted (taken ++ [entry]) (run.finish entry rest reaches) := by
  have hdepth := h.depth_head hwaitlist hnew
  have hnotaken : ∀ e ∈ taken, e.node ≠ entry.node := fun e he heq =>
    hnew ((h.finished _).2 ⟨e, he, heq⟩)
  constructor
  · exact (List.pairwise_cons.1 (hwaitlist ▸ h.sorted)).2
  · simpa [SearchRun.finish, hwaitlist] using h.serials
  · exact h.serial
  · simpa [SearchRun.finish, hwaitlist] using h.made
  · simpa [SearchRun.finish, hwaitlist] using h.describes
  · exact h.sublist
  · exact h.admits
  · exact h.least
  · exact fun f hf hadmits => (h.noted f hf hadmits).imp_left (List.mem_append_left _)
  · intro id
    simp only [SearchRun.finish, List.mem_append, List.mem_singleton, h.finished id, or_and_right,
      exists_or, exists_eq_left, eq_comm (a := id)]
  · exact h.nodup.append (List.nodup_singleton _) (by simpa using hnew)
  · intro id e he
    rw [Entry.first?, List.find?_append, Option.or_eq_some_iff] at he
    obtain he | ⟨-, he⟩ := he
    · exact h.popped he
    · obtain rfl := List.mem_singleton.1 (List.mem_of_find?_eq_some he)
      obtain rfl : e.node = id := by simpa using List.find?_some he
      exact hdepth
  · simp only [SearchRun.finish]
    split
    · exact h.reached.append (.refl _)
    · exact h.reached.trans (List.sublist_append_left _ _)
  · intro id hid
    have hnotreached : entry.node ∉ run.reached := fun hmem => hnew (h.reached.subset hmem)
    simp only [SearchRun.finish, List.mem_append, List.mem_singleton] at hid ⊢
    rcases hid with hid | rfl
    · have hne : id ≠ entry.node := fun heq => hnew (heq ▸ hid)
      rw [← h.reaches id hid]
      split <;> simp [hne]
    · rw [hreaches]
      cases reaches <;> simp [hnotreached]

/-- **Taking entries keeps the records**, whether they are stale, passed over or handed out. -/
theorem takes (h : Recorded gen finds accepted taken run)
    (htakes : Takes gen visitsReached run popped next run') :
    Recorded gen finds accepted (taken ++ popped) run' := by
  induction htakes generalizing taken with
  | none => simpa using h
  | stale hwaitlist hfinished _ ih => simpa using ih (h.skip hwaitlist hfinished)
  | passed hwaitlist hnew hreaches _ ih => simpa using ih (h.finish hwaitlist hnew hreaches)
  | handedOut hwaitlist hnew hreaches _ => exact h.finish hwaitlist hnew hreaches

/-- A node is handed out for the first time, and at its depth. -/
theorem handedOut (h : Recorded gen finds accepted taken run)
    (htakes : Takes gen visitsReached run popped (some (id, depth)) run') :
    id ∉ run.finished ∧ id ∈ run'.finished ∧ run'.depth? id = some depth := by
  generalize hnext : some (id, depth) = next at htakes
  induction htakes generalizing taken with
  | none => cases hnext
  | stale hwaitlist hfinished _ ih => exact ih (h.skip hwaitlist hfinished) hnext
  | passed hwaitlist hnew hreaches _ ih =>
    obtain ⟨hfirst, hrest⟩ := ih (h.finish hwaitlist hnew hreaches) hnext
    exact ⟨fun hid => hfirst (List.mem_append_left _ hid), hrest⟩
  | handedOut hwaitlist hnew hreaches _ =>
    cases hnext
    exact ⟨hnew, by simp [SearchRun.finish], h.depth_head hwaitlist hnew⟩

/-- The nodes that were reached are in the graph. -/
theorem exists_of_reached (h : Recorded gen finds accepted taken run) :
    ∀ i ∈ run.reached, ∃ n, gen.graph.get? i = some n := fun i hi => by
  have hreaches := (h.reaches i (h.reached.subset hi)).1 hi
  obtain ⟨n, hn, -⟩ := bind_eq_ok.1 hreaches
  exact ⟨n, Graph.node_eq_ok.1 hn⟩

/-- Once nothing waits any more, every node that was ever accepted is finished. -/
theorem finished_of_waitlist (h : Recorded gen finds accepted taken run) (hnil : run.waitlist = []) :
    ∀ a ∈ accepted, a.node ∈ run.finished := fun a ha => by
  obtain ⟨e, he, hnode, -⟩ := h.exists_entry ha
  rw [hnil, List.append_nil] at he
  exact (h.finished _).2 ⟨e, he, hnode⟩

end Recorded

/-! ## Journals -/

/-- What handing out the next node does to a search. -/
structure Pops (gen : Generation S P K) (accepted : List Find) (run : SearchRun)
    (popped : List Entry) (next : Option (NodeId × Nat)) (run' : SearchRun) : Prop where
  waitlist : run.waitlist = popped ++ run'.waitlist
  /-- Every entry that is taken goes before all others that wait at that time. -/
  best : ∀ earlier e later, popped = earlier ++ e :: later →
    ∀ f ∈ later ++ run'.waitlist, e.rank < f.rank
  /-- A node is handed out for the first time, at its depth. -/
  handedOut : ∀ id depth, next = some (id, depth) →
    id ∉ run.finished ∧ id ∈ run'.finished ∧ run'.depth? id = some depth
  /-- There is no next node only if all nodes that were accepted are finished, or the search may stop and
  the first entry that waits, even if it is stale, does not reach a target. -/
  none : next = none → (∀ a ∈ accepted, a.node ∈ run'.finished) ∨
    run'.stop.canStop gen.graph run'.reached = .ok true ∧
      ∃ entry rest, run'.waitlist = entry :: rest ∧ gen.reachesTarget entry.node = .ok false
  depths : run'.depths = run.depths
  parents : run'.parents = run.parents

theorem stopsBefore_eq_true (h : run.stopsBefore gen entry = .ok true) :
    run.stop.canStop gen.graph run.reached = .ok true ∧
      gen.reachesTarget entry.node = .ok false := by
  obtain ⟨stops, hstops, h⟩ := bind_eq_ok.1 h
  split at h
  · rename_i htrue
    obtain ⟨reaches, hreaches, hnot⟩ := bind_eq_ok.1 h
    have hfalse : reaches = false := by simpa using hnot
    exact ⟨htrue ▸ hstops, hfalse ▸ hreaches⟩
  · cases h

/-- **Handing out the next node** never fails, and takes the entries that go before all others. -/
theorem Recorded.exists_next (h : Recorded gen finds accepted taken run) (visitsReached : Bool) :
    ∃ popped next run', (SearchRun.next gen visitsReached).run run = .ok next run' ∧
      Pops gen accepted run popped next run' ∧ Recorded gen finds accepted (taken ++ popped) run' := by
  obtain ⟨next, run', hrun⟩ := exists_nextOf_of_reachesTarget visitsReached
    h.exists_of_reached fun e he =>
      ⟨_, (h.describes e (List.mem_append_right _ he)).reachesTarget⟩
  obtain ⟨popped, htakes⟩ := nextOf_takes rfl hrun
  have hrecorded := h.takes htakes
  have hwaitlist := htakes.waitlist_eq
  obtain ⟨-, hdepths, hparents, -⟩ := htakes.same
  refine ⟨popped, next, run', Edit.run_bind_ok.2 ⟨run, run, rfl, hrun⟩, ?_, hrecorded⟩
  refine ⟨hwaitlist, ?_, ?_, ?_, hdepths, hparents⟩
  · rintro earlier e later rfl f hf
    have hsorted := h.sorted
    rw [hwaitlist, List.append_assoc, List.cons_append] at hsorted
    exact (List.pairwise_cons.1 (List.pairwise_append.1 hsorted).2.1).1 f hf
  · rintro id depth rfl
    exact h.handedOut htakes
  · rintro rfl
    obtain hnil | ⟨entry, rest, hfirst, hstops⟩ := nextOf_eq_none rfl hrun
    · exact .inl (hrecorded.finished_of_waitlist hnil)
    · obtain ⟨hcan, hreaches⟩ := stopsBefore_eq_true hstops
      exact .inr ⟨hcan, entry, rest, hfirst, hreaches⟩

namespace Journal

variable {journal : Journal} {calls : List Call} {call : Call}

/-- What holds of a journal. -/
structure Disciplined (gen : Generation S P K) (calls : List Call) (journal : Journal) : Prop where
  recorded : Recorded gen (calls.filterMap Call.find?) journal.accepted journal.taken journal.run
  /-- A node that was handed out is finished, and its depth is still the one it was handed out with. -/
  handedOut : ∀ {id depth}, (id, depth) ∈ journal.handedOut →
    id ∈ journal.run.finished ∧ journal.run.depth? id = some depth
  /-- No node is handed out twice. -/
  nodup : (journal.handedOut.map Prod.fst).Nodup

/-- Estimates and depths of what calls ask to let wait add up to no more than the limit. -/
def Bounded (gen : Generation S P K) (calls : List Call) : Prop :=
  ∀ find, Call.enqueue find ∈ calls → ∀ edges, gen.estimate find.node = .ok (.finite edges) →
    edges + find.depth ≤ Distance.limit

/-- A call that asks to let a node wait has one of the outcomes. -/
theorem record_enqueue (journal : Journal)
    (hlimit : ∀ edges, gen.estimate find.node = .ok (.finite edges) →
      edges + find.depth ≤ Distance.limit) :
    ∃ run' isAccepted, Outcome gen find journal.run run' isAccepted ∧
      record gen journal (.enqueue find) = { journal with
        run := run', accepted := journal.accepted ++ if isAccepted then [find] else [] } := by
  obtain ⟨run', isAccepted, houtcome, hrun⟩ := enqueue_outcome gen find journal.run hlimit
  refine ⟨run', isAccepted, houtcome, ?_⟩
  rcases hrun with hrun | ⟨rfl, fault, hrun⟩
  · rw [record, hrun]
    cases houtcome with
    | ignored => simp
    | lost => simp
    | accepted => simp
  · rw [record, hrun]
    simp

/-- **One call keeps the discipline.** -/
theorem Disciplined.record (h : journal.Disciplined gen calls) (hbounded : Bounded gen [call]) :
    (journal.record gen call).Disciplined gen (calls ++ [call]) := by
  cases call with
  | enqueue find =>
    obtain ⟨run', isAccepted, houtcome, hrecord⟩ :=
      record_enqueue journal (hbounded find (List.mem_singleton_self _))
    have hrecorded := h.recorded.outcome houtcome
    rw [hrecord]
    refine ⟨by simpa [Call.find?] using hrecorded, fun {id depth} hid => ?_, h.nodup⟩
    obtain ⟨hfinished, hdepth⟩ := h.handedOut hid
    obtain ⟨e, he, rfl⟩ := (h.recorded.finished id).1 hfinished
    have hadmits := h.recorded.admits_of_taken (List.mem_append_left _ he)
    -- the depth of a finished node is not written any more
    cases houtcome with
    | ignored _ => exact ⟨hfinished, hdepth⟩
    | lost hlost =>
      have hne : e.node ≠ find.node := fun heq => hlost (heq ▸ hadmits)
      exact ⟨hfinished, by rw [depth?, NodeMap.get?_insert, if_neg hne]; exact hdepth⟩
    | accepted _ hnew => exact ⟨hfinished, (depth_insert_of_finished hnew hfinished).trans hdepth⟩
  | next visitsReached =>
    obtain ⟨popped, next, run', hrun, hpops, hrecorded⟩ := h.recorded.exists_next visitsReached
    have htaken : journal.run.waitlist.take
        (journal.run.waitlist.length - run'.waitlist.length) = popped := by
      rw [hpops.waitlist, List.length_append, Nat.add_sub_cancel, List.take_left]
    have hrecord : journal.record gen (.next visitsReached) = { journal with
        run := run', taken := journal.taken ++ popped,
        handedOut := journal.handedOut ++ next.toList } := by
      rw [Journal.record, hrun, ← htaken]
    rw [hrecord]
    have hkeep : ∀ {i}, i ∈ journal.run.finished → i ∈ run'.finished := fun {i} hi => by
      obtain ⟨e, he, hnode⟩ := (h.recorded.finished i).1 hi
      exact (hrecorded.finished i).2 ⟨e, List.mem_append_left _ he, hnode⟩
    refine ⟨by simpa [List.filterMap_cons, Call.find?] using hrecorded, fun {id depth} hid => ?_, ?_⟩
    · rcases List.mem_append.1 hid with hid | hid
      · obtain ⟨hfinished, hdepth⟩ := h.handedOut hid
        exact ⟨hkeep hfinished, by rw [depth?, hpops.depths]; exact hdepth⟩
      · exact (hpops.handedOut id depth (Option.mem_toList.1 hid)).2
    · cases hnext : next with
      | none => simpa using h.nodup
      | some handed =>
        have hnew := (hpops.handedOut handed.1 handed.2 hnext).1
        simp only [Option.toList_some, List.map_append, List.map_singleton]
        refine h.nodup.append (List.nodup_singleton _) ?_
        rw [List.disjoint_singleton]
        intro hmem
        obtain ⟨⟨i, d⟩, hid, heq⟩ := List.mem_map.1 hmem
        exact hnew (heq ▸ (h.handedOut hid).1)

theorem after_concat (start : List NodeId) (stop : StopCriterion) (calls : List Call) (call : Call) :
    after gen start stop (calls ++ [call]) = (after gen start stop calls).record gen call := by
  rw [after, List.foldl_append]
  rfl

/-- **Every sequence of calls keeps the discipline.** -/
theorem disciplined_after (start : List NodeId) (stop : StopCriterion)
    (hbounded : Bounded gen calls) : (after gen start stop calls).Disciplined gen calls := by
  induction calls using List.reverseRecOn with
  | nil => exact ⟨.start gen start stop, by simp [after], .nil⟩
  | append_singleton calls call ih =>
    rw [after_concat]
    exact (ih fun find hfind => hbounded find (List.mem_append_left _ hfind)).record
      fun find hfind => hbounded find (List.mem_append_right _ hfind)

/-- **The discipline of the waitlist**, whatever calls are made on a search of one generation, as long
as estimates and depths add up to no more than the limit. There is one entry for each find that was
accepted, which was taken once or waits still. The depth of a node is the least at which it was
accepted, and its parent comes from the first find at that depth; a node is finished with an entry of
that depth, even if it left stale entries behind. No node is handed out twice or reached twice. A node
that cannot reach a target never waits. Of the entries that wait the best one is taken next, and there
is no next node only if all accepted nodes are finished, or the search may stop and the best entry does
not reach a target. -/
theorem after_disciplined (gen : Generation S P K) (start : List NodeId) (stop : StopCriterion)
    (calls : List Call) (hbounded : Bounded gen calls) :
    (after gen start stop calls).Disciplined gen calls ∧
      (after gen start stop calls).run.reached.Nodup ∧
      (∀ e ∈ (after gen start stop calls).taken ++ (after gen start stop calls).run.waitlist,
        ¬ gen.Hopeless e.node) ∧
      (∀ find, Bounded gen [.enqueue find] → ∃ run' isAccepted,
        Outcome gen find (after gen start stop calls).run run' isAccepted ∧
          after gen start stop (calls ++ [.enqueue find]) = { after gen start stop calls with
            run := run'
            accepted := (after gen start stop calls).accepted ++ if isAccepted then [find] else [] }) ∧
      ∀ visitsReached, ∃ popped next run',
        (SearchRun.next gen visitsReached).run (after gen start stop calls).run = .ok next run' ∧
          Pops gen (after gen start stop calls).accepted (after gen start stop calls).run popped next
            run' := by
  have hdisciplined := disciplined_after start stop hbounded
  have hrecorded := hdisciplined.recorded
  refine ⟨hdisciplined, hrecorded.nodup.sublist hrecorded.reached,
    fun e he => (hrecorded.describes e he).not_hopeless, fun find hfind => ?_, fun visitsReached => ?_⟩
  · rw [after_concat]
    exact record_enqueue _ (hfind find (List.mem_singleton_self _))
  · obtain ⟨popped, next, run', hrun, hpops, -⟩ := hrecorded.exists_next visitsReached
    exact ⟨popped, next, run', hrun, hpops⟩

/-- Two init nodes that are two edges away from a target, as far as is known, the target, and a node
from which nothing can be reached. -/
def spread : Generation Unit Unit Unit where
  graph := .after [.createInit () false true, .createInit () false true, .createInit () true true,
    .createInit () false true]
  prec := ()
  searchNodes := ⟨#[some { heuristic := .finite 2 }, some { heuristic := .finite 2 },
    some { heuristic := .zero }, some { heuristic := .infinite }]⟩

/-- The first node is found again at a smaller depth, and leaves a stale entry behind. -/
def spreadCalls : List Call :=
  [.enqueue ⟨0, none, 3⟩, .enqueue ⟨1, none, 2⟩, .enqueue ⟨0, some 1, 1⟩, .enqueue ⟨0, some 2, 1⟩,
    .enqueue ⟨3, none, 0⟩, .enqueue ⟨2, some 1, 5⟩, .next false, .next false]

theorem after_disciplined_spread :
    (after spread [] .distanceKnowable spreadCalls).Disciplined spread spreadCalls ∧
      (after spread [] .distanceKnowable spreadCalls).handedOut = [(0, 1), (1, 2)] ∧
      (after spread [] .distanceKnowable spreadCalls).run.parent? 0 = some 1 ∧
      ∃ (popped : List Entry) (run' : SearchRun),
        (SearchRun.next spread false).run (after spread [] .distanceKnowable spreadCalls).run =
          .ok none run' ∧ Pops spread (after spread [] .distanceKnowable spreadCalls).accepted
            (after spread [] .distanceKnowable spreadCalls).run popped none run' ∧
          run'.reached = [2] ∧ run'.waitlist.map (·.node) = [0] := by
  have hbounded : Bounded spread spreadCalls := by
    intro find hfind edges hedges
    have hcases : find ∈ spreadCalls.filterMap Call.find? := List.mem_filterMap.2 ⟨_, hfind, rfl⟩
    have hall : ∀ find ∈ spreadCalls.filterMap Call.find?, find.depth ≤ 5 ∧
        (spread.estimate find.node = .ok .infinite ∨ ∃ edges ≤ 2,
          spread.estimate find.node = .ok (.finite edges)) := by
      decide +kernel
    obtain ⟨hdepth, hinfinite | ⟨edges', hle, hfinite⟩⟩ := hall find hcases
    · cases hinfinite.symm.trans hedges
    · cases hfinite.symm.trans hedges
      rw [Distance.limit]
      omega
  obtain ⟨hdisciplined, -, -, -, hnext⟩ :=
    after_disciplined spread [] .distanceKnowable spreadCalls hbounded
  obtain ⟨popped, next, run', hrun, hpops⟩ := hnext false
  have hvalue : ((SearchRun.next spread false).result
      (after spread [] .distanceKnowable spreadCalls).run).map (fun taken =>
        (taken.1, taken.2.reached, taken.2.waitlist.map (·.node))) = .ok (none, [2], [0]) := by
    decide +kernel
  rw [Edit.result_eq_ok.2 hrun] at hvalue
  simp only [Except.map, Except.ok.injEq, Prod.mk.injEq] at hvalue
  obtain ⟨rfl, hreached, hwaitlist⟩ := hvalue
  exact ⟨hdisciplined, by decide +kernel, by decide +kernel, popped, run', hrun, hpops, hreached,
    hwaitlist⟩

end Journal

end SearchRun

end GuidedReach
