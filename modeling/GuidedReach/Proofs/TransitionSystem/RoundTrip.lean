import GuidedReach.Proofs.Json.Tokens
import GuidedReach.Proofs.TransitionSystem.Validation
import GuidedReach.TransitionSystem.Json

/-!
# Systems are read back

The text of a system is read as the same system: the text is cut into the tokens that were meant, the
tokens are read as the parts of the system, and the parts make up the system again.

* `TransitionSystem.spells_arrayChars` — the tokens of a written array.
* `TransitionSystem.systemTokens`, `TransitionSystem.scan_jsonChars` — the tokens of a system's text.
* `TransitionSystem.draft_systemTokens` — the parts that are read from them.
* `TransitionSystem.make?_parts` — the system of the parts of a system.
* `TransitionSystem.ofJson?_json` — the main result.
-/

namespace GuidedReach.TransitionSystem

open Json

variable {α : Type} {cs rest : List Char} {ts us : List Token}

/-! ## Writing -/

theorem scans_lineStart (level : Nat) (h : Token.Scans rest ts) :
    Token.Scans (lineStart level ++ rest) ts := by
  refine Token.Scans.blank rfl ?_
  induction 2 * level with
  | zero => exact h
  | succ blanks ih => exact Token.Scans.blank rfl ih

theorem ends_lineStart (level : Nat) (rest : List Char) : Token.Ends (lineStart level ++ rest) := by
  rintro _ ⟨⟩
  decide

section Arrays

variable {level : Nat} {f : α → List Char} {g : α → List Token} {l : List α}

theorem ends_others (level : Nat) (f : α → List Char) (l : List α) (hrest : Token.Ends rest) :
    Token.Ends (l.flatMap (fun a => ',' :: lineStart (level + 1) ++ f a) ++ rest) := by
  cases l with
  | nil => exact hrest
  | cons a l =>
    rintro _ ⟨⟩
    decide

/-- The elements after the first one, each after a comma and on a line of its own. -/
theorem scans_others (hl : ∀ a ∈ l, Token.Spells (f a) (g a)) (hrest : Token.Ends rest)
    (h : Token.Scans rest us) :
    Token.Scans (l.flatMap (fun a => ',' :: lineStart (level + 1) ++ f a) ++ rest)
      (l.flatMap (fun a => .comma :: g a) ++ us) := by
  induction l with
  | nil => exact h
  | cons a l ih =>
    rw [List.forall_mem_cons] at hl
    simp only [List.flatMap_cons, List.cons_append, List.append_assoc]
    refine Token.Scans.token rfl rfl (Nat.le_refl _) (scans_lineStart _ ?_)
    exact hl.1 (ends_others level f l hrest) (ih hl.2)

/-- **A written array is cut into the tokens of an array.** -/
theorem spells_arrayChars (level : Nat) (hl : ∀ a ∈ l, Token.Spells (f a) (g a)) :
    Token.Spells (arrayChars level (l.map f)) (arrayTokens (l.map g)) := by
  intro rest us _ h
  have hclose : Token.Scans (lineStart level ++ ']' :: rest) (.closeBracket :: us) :=
    scans_lineStart _ (Token.Scans.token rfl rfl (Nat.le_refl _) h)
  cases l with
  | nil =>
    exact Token.Scans.token rfl rfl (Nat.le_refl _) (Token.Scans.token rfl rfl (Nat.le_refl _) h)
  | cons a l =>
    rw [List.forall_mem_cons] at hl
    simp only [List.map_cons, arrayChars, arrayTokens, List.flatMap_map, List.cons_append,
      List.append_assoc, List.nil_append]
    refine Token.Scans.token rfl rfl (Nat.le_refl _) (scans_lineStart _ ?_)
    refine hl.1 (ends_others level f l (ends_lineStart _ _)) ?_
    simpa only [List.cons_append, List.append_assoc] using
      scans_others hl.2 (ends_lineStart _ _) hclose

end Arrays

def numbersTokens (l : List Nat) : List Token := arrayTokens (l.map fun n => [.natural n])

def edgeTokens (e : Nat × Nat) : List Token := numbersTokens [e.1, e.2]

theorem spells_numbers (level : Nat) (l : List Nat) :
    Token.Spells (arrayChars level (l.map numberChars)) (numbersTokens l) :=
  spells_arrayChars level fun n _ => Token.spells_natural n

/-- A member of the system object: its name, a colon and its value. -/
theorem scans_memberChars {name : String} {value : List Char} {vs : List Token}
    (hname : ∀ c ∈ name.toList, Token.IsPlain c) (hvalue : Token.Spells value vs)
    (hrest : Token.Ends rest) (h : Token.Scans rest ts) :
    Token.Scans (memberChars name value ++ rest)
      (.text (some name.toList) :: .colon :: (vs ++ ts)) := by
  simp only [memberChars, List.append_assoc]
  refine scans_lineStart 1 ?_
  simp only [List.cons_append, List.nil_append]
  refine Token.scans_text hname (Token.Scans.token rfl rfl (Nat.le_refl _) ?_)
  exact Token.Scans.blank rfl (hvalue hrest h)

/-- The tokens of a system's text after the number of states. -/
def laterTokens (system : TransitionSystem) : List Token :=
  .comma :: .text (some "init".toList) :: .colon :: (numbersTokens system.init.toList ++
    .comma :: .text (some "edges".toList) :: .colon :: (arrayTokens (system.edges.map edgeTokens) ++
      .comma :: .text (some "targets".toList) :: .colon :: (numbersTokens system.targets.toList ++
        [.closeBrace])))

/-- The tokens of a system's text. -/
def systemTokens (system : TransitionSystem) : List Token :=
  .openBrace :: .text (some "states".toList) :: .colon :: ([.natural system.states] ++
    system.laterTokens)

theorem scan_jsonChars (system : TransitionSystem) :
    Token.scan system.jsonChars = system.systemTokens := by
  refine Token.Scans.scan_eq ?_
  have hedges : Token.Spells
      (arrayChars 1 (system.edges.map fun e => arrayChars 2 [numberChars e.1, numberChars e.2]))
      (arrayTokens (system.edges.map edgeTokens)) :=
    spells_arrayChars 1 fun e _ => spells_numbers 2 [e.1, e.2]
  have hcomma : ∀ {cs : List Char}, Token.Ends (',' :: cs) := by
    rintro _ _ ⟨⟩
    decide
  simp only [jsonChars, systemTokens, laterTokens, List.cons_append, List.append_assoc]
  refine Token.Scans.token rfl rfl (Nat.le_refl _) ?_
  have hstates : Token.Spells (numberChars system.states) [.natural system.states] :=
    Token.spells_natural system.states
  refine scans_memberChars (by simp [Token.IsPlain]) hstates hcomma ?_
  refine Token.Scans.token rfl rfl (Nat.le_refl _) ?_
  refine scans_memberChars (by simp [Token.IsPlain]) (spells_numbers 1 _) hcomma ?_
  refine Token.Scans.token rfl rfl (Nat.le_refl _) ?_
  refine scans_memberChars (by simp [Token.IsPlain]) hedges hcomma ?_
  refine Token.Scans.token rfl rfl (Nat.le_refl _) ?_
  refine scans_memberChars (by simp [Token.IsPlain]) (spells_numbers 1 _) (ends_lineStart 0 _) ?_
  exact scans_lineStart 0 (Token.Scans.token rfl rfl (Nat.le_refl _) Token.scans_nil)

/-! ## Reading -/

theorem reads_numbers {l : List Nat} (hl : ∀ n ∈ l, n ≤ maxNumber) :
    Reads numbers (numbersTokens l) l :=
  reads_array (fun n hn => reads_natural (hl n hn)) fun _ => rfl

theorem reads_edge {e : Nat × Nat} (hsource : e.1 ≤ maxNumber) (hdest : e.2 ≤ maxNumber) :
    Reads edge (edgeTokens e) e := by
  intro rest
  simp [edge, edgeTokens, numbersTokens, arrayTokens, expect, number, natural, hsource, hdest]

theorem reads_edgeList {l : List (Nat × Nat)} (hl : ∀ e ∈ l, e.1 ≤ maxNumber ∧ e.2 ≤ maxNumber) :
    Reads edgeList (arrayTokens (l.map edgeTokens)) l :=
  reads_array (fun e he => reads_edge (hl e he).1 (hl e he).2) fun _ => rfl

theorem le_maxNumber (system : TransitionSystem) {s : Nat} (h : s ≤ system.states) :
    s ≤ maxNumber :=
  Nat.le_trans h (Nat.le_trans system.states_le (by decide))

section Members

variable {draft draft' : Draft} {steps : Nat}

theorem member_states {n : Nat} (hdraft : draft.states = none) (h : Reads number ts n) :
    member draft (.text (some "states".toList) :: .colon :: (ts ++ us)) =
      some ({ draft with states := some n }, us) := by
  simp [member, hdraft, h us]

theorem member_init {l : List Nat} (hdraft : draft.init = none) (h : Reads numbers ts l) :
    member draft (.text (some "init".toList) :: .colon :: (ts ++ us)) =
      some ({ draft with init := some l }, us) := by
  simp [member, hdraft, h us]

theorem member_edges {l : List (Nat × Nat)} (hdraft : draft.edges = none) (h : Reads edgeList ts l) :
    member draft (.text (some "edges".toList) :: .colon :: (ts ++ us)) =
      some ({ draft with edges := some l }, us) := by
  simp [member, hdraft, h us]

theorem member_targets {l : List Nat} (hdraft : draft.targets = none) (h : Reads numbers ts l) :
    member draft (.text (some "targets".toList) :: .colon :: (ts ++ us)) =
      some ({ draft with targets := some l }, us) := by
  simp [member, hdraft, h us]

theorem members_comma (h : member draft ts = some (draft', us)) :
    members (steps + 1) draft (.comma :: ts) = members steps draft' us := by
  simp [members, h]

theorem objectDraft_member {name : Option (List Char)}
    (h : member {} (.text name :: ts) = some (draft, us)) :
    objectDraft (.openBrace :: .text name :: ts) = members (us.length + 1) draft us := by
  simp [objectDraft, h]

end Members

/-- **The tokens of a system are read as its parts.** -/
theorem draft_systemTokens (system : TransitionSystem) :
    draft system.systemTokens = some (⟨some system.states, some system.init.toList,
      some system.edges, some system.targets.toList⟩, []) := by
  have hstates : Reads number [.natural system.states] system.states :=
    reads_natural (system.le_maxNumber (Nat.le_refl _))
  have hinit : Reads numbers (numbersTokens system.init.toList) system.init.toList :=
    reads_numbers fun s hs => system.le_maxNumber (Nat.le_of_lt (system.init_lt s hs))
  have htargets : Reads numbers (numbersTokens system.targets.toList) system.targets.toList :=
    reads_numbers fun s hs => system.le_maxNumber (Nat.le_of_lt (system.targets_lt s hs))
  have hedges : Reads edgeList (arrayTokens (system.edges.map edgeTokens)) system.edges :=
    reads_edgeList fun e he => ⟨system.le_maxNumber (Nat.le_of_lt (system.edges_lt e he).1),
      system.le_maxNumber (Nat.le_of_lt (system.edges_lt e he).2)⟩
  have hlater : ∀ steps, members (steps + 4) { states := some system.states } system.laterTokens =
      some (⟨some system.states, some system.init.toList, some system.edges,
        some system.targets.toList⟩, []) := fun steps => by
    rw [laterTokens, members_comma (member_init rfl hinit), members_comma (member_edges rfl hedges),
      members_comma (member_targets rfl htargets)]
    rfl
  have hobject : objectDraft system.systemTokens = some (⟨some system.states,
      some system.init.toList, some system.edges, some system.targets.toList⟩, []) :=
    (objectDraft_member (member_states rfl hstates)).trans (hlater _)
  rw [draft, hobject]
  rfl

/-! ## Systems -/

/-- **The parts of a system make it up again.** -/
theorem make?_parts (system : TransitionSystem) :
    make? system.states system.init.toList system.edges system.targets.toList = .ok system :=
  make?_eq_ok.2 ⟨rfl, (StateSet.ofList_toList _).symm, rfl, (StateSet.ofList_toList _).symm⟩

/-- **A system is read back from its text**, with all its parts: the number of states, the sets of
init states and of targets, the edges in their order with all repetitions, and the successors of each
state. -/
theorem ofJson?_json (system : TransitionSystem) : ofJson? system.json = .ok system := by
  rw [ofJson?, json, String.toList_ofList, scan_jsonChars, ofTokens?, draft_systemTokens]
  simp [make?_parts]

end GuidedReach.TransitionSystem
