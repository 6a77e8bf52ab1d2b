import GuidedReach.Json.Reader
import Mathlib

/-!
# Tokens of written texts

What has been written is cut into the tokens that were meant, and an array of them is read as the
list it was made from.

* `Token.Scans` — the tokens of a text, whatever the number of steps allowed.
* `Token.Spells` — the tokens of a text that others may follow.
* `Token.spells_natural`, `Token.scans_text` — numbers in decimal, and strings without escapes.
* `Reads` — what a reader makes of some tokens, whatever follows them.
* `reads_array` — arrays.
-/

namespace GuidedReach.Json

namespace Token

variable {c : Char} {cs rest : List Char} {t : Token} {ts us : List Token}

/-! ## Texts -/

/-- The text is cut into these tokens. -/
def Scans (cs : List Char) (ts : List Token) : Prop :=
  ∀ steps read, cs.length ≤ steps → scanWithin steps read cs = ts.reverse ++ read

theorem Scans.scan_eq (h : Scans cs ts) : scan cs = ts := by
  rw [scan, h _ _ (Nat.le_refl _), List.append_nil, List.reverse_reverse]

theorem scans_nil : Scans [] [] := by
  intro steps read _
  cases steps <;> rfl

theorem Scans.blank (hc : isBlank c = true) (h : Scans rest ts) : Scans (c :: rest) ts := by
  intro steps read hsteps
  obtain _ | steps := steps
  · simp at hsteps
  · rw [scanWithin, if_pos hc, h _ _ (by simpa using hsteps)]

theorem Scans.token (hc : isBlank c = false) (hfirst : first? (c :: cs) = some (t, rest))
    (hle : rest.length ≤ cs.length) (h : Scans rest ts) : Scans (c :: cs) (t :: ts) := by
  intro steps read hsteps
  obtain _ | steps := steps
  · simp at hsteps
  · rw [scanWithin, if_neg (by simp [hc]), hfirst]
    simp only [List.length_cons] at hsteps
    simp [h steps (t :: read) (by lia)]

/-- No number that ends here could go on. -/
def Ends (rest : List Char) : Prop :=
  ∀ c ∈ rest.head?, c.isDigit = false ∧ c ≠ '.' ∧ c ≠ 'e' ∧ c ≠ 'E'

/-- The text is cut into these tokens when more text follows, unless a number would go on. -/
def Spells (cs : List Char) (ts : List Token) : Prop :=
  ∀ {rest us}, Ends rest → Scans rest us → Scans (cs ++ rest) (ts ++ us)

/-! ## Numbers -/

theorem head?_toDigits {n : Nat} (hn : n ≠ 0) : (Nat.toDigits 10 n).head? ≠ some '0' := by
  induction n using Nat.strong_induction_on with
  | _ n ih =>
    rw [Nat.toDigits_eq_if (by decide)]
    split
    · rename_i hlt
      interval_cases n <;> first | contradiction | decide
    · rw [List.head?_append_of_ne_nil _ Nat.toDigits_ne_nil]
      exact ih (n / 10) (by lia) (by lia)

theorem digits?_append (hcs : ∀ c ∈ cs, c.isDigit = true) (hne : cs ≠ []) (hrest : Ends rest) :
    digits? (cs ++ rest) = some (cs, rest) := by
  have hstop : rest.takeWhile Char.isDigit = [] ∧ rest.dropWhile Char.isDigit = rest := by
    cases rest with
    | nil => exact ⟨rfl, rfl⟩
    | cons c rest => simp [(hrest c rfl).1]
  rw [digits?, List.takeWhile_append_of_pos hcs, List.dropWhile_append_of_pos hcs, hstop.1, hstop.2,
    List.append_nil]
  cases cs with
  | nil => exact absurd rfl hne
  | cons c cs => rfl

theorem whole?_toDigits (n : Nat) (hrest : Ends rest) :
    whole? (Nat.toDigits 10 n ++ rest) = some (Nat.toDigits 10 n, rest) := by
  obtain rfl | hn := eq_or_ne n 0
  · rfl
  · have hread := digits?_append
      (fun _ => Nat.isDigit_of_mem_toDigits (b := 10) (n := n) (by decide) (by decide))
      Nat.toDigits_ne_nil hrest
    cases hdigits : Nat.toDigits 10 n with
    | nil => exact absurd hdigits Nat.toDigits_ne_nil
    | cons d ds =>
      have hzero : d ≠ '0' := fun h => head?_toDigits hn (by rw [hdigits, h]; rfl)
      rw [hdigits] at hread
      rw [← hread, whole?.eq_def, List.cons_append]
      split
      · simp_all
      · rfl

theorem fraction?_of_ends (h : Ends rest) : fraction? rest = some (false, rest) := by
  cases rest with
  | nil => rfl
  | cons c rest =>
    have hpoint := (h c rfl).2.1
    unfold fraction?
    split <;> simp_all

theorem exponent?_of_ends (h : Ends rest) : exponent? rest = some (false, rest) := by
  cases rest with
  | nil => rfl
  | cons c rest =>
    obtain ⟨-, -, he, hE⟩ := h c rfl
    simp [exponent?, he, hE]

theorem number?_toDigits (n : Nat) (hrest : Ends rest) :
    number? (Nat.toDigits 10 n ++ rest) = some (.natural n, rest) := by
  have hwhole := whole?_toDigits n hrest
  have hvalue : ofDigits (Nat.toDigits 10 n) = n := Nat.ofDigitChars_ten_toDigits
  cases hdigits : Nat.toDigits 10 n with
  | nil => exact absurd hdigits Nat.toDigits_ne_nil
  | cons d ds =>
    have hdigit : d.isDigit = true :=
      Nat.isDigit_of_mem_toDigits (b := 10) (n := n) (by decide) (by decide) (by simp [hdigits])
    have hsign : d ≠ '-' := by
      rintro rfl
      simp at hdigit
    rw [hdigits] at hwhole hvalue
    rw [List.cons_append] at hwhole ⊢
    simp [number?, hsign, hwhole, fraction?_of_ends hrest, exponent?_of_ends hrest, hvalue]

theorem first?_of_isDigit (h : c.isDigit = true) : first? (c :: rest) = number? (c :: rest) := by
  unfold first?
  split <;> simp_all

theorem spells_natural (n : Nat) : Spells (Nat.toDigits 10 n) [.natural n] := by
  intro rest us hends h
  have hnumber := number?_toDigits n hends
  cases hdigits : Nat.toDigits 10 n with
  | nil => exact absurd hdigits Nat.toDigits_ne_nil
  | cons d ds =>
    have hdigit : d.isDigit = true :=
      Nat.isDigit_of_mem_toDigits (b := 10) (n := n) (by decide) (by decide) (by simp [hdigits])
    rw [hdigits, List.cons_append] at hnumber
    refine Scans.token ?_ ((first?_of_isDigit hdigit).trans hnumber) (by simp) h
    by_contra hblank
    simp only [isBlank, Bool.not_eq_false, Bool.or_eq_true, decide_eq_true_eq] at hblank
    rcases hblank with ((rfl | rfl) | rfl) | rfl <;> simp at hdigit

/-! ## Strings -/

/-- A character that stands for itself in a string. -/
def IsPlain (c : Char) : Prop := c ≠ '"' ∧ c ≠ '\\' ∧ 32 ≤ c.toNat

instance (c : Char) : Decidable (IsPlain c) :=
  inferInstanceAs (Decidable (c ≠ '"' ∧ c ≠ '\\' ∧ 32 ≤ c.toNat))

theorem pieces_plain {read : List Piece} (h : ∀ c ∈ cs, IsPlain c) :
    pieces read (cs ++ '"' :: rest) = some ((cs.map Piece.char).reverse ++ read, rest) := by
  induction cs generalizing read with
  | nil => simp [pieces]
  | cons c cs ih =>
    rw [List.forall_mem_cons] at h
    obtain ⟨⟨hquote, hescape, hcontrol⟩, hcs⟩ := h
    rw [List.cons_append, pieces.eq_def]
    split <;> simp_all

theorem decode_chars (cs : List Char) : decode (cs.map Piece.char) = some cs := by
  induction cs with
  | nil => rfl
  | cons c cs ih => simp [decode, ih]

theorem scans_text (hcs : ∀ c ∈ cs, IsPlain c) (h : Scans rest ts) :
    Scans ('"' :: cs ++ '"' :: rest) (.text (some cs) :: ts) := by
  have hfirst : first? ('"' :: (cs ++ '"' :: rest)) = some (.text (some cs), rest) := by
    simp [first?, pieces_plain hcs, decode_chars]
  exact Scans.token rfl hfirst (by simp; lia) h

end Token

/-! ## Readers -/

variable {α : Type} {reader : Reader α} {ts : List Token} {a : α}

/-- The reader makes this of the tokens, whatever follows them. -/
def Reads (reader : Reader α) (ts : List Token) (a : α) : Prop :=
  ∀ rest, reader (ts ++ rest) = some (a, rest)

theorem reads_natural {n bound : Nat} (h : n ≤ bound) : Reads (natural bound) [.natural n] n := by
  intro rest
  simp [natural, h]

/-- The tokens of an array, given those of its elements. -/
def arrayTokens : List (List Token) → List Token
  | [] => [.openBracket, .closeBracket]
  | first :: others =>
    .openBracket :: first ++ others.flatMap (fun element => .comma :: element) ++ [.closeBracket]

variable {f : α → List Token}

theorem length_le_flatMap_comma (l : List α) (rest : List Token) :
    l.length ≤ (l.flatMap (fun a => .comma :: f a) ++ rest).length := by
  induction l with
  | nil => simp
  | cons a l ih =>
    simp only [List.flatMap_cons, List.length_append, List.length_cons] at ih ⊢
    lia

theorem elements_append {l : List α} (hl : ∀ a ∈ l, Reads reader (f a) a) {steps : Nat}
    (hsteps : l.length < steps) (read : List α) (rest : List Token) :
    elements reader steps read (l.flatMap (fun a => .comma :: f a) ++ .closeBracket :: rest) =
      some (read.reverse ++ l, rest) := by
  induction l generalizing steps read with
  | nil =>
    obtain _ | steps := steps
    · simp at hsteps
    · simp [elements]
  | cons a l ih =>
    rw [List.forall_mem_cons] at hl
    obtain _ | steps := steps
    · simp at hsteps
    · simp only [List.flatMap_cons, List.cons_append, List.append_assoc, elements]
      rw [hl.1]
      simp [ih hl.2 (by simpa using hsteps) (a :: read)]

/-- **An array is read as the list it was made from**, if no element starts with a closing bracket. -/
theorem reads_array {l : List α} (hl : ∀ a ∈ l, Reads reader (f a) a)
    (hclose : ∀ rest, reader (.closeBracket :: rest) = none) :
    Reads (array reader) (arrayTokens (l.map f)) l := by
  intro rest
  cases l with
  | nil => rfl
  | cons a l =>
    rw [List.forall_mem_cons] at hl
    have hfirst := hl.1 (l.flatMap (fun a => .comma :: f a) ++ .closeBracket :: rest)
    simp only [List.map_cons, arrayTokens, List.flatMap_map, List.cons_append, List.append_assoc,
      List.nil_append]
    unfold array
    split
    · rename_i heq
      simp only [List.cons.injEq, true_and] at heq
      rw [heq, hclose] at hfirst
      simp at hfirst
    · rename_i heq
      simp only [List.cons.injEq, true_and] at heq
      subst heq
      rw [hfirst]
      simp only [Option.bind_eq_bind, Option.bind_some]
      exact elements_append hl.2 (Nat.lt_succ_of_le (length_le_flatMap_comma l _)) [a] rest
    · simp_all

end GuidedReach.Json
