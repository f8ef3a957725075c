import Mathlib.Tactic

/-!
Searching lines for an extended regular expression that is a list of
alternatives with the dot as the only special character. A match may stand
anywhere in the line, so a line matches as soon as a part of it does.
-/

namespace R8000Plus.Effects

/-- One alternative matches at the start of the text. -/
def matchesAt : List Char → List Char → Bool
  | [], _ => true
  | _ :: _, [] => false
  | p :: ps, c :: cs => (p == '.' || p == c) && matchesAt ps cs

def grepLine (alternatives : List (List Char)) (line : List Char) : Bool :=
  alternatives.any fun pattern => line.tails.any (matchesAt pattern)

theorem matchesAt_append {pattern text : List Char} (h : matchesAt pattern text = true)
    (post : List Char) : matchesAt pattern (text ++ post) = true := by
  induction pattern generalizing text with
  | nil => rfl
  | cons p ps ih =>
      cases text with
      | nil => exact absurd h nofun
      | cons c cs =>
          simp only [matchesAt, Bool.and_eq_true] at h
          simp only [List.cons_append, matchesAt, Bool.and_eq_true]
          exact ⟨h.1, ih h.2⟩

theorem grepLine_eq_true {alternatives : List (List Char)} {line : List Char} :
    grepLine alternatives line = true ↔
      ∃ pattern ∈ alternatives, ∃ rest, rest <:+ line ∧ matchesAt pattern rest = true := by
  simp only [grepLine, List.any_eq_true, List.mem_tails]

theorem grepLine_infix {alternatives : List (List Char)} {part line : List Char}
    (hpart : part <:+: line) (h : grepLine alternatives part = true) :
    grepLine alternatives line = true := by
  obtain ⟨pre, post, rfl⟩ := hpart
  obtain ⟨pattern, hmem, rest, ⟨before, rfl⟩, hmatch⟩ := grepLine_eq_true.mp h
  refine grepLine_eq_true.mpr ⟨pattern, hmem, rest ++ post, ?_, matchesAt_append hmatch post⟩
  exact ⟨pre ++ before, by simp⟩

end R8000Plus.Effects
