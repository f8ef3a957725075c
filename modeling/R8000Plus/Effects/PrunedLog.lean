import Mathlib.Tactic

/-!
A log of instants that is cut back whenever one is added. What a query keeps is
everything after a bound that moves forward with its own instant, so a pruned
log answers every later query as the full history does.
-/

namespace R8000Plus.Effects

variable {T : Type} [LinearOrder T] (bound : T → T)

/-- The instants a query at `now` keeps. -/
def recent (now : T) (log : List T) : List T := log.filter fun t => decide (bound now < t)

/-- The stored log answers queries from `latest` on as the history does. -/
def Covers (latest : T) (stored history : List T) : Prop :=
  ∀ now, latest ≤ now → recent bound now stored = recent bound now history

/-- The stored log after an instant was added: pruned, then appended to. -/
def pruneAdd (now : T) (stored : List T) : List T := recent bound now stored ++ [now]

variable {bound}

theorem Covers.refl (latest : T) (log : List T) : Covers bound latest log log := fun _ _ => rfl

theorem Covers.mono {latest latest' : T} {stored history : List T}
    (h : Covers bound latest stored history) (hle : latest ≤ latest') :
    Covers bound latest' stored history := fun now hnow => h now (hle.trans hnow)

/-- Pruning twice, the second time at a later instant, is pruning once. -/
theorem recent_recent (hbound : Monotone bound) {now later : T} (hle : now ≤ later)
    (log : List T) : recent bound later (recent bound now log) = recent bound later log := by
  simp only [recent, List.filter_filter]
  refine List.filter_congr fun t _ => ?_
  have hlate : bound later < t → bound now < t := (hbound hle).trans_lt
  by_cases ht : bound later < t
  · simp [ht, hlate ht]
  · simp [ht]

/-- The pruned log with the new instant counts what the history with it has in
the window of that instant. -/
theorem Covers.pruneAdd_eq {latest now : T} {stored history : List T}
    (h : Covers bound latest stored history) (hle : latest ≤ now) (hnow : bound now < now) :
    pruneAdd bound now stored = recent bound now (history ++ [now]) := by
  rw [pruneAdd, h now hle]
  simp [recent, hnow]

theorem Covers.pruneAdd (hbound : Monotone bound) {latest now : T} {stored history : List T}
    (h : Covers bound latest stored history) (hle : latest ≤ now) :
    Covers bound now (pruneAdd bound now stored) (history ++ [now]) := by
  intro later hlater
  have hstored := h later (hle.trans hlater)
  have hcut := recent_recent hbound hlater stored
  simp only [recent] at hstored hcut
  simp only [Effects.pruneAdd, recent, List.filter_append, hcut, hstored]

end R8000Plus.Effects
