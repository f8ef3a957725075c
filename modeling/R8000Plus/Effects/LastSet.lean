import R8000Plus.Effects.Runs

/-!
The last of a list of updates that sets a value. A step that either sets what
is observed of a state or leaves it alone makes a run whose end shows the last
value set, or what was there before.
-/

namespace R8000Plus.Effects

variable {σ α β : Type}

/-- The value the last element with one has. -/
def lastSet (f : α → Option β) (l : List α) : Option β := l.foldl (fun acc a => (f a).or acc) none

theorem foldl_or (f : α → Option β) (l : List α) (acc : Option β) :
    l.foldl (fun acc a => (f a).or acc) acc = (lastSet f l).or acc := by
  induction l generalizing acc with
  | nil => rfl
  | cons a l ih =>
      rw [lastSet, List.foldl_cons, List.foldl_cons, ih, ih ((f a).or none), Option.or_none,
        Option.or_assoc]

@[simp] theorem lastSet_nil (f : α → Option β) : lastSet f [] = none := rfl

theorem lastSet_cons (f : α → Option β) (a : α) (l : List α) :
    lastSet f (a :: l) = (lastSet f l).or (f a) := by
  rw [lastSet, List.foldl_cons, foldl_or, Option.or_none]

/-- What a run shows at its end, when each step sets it or leaves it. -/
theorem observe_foldl {step : σ → α → σ} {obs : σ → β} {f : α → Option β}
    (hstep : ∀ s a, obs (step s a) = (f a).getD (obs s)) (s : σ) (l : List α) :
    obs (l.foldl step s) = (lastSet f l).getD (obs s) := by
  induction l generalizing s with
  | nil => rfl
  | cons a l ih =>
      rw [List.foldl_cons, ih, hstep, lastSet_cons]
      cases lastSet f l <;> rfl

/-- The same of the steps of one run. -/
theorem EveryStep.observe {step : σ → α → σ} {obs : σ → β} {f : α → Option β}
    {Q : σ → α → Prop} (hstep : ∀ s a, Q s a → obs (step s a) = (f a).getD (obs s)) {s : σ}
    {l : List α} (hl : EveryStep step Q s l) :
    obs (l.foldl step s) = (lastSet f l).getD (obs s) := by
  induction l generalizing s with
  | nil => rfl
  | cons a l ih =>
      rw [List.foldl_cons, ih hl.2, hstep s a hl.1, lastSet_cons]
      cases lastSet f l <;> rfl

end R8000Plus.Effects
