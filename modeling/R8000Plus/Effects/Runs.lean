import Mathlib.Tactic

/-!
Runs of a deterministic system: a state and a list of events folded over it.
`EveryStep` says that each event finds the state it happens in as required.
The rules below turn a fact about one step into a fact about every run, and a
step-by-step equivalence under an invariant into an equivalence of runs.
-/

namespace R8000Plus.Effects

variable {σ ε : Type} (step : σ → ε → σ)

/-- Every event of the run satisfies `P` together with the state it finds. -/
def EveryStep (P : σ → ε → Prop) : σ → List ε → Prop
  | _, [] => True
  | s, e :: run => P s e ∧ EveryStep P (step s e) run

/-- What the events of a run are answered. -/
def answers {α : Type} (answer : σ → ε → α) : σ → List ε → List α
  | _, [] => []
  | s, e :: run => answer s e :: answers answer (step s e) run

variable {step}

@[simp] theorem everyStep_nil (P : σ → ε → Prop) (s : σ) : EveryStep step P s [] ↔ True :=
  Iff.rfl

@[simp] theorem everyStep_cons (P : σ → ε → Prop) (s : σ) (e : ε) (run : List ε) :
    EveryStep step P s (e :: run) ↔ P s e ∧ EveryStep step P (step s e) run := Iff.rfl

theorem everyStep_append (P : σ → ε → Prop) (s : σ) (pre suf : List ε) :
    EveryStep step P s (pre ++ suf) ↔
      EveryStep step P s pre ∧ EveryStep step P (pre.foldl step s) suf := by
  induction pre generalizing s with
  | nil => simp
  | cons e pre ih => simp [ih, and_assoc]

instance decidableEveryStep {P : σ → ε → Prop} [∀ s e, Decidable (P s e)] :
    (s : σ) → (run : List ε) → Decidable (EveryStep step P s run)
  | _, [] => .isTrue trivial
  | s, e :: run =>
      have : Decidable (EveryStep step P (step s e) run) := decidableEveryStep _ run
      inferInstanceAs (Decidable (P s e ∧ EveryStep step P (step s e) run))

theorem EveryStep.mono {P Q : σ → ε → Prop} (h : ∀ s e, P s e → Q s e) {s : σ} {run : List ε}
    (hrun : EveryStep step P s run) : EveryStep step Q s run := by
  induction run generalizing s with
  | nil => trivial
  | cons e run ih => exact ⟨h _ _ hrun.1, ih hrun.2⟩

/-- An invariant that every step keeps holds after every run. -/
theorem foldl_invariant {Inv : σ → Prop} (hstep : ∀ s e, Inv s → Inv (step s e)) {s : σ}
    (hs : Inv s) (run : List ε) : Inv (run.foldl step s) := by
  induction run generalizing s with
  | nil => exact hs
  | cons e run ih => exact ih (hstep s e hs)

/-- What no step changes is at the end as at the start. -/
theorem foldl_unchanged {α : Type} {obs : σ → α} (hstep : ∀ s e, obs (step s e) = obs s) (s : σ)
    (run : List ε) : obs (run.foldl step s) = obs s := by
  have hinv : ∀ t e, obs t = obs s → obs (step t e) = obs s := fun t e ht => (hstep t e).trans ht
  exact foldl_invariant hinv rfl run

/-- Good steps find what the invariant they keep implies. -/
theorem EveryStep.of_invariant {Inv : σ → Prop} {P Q : σ → ε → Prop}
    (hP : ∀ s e, Inv s → Q s e → P s e) (hstep : ∀ s e, Inv s → Q s e → Inv (step s e))
    {s : σ} {run : List ε} (hs : Inv s) (hrun : EveryStep step Q s run) :
    EveryStep step P s run := by
  induction run generalizing s with
  | nil => trivial
  | cons e run ih => exact ⟨hP s e hs hrun.1, ih (hstep s e hs hrun.1) hrun.2⟩

/-- Steps that keep the invariant reach a state that has it. -/
theorem EveryStep.reaches {Inv : σ → Prop} {Q : σ → ε → Prop}
    (hstep : ∀ s e, Inv s → Q s e → Inv (step s e)) {s : σ} {run : List ε}
    (hrun : EveryStep step Q s run) (hs : Inv s) : Inv (run.foldl step s) := by
  induction run generalizing s with
  | nil => exact hs
  | cons e run ih => exact ih hrun.2 (hstep s e hs hrun.1)

/-- Where an invariant makes `P` and `Q` say the same of one step, and steps
satisfying `Q` keep the invariant, the two agree on whole runs. All of this may
rest on an `R` that every step of the run satisfies. -/
theorem everyStep_congr_of {Inv : σ → Prop} {P Q R : σ → ε → Prop}
    (hiff : ∀ s e, Inv s → R s e → (P s e ↔ Q s e))
    (hstep : ∀ s e, Inv s → R s e → Q s e → Inv (step s e)) {s : σ} {run : List ε} (hs : Inv s)
    (hR : EveryStep step R s run) : EveryStep step P s run ↔ EveryStep step Q s run := by
  induction run generalizing s with
  | nil => rfl
  | cons e run ih =>
      simp only [everyStep_cons, hiff s e hs hR.1]
      exact and_congr_right fun hq => ih (hstep s e hs hR.1 hq) hR.2

theorem everyStep_true (s : σ) (run : List ε) : EveryStep step (fun _ _ => True) s run := by
  induction run generalizing s with
  | nil => trivial
  | cons e run ih => exact ⟨trivial, ih _⟩

theorem everyStep_congr {Inv : σ → Prop} {P Q : σ → ε → Prop}
    (hiff : ∀ s e, Inv s → (P s e ↔ Q s e))
    (hstep : ∀ s e, Inv s → Q s e → Inv (step s e)) {s : σ} {run : List ε} (hs : Inv s) :
    EveryStep step P s run ↔ EveryStep step Q s run :=
  everyStep_congr_of (fun s e hs _ => hiff s e hs) (fun s e hs _ => hstep s e hs) hs
    (everyStep_true s run)

/-- A property of the state each step leaves is one of the states that the
prefixes of the run reach. -/
theorem everyStep_reached_iff {P : σ → Prop} {s : σ} (hs : P s) (run : List ε) :
    EveryStep step (fun s e => P (step s e)) s run ↔
      ∀ pre, pre <+: run → P (pre.foldl step s) := by
  induction run generalizing s with
  | nil =>
      refine ⟨fun _ pre hpre => ?_, fun _ => trivial⟩
      rw [List.prefix_nil.mp hpre]
      exact hs
  | cons e run ih =>
      rw [everyStep_cons]
      constructor
      · rintro ⟨he, hrun⟩ pre hpre
        rcases List.prefix_cons_iff.mp hpre with rfl | ⟨rest, rfl, hrest⟩
        · exact hs
        · exact (ih he).mp hrun rest hrest
      · intro h
        have he : P (step s e) := h [e] (by simp)
        refine ⟨he, (ih he).mpr fun pre hpre => h (e :: pre) ?_⟩
        exact (List.prefix_cons_inj e).mpr hpre

/-! ### Two systems in step -/

section Simulation

variable {τ : Type} {step' : τ → ε → τ} {R : σ → τ → Prop} {A : ε → Prop} {Q : τ → ε → Prop}

/-- A relation that every step keeps, where the second system takes it well,
connects the ends of two runs over the same events. -/
theorem EveryStep.sim (hstep : ∀ s t e, R s t → A e → Q t e → R (step s e) (step' t e)) {s : σ}
    {t : τ} {run : List ε} (hA : ∀ e ∈ run, A e) (h : R s t) (hQ : EveryStep step' Q t run) :
    R (run.foldl step s) (run.foldl step' t) := by
  induction run generalizing s t with
  | nil => exact h
  | cons e run ih =>
      rw [List.forall_mem_cons] at hA
      exact ih hA.2 (hstep s t e h hA.1 hQ.1) hQ.2

/-- Where the relation makes `P` of one and `Q` of the other say the same of one
step, they say the same of whole runs. -/
theorem everyStep_sim_iff {P : σ → ε → Prop}
    (hiff : ∀ s t e, R s t → A e → (P s e ↔ Q t e))
    (hstep : ∀ s t e, R s t → A e → Q t e → R (step s e) (step' t e)) {s : σ} {t : τ}
    {run : List ε} (hA : ∀ e ∈ run, A e) (h : R s t) :
    EveryStep step P s run ↔ EveryStep step' Q t run := by
  induction run generalizing s t with
  | nil => rfl
  | cons e run ih =>
      rw [List.forall_mem_cons] at hA
      simp only [everyStep_cons, hiff s t e h hA.1]
      exact and_congr_right fun hq => ih hA.2 (hstep s t e h hA.1 hq)

/-- Two systems whose states stay related, and whose answers agree where they
are, answer a whole run alike. -/
theorem answers_sim {α : Type} {answer : σ → ε → α} {answer' : τ → ε → α}
    (hanswer : ∀ s t e, R s t → answer s e = answer' t e)
    (hstep : ∀ s t e, R s t → R (step s e) (step' t e)) {s : σ} {t : τ} (h : R s t)
    (run : List ε) : answers step answer s run = answers step' answer' t run := by
  induction run generalizing s t with
  | nil => rfl
  | cons e run ih => rw [answers, answers, hanswer s t e h, ih (hstep s t e h)]

end Simulation

end R8000Plus.Effects
