import R8000Plus.Effects.Protocol

/-!
Environments that leave something open. A request draws a choice, and the
choices of a run come from a stream. A concrete environment each of whose
answers some choice explains is explained as a whole: every run of a program
in it is a run in the open one, over some stream.
-/

namespace R8000Plus.Effects

variable {Op : Type} {Ans : Op → Type} {ι σ τ γ α : Type}

/-- Draws the choice of each request from a stream. The state counts the
requests made. -/
def drawing (h : (o : Op) → ι → τ → Ans o × τ) (choices : Nat → ι) (o : Op) (s : τ × Nat) :
    Ans o × τ × Nat :=
  ((h o (choices s.2) s.1).1, (h o (choices s.2) s.1).2, s.2 + 1)

def consChoice (i : ι) (choices : Nat → ι) : Nat → ι
  | 0 => i
  | n + 1 => choices n

theorem run_drawing_cons (h : (o : Op) → ι → τ → Ans o × τ) (i : ι) (choices : Nat → ι)
    (p : Prog Op Ans α) (t : τ) (n : Nat) :
    p.run (drawing h (consChoice i choices)) (t, n + 1) =
      ((p.run (drawing h choices) (t, n)).1, (p.run (drawing h choices) (t, n)).2.1,
        (p.run (drawing h choices) (t, n)).2.2 + 1) :=
  (Prog.run_proj (f := fun s : τ × Nat => (s.1, s.2 + 1)) (fun _ _ => rfl) p (t, n)).symm

/-- `Q` is what is known of every choice, and `R` what connects the states. -/
theorem Prog.Conforms.exists_choices {P : Protocol Op Ans γ α} {h : (o : Op) → σ → Ans o × σ}
    {h' : (o : Op) → ι → τ → Ans o × τ} {R : σ → τ → Prop} {Q : ι → Prop} {i : ι} (hi : Q i)
    (hgood : ∀ g o s, P.ok g o → P.good g o (h o s).1)
    (hmatch : ∀ g o s t, P.ok g o → R s t →
      ∃ i, Q i ∧ (h' o i t).1 = (h o s).1 ∧ R (h o s).2 (h' o i t).2)
    {p : Prog Op Ans α} {g : γ} (hp : p.Conforms P g) {s : σ} {t : τ} (hR : R s t) :
    ∃ choices, (∀ n, Q (choices n)) ∧
      (p.run (drawing h' choices) (t, 0)).1 = (p.run h s).1 ∧
      R (p.run h s).2 (p.run (drawing h' choices) (t, 0)).2.1 := by
  induction p generalizing g s t with
  | ret value => exact ⟨fun _ => i, fun _ => hi, rfl, hR⟩
  | ask o next ih =>
      obtain ⟨j, hj, hanswer, hnext⟩ := hmatch g o s t hp.1 hR
      obtain ⟨choices, hchoices, hvalue, hend⟩ := ih _ (hp.2 _ (hgood g o s hp.1)) hnext
      refine ⟨consChoice j choices, fun n => ?_, ?_⟩
      · cases n with
        | zero => exact hj
        | succ n => exact hchoices n
      have hrun : (Prog.ask o next).run (drawing h' (consChoice j choices)) (t, 0) =
          (next (h' o j t).1).run (drawing h' (consChoice j choices)) ((h' o j t).2, 0 + 1) := rfl
      rw [hrun, run_drawing_cons, hanswer]
      exact ⟨hvalue, hend⟩

end R8000Plus.Effects
