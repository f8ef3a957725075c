import Mathlib.Tactic

/-!
Programs as trees of requests. A program either returns a value or makes one
request to its environment and continues with the answer. The same tree is
run against a state by a handler, is refined by expanding each request into a
program over lower requests, and is checked at every intermediate state. No
request language is fixed here.
-/

namespace R8000Plus.Effects

inductive Prog (Op : Type) (Ans : Op → Type) (α : Type) where
  | ret (value : α)
  | ask (o : Op) (next : Ans o → Prog Op Ans α)

namespace Prog

variable {Op Op' : Type} {Ans : Op → Type} {Ans' : Op' → Type}
variable {α β γ σ : Type}

def bind (p : Prog Op Ans α) (f : α → Prog Op Ans β) : Prog Op Ans β :=
  match p with
  | .ret value => f value
  | .ask o next => .ask o (fun a => (next a).bind f)

instance : Monad (Prog Op Ans) where
  pure := .ret
  bind := bind

/-- One request, returning its answer. -/
def request (o : Op) : Prog Op Ans (Ans o) :=
  .ask o .ret

@[simp] theorem pure_eq (value : α) : (pure value : Prog Op Ans α) = .ret value := rfl

@[simp] theorem ret_bind (value : α) (f : α → Prog Op Ans β) :
    (Prog.ret value >>= f) = f value := rfl

@[simp] theorem ask_bind (o : Op) (next : Ans o → Prog Op Ans α)
    (f : α → Prog Op Ans β) :
    (Prog.ask o next >>= f) = .ask o (fun a => next a >>= f) := rfl

@[simp] theorem request_bind (o : Op) (f : Ans o → Prog Op Ans β) :
    (request o >>= f) = .ask o f := rfl

theorem bind_assoc (p : Prog Op Ans α) (f : α → Prog Op Ans β)
    (g : β → Prog Op Ans γ) :
    (p >>= f) >>= g = p >>= fun a => f a >>= g := by
  induction p with
  | ret value => rfl
  | ask o next ih =>
      simp only [ask_bind]
      congr 1
      funext a
      exact ih a

/-- Answers every request from a state. The run is deterministic: whatever
the environment leaves open is part of the state. -/
def run (h : (o : Op) → σ → Ans o × σ) : Prog Op Ans α → σ → α × σ
  | .ret value, s => (value, s)
  | .ask o next, s => (next (h o s).1).run h (h o s).2

section Run

variable (h : (o : Op) → σ → Ans o × σ)

@[simp] theorem run_ret (value : α) (s : σ) :
    (Prog.ret value : Prog Op Ans α).run h s = (value, s) := rfl

@[simp] theorem run_ask (o : Op) (next : Ans o → Prog Op Ans α) (s : σ) :
    (Prog.ask o next).run h s = (next (h o s).1).run h (h o s).2 := rfl

@[simp] theorem run_request (o : Op) (s : σ) :
    (request o : Prog Op Ans (Ans o)).run h s = h o s := rfl

theorem run_bind (p : Prog Op Ans α) (f : α → Prog Op Ans β) (s : σ) :
    (p >>= f).run h s = (f (p.run h s).1).run h (p.run h s).2 := by
  induction p generalizing s with
  | ret value => rfl
  | ask o next ih =>
      simp only [ask_bind, run_ask]
      exact ih _ _

/-- The form a proof about straight-line code uses: once the first part has a
known outcome, the run goes on from there. -/
theorem run_bind_of_eq {p : Prog Op Ans α} {f : α → Prog Op Ans β} {s s' : σ}
    {value : α} (hp : p.run h s = (value, s')) :
    (p >>= f).run h s = (f value).run h s' := by
  rw [run_bind, hp]

end Run

/-- Replaces every request by a program over another request language. -/
def expand (body : (o : Op) → Prog Op' Ans' (Ans o)) :
    Prog Op Ans α → Prog Op' Ans' α
  | .ret value => .ret value
  | .ask o next => body o >>= fun a => (next a).expand body

/-- Running an expanded program is running the original one with each request
answered by the run of its body. -/
theorem run_expand (body : (o : Op) → Prog Op' Ans' (Ans o))
    (h : (o : Op') → σ → Ans' o × σ) (p : Prog Op Ans α) (s : σ) :
    (p.expand body).run h s = p.run (fun o => (body o).run h) s := by
  induction p generalizing s with
  | ret value => rfl
  | ask o next ih =>
      simp only [expand, run_bind, run_ask]
      exact ih _ _

theorem expand_bind (body : (o : Op) → Prog Op' Ans' (Ans o)) (p : Prog Op Ans α)
    (f : α → Prog Op Ans β) :
    (p >>= f).expand body = p.expand body >>= fun a => (f a).expand body := by
  induction p with
  | ret value => rfl
  | ask o next ih =>
      simp only [ask_bind, expand, bind_assoc]
      congr 1
      funext a
      exact ih a

/-- Every request of the program, after whatever answers, satisfies `ok`. -/
def Uses (ok : Op → Prop) : Prog Op Ans α → Prop
  | .ret _ => True
  | .ask o next => ok o ∧ ∀ a, (next a).Uses ok

section Uses

variable {ok : Op → Prop}

@[simp] theorem uses_ret (value : α) : (Prog.ret value : Prog Op Ans α).Uses ok ↔ True := Iff.rfl

@[simp] theorem uses_ask (o : Op) (next : Ans o → Prog Op Ans α) :
    (Prog.ask o next).Uses ok ↔ ok o ∧ ∀ a, (next a).Uses ok := Iff.rfl

theorem Uses.bind {p : Prog Op Ans α} {f : α → Prog Op Ans β} (hp : p.Uses ok)
    (hf : ∀ a, (f a).Uses ok) : (p >>= f).Uses ok := by
  induction p with
  | ret value => exact hf value
  | ask o next ih => exact ⟨hp.1, fun a => ih a (hp.2 a)⟩

end Uses

/-- In state `s` of the environment `h` the program cannot tell it from the
environment `h'` in the state that `f` connects with `s`. -/
def Agrees {τ : Type} (h : (o : Op) → σ → Ans o × σ) (h' : (o : Op) → τ → Ans o × τ)
    (f : σ → τ) (p : Prog Op Ans α) (s : σ) : Prop :=
  p.run h' (f s) = ((p.run h s).1, f (p.run h s).2)

section Agrees

variable {τ : Type} {h : (o : Op) → σ → Ans o × σ} {h' : (o : Op) → τ → Ans o × τ} {f : σ → τ}

@[simp] theorem agrees_ret (value : α) (s : σ) :
    (Prog.ret value : Prog Op Ans α).Agrees h h' f s := rfl

theorem Agrees.bind {p : Prog Op Ans α} {g : α → Prog Op Ans β} {s : σ}
    (hp : p.Agrees h h' f s) (hg : (g (p.run h s).1).Agrees h h' f (p.run h s).2) :
    (p >>= g).Agrees h h' f s := by
  have hrest : (g (p.run h s).1).run h' (f (p.run h s).2) = _ := hg
  rw [Agrees, run_bind, hp, hrest, run_bind]

/-- For a first part with a known outcome. -/
theorem Agrees.bind_of_eq {p : Prog Op Ans α} {g : α → Prog Op Ans β} {s s' : σ} {value : α}
    (hp : p.Agrees h h' f s) (hrun : p.run h s = (value, s'))
    (hg : (g value).Agrees h h' f s') : (p >>= g).Agrees h h' f s := by
  refine hp.bind ?_
  rw [hrun]
  exact hg

/-- Requests that cannot tell two environments apart make programs that cannot. -/
theorem Uses.agrees {ok : Op → Prop}
    (hok : ∀ o s, ok o → h' o (f s) = ((h o s).1, f (h o s).2)) {p : Prog Op Ans α}
    (hp : p.Uses ok) (s : σ) : p.Agrees h h' f s := by
  induction p generalizing s with
  | ret value => rfl
  | ask o next ih =>
      rw [Agrees, run_ask, run_ask, hok o s hp.1]
      exact ih _ (hp.2 _) _

theorem uses_of_forall {ok : Op → Prop} (hok : ∀ o, ok o) (p : Prog Op Ans α) : p.Uses ok := by
  induction p with
  | ret value => trivial
  | ask o next ih => exact ⟨hok o, ih⟩

/-- A projection that every request respects is respected by whole runs. -/
theorem run_proj (hf : ∀ o s, ((h o s).1, f (h o s).2) = h' o (f s)) (p : Prog Op Ans α)
    (s : σ) : ((p.run h s).1, f (p.run h s).2) = p.run h' (f s) :=
  ((uses_of_forall (fun _ => trivial) p).agrees (fun o s (_ : True) => (hf o s).symm) s).symm

end Agrees

/-- Whatever the environment answers, the program's result satisfies `P`. -/
def Yields (P : α → Prop) : Prog Op Ans α → Prop
  | .ret value => P value
  | .ask _ next => ∀ a, (next a).Yields P

section Yields

variable {P : α → Prop} {Q : β → Prop}

@[simp] theorem yields_ret (value : α) :
    (Prog.ret value : Prog Op Ans α).Yields P ↔ P value := Iff.rfl

@[simp] theorem yields_ask (o : Op) (next : Ans o → Prog Op Ans α) :
    (Prog.ask o next).Yields P ↔ ∀ a, (next a).Yields P := Iff.rfl

theorem Yields.bind {p : Prog Op Ans α} {f : α → Prog Op Ans β} (hp : p.Yields P)
    (hf : ∀ a, P a → (f a).Yields Q) : (p >>= f).Yields Q := by
  induction p with
  | ret value => exact hf value hp
  | ask o next ih => exact fun a => ih a (hp a)

theorem Yields.mono {R : α → Prop} {p : Prog Op Ans α} (hp : p.Yields P)
    (h : ∀ a, P a → R a) : p.Yields R := by
  induction p with
  | ret value => exact h value hp
  | ask o next ih => exact fun a => ih a (hp a)

theorem yields_of_forall (hP : ∀ a, P a) (p : Prog Op Ans α) : p.Yields P := by
  induction p with
  | ret value => exact hP value
  | ask o next ih => exact ih

/-- Nothing is known of the first part's result. -/
theorem yields_bind_of_forall (p : Prog Op Ans α) {f : α → Prog Op Ans β}
    (hf : ∀ a, (f a).Yields Q) : (p >>= f).Yields Q := by
  induction p with
  | ret value => exact hf value
  | ask o next ih => exact ih

theorem Yields.run {p : Prog Op Ans α} (hp : p.Yields P) (h : (o : Op) → σ → Ans o × σ)
    (s : σ) : P (p.run h s).1 := by
  induction p generalizing s with
  | ret value => exact hp
  | ask o next ih => exact ih _ (hp _) _

end Yields

/-- `P` holds after every single request of the run, not only at its end. -/
def Always (h : (o : Op) → σ → Ans o × σ) (P : σ → Prop) :
    Prog Op Ans α → σ → Prop
  | .ret _, _ => True
  | .ask o next, s => P (h o s).2 ∧ (next (h o s).1).Always h P (h o s).2

section Always

variable (h : (o : Op) → σ → Ans o × σ) (P : σ → Prop)

@[simp] theorem always_ret (value : α) (s : σ) :
    (Prog.ret value : Prog Op Ans α).Always h P s ↔ True := Iff.rfl

@[simp] theorem always_ask (o : Op) (next : Ans o → Prog Op Ans α) (s : σ) :
    (Prog.ask o next).Always h P s ↔
      P (h o s).2 ∧ (next (h o s).1).Always h P (h o s).2 := Iff.rfl

theorem always_bind (p : Prog Op Ans α) (f : α → Prog Op Ans β) (s : σ) :
    (p >>= f).Always h P s ↔
      p.Always h P s ∧ (f (p.run h s).1).Always h P (p.run h s).2 := by
  induction p generalizing s with
  | ret value => simp
  | ask o next ih =>
      simp only [ask_bind, always_ask, run_ask, and_assoc]
      exact and_congr_right fun _ => ih _ _

/-- What holds at every moment holds at the end, when the run makes a request
or the property held before it. -/
theorem always_run (p : Prog Op Ans α) (s : σ) (hs : P s)
    (hp : p.Always h P s) : P (p.run h s).2 := by
  induction p generalizing s with
  | ret value => exact hs
  | ask o next ih => exact ih _ _ hp.1 hp.2

/-- A program all of whose requests keep `P` keeps it throughout. -/
theorem Uses.always {ok : Op → Prop} (hok : ∀ o s, ok o → P s → P (h o s).2)
    {p : Prog Op Ans α} (hp : p.Uses ok) {s : σ} (hs : P s) : p.Always h P s := by
  induction p generalizing s with
  | ret value => trivial
  | ask o next ih => exact ⟨hok o s hp.1 hs, ih _ (hp.2 _) (hok o s hp.1 hs)⟩

theorem Uses.run {ok : Op → Prop} (hok : ∀ o s, ok o → P s → P (h o s).2)
    {p : Prog Op Ans α} (hp : p.Uses ok) {s : σ} (hs : P s) : P (p.run h s).2 :=
  always_run h P p s hs (hp.always h P hok hs)

end Always

end Prog

end R8000Plus.Effects
