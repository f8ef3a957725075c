import R8000Plus.Effects.Prog

/-!
Protocols: what a program may request next, given what it has been told so far.
The state of a protocol is threaded through the answers, so conformance is a
property of the program tree and needs no run.
-/

namespace R8000Plus.Effects

/-- `ok` is what may be requested, `good` what the environment promises about
an answer, `update` how an answer moves the protocol on, and `done` when the
program may return. -/
structure Protocol (Op : Type) (Ans : Op → Type) (γ α : Type) where
  ok : γ → Op → Prop
  good : γ → (o : Op) → Ans o → Prop
  update : γ → (o : Op) → Ans o → γ
  done : γ → α → Prop

/-- The same protocol for programs that end otherwise. -/
def Protocol.ending {Op : Type} {Ans : Op → Type} {γ α β : Type} (P : Protocol Op Ans γ α)
    (mid : γ → β → Prop) : Protocol Op Ans γ β :=
  ⟨P.ok, P.good, P.update, mid⟩

namespace Prog

variable {Op : Type} {Ans : Op → Type} {γ α : Type}

def Conforms (P : Protocol Op Ans γ α) : γ → Prog Op Ans α → Prop
  | g, .ret value => P.done g value
  | g, .ask o next => P.ok g o ∧ ∀ a, P.good g o a → (next a).Conforms P (P.update g o a)

variable {P : Protocol Op Ans γ α}

@[simp] theorem conforms_ret (g : γ) (value : α) :
    (Prog.ret value : Prog Op Ans α).Conforms P g ↔ P.done g value := Iff.rfl

@[simp] theorem conforms_ask (g : γ) (o : Op) (next : Ans o → Prog Op Ans α) :
    (Prog.ask o next).Conforms P g ↔
      P.ok g o ∧ ∀ a, P.good g o a → (next a).Conforms P (P.update g o a) := Iff.rfl

theorem Conforms.bind {β : Type} {Q : Protocol Op Ans γ β} {mid : γ → α → Prop}
    {p : Prog Op Ans α} {f : α → Prog Op Ans β} {g : γ} (hp : p.Conforms (Q.ending mid) g)
    (hf : ∀ g a, mid g a → (f a).Conforms Q g) : (p >>= f).Conforms Q g := by
  induction p generalizing g with
  | ret value => exact hf g value hp
  | ask o next ih => exact ⟨hp.1, fun a ha => ih a (hp.2 a ha)⟩

theorem Conforms.weaken {p : Prog Op Ans α} {g : γ} (hp : p.Conforms P g)
    {done : γ → α → Prop} (hdone : ∀ g value, P.done g value → done g value) :
    p.Conforms (P.ending done) g := by
  induction p generalizing g with
  | ret value => exact hdone g value hp
  | ask o next ih => exact ⟨hp.1, fun a ha => ih a (hp.2 a ha)⟩

/-- A program that keeps a protocol over its requests keeps one over the requests
that their bodies make, where each body moves on as its request does. -/
theorem Conforms.expand {Op' : Type} {Ans' : Op' → Type} {P' : Protocol Op' Ans' γ α}
    {body : (o : Op) → Prog Op' Ans' (Ans o)}
    (hbody : ∀ g o, P.ok g o →
      (body o).Conforms (P'.ending fun g' a => P.good g o a ∧ g' = P.update g o a) g)
    (hdone : ∀ g value, P.done g value → P'.done g value) {p : Prog Op Ans α} {g : γ}
    (hp : p.Conforms P g) : (p.expand body).Conforms P' g := by
  induction p generalizing g with
  | ret value => exact hdone g value hp
  | ask o next ih =>
      refine Conforms.bind (hbody g o hp.1) ?_
      rintro g' a ⟨hgood, rfl⟩
      exact ih a (hp.2 a hgood)

variable {σ : Type} (h : (o : Op) → σ → Ans o × σ)

/-- Every request of the run satisfies `ok` with the state it finds. -/
def Asks (ok : σ → Op → Prop) : Prog Op Ans α → σ → Prop
  | .ret _, _ => True
  | .ask o next, s => ok s o ∧ (next (h o s).1).Asks ok (h o s).2

theorem asks_bind {β : Type} {ok : σ → Op → Prop} (p : Prog Op Ans α) (f : α → Prog Op Ans β)
    (s : σ) : (p >>= f).Asks h ok s ↔
      p.Asks h ok s ∧ (f (p.run h s).1).Asks h ok (p.run h s).2 := by
  induction p generalizing s with
  | ret value => exact (and_iff_right trivial).symm
  | ask o next ih =>
      change ok s o ∧ (next (h o s).1 >>= f).Asks h ok (h o s).2 ↔ _
      rw [ih, ← and_assoc]
      rfl

/-- Requests that are all of one kind are asked for as they may be, where those
of the kind keep the state in which they may. -/
theorem Uses.asks {I : σ → Prop} {ok' : Op → Prop} {ok : σ → Op → Prop}
    (hok : ∀ s o, I s → ok' o → ok s o ∧ I (h o s).2) {p : Prog Op Ans α} (hp : p.Uses ok') {s : σ}
    (hI : I s) : p.Asks h ok s := by
  induction p generalizing s with
  | ret value => trivial
  | ask o next ih =>
      obtain ⟨hasked, hnext⟩ := hok s o hI hp.1
      exact ⟨hasked, ih _ (hp.2 _) hnext⟩

/-- What the protocol allows is what the run asks for, where an invariant
connects the two states, and it connects them still at the end. -/
theorem Conforms.asks {I : γ → σ → Prop} {ok : σ → Op → Prop}
    (hok : ∀ g o s, I g s → P.ok g o → ok s o)
    (hstep : ∀ g o s, I g s → P.ok g o →
      P.good g o (h o s).1 ∧ I (P.update g o (h o s).1) (h o s).2)
    {p : Prog Op Ans α} {g : γ} (hp : p.Conforms P g) {s : σ} (hI : I g s) :
    p.Asks h ok s ∧ ∃ g', I g' (p.run h s).2 ∧ P.done g' (p.run h s).1 := by
  induction p generalizing g s with
  | ret value => exact ⟨trivial, g, hI, hp⟩
  | ask o next ih =>
      obtain ⟨hgood, hnext⟩ := hstep g o s hI hp.1
      obtain ⟨hasks, hend⟩ := ih _ (hp.2 _ hgood) hnext
      exact ⟨⟨hok g o s hI hp.1, hasks⟩, hend⟩

/-- The protocol is followed in the run from one state. -/
def ConformsIn (P : Protocol Op Ans γ α) : γ → σ → Prog Op Ans α → Prop
  | g, _, .ret value => P.done g value
  | g, s, .ask o next =>
      P.ok g o ∧ (next (h o s).1).ConformsIn P (P.update g o (h o s).1) (h o s).2

/-- What conforms whatever it is told conforms in every run of a handler that
keeps the promises. -/
theorem Conforms.conformsIn (hgood : ∀ g o s, P.good g o (h o s).1) {p : Prog Op Ans α} {g : γ}
    (hp : p.Conforms P g) (s : σ) : p.ConformsIn h P g s := by
  induction p generalizing g s with
  | ret value => exact hp
  | ask o next ih => exact ⟨hp.1, ih _ (hp.2 _ (hgood g o s)) _⟩

end Prog

end R8000Plus.Effects
