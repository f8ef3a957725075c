import R8000Plus.Effects.Protocol

/-!
A pool of threads over one shared state. Each thread runs a program of calls;
each call runs as a program of accesses, and an access is one indivisible step.
Which thread goes next is left to a schedule. A thread carries a ghost that its
own accesses move; rules say what the ghost allows, first call by call and
within a call access by access.
-/

namespace R8000Plus.Effects

/-- A thread is between calls, or within one with a rest of its body to go. -/
inductive Task (Op : Type) (Ans : Op → Type) (Op' : Type) (Ans' : Op' → Type) (α : Type) where
  | rest (p : Prog Op Ans α)
  | within (o : Op) (body : Prog Op' Ans' (Ans o)) (next : Ans o → Prog Op Ans α)

structure Thread (Op : Type) (Ans : Op → Type) (Op' : Type) (Ans' : Op' → Type)
    (κ γ α : Type) where
  job : κ
  ghost : γ
  task : Task Op Ans Op' Ans' α

/-- What the pool runs on: the bodies of the calls, the meaning of an access,
and the trace that a call entered and an access made leave in the ghost. -/
structure System (Op : Type) (Ans : Op → Type) (Op' : Type) (Ans' : Op' → Type)
    (γ σ : Type) where
  body : (o : Op) → Prog Op' Ans' (Ans o)
  perform : (o : Op') → σ → Ans' o × σ
  enter : Op → γ → γ
  note : Op → (o : Op') → Ans' o → γ → γ

structure Pool (Op : Type) (Ans : Op → Type) (Op' : Type) (Ans' : Op' → Type)
    (κ γ α σ : Type) where
  shared : σ
  threads : List (Thread Op Ans Op' Ans' κ γ α)

variable {Op Op' : Type} {Ans : Op → Type} {Ans' : Op' → Type} {κ γ α σ : Type}

/-- The access a thread makes next, and the call it belongs to. -/
def Thread.pending (t : Thread Op Ans Op' Ans' κ γ α) : Option (Op × Op') :=
  match t.task with
  | .within o (.ask o' _) _ => some (o, o')
  | _ => none

/-- The call a thread is within. -/
def Thread.current (t : Thread Op Ans Op' Ans' κ γ α) : Option Op :=
  match t.task with
  | .within o _ _ => some o
  | .rest _ => none

/-- What a thread with nothing left to do returns. -/
def Thread.returned (t : Thread Op Ans Op' Ans' κ γ α) : Option α :=
  match t.task with
  | .rest (.ret value) => some value
  | _ => none

namespace System

variable (sys : System Op Ans Op' Ans' γ σ)

/-- One step of a thread: into a call, one access of it, or out of it. -/
def stepThread (t : Thread Op Ans Op' Ans' κ γ α) (s : σ) : Thread Op Ans Op' Ans' κ γ α × σ :=
  match t.task with
  | .rest (.ret _) => (t, s)
  | .rest (.ask o next) =>
      ({ t with ghost := sys.enter o t.ghost, task := .within o (sys.body o) next }, s)
  | .within _ (.ret a) next => ({ t with task := .rest (next a) }, s)
  | .within o (.ask o' k) next =>
      ({ t with
        ghost := sys.note o o' (sys.perform o' s).1 t.ghost
        task := .within o (k (sys.perform o' s).1) next },
        (sys.perform o' s).2)

@[simp] theorem stepThread_job (t : Thread Op Ans Op' Ans' κ γ α) (s : σ) :
    (sys.stepThread t s).1.job = t.job := by
  simp only [stepThread]
  split <;> rfl

theorem stepThread_pending {t : Thread Op Ans Op' Ans' κ γ α} {o : Op} {o' : Op'}
    (h : t.pending = some (o, o')) (s : σ) :
    t.returned = none ∧ t.current = some o ∧
      (sys.stepThread t s).2 = (sys.perform o' s).2 := by
  obtain ⟨job, ghost, task⟩ := t
  match task, h with
  | .within _ (.ask _ _) _, rfl => exact ⟨rfl, rfl, rfl⟩

/-- All a thread can do in one step, with what it leaves behind. -/
inductive Moves (t : Thread Op Ans Op' Ans' κ γ α) (s : σ) :
    Thread Op Ans Op' Ans' κ γ α → σ → Prop
  | ended (value : α) (htask : t.task = .rest (.ret value)) : Moves t s t s
  | entered (o : Op) (next : Ans o → Prog Op Ans α) (htask : t.task = .rest (.ask o next)) :
      Moves t s { t with ghost := sys.enter o t.ghost, task := .within o (sys.body o) next } s
  | left (o : Op) (a : Ans o) (next : Ans o → Prog Op Ans α)
      (htask : t.task = .within o (.ret a) next) : Moves t s { t with task := .rest (next a) } s
  | accessed (o : Op) (o' : Op') (k : Ans' o' → Prog Op' Ans' (Ans o))
      (next : Ans o → Prog Op Ans α) (htask : t.task = .within o (.ask o' k) next) :
      Moves t s
        { t with
          ghost := sys.note o o' (sys.perform o' s).1 t.ghost
          task := .within o (k (sys.perform o' s).1) next }
        (sys.perform o' s).2

theorem stepThread_moves (t : Thread Op Ans Op' Ans' κ γ α) (s : σ) :
    sys.Moves t s (sys.stepThread t s).1 (sys.stepThread t s).2 := by
  obtain ⟨job, ghost, task⟩ := t
  cases task with
  | rest p =>
      cases p with
      | ret value => exact .ended value rfl
      | ask o next => exact .entered o next rfl
  | within o body next =>
      cases body with
      | ret a => exact .left o a next rfl
      | ask o' k => exact .accessed o o' k next rfl

/-- A thread that makes `n` steps while no other moves. -/
def solo (n : Nat) (r : Thread Op Ans Op' Ans' κ γ α × σ) : Thread Op Ans Op' Ans' κ γ α × σ :=
  (fun r => sys.stepThread r.1 r.2)^[n] r

/-- It gets to the end of the call it is within, and on from there. -/
theorem solo_within {o : Op} {value : α} {s' : σ} (next : Ans o → Prog Op Ans α) (job : κ)
    (body : Prog Op' Ans' (Ans o)) (ghost : γ) (s : σ)
    (h : ∀ ghost, ∃ n, (sys.solo n (⟨job, ghost, .rest (next (body.run sys.perform s).1)⟩,
      (body.run sys.perform s).2)).1.returned = some value ∧
      (sys.solo n (⟨job, ghost, .rest (next (body.run sys.perform s).1)⟩,
        (body.run sys.perform s).2)).2 = s') :
    ∃ n, (sys.solo n (⟨job, ghost, .within o body next⟩, s)).1.returned = some value ∧
      (sys.solo n (⟨job, ghost, .within o body next⟩, s)).2 = s' := by
  induction body generalizing ghost s with
  | ret a =>
      obtain ⟨n, hn⟩ := h ghost
      exact ⟨n + 1, hn⟩
  | ask o' k ih =>
      obtain ⟨n, hn⟩ := ih (sys.perform o' s).1 (sys.note o o' (sys.perform o' s).1 ghost)
        (sys.perform o' s).2 h
      exact ⟨n + 1, hn⟩

/-- A thread on its own ends as its program does when run in one piece. -/
theorem solo_rest (p : Prog Op Ans α) (job : κ) (ghost : γ) (s : σ) :
    ∃ n, (sys.solo n (⟨job, ghost, .rest p⟩, s)).1.returned =
        some (p.run (fun o => (sys.body o).run sys.perform) s).1 ∧
      (sys.solo n (⟨job, ghost, .rest p⟩, s)).2 =
        (p.run (fun o => (sys.body o).run sys.perform) s).2 := by
  induction p generalizing ghost s with
  | ret value => exact ⟨0, rfl, rfl⟩
  | ask o next ih =>
      obtain ⟨n, hn⟩ := sys.solo_within next job (sys.body o) (sys.enter o ghost) s
        fun ghost => ih _ ghost _
      exact ⟨n + 1, hn⟩

end System

/-! ### Rules -/

/-- `ok` is when a call may be made, `accessOk` when an access within it, and
`good` what the environment promises about the access's answer. `done` relates
the ghosts a call starts and ends with to its answer; `fin` is when the thread
may end. -/
structure Rules (Op : Type) (Ans : Op → Type) (Op' : Type) (Ans' : Op' → Type)
    (γ α : Type) where
  ok : γ → Op → Prop
  accessOk : Op → γ → Op' → Prop
  good : γ → (o : Op') → Ans' o → Prop
  done : (o : Op) → γ → γ → Ans o → Prop
  fin : γ → α → Prop

namespace Rules

variable (rules : Rules Op Ans Op' Ans' γ α) (sys : System Op Ans Op' Ans' γ σ)

/-- What the body of a call entered with ghost `start` has to follow. -/
def within (o : Op) (start : γ) : Protocol Op' Ans' γ (Ans o) where
  ok := rules.accessOk o
  good := rules.good
  update g o' a := sys.note o o' a g
  done := rules.done o start

/-- Every call the program makes is allowed, whatever the calls before it
ended with. -/
def Follows : Prog Op Ans α → γ → Prop
  | .ret value, g => rules.fin g value
  | .ask o next, g =>
      rules.ok g o ∧ ∀ g' a, rules.done o (sys.enter o g) g' a → Follows (next a) g'

def ThreadFollows (t : Thread Op Ans Op' Ans' κ γ α) : Prop :=
  match t.task with
  | .rest p => rules.Follows sys p t.ghost
  | .within o body next =>
      ∃ start, body.Conforms (rules.within sys o start) t.ghost ∧
        ∀ g' a, rules.done o start g' a → rules.Follows sys (next a) g'

/-- Each call's body does what the rules say of the call. -/
def Bodies : Prop :=
  ∀ o g, rules.ok g o →
    (sys.body o).Conforms (rules.within sys o (sys.enter o g)) (sys.enter o g)

variable {rules sys}

theorem Follows.bind {β : Type} {rules : Rules Op Ans Op' Ans' γ β} {mid : γ → α → Prop}
    {p : Prog Op Ans α} {f : α → Prog Op Ans β} {g : γ}
    (hp : Follows ⟨rules.ok, rules.accessOk, rules.good, rules.done, mid⟩ sys p g)
    (hf : ∀ g a, mid g a → rules.Follows sys (f a) g) : rules.Follows sys (p >>= f) g := by
  induction p generalizing g with
  | ret value => exact hf g value hp
  | ask o next ih => exact ⟨hp.1, fun g' a ha => ih a (hp.2 g' a ha)⟩

theorem ThreadFollows.pending {t : Thread Op Ans Op' Ans' κ γ α}
    (h : rules.ThreadFollows sys t) {o : Op} {o' : Op'} (hp : t.pending = some (o, o')) :
    rules.accessOk o t.ghost o' := by
  obtain ⟨job, ghost, task⟩ := t
  match task, hp with
  | .within o (.ask o' k) next, rfl =>
      obtain ⟨start, hbody, -⟩ := h
      exact hbody.1

/-- A thread that follows the rules still does after a step whose answer is
good. -/
theorem ThreadFollows.step (hbodies : rules.Bodies sys) {t : Thread Op Ans Op' Ans' κ γ α}
    {s : σ} (h : rules.ThreadFollows sys t)
    (hgood : ∀ o o', t.pending = some (o, o') → rules.good t.ghost o' (sys.perform o' s).1) :
    rules.ThreadFollows sys (sys.stepThread t s).1 := by
  obtain ⟨job, ghost, task⟩ := t
  cases task with
  | rest p =>
      cases p with
      | ret value => exact h
      | ask o next => exact ⟨sys.enter o ghost, hbodies o ghost h.1, h.2⟩
  | within o body next =>
      obtain ⟨start, hbody, hnext⟩ := h
      cases body with
      | ret a => exact hnext ghost a hbody
      | ask o' k => exact ⟨start, hbody.2 _ (hgood o o' rfl), hnext⟩

end Rules

namespace Pool

variable (sys : System Op Ans Op' Ans' γ σ)

/-- The thread at `id` makes a step. -/
def advance (pool : Pool Op Ans Op' Ans' κ γ α σ) (id : Nat) : Pool Op Ans Op' Ans' κ γ α σ :=
  match pool.threads[id]? with
  | none => pool
  | some t =>
      { shared := (sys.stepThread t pool.shared).2
        threads := pool.threads.set id (sys.stepThread t pool.shared).1 }

variable {sys}

theorem advance_some {pool : Pool Op Ans Op' Ans' κ γ α σ} {id : Nat}
    {t : Thread Op Ans Op' Ans' κ γ α} (h : pool.threads[id]? = some t) :
    pool.advance sys id =
      { shared := (sys.stepThread t pool.shared).2
        threads := pool.threads.set id (sys.stepThread t pool.shared).1 } := by
  simp only [advance, h]

theorem advance_none {pool : Pool Op Ans Op' Ans' κ γ α σ} {id : Nat}
    (h : pool.threads[id]? = none) : pool.advance sys id = pool := by
  simp only [advance, h]

/-- After a step of the thread at `id`, a thread of the pool is that thread
moved on, or another one as it was. -/
theorem mem_advance {pool : Pool Op Ans Op' Ans' κ γ α σ} {id : Nat}
    {t u : Thread Op Ans Op' Ans' κ γ α} (h : pool.threads[id]? = some t)
    (hu : u ∈ (pool.advance sys id).threads) :
    u = (sys.stepThread t pool.shared).1 ∨ ∃ k, k ≠ id ∧ pool.threads[k]? = some u := by
  rw [advance_some h] at hu
  obtain ⟨k, hk⟩ := List.mem_iff_getElem?.mp hu
  simp only [List.getElem?_set] at hk
  split at hk
  · split at hk
    · exact .inl (Option.some.inj hk).symm
    · exact absurd hk nofun
  · rename_i hne
    exact .inr ⟨k, Ne.symm hne, hk⟩

variable (sys) in
/-- Jobs stay where they are. -/
theorem advance_jobs (pool : Pool Op Ans Op' Ans' κ γ α σ) (id : Nat) :
    (pool.advance sys id).threads.map Thread.job = pool.threads.map Thread.job := by
  cases h : pool.threads[id]? with
  | none => rw [advance_none h]
  | some t =>
      obtain ⟨hid, ht⟩ := List.getElem?_eq_some_iff.mp h
      rw [advance_some h, List.map_set, System.stepThread_job]
      refine List.ext_getElem? fun k => ?_
      rw [List.getElem?_set]
      split
      · rename_i heq
        subst heq
        simp [hid, ht]
      · rfl

end Pool

end R8000Plus.Effects
