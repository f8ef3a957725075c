import R8000Plus.Effects.Runs
import R8000Plus.Fa.Threads

/-!
Slot ownership when callbacks interleave. Callbacks start, take single steps in
any order and end; the flowtable starts none for a cookie whose last one is
still running. A slot is owned by the callback whose pointer leads to it, and
then by the flow it was accepted for.
-/

namespace R8000Plus.Fa

open Effects

abbrev FaThread := Thread Call Call.Ans Access Access.Ans FlowClsOffload Progress Int

abbrev FaPool := Pool Call Call.Ans Access Access.Ans FlowClsOffload Progress Int Accel

/-- A callback of the loaded `live=1` module, about to start. -/
def FlowClsOffload.thread (cls : FlowClsOffload) : FaThread where
  job := cls
  ghost := .fresh
  task := .rest (faSetupBlockCb true .clsflower cls)

/-- Left alone, the thread of a callback ends as the callback does. -/
theorem callback_solo (cls : FlowClsOffload) (w : Accel) :
    ∃ n, (faSystem.solo n (cls.thread, w)).1.returned = some (w.callback cls).1 ∧
      (faSystem.solo n (cls.thread, w)).2 = (w.callback cls).2 :=
  faSystem.solo_rest (faSetupBlockCb true .clsflower cls) cls .fresh w

/-- The slot a thread gives back with its next access. -/
def frees (t : FaThread) : Option Slot :=
  match t.pending with
  | some (_, .free slot) => some slot
  | _ => none

/-- The flow a callback that ended with `ret` leaves accepted. -/
def accepts (t : FaThread) (ret : Int) : List (Cookie × Slot) :=
  if t.job.command = .replace ∧ ret = 0 then t.ghost.held.toList.map (t.job.cookie, ·) else []

structure Traffic where
  pool : FaPool
  /-- Flows whose REPLACE returned 0 and whose slot was not given back since. -/
  accepted : List (Cookie × Slot)

inductive Event where
  | start (cls : FlowClsOffload)
  | step (id : Nat)

namespace Traffic

def loaded (dev : Dev) : Traffic := ⟨⟨⟨Slots.loaded, dev⟩, []⟩, []⟩

abbrev flows (s : Traffic) : Slots := s.pool.shared.flows

def cookies (s : Traffic) : List Cookie := s.pool.threads.map fun t => t.job.cookie

def next (s : Traffic) : Event → Traffic
  | .start cls =>
      if cls.cookie ∈ s.cookies then s
      else { s with pool := { s.pool with threads := s.pool.threads ++ [cls.thread] } }
  | .step id =>
      match s.pool.threads[id]? with
      | none => s
      | some t =>
          match t.returned with
          | some ret =>
              { pool := { s.pool with threads := s.pool.threads.eraseIdx id }
                accepted := accepts t ret ++ s.accepted }
          | none =>
              { pool := s.pool.advance faSystem id
                accepted := s.accepted.filter fun flow => decide (frees t ≠ some flow.2) }

def run (s : Traffic) (events : List Event) : Traffic := events.foldl next s

section Steps

variable {s : Traffic} {id : Nat} {t : FaThread}

theorem next_step_none (ht : s.pool.threads[id]? = none) : s.next (.step id) = s := by
  simp only [next, ht]

theorem next_step_ended (ht : s.pool.threads[id]? = some t) {ret : Int}
    (hret : t.returned = some ret) : s.next (.step id) =
      { pool := { s.pool with threads := s.pool.threads.eraseIdx id }
        accepted := accepts t ret ++ s.accepted } := by
  simp only [next, ht, hret]

theorem next_step_advance (ht : s.pool.threads[id]? = some t) (hret : t.returned = none) :
    s.next (.step id) =
      { pool := s.pool.advance faSystem id
        accepted := s.accepted.filter fun flow => decide (frees t ≠ some flow.2) } := by
  simp only [next, ht, hret]

end Steps

end Traffic

/-! ### What one step does to the slots -/

def Slots.Taken (flows : Slots) (i : Slot) (cookie : Cookie) : Prop :=
  (flows i).inUse = true ∧ (flows i).cookie = cookie

/-- What a step of a callback for `cls` can do to the slot table and to the slot
it holds; the last index is the slot given back. -/
inductive SlotMove (cls : FlowClsOffload) (flows : Slots) (held : Option Slot) :
    Slots → Option Slot → Option Slot → Prop
  | quiet : SlotMove cls flows held flows held none
  | alloc (hcmd : cls.command = .replace) (hheld : held = none) :
      SlotMove cls flows held (flows.alloc cls.cookie).2 (flows.alloc cls.cookie).1 none
  | find (hcmd : cls.command = .destroy) (hheld : held = none) :
      SlotMove cls flows held flows (flows.find cls.cookie) none
  | free (i : Slot) (hheld : held = some i) :
      SlotMove cls flows held (flows.free i) none (some i)

theorem moves_slotMove {t t' : FaThread} {w w' : Accel} (hmoves : faSystem.Moves t w t' w')
    (h : (faRules t.job).ThreadFollows faSystem t) :
    SlotMove t.job w.flows t.ghost.held w'.flows t'.ghost.held (frees t) := by
  cases hmoves with
  | ended value htask =>
      have hfrees : frees t = none := by simp [frees, Thread.pending, htask]
      rw [hfrees]
      exact .quiet
  | entered o next htask =>
      have hfrees : frees t = none := by simp [frees, Thread.pending, htask]
      rw [hfrees]
      exact .quiet
  | left o a next htask =>
      have hfrees : frees t = none := by simp [frees, Thread.pending, htask]
      rw [hfrees]
      exact .quiet
  | accessed o a k next htask =>
      have hpending : t.pending = some (o, a) := by simp [Thread.pending, htask]
      obtain ⟨hcall, hfits⟩ := h.pending hpending
      have hfrees : frees t = match a with | .free slot => some slot | _ => none := by
        simp only [frees, hpending]
        cases a <;> rfl
      rw [hfrees]
      cases a with
      | readl reg => exact .quiet
      | writel val reg => exact .quiet
      | load slot => exact .quiet
      | alloc cookie =>
          obtain rfl : o = .alloc cookie := hfits
          obtain ⟨hcmd, rfl, hheld⟩ := hcall
          exact .alloc hcmd hheld
      | find cookie =>
          obtain rfl : o = .find cookie := hfits
          obtain ⟨hcmd, rfl, hheld⟩ := hcall
          exact .find hcmd hheld
      | free slot =>
          obtain rfl : o = .free slot := hfits
          exact .free slot hcall

namespace SlotMove

variable {cls : FlowClsOffload} {flows flows' : Slots} {held held' freed : Option Slot}

theorem freed_held (h : SlotMove cls flows held flows' held' freed) {i : Slot}
    (hfreed : freed = some i) : held = some i := by
  cases h with
  | quiet => exact absurd hfreed nofun
  | alloc => exact absurd hfreed nofun
  | find => exact absurd hfreed nofun
  | free j hheld => exact hheld.trans hfreed

/-- A slot in use stays with its cookie unless it is the one given back. -/
theorem taken (h : SlotMove cls flows held flows' held' freed) {i : Slot} {cookie : Cookie}
    (htaken : flows.Taken i cookie) (hfreed : freed ≠ some i) : flows'.Taken i cookie := by
  cases h with
  | quiet => exact htaken
  | find => exact htaken
  | alloc =>
      cases hfirst : flows.firstFree with
      | none =>
          rw [Slots.alloc_none hfirst]
          exact htaken
      | some j =>
          have hne : i ≠ j := by
            rintro rfl
            have := Slots.firstFree_some hfirst
            simp [htaken.1] at this
          have hkept : Function.update flows j (Slots.taken cls.cookie j) i = flows i :=
            Function.update_of_ne hne _ _
          simp only [Slots.alloc_some hfirst, Slots.Taken, hkept]
          exact htaken
  | free j =>
      have hne : i ≠ j := by
        rintro rfl
        exact hfreed rfl
      rw [Slots.Taken, flows.free_of_ne hne]
      exact htaken

/-- What a callback holds afterwards is in use under its cookie. -/
theorem taken_held (h : SlotMove cls flows held flows' held' freed)
    (hheld : ∀ i, held = some i → flows.Taken i cls.cookie) {i : Slot}
    (hi : held' = some i) : flows'.Taken i cls.cookie := by
  cases h with
  | quiet => exact hheld i hi
  | find => exact Slots.find_some hi
  | alloc =>
      cases hfirst : flows.firstFree with
      | none =>
          rw [Slots.alloc_none hfirst] at hi
          exact absurd hi nofun
      | some j =>
          rw [Slots.alloc_some hfirst] at hi ⊢
          obtain rfl := Option.some.inj hi
          simp [Slots.Taken]
  | free => exact absurd hi nofun

/-- A REPLACE comes by a slot only while the slot is not in use. -/
theorem held_of_replace (h : SlotMove cls flows held flows' held' freed)
    (hcmd : cls.command = .replace) {i : Slot} (hi : held' = some i) :
    held = some i ∨ (flows i).inUse = false := by
  cases h with
  | quiet => exact .inl hi
  | find hcmd' => exact absurd (hcmd.symm.trans hcmd') nofun
  | alloc =>
      cases hfirst : flows.firstFree with
      | none =>
          rw [Slots.alloc_none hfirst] at hi
          exact absurd hi nofun
      | some j =>
          rw [Slots.alloc_some hfirst] at hi
          obtain rfl := Option.some.inj hi
          exact .inr (Slots.firstFree_some hfirst)
  | free => exact absurd hi nofun

theorem indexed (h : SlotMove cls flows held flows' held' freed) (hindexed : flows.Indexed) :
    flows'.Indexed := by
  cases h with
  | quiet => exact hindexed
  | find => exact hindexed
  | alloc => exact hindexed.alloc cls.cookie
  | free i => exact hindexed.free i

end SlotMove

/-! ### The invariant -/

namespace Traffic

/-- `held`, `kept` and `fresh` are what ownership rests on: a running callback
holds a slot in use under its cookie, an accepted flow has one, and the slot of
a running REPLACE is not an accepted flow's yet. -/
structure Inv (s : Traffic) : Prop where
  indexed : s.flows.Indexed
  serial : s.cookies.Nodup
  follows : ∀ t ∈ s.pool.threads, (faRules t.job).ThreadFollows faSystem t
  held : ∀ t ∈ s.pool.threads, ∀ i, t.ghost.held = some i → s.flows.Taken i t.job.cookie
  kept : ∀ flow ∈ s.accepted, s.flows.Taken flow.2 flow.1
  fresh : ∀ t ∈ s.pool.threads, t.job.command = .replace → ∀ i, t.ghost.held = some i →
    ∀ flow ∈ s.accepted, flow.2 ≠ i

theorem loaded_inv (dev : Dev) : (loaded dev).Inv where
  indexed := Slots.loaded_indexed
  serial := List.nodup_nil
  follows _ ht := absurd ht List.not_mem_nil
  held _ ht := absurd ht List.not_mem_nil
  kept _ hflow := absurd hflow List.not_mem_nil
  fresh _ ht := absurd ht List.not_mem_nil

namespace Inv

variable {s : Traffic}

theorem cookie_ne (h : s.Inv) {id k : Nat} {t u : FaThread} (ht : s.pool.threads[id]? = some t)
    (hu : s.pool.threads[k]? = some u) (hne : k ≠ id) : u.job.cookie ≠ t.job.cookie := by
  intro heq
  have hk : k < s.cookies.length := by
    simpa [cookies] using (List.getElem?_eq_some_iff.mp hu).1
  refine hne ((List.getElem?_inj hk h.serial).mp ?_)
  simp [cookies, ht, hu, heq]

theorem start (h : s.Inv) (cls : FlowClsOffload) : (s.next (.start cls)).Inv := by
  simp only [next]
  split
  · exact h
  · rename_i hnew
    refine ⟨h.indexed, ?_, ?_, ?_, h.kept, ?_⟩
    · simp only [cookies, List.map_append, List.map_cons, List.map_nil]
      exact List.nodup_append.mpr ⟨h.serial, List.nodup_singleton _, by
        rintro a ha b hb rfl
        obtain rfl := List.mem_singleton.mp hb
        exact hnew ha⟩
    · intro t ht
      rcases List.mem_append.mp ht with ht | ht
      · exact h.follows t ht
      · obtain rfl := List.mem_singleton.mp ht
        exact faSetupBlockCb_follows cls
    · intro t ht i hi
      rcases List.mem_append.mp ht with ht | ht
      · exact h.held t ht i hi
      · obtain rfl := List.mem_singleton.mp ht
        exact absurd hi nofun
    · intro t ht hcmd i hi
      rcases List.mem_append.mp ht with ht | ht
      · exact h.fresh t ht hcmd i hi
      · obtain rfl := List.mem_singleton.mp ht
        exact absurd hi nofun

/-- A callback that goes on. -/
theorem advance (h : s.Inv) {id : Nat} {t : FaThread} (ht : s.pool.threads[id]? = some t) :
    Inv ⟨s.pool.advance faSystem id,
      s.accepted.filter fun flow => decide (frees t ≠ some flow.2)⟩ := by
  have hmem : t ∈ s.pool.threads := List.mem_of_getElem? ht
  have hmove : SlotMove t.job s.flows t.ghost.held
      (faSystem.stepThread t s.pool.shared).2.flows
      (faSystem.stepThread t s.pool.shared).1.ghost.held (frees t) :=
    moves_slotMove (faSystem.stepThread_moves t s.pool.shared) (h.follows t hmem)
  have hshared : (s.pool.advance faSystem id).shared =
      (faSystem.stepThread t s.pool.shared).2 := by rw [Pool.advance_some ht]
  -- nobody else's slot is the one given back
  have hothers : ∀ {k : Nat} {u : FaThread}, k ≠ id → s.pool.threads[k]? = some u →
      ∀ i, u.ghost.held = some i → frees t ≠ some i := by
    intro k u hne hu i hi hfrees
    have hmine := h.held t hmem i (hmove.freed_held hfrees)
    have hits := h.held u (List.mem_of_getElem? hu) i hi
    exact h.cookie_ne ht hu hne (hits.2.symm.trans hmine.2)
  have hkept : ∀ flow ∈ s.accepted.filter (fun flow => decide (frees t ≠ some flow.2)),
      flow ∈ s.accepted ∧ frees t ≠ some flow.2 := fun flow hflow => by
    simpa using hflow
  refine ⟨?_, ?_, ?_, ?_, ?_, ?_⟩
  · rw [flows, hshared]
    exact hmove.indexed h.indexed
  · have hcookies := congrArg (List.map FlowClsOffload.cookie)
      (Pool.advance_jobs faSystem s.pool id)
    rw [List.map_map, List.map_map] at hcookies
    change ((s.pool.advance faSystem id).threads.map (FlowClsOffload.cookie ∘ Thread.job)).Nodup
    rw [hcookies]
    exact h.serial
  · intro u hu
    rcases Pool.mem_advance ht hu with rfl | ⟨k, hne, hu⟩
    · rw [System.stepThread_job]
      refine (h.follows t hmem).step (faRules_bodies t.job) fun o a hpending => ?_
      obtain ⟨hcall, hfits⟩ := (h.follows t hmem).pending hpending
      cases a with
      | load slot =>
          obtain rfl : o = .load slot := hfits
          exact h.indexed slot (h.held t hmem slot hcall).1
      | _ => trivial
    · exact h.follows u (List.mem_of_getElem? hu)
  · intro u hu i hi
    rw [flows, hshared]
    rcases Pool.mem_advance ht hu with rfl | ⟨k, hne, hu⟩
    · rw [System.stepThread_job]
      exact hmove.taken_held (h.held t hmem) hi
    · exact hmove.taken (h.held u (List.mem_of_getElem? hu) i hi) (hothers hne hu i hi)
  · intro flow hflow
    rw [flows, hshared]
    obtain ⟨hacc, hfreed⟩ := hkept flow hflow
    exact hmove.taken (h.kept flow hacc) hfreed
  · intro u hu hcmd i hi flow hflow
    obtain ⟨hacc, -⟩ := hkept flow hflow
    rcases Pool.mem_advance ht hu with rfl | ⟨k, hne, hu⟩
    · rw [System.stepThread_job] at hcmd
      rcases hmove.held_of_replace hcmd hi with hheld | hfree
      · exact h.fresh t hmem hcmd i hheld flow hacc
      · rintro rfl
        have := (h.kept flow hacc).1
        simp [hfree] at this
    · exact h.fresh u (List.mem_of_getElem? hu) hcmd i hi flow hacc

/-- A callback that ends. -/
theorem finish (h : s.Inv) {id : Nat} {t : FaThread} (ht : s.pool.threads[id]? = some t)
    (ret : Int) :
    Inv ⟨{ s.pool with threads := s.pool.threads.eraseIdx id },
      accepts t ret ++ s.accepted⟩ := by
  have hmem : t ∈ s.pool.threads := List.mem_of_getElem? ht
  have hrest : ∀ {u : FaThread}, u ∈ s.pool.threads.eraseIdx id →
      ∃ k, k ≠ id ∧ s.pool.threads[k]? = some u := by
    intro u hu
    obtain ⟨k, hk⟩ := List.mem_iff_getElem?.mp hu
    rw [List.getElem?_eraseIdx] at hk
    split at hk
    · exact ⟨k, by omega, hk⟩
    · exact ⟨k + 1, by omega, hk⟩
  have hmine : ∀ flow ∈ accepts t ret, flow.1 = t.job.cookie ∧ t.ghost.held = some flow.2 := by
    rintro ⟨cookie, i⟩ hflow
    simp only [accepts] at hflow
    split at hflow
    · simp only [List.mem_map, Option.mem_toList, Prod.mk.injEq] at hflow
      obtain ⟨j, hj, rfl, rfl⟩ := hflow
      exact ⟨rfl, hj⟩
    · exact absurd hflow List.not_mem_nil
  refine ⟨h.indexed, ?_, ?_, ?_, ?_, ?_⟩
  · exact h.serial.sublist ((List.eraseIdx_sublist _ id).map _)
  · intro u hu
    obtain ⟨k, -, hu⟩ := hrest hu
    exact h.follows u (List.mem_of_getElem? hu)
  · intro u hu
    obtain ⟨k, -, hu⟩ := hrest hu
    exact h.held u (List.mem_of_getElem? hu)
  · intro flow hflow
    rcases List.mem_append.mp hflow with hflow | hflow
    · obtain ⟨hcookie, hheld⟩ := hmine flow hflow
      rw [hcookie]
      exact h.held t hmem flow.2 hheld
    · exact h.kept flow hflow
  · intro u hu hcmd i hi flow hflow
    obtain ⟨k, hne, hu⟩ := hrest hu
    rcases List.mem_append.mp hflow with hflow | hflow
    · obtain ⟨-, hheld⟩ := hmine flow hflow
      rintro rfl
      have hits := h.held u (List.mem_of_getElem? hu) _ hi
      exact h.cookie_ne ht hu hne (hits.2.symm.trans (h.held t hmem _ hheld).2)
    · exact h.fresh u (List.mem_of_getElem? hu) hcmd i hi flow hflow

theorem next (h : s.Inv) (e : Event) : (s.next e).Inv := by
  cases e with
  | start cls => exact h.start cls
  | step id =>
      cases ht : s.pool.threads[id]? with
      | none =>
          rw [next_step_none ht]
          exact h
      | some t =>
          cases hret : t.returned with
          | some ret =>
              rw [next_step_ended ht hret]
              exact h.finish ht ret
          | none =>
              rw [next_step_advance ht hret]
              exact h.advance ht

theorem run (h : s.Inv) (events : List Event) : (s.run events).Inv :=
  foldl_invariant (fun _ e h => h.next e) h events

end Inv

/-! ### Exclusive ownership -/

/-- The callback or the accepted flow a slot belongs to. -/
def Owns (s : Traffic) (cookie : Cookie) (i : Slot) : Prop :=
  (∃ t ∈ s.pool.threads, t.job.cookie = cookie ∧ t.ghost.held = some i) ∨
    (cookie, i) ∈ s.accepted

/-- No slot has two owners, the indices of a slot in use are its own, a failing
allocation finds every slot in use, and a slot is given back by its owner. -/
structure Exclusive (s : Traffic) : Prop where
  callbacks : ∀ {k l : Nat} {t u : FaThread} {i : Slot}, s.pool.threads[k]? = some t →
    s.pool.threads[l]? = some u → t.ghost.held = some i → u.ghost.held = some i → k = l
  owners : ∀ {cookie cookie' : Cookie} {i : Slot}, s.Owns cookie i → s.Owns cookie' i →
    cookie = cookie'
  ownIndex : ∀ i, (s.flows i).inUse = true →
    (s.flows i).nhIdx.toNat = i.val + 1 ∧ (s.flows i).nfIdx.toNat = i.val + 1
  inRange : ∀ i, (s.flows i).inUse = true →
    1 ≤ (s.flows i).nhIdx.toNat ∧ (s.flows i).nhIdx.toNat ≤ FA_MAX_LIVE_FLOWS
  distinct : ∀ i j, (s.flows i).inUse = true → (s.flows j).inUse = true →
    (s.flows i).nhIdx = (s.flows j).nhIdx → i = j
  allocNull : ∀ t ∈ s.pool.threads, ∀ o cookie, t.pending = some (o, .alloc cookie) →
    (s.flows.alloc cookie).1 = none → ∀ i, (s.flows i).inUse = true
  freesOwn : ∀ t ∈ s.pool.threads, ∀ o i, t.pending = some (o, .free i) →
    (s.flows i).inUse = true ∧ (s.flows i).cookie = t.job.cookie

theorem Inv.index_toNat {s : Traffic} (h : s.Inv) {i : Slot} (hi : (s.flows i).inUse = true) :
    (s.flows i).nhIdx.toNat = i.idx ∧ (s.flows i).nfIdx.toNat = i.idx := by
  obtain ⟨hnh, hnf⟩ := h.indexed i hi
  rw [hnh, hnf, Slot.word_toNat]
  exact ⟨rfl, rfl⟩

theorem Inv.taken_of_owns {s : Traffic} (h : s.Inv) {cookie : Cookie} {i : Slot}
    (howns : s.Owns cookie i) : s.flows.Taken i cookie := by
  rcases howns with ⟨t, ht, rfl, hheld⟩ | hacc
  · exact h.held t ht i hheld
  · exact h.kept (cookie, i) hacc

theorem Inv.exclusive {s : Traffic} (h : s.Inv) : s.Exclusive where
  callbacks := by
    intro k l t u i ht hu hi hi'
    by_contra hne
    exact h.cookie_ne hu ht hne ((h.held t (List.mem_of_getElem? ht) i hi).2.symm.trans
      (h.held u (List.mem_of_getElem? hu) i hi').2)
  owners := fun howns howns' =>
    (h.taken_of_owns howns).2.symm.trans (h.taken_of_owns howns').2
  ownIndex := fun i hi => h.index_toNat hi
  inRange := by
    intro i hi
    rw [(h.index_toNat hi).1]
    exact ⟨i.idx_pos, i.idx_le⟩
  distinct := by
    intro i j hi hj heq
    refine Slot.idx_injective ?_
    rw [← (h.index_toNat hi).1, ← (h.index_toNat hj).1, heq]
  allocNull := by
    intro t _ o cookie _ hnone
    cases hfirst : s.flows.firstFree with
    | none => exact Slots.firstFree_none.mp hfirst
    | some i =>
        rw [Slots.alloc_some hfirst] at hnone
        exact absurd hnone nofun
  freesOwn := by
    intro t ht o i hpending
    obtain ⟨hcall, hfits⟩ := (h.follows t ht).pending hpending
    obtain rfl : o = .free i := hfits
    exact h.held t ht i hcall

/-- Whatever order the steps of any callbacks come in, no slot ever has two
owners, failed installations included. -/
theorem exclusive_run (dev : Dev) (events : List Event) :
    ((loaded dev).run events).Exclusive :=
  ((loaded_inv dev).run events).exclusive

end Traffic

end R8000Plus.Fa
