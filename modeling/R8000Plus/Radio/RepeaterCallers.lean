import R8000Plus.Effects.Runs
import R8000Plus.Radio.Repeater

/-!
Callers of `brcmf_start_psta_repeater` at once. The function looks whether the place
is taken and takes it two calls later, and holds no lock from the one to the other.
-/

namespace R8000Plus.Radio

open Effects

/-! ### Callers at once -/

/-- What the driver does with its place and its vifs. -/
structure Driver where
  State : Type
  perform : (o : DrvOp) → State → o.Ans × State
  /-- The vif whose event is awaited. -/
  awaited : State → Option Vif
  /-- The vif is allocated. -/
  live : State → Vif → Prop

/-- A new vif is not one of those that are allocated, which stay so until freed. -/
structure Driver.Documented (D : Driver) : Prop where
  looked : ∀ s, (D.perform .vifEventArmed s).1 = (D.awaited s).isSome
  armed : ∀ s v, D.awaited (D.perform (.armVifEvent v) s).2 = v
  unarmed : ∀ o s, (∀ v, o ≠ .armVifEvent v) → D.awaited (D.perform o s).2 = D.awaited s
  fresh : ∀ s v, (D.perform .allocVif s).1 = .ok v → ¬D.live s v ∧ D.live (D.perform .allocVif s).2 v
  kept : ∀ o s v, D.live s v → o ≠ .freeVif v → D.live (D.perform o s).2 v

structure Caller where
  phase : Phase
  prog : DrvProg (Except Int Vif)

structure Callers (D : Driver) where
  drv : D.State
  caller : Nat → Caller

namespace Callers

variable {D : Driver}

/-- The caller `id` makes its next call into the driver. -/
def advance (s : Callers D) (id : Nat) : Callers D :=
  match (s.caller id).prog with
  | .ret _ => s
  | .ask o next =>
      { drv := (D.perform o s.drv).2
        caller := Function.update s.caller id
          ⟨(s.caller id).phase.note o (D.perform o s.drv).1, next (D.perform o s.drv).1⟩ }

/-- Every caller is about to call the function with arguments of its own. -/
def start (drv : D.State) (args : Nat → List Char × BitVec 32) : Callers D where
  drv := drv
  caller id := ⟨.outside, brcmfStartPstaRepeater (args id).1 (args id).2⟩

def phase (s : Callers D) (id : Nat) : Phase := (s.caller id).phase

/-- The event that is awaited is the one of whoever waits. -/
def Held (s : Callers D) : Prop := ∀ id v, s.phase id = .waits v → D.awaited s.drv = some v

/-- If the step takes the place, it is free. -/
def TakesFree (s : Callers D) (id : Nat) : Prop :=
  ∀ v next, (s.caller id).prog = .ask (.armVifEvent (some v)) next → D.awaited s.drv = none

structure Inv (s : Callers D) : Prop where
  conforms : ∀ id, (s.caller id).prog.Conforms custody (s.phase id)
  held : s.Held
  owned : ∀ v, D.awaited s.drv = some v → ∃ id, s.phase id = .waits v
  live : ∀ id v, (s.phase id).vif = some v → D.live s.drv v
  apart : ∀ id id' v, (s.phase id).vif = some v → (s.phase id').vif = some v → id = id'

/-! ### One step -/

theorem inv_start {drv : D.State} (args : Nat → List Char × BitVec 32)
    (hfree : D.awaited drv = none) : (start drv args).Inv where
  conforms _ := brcmfStartPstaRepeater_conforms _ _
  held _ _ h := Phase.noConfusion h
  owned v h := absurd (h.symm.trans hfree) (Option.some_ne_none v)
  live _ v h := absurd h.symm (Option.some_ne_none v)
  apart _ _ v h := absurd h.symm (Option.some_ne_none v)

section Step

variable {s : Callers D} {id : Nat} {o : DrvOp} {next : o.Ans → DrvProg (Except Int Vif)}

theorem advance_ret {value : Except Int Vif} (h : (s.caller id).prog = .ret value) :
    s.advance id = s := by
  simp only [advance, h]

theorem advance_ask (h : (s.caller id).prog = .ask o next) :
    s.advance id =
      { drv := (D.perform o s.drv).2
        caller := Function.update s.caller id
          ⟨(s.phase id).note o (D.perform o s.drv).1, next (D.perform o s.drv).1⟩ } := by
  simp only [advance, h, phase]

theorem phase_advance (h : (s.caller id).prog = .ask o next) :
    (s.advance id).phase id = (s.phase id).note o (D.perform o s.drv).1 := by
  rw [advance_ask h, phase]
  simp

theorem phase_advance_of_ne {id' : Nat} (h : id' ≠ id) : (s.advance id).phase id' = s.phase id' := by
  unfold advance
  split
  · rfl
  · simp [phase, Function.update_of_ne h]

theorem drv_advance (h : (s.caller id).prog = .ask o next) :
    (s.advance id).drv = (D.perform o s.drv).2 := by
  rw [advance_ask h]

theorem Inv.moves (hs : s.Inv) (h : (s.caller id).prog = .ask o next) : (s.phase id).Moves o := by
  have hconf := hs.conforms id
  rw [h] at hconf
  exact Phase.moves hconf.1

theorem Inv.conforms_advance (hs : s.Inv) (id' : Nat) :
    ((s.advance id).caller id').prog.Conforms custody ((s.advance id).phase id') := by
  cases hprog : (s.caller id).prog with
  | ret value =>
      rw [advance_ret hprog]
      exact hs.conforms id'
  | ask o next =>
      have hconf := hs.conforms id
      rw [hprog] at hconf
      by_cases hid : id' = id
      · rw [hid, phase_advance hprog, advance_ask hprog]
        dsimp only
        rw [Function.update_self]
        exact hconf.2 _ trivial
      · have hsame : (s.advance id).caller id' = s.caller id' := by
          rw [advance_ask hprog]
          exact Function.update_of_ne hid ..
        rw [phase_advance_of_ne hid, hsame]
        exact hs.conforms id'

variable (hD : D.Documented)
include hD

/-- A vif the caller has after its step it had before, or it is new. -/
theorem Inv.own_advance (hs : s.Inv) (h : (s.caller id).prog = .ask o next) {v : Vif}
    (hv : ((s.advance id).phase id).vif = some v) :
    (s.phase id).vif = some v ∧ o ≠ .freeVif v ∨
      ¬D.live s.drv v ∧ D.live (s.advance id).drv v := by
  have hmoves := hs.moves h
  rw [phase_advance h] at hv
  rw [drv_advance h]
  generalize hphase : s.phase id = phase at hmoves hv
  cases hmoves with
  | takes vif => exact .inl ⟨hv, DrvOp.noConfusion⟩
  | leaves vif => exact .inl ⟨hv, DrvOp.noConfusion⟩
  | looks =>
      revert hv
      cases (D.perform .vifEventArmed s.drv).1 <;> exact fun hv => absurd hv.symm nofun
  | allocates =>
      cases hvif : (D.perform .allocVif s.drv).1 with
      | error err =>
          rw [hvif] at hv
          exact absurd hv.symm (Option.some_ne_none v)
      | ok vif =>
          rw [hvif] at hv
          obtain rfl : vif = v := Option.some.inj hv
          exact .inr (hD.fresh s.drv vif hvif)
  | other _ _ _ _ hnote hfreed =>
      have hnone : ∀ phase' : Phase, phase' = .gone → phase'.vif ≠ some v := by
        rintro _ rfl
        exact (Option.some_ne_none v).symm
      rcases hnote (D.perform o s.drv).1 with hsame | ⟨hgone, -⟩
      · rw [hsame] at hv
        refine .inl ⟨hv, fun hfree => ?_⟩
        have hgone := hfreed v (D.perform o s.drv).1 hfree
        exact hnone _ (hsame.symm.trans hgone) hv
      · exact absurd hv (hnone _ hgone)

/-- A caller's step frees no one else's vif. -/
theorem Inv.others_live (hs : s.Inv) (h : (s.caller id).prog = .ask o next) {id' : Nat}
    (hne : id' ≠ id) {v : Vif} (hv : (s.phase id').vif = some v) :
    D.live (s.advance id).drv v := by
  have hmoves := hs.moves h
  rw [drv_advance h]
  refine hD.kept o s.drv v (hs.live id' v hv) fun hfree => ?_
  generalize hphase : s.phase id = phase at hmoves
  cases hmoves with
  | looks => exact DrvOp.noConfusion hfree
  | takes vif => exact DrvOp.noConfusion hfree
  | leaves vif => exact DrvOp.noConfusion hfree
  | allocates => exact DrvOp.noConfusion hfree
  | other _ _ _ hback _ _ =>
      have hown : (s.phase id).vif = some v := by rw [hphase, hback v hfree]; rfl
      exact hne (hs.apart id' id v hv hown)

/-- The vifs of the callers stay allocated. -/
theorem Inv.live_advance (hs : s.Inv) (h : (s.caller id).prog = .ask o next) (id' : Nat) (v : Vif)
    (hv : ((s.advance id).phase id').vif = some v) : D.live (s.advance id).drv v := by
  by_cases hid : id' = id
  · rw [hid] at hv
    rcases hs.own_advance hD h hv with ⟨hold, hfree⟩ | ⟨-, hnew⟩
    · rw [drv_advance h]
      exact hD.kept o s.drv v (hs.live id v hold) hfree
    · exact hnew
  · rw [phase_advance_of_ne hid] at hv
    exact hs.others_live hD h hid hv

/-- No one else has the vif that the caller has after its step. -/
theorem Inv.own_apart (hs : s.Inv) (h : (s.caller id).prog = .ask o next) {id' : Nat}
    (hne : id' ≠ id) {v : Vif} (hv : ((s.advance id).phase id).vif = some v)
    (hv' : (s.phase id').vif = some v) : False := by
  rcases hs.own_advance hD h hv with ⟨hold, -⟩ | ⟨hnew, -⟩
  · exact hne (hs.apart id' id v hv' hold)
  · exact hnew (hs.live id' v hv')

theorem Inv.apart_advance (hs : s.Inv) (h : (s.caller id).prog = .ask o next) (id' id'' : Nat)
    (v : Vif) (hv : ((s.advance id).phase id').vif = some v)
    (hv' : ((s.advance id).phase id'').vif = some v) : id' = id'' := by
  by_cases hid : id' = id
  · by_cases hid' : id'' = id
    · rw [hid, hid']
    · rw [hid] at hv
      rw [phase_advance_of_ne hid'] at hv'
      exact (hs.own_apart hD h hid' hv hv').elim
  · rw [phase_advance_of_ne hid] at hv
    by_cases hid' : id'' = id
    · rw [hid'] at hv'
      exact (hs.own_apart hD h hid hv' hv).elim
    · rw [phase_advance_of_ne hid'] at hv'
      exact hs.apart id' id'' v hv hv'

/-- What a step does with the place: it is taken, left, or as it was. -/
theorem Inv.place_advance (hs : s.Inv) (h : (s.caller id).prog = .ask o next) :
    (∃ v, o = .armVifEvent (some v) ∧ (s.advance id).phase id = .waits v ∧
      D.awaited (s.advance id).drv = some v) ∨
    (∃ v, o = .armVifEvent none ∧ s.phase id = .waits v ∧ (s.advance id).phase id = .back v ∧
      D.awaited (s.advance id).drv = none) ∨
    ((∀ v, o ≠ .armVifEvent v) ∧ D.awaited (s.advance id).drv = D.awaited s.drv ∧
      ∀ v, (s.advance id).phase id = .waits v ↔ s.phase id = .waits v) := by
  have hmoves := hs.moves h
  rw [phase_advance h, drv_advance h]
  generalize hphase : s.phase id = phase at hmoves
  cases hmoves with
  | looks =>
      refine .inr (.inr ⟨fun _ => DrvOp.noConfusion, hD.unarmed _ _ fun _ => DrvOp.noConfusion, ?_⟩)
      intro v
      refine iff_of_false ?_ Phase.noConfusion
      cases (D.perform .vifEventArmed s.drv).1 <;> exact Phase.noConfusion
  | takes vif => exact .inl ⟨vif, rfl, rfl, hD.armed _ _⟩
  | leaves vif => exact .inr (.inl ⟨vif, rfl, rfl, rfl, hD.armed _ _⟩)
  | allocates =>
      refine .inr (.inr ⟨fun _ => DrvOp.noConfusion, hD.unarmed _ _ fun _ => DrvOp.noConfusion, ?_⟩)
      intro v
      refine iff_of_false ?_ Phase.noConfusion
      cases (D.perform .allocVif s.drv).1 <;> exact Phase.noConfusion
  | other _ _ harm _ hnote _ =>
      refine .inr (.inr ⟨harm, hD.unarmed _ _ harm, fun v => ?_⟩)
      rcases hnote (D.perform o s.drv).1 with hsame | ⟨hgone, hwaits⟩
      · rw [hsame]
      · refine iff_of_false (fun hnow => ?_) (hwaits v)
        exact Phase.noConfusion (hnow.symm.trans hgone)

theorem Inv.held_advance (hs : s.Inv) (hfree : s.TakesFree id) :
    (s.advance id).Held ∧ ∀ v, D.awaited (s.advance id).drv = some v →
      ∃ id', (s.advance id).phase id' = .waits v := by
  cases hprog : (s.caller id).prog with
  | ret value =>
      rw [advance_ret hprog]
      exact ⟨hs.held, hs.owned⟩
  | ask o next =>
      rcases hs.place_advance hD hprog with ⟨v, rfl, hphase, hplace⟩ | ⟨v, rfl, hold, hphase, hplace⟩ |
        ⟨-, hplace, hphase⟩
      · have hnone := hfree v next hprog
        refine ⟨fun id' w hw => ?_, fun w hw => ⟨id, ?_⟩⟩
        · by_cases hid : id' = id
          · rw [hid, hphase] at hw
            rw [hplace, Phase.waits.inj hw]
          · rw [phase_advance_of_ne hid] at hw
            exact absurd ((hs.held id' w hw).symm.trans hnone) (Option.some_ne_none w)
        · rw [hplace] at hw
          rw [hphase, Option.some.inj hw]
      · refine ⟨fun id' w hw => ?_, fun w hw => ?_⟩
        · by_cases hid : id' = id
          · rw [hid, hphase] at hw
            exact Phase.noConfusion hw
          · rw [phase_advance_of_ne hid] at hw
            -- both wait, so for one vif
            have hsame : w = v := Option.some.inj ((hs.held id' w hw).symm.trans (hs.held id v hold))
            have hvif : (s.phase id').vif = some v := by rw [hw, hsame]; rfl
            have hvif' : (s.phase id).vif = some v := by rw [hold]; rfl
            exact absurd (hs.apart id' id v hvif hvif') hid
        · exact absurd (hw.symm.trans hplace) (Option.some_ne_none w)
      · have hsame : ∀ id' v, (s.advance id).phase id' = .waits v ↔ s.phase id' = .waits v := by
          intro id' v
          by_cases hid : id' = id
          · rw [hid]
            exact hphase v
          · rw [phase_advance_of_ne hid]
        refine ⟨fun id' w hw => ?_, fun w hw => ?_⟩
        · rw [hplace]
          exact hs.held id' w ((hsame id' w).mp hw)
        · rw [hplace] at hw
          obtain ⟨id', hid'⟩ := hs.owned w hw
          exact ⟨id', (hsame id' w).mpr hid'⟩

theorem Inv.advance (hs : s.Inv) (hfree : s.TakesFree id) : (s.advance id).Inv := by
  obtain ⟨hheld, howned⟩ := hs.held_advance hD hfree
  cases hprog : (s.caller id).prog with
  | ret value =>
      rw [advance_ret hprog]
      exact hs
  | ask o next =>
      exact ⟨hs.conforms_advance, hheld, howned, hs.live_advance hD hprog,
        hs.apart_advance hD hprog⟩

/-- Whoever takes the place from another leaves that one waiting for an event
that is not awaited any more. -/
theorem Inv.held_iff (hs : s.Inv) : (s.advance id).Held ↔ s.TakesFree id := by
  refine ⟨fun hheld v next hprog => ?_, fun hfree => (hs.advance hD hfree).held⟩
  by_contra htaken
  obtain ⟨w, hw⟩ := Option.ne_none_iff_exists'.mp htaken
  obtain ⟨id', hid'⟩ := hs.owned w hw
  obtain ⟨v', hop, hphase, hplace⟩ | ⟨-, hop, -⟩ | ⟨harm, -⟩ := hs.place_advance hD hprog
  · have hown : ((s.advance id).phase id).vif = some v' := by rw [hphase]; rfl
    have hne : id' ≠ id := by
      rintro rfl
      have hmoves := hs.moves hprog
      rw [hid'] at hmoves
      cases hmoves with
      | other _ _ harm _ _ _ => exact harm _ rfl
    have hstill : (s.advance id).phase id' = .waits w := (phase_advance_of_ne hne).trans hid'
    have hsame : v' = w := Option.some.inj (hplace.symm.trans (hheld id' w hstill))
    have hother : (s.phase id').vif = some v' := by rw [hid', hsame]; rfl
    exact hs.own_apart hD hprog hne hown hother
  · exact Option.some_ne_none v (DrvOp.armVifEvent.inj hop)
  · exact harm _ rfl

end Step

/-- In every interleaving of callers, the event that is awaited is always the one
of whoever waits if and only if no caller takes the place while it is taken; that
it was free when the caller looked is not enough. -/
theorem held_run_iff (hD : D.Documented) {drv : D.State} (hfree : D.awaited drv = none)
    (args : Nat → List Char × BitVec 32) (schedule : List Nat) :
    (∀ pre, pre <+: schedule → (pre.foldl advance (start drv args)).Held) ↔
      EveryStep advance TakesFree (start drv args) schedule := by
  have hstart := inv_start args hfree
  rw [← everyStep_reached_iff hstart.held]
  have hiff : ∀ (s : Callers D) (id : Nat), s.Inv → ((s.advance id).Held ↔ s.TakesFree id) :=
    fun s id hs => hs.held_iff hD
  exact everyStep_congr hiff (fun s id hs htakes => hs.advance hD htakes) hstart

/-! ### Looking and taking in one go -/

/-- The caller saw the place free and has not taken it yet. -/
def Between (s : Callers D) (id : Nat) : Prop :=
  s.phase id = .looked ∨ ∃ v, s.phase id = .has v

/-- No caller looks while another is between its look and its taking. -/
def LooksAlone (s : Callers D) (id : Nat) : Prop :=
  ∀ next, (s.caller id).prog = .ask .vifEventArmed next → ∀ id', id' ≠ id → ¬s.Between id'

/-- The place is free for the one who is about to take it. -/
def Clear (s : Callers D) : Prop :=
  ∀ id, s.Between id → D.awaited s.drv = none ∧ ∀ id', id' ≠ id → ¬s.Between id'

theorem clear_start (drv : D.State) (args : Nat → List Char × BitVec 32) :
    (start drv args).Clear := by
  rintro id (h | ⟨v, h⟩) <;> exact Phase.noConfusion h

section Clear

variable {s : Callers D} {id : Nat} {o : DrvOp} {next : o.Ans → DrvProg (Except Int Vif)}

theorem between_of_ne {id' : Nat} (hne : id' ≠ id) : (s.advance id).Between id' ↔ s.Between id' := by
  simp only [Between, phase_advance_of_ne hne]

theorem Inv.between_of_takes (hs : s.Inv) {v : Vif} {next : Unit → DrvProg (Except Int Vif)}
    (h : (s.caller id).prog = .ask (.armVifEvent (some v)) next) : s.Between id := by
  have hmoves := hs.moves h
  generalize hphase : s.phase id = phase at hmoves
  cases hmoves with
  | takes vif => exact .inr ⟨v, hphase⟩
  | other _ _ harm _ _ _ => exact absurd rfl (harm _)

theorem Inv.takesFree (hs : s.Inv) (hclear : s.Clear) : s.TakesFree id :=
  fun _ _ hprog => (hclear id (hs.between_of_takes hprog)).1

variable (hD : D.Documented)
include hD

/-- Only a look at the free place gets a caller between. -/
theorem Inv.between_advance (hs : s.Inv) (h : (s.caller id).prog = .ask o next)
    (hbetween : (s.advance id).Between id) :
    s.Between id ∨ o = .vifEventArmed ∧ D.awaited s.drv = none := by
  have hmoves := hs.moves h
  rw [Between, phase_advance h] at hbetween
  rw [Between]
  generalize hphase : s.phase id = phase at hmoves hbetween ⊢
  cases hmoves with
  | looks =>
      refine .inr ⟨rfl, ?_⟩
      have hlooked := hD.looked s.drv
      cases hplace : D.awaited s.drv with
      | none => rfl
      | some v =>
          rw [hplace] at hlooked
          rw [hlooked] at hbetween
          rcases hbetween with hgone | ⟨v, hgone⟩ <;> exact Phase.noConfusion hgone
  | takes vif => rcases hbetween with hnow | ⟨v, hnow⟩ <;> exact Phase.noConfusion hnow
  | leaves vif => rcases hbetween with hnow | ⟨v, hnow⟩ <;> exact Phase.noConfusion hnow
  | allocates => exact .inl (.inl rfl)
  | other _ _ _ _ hnote _ =>
      rcases hnote (D.perform o s.drv).1 with hsame | ⟨hgone, -⟩
      · rw [hsame] at hbetween
        exact .inl hbetween
      · rw [hgone] at hbetween
        rcases hbetween with hnow | ⟨v, hnow⟩ <;> exact Phase.noConfusion hnow

/-- While a caller is between, the place stays free: nobody else looks, and only
who looked can take it. -/
theorem Inv.clear_advance (hs : s.Inv) (hclear : s.Clear) (halone : s.LooksAlone id) :
    (s.advance id).Clear := by
  cases hprog : (s.caller id).prog with
  | ret value =>
      rw [advance_ret hprog]
      exact hclear
  | ask o next =>
      have hplace := hs.place_advance hD hprog
      intro x hx
      by_cases hxid : x = id
      · rw [hxid] at hx
        have hsame : D.awaited (s.advance id).drv = D.awaited s.drv := by
          obtain ⟨v, -, hphase, -⟩ | ⟨v, -, -, hphase, -⟩ | ⟨-, hsame, -⟩ := hplace
          · rcases hx with hnow | ⟨w, hnow⟩ <;> exact Phase.noConfusion (hphase.symm.trans hnow)
          · rcases hx with hnow | ⟨w, hnow⟩ <;> exact Phase.noConfusion (hphase.symm.trans hnow)
          · exact hsame
        rw [hsame, hxid]
        rcases hs.between_advance hD hprog hx with hold | ⟨rfl, hnone⟩
        · obtain ⟨hnone, hothers⟩ := hclear id hold
          exact ⟨hnone, fun y hy => (between_of_ne hy).not.mpr (hothers y hy)⟩
        · exact ⟨hnone, fun y hy => (between_of_ne hy).not.mpr (halone next hprog y hy)⟩
      · rw [between_of_ne hxid] at hx
        obtain ⟨hnone, hothers⟩ := hclear x hx
        have hid : ¬s.Between id := hothers id (Ne.symm hxid)
        refine ⟨?_, fun y hy hbetween => ?_⟩
        · obtain ⟨v, rfl, -, -⟩ | ⟨v, -, -, -, hleft⟩ | ⟨-, hsame, -⟩ := hplace
          · exact absurd (hs.between_of_takes hprog) hid
          · exact hleft
          · rw [hsame, hnone]
        · by_cases hyid : y = id
          · rw [hyid] at hbetween
            rcases hs.between_advance hD hprog hbetween with hold | ⟨rfl, -⟩
            · exact hid hold
            · exact halone next hprog x hxid hx
          · exact hothers y hy ((between_of_ne hyid).mp hbetween)

end Clear

/-- If no caller looks while another is between its look and its taking, then the
event awaited is always the one of whoever waits, and with no one waiting the place
is free. -/
theorem looksAlone_held (hD : D.Documented) {drv : D.State} (hfree : D.awaited drv = none)
    (args : Nat → List Char × BitVec 32) {schedule : List Nat}
    (halone : EveryStep advance LooksAlone (start drv args) schedule) :
    (schedule.foldl advance (start drv args)).Held ∧
      ((∀ id v, (schedule.foldl advance (start drv args)).phase id ≠ .waits v) →
        D.awaited (schedule.foldl advance (start drv args)).drv = none) := by
  let Good : Callers D → Prop := fun s => s.Inv ∧ s.Clear
  have hstart : Good (start drv args) := ⟨inv_start args hfree, clear_start drv args⟩
  have hstep : ∀ (s : Callers D) (id : Nat), Good s → s.LooksAlone id → Good (s.advance id) :=
    fun s id ⟨hs, hclear⟩ hlooks =>
      ⟨hs.advance hD (hs.takesFree hclear), hs.clear_advance hD hclear hlooks⟩
  obtain ⟨hs, -⟩ := halone.reaches hstep hstart
  refine ⟨hs.held, fun hnone => ?_⟩
  by_contra htaken
  obtain ⟨v, hv⟩ := Option.ne_none_iff_exists'.mp htaken
  obtain ⟨id, hid⟩ := hs.owned v hv
  exact hnone id v hid

end Callers

/-! ### A driver that always goes along -/

/-- The vif awaited, and the first vif that was never handed out. -/
def Driver.easy : Driver where
  State := Option Vif × Nat
  perform
    | .vifEventArmed, s => (s.1.isSome, s)
    | .allocVif, s => (.ok s.2, (s.1, s.2 + 1))
    | .armVifEvent v, s => ((), (v, s.2))
    | .waitVifEvent, s | .hasIfp _, s => (true, s)
    | .cmdDown, s | .cmdUp, s | .setPsta _, s | .setPstaMrpt _, s | .netAttach _ _, s => (0, s)
    | .freeNetdev _, s | .freeVif _, s => ((), s)
  awaited s := s.1
  live s v := v < s.2

theorem Driver.easy_documented : Driver.easy.Documented where
  looked _ := rfl
  armed _ _ := rfl
  unarmed o s h := by
    cases o with
    | armVifEvent v => exact absurd rfl (h v)
    | _ => rfl
  fresh s v h := by
    obtain rfl : s.2 = v := Except.ok.inj h
    exact ⟨Nat.lt_irrefl s.2, Nat.lt_succ_self s.2⟩
  kept o s v hlive _ := by
    cases o with
    | allocVif => exact Nat.lt_succ_of_lt hlive
    | _ => exact hlive

namespace Callers

/-- Two callers look, one after the other, before either takes the place. -/
theorem held_run_twoLook :
    ¬∀ pre, pre <+: [0, 1, 0, 1, 0, 1] →
      (pre.foldl advance (start (D := Driver.easy) (none, 0) fun _ => ([], 0))).Held := by
  intro h
  have htakes := (held_run_iff Driver.easy_documented rfl (fun _ => ([], 0))
    [0, 1, 0, 1, 0, 1]).mp h
  obtain ⟨-, -, -, -, -, hsecond, -⟩ := htakes
  exact Option.some_ne_none 0 (hsecond 1 _ rfl)

/-- The second caller looks while the first one waits, and is told so. -/
theorem looksAlone_held_secondBusy :
    ([0, 0, 0, 1].foldl advance (start (D := Driver.easy) (none, 0) fun _ => ([], 0))).Held := by
  have halone : EveryStep advance LooksAlone (start (D := Driver.easy) (none, 0) fun _ => ([], 0))
      [0, 0, 0, 1] := by
    refine ⟨fun _ _ id _ => ?_, fun _ h => ?_, fun _ h => ?_, fun _ _ id hne => ?_, trivial⟩
    · rintro (h | ⟨v, h⟩) <;> exact Phase.noConfusion h
    · exact DrvOp.noConfusion (Prog.ask.inj h).1
    · exact DrvOp.noConfusion (Prog.ask.inj h).1
    · by_cases hid : id = 0
      · rw [hid]
        rintro (h | ⟨v, h⟩) <;> exact Phase.noConfusion h
      · rw [between_of_ne hid, between_of_ne hid, between_of_ne hid]
        rintro (h | ⟨v, h⟩) <;> exact Phase.noConfusion h
  exact (looksAlone_held Driver.easy_documented rfl (fun _ => ([], 0)) halone).1

end Callers

end R8000Plus.Radio
