import R8000Plus.Effects.Protocol

/-!
`brcmf_start_psta_repeater`, and what it does with the vif it allocates and with
the one place that the driver has for the vif whose event is awaited.
-/

namespace R8000Plus.Radio

open Effects

/-! ### The function -/

/-- A pointer to a vif. -/
abbrev Vif := Nat

inductive DrvOp where
  | vifEventArmed
  | allocVif
  | armVifEvent (vif : Option Vif)
  | cmdDown
  | cmdUp
  | setPsta (mode : Nat)
  | setPstaMrpt (mrpt : BitVec 32)
  | waitVifEvent
  | hasIfp (vif : Vif)
  | netAttach (vif : Vif) (ifname : List Char)
  | freeNetdev (vif : Vif)
  | freeVif (vif : Vif)

/-- An error is a negative errno; the wait tells whether the event came. -/
abbrev DrvOp.Ans : DrvOp → Type
  | .vifEventArmed | .waitVifEvent | .hasIfp _ => Bool
  | .allocVif => Except Int Vif
  | .cmdDown | .cmdUp | .setPsta _ | .setPstaMrpt _ | .netAttach _ _ => Int
  | .armVifEvent _ | .freeNetdev _ | .freeVif _ => Unit

abbrev DrvProg := Prog DrvOp DrvOp.Ans

def BRCMF_PSTA_MODE_REPEATER : Nat := 2

def EBUSY : Int := 16
def EIO : Int := 5
def ENOENT : Int := 2

/-- From the label `fail_free` on. -/
def failFree (vif : Vif) (err : Int) : DrvProg (Except Int Vif) := do
  Prog.request (DrvOp.freeVif vif)
  return .error err

def failDisarm (vif : Vif) (err : Int) : DrvProg (Except Int Vif) := do
  Prog.request (DrvOp.armVifEvent none)
  failFree vif err

/-- From the event on; the netdev returned is the one of the vif. -/
def attachVif (vif : Vif) (ifname : List Char) (came : Bool) : DrvProg (Except Int Vif) := do
  if !came then failFree vif (- EIO)
  else if !(← Prog.request (DrvOp.hasIfp vif)) then failFree vif (-ENOENT)
  else
    let err ← Prog.request (DrvOp.netAttach vif ifname)
    if err ≠ 0 then
      Prog.request (DrvOp.freeNetdev vif)
      failFree vif err
    else return .ok vif

/-- With the event armed. -/
def triggerPsta (vif : Vif) (ifname : List Char) (mrpt : BitVec 32) :
    DrvProg (Except Int Vif) := do
  let err ← Prog.request DrvOp.cmdDown
  if err ≠ 0 then failDisarm vif err
  else
    let err ← Prog.request (DrvOp.setPsta BRCMF_PSTA_MODE_REPEATER)
    if err ≠ 0 then
      let _ ← Prog.request DrvOp.cmdUp
      failDisarm vif err
    else
      let _ ← Prog.request (DrvOp.setPstaMrpt mrpt)
      let err ← Prog.request DrvOp.cmdUp
      if err ≠ 0 then failDisarm vif err
      else
        let came ← Prog.request DrvOp.waitVifEvent
        Prog.request (DrvOp.armVifEvent none)
        attachVif vif ifname came

def brcmfStartPstaRepeater (ifname : List Char) (mrpt : BitVec 32) :
    DrvProg (Except Int Vif) := do
  if ← Prog.request DrvOp.vifEventArmed then return .error (-EBUSY)
  else
    match ← Prog.request DrvOp.allocVif with
    | .error err => return .error err
    | .ok vif =>
        Prog.request (DrvOp.armVifEvent (some vif))
        triggerPsta vif ifname mrpt

/-! ### How far a caller is -/

inductive Phase where
  | outside
  /-- The place was seen free. -/
  | looked
  | has (vif : Vif)
  /-- The place was taken for the vif. -/
  | waits (vif : Vif)
  /-- The place was left. -/
  | back (vif : Vif)
  | gone
  deriving DecidableEq

/-- The vif a caller has to free or to attach. -/
def Phase.vif : Phase → Option Vif
  | .has vif | .waits vif | .back vif => some vif
  | _ => none

def Phase.note : Phase → (o : DrvOp) → o.Ans → Phase
  | .outside, .vifEventArmed, armed => if armed then .gone else .looked
  | .looked, .allocVif, .ok vif => .has vif
  | .looked, .allocVif, .error _ => .gone
  | .has vif, .armVifEvent _, _ => .waits vif
  | .waits vif, .armVifEvent _, _ => .back vif
  | .back vif, .netAttach _ _, err => if err ≠ 0 then .back vif else .gone
  | .back _, .freeVif _, _ => .gone
  | phase, _, _ => phase

def Phase.Allows : Phase → DrvOp → Prop
  | .outside, .vifEventArmed => True
  | .looked, .allocVif => True
  | .has vif, .armVifEvent v => v = some vif
  | .waits _, .armVifEvent v => v = none
  | .waits _, .cmdDown | .waits _, .cmdUp | .waits _, .setPsta _ => True
  | .waits _, .setPstaMrpt _ | .waits _, .waitVifEvent => True
  | .back vif, .hasIfp v | .back vif, .netAttach v _ | .back vif, .freeNetdev v => v = vif
  | .back vif, .freeVif v => v = vif
  | _, _ => False

/-- What a caller does with the place and its vif: the vif is attached or freed,
once, and not used after. -/
def custody : Protocol DrvOp DrvOp.Ans Phase (Except Int Vif) where
  ok := Phase.Allows
  good := fun _ _ _ => True
  update := Phase.note
  done := fun phase _ => phase = .gone

/-- A call that is allowed looks at the place, takes it, leaves it, allocates a
vif, or does none of these; then the caller is where it was, or done. -/
inductive Phase.Moves : Phase → DrvOp → Prop
  | looks : Moves .outside .vifEventArmed
  | takes (vif : Vif) : Moves (.has vif) (.armVifEvent (some vif))
  | leaves (vif : Vif) : Moves (.waits vif) (.armVifEvent none)
  | allocates : Moves .looked .allocVif
  | other (phase : Phase) (o : DrvOp) (harm : ∀ v, o ≠ .armVifEvent v)
      (hfree : ∀ v, o = .freeVif v → phase = .back v)
      (hnote : ∀ a, phase.note o a = phase ∨ phase.note o a = .gone ∧ ∀ v, phase ≠ .waits v)
      (hfreed : ∀ v a, o = .freeVif v → phase.note o a = .gone) : Moves phase o

/-- A call that leaves the caller where it is. -/
theorem Phase.Moves.still {phase : Phase} {o : DrvOp} (harm : ∀ v, o ≠ .armVifEvent v)
    (hfree : ∀ v, o ≠ .freeVif v) (hnote : ∀ a, phase.note o a = phase) : phase.Moves o :=
  .other phase o harm (fun v h => absurd h (hfree v)) (fun a => .inl (hnote a))
    fun v _ h => absurd h (hfree v)

theorem Phase.moves {phase : Phase} {o : DrvOp} (h : phase.Allows o) : phase.Moves o := by
  cases phase with
  | outside =>
      cases o with
      | vifEventArmed => exact .looks
      | _ => exact h.elim
  | looked =>
      cases o with
      | allocVif => exact .allocates
      | _ => exact h.elim
  | has vif =>
      cases o with
      | armVifEvent v =>
          obtain rfl : v = some vif := h
          exact .takes vif
      | _ => exact h.elim
  | waits vif =>
      cases o with
      | armVifEvent v =>
          obtain rfl : v = none := h
          exact .leaves vif
      | cmdDown | cmdUp | setPsta _ | setPstaMrpt _ | waitVifEvent =>
          exact .still (fun _ => DrvOp.noConfusion) (fun _ => DrvOp.noConfusion) fun _ => rfl
      | _ => exact h.elim
  | back vif =>
      cases o with
      | hasIfp v | freeNetdev v =>
          exact .still (fun _ => DrvOp.noConfusion) (fun _ => DrvOp.noConfusion) fun _ => rfl
      | netAttach v ifname =>
          refine .other _ _ (fun _ => DrvOp.noConfusion) (fun _ => DrvOp.noConfusion) ?_
            fun _ _ => DrvOp.noConfusion
          intro err
          by_cases herr : err = 0
          · exact .inr ⟨if_neg (not_not.mpr herr), fun _ => Phase.noConfusion⟩
          · exact .inl (if_pos herr)
      | freeVif v =>
          obtain rfl : v = vif := h
          refine .other _ _ (fun _ => DrvOp.noConfusion) ?_
            (fun _ => .inr ⟨rfl, fun _ => Phase.noConfusion⟩) fun _ _ _ => rfl
          intro w hw
          rw [DrvOp.freeVif.inj hw]
      | _ => exact h.elim
  | gone => cases o <;> exact h.elim

theorem failFree_conforms (vif : Vif) (err : Int) :
    (failFree vif err).Conforms custody (.back vif) := ⟨rfl, fun _ _ => rfl⟩

theorem failDisarm_conforms (vif : Vif) (err : Int) :
    (failDisarm vif err).Conforms custody (.waits vif) :=
  ⟨rfl, fun _ _ => failFree_conforms vif err⟩

theorem attachVif_conforms (vif : Vif) (ifname : List Char) (came : Bool) :
    (attachVif vif ifname came).Conforms custody (.back vif) := by
  cases came with
  | false => exact failFree_conforms vif (- EIO)
  | true =>
      refine ⟨rfl, fun ifp _ => ?_⟩
      cases ifp with
      | false => exact failFree_conforms vif (-ENOENT)
      | true =>
          refine ⟨rfl, fun err _ => ?_⟩
          by_cases herr : err = 0
          · rw [herr]
            rfl
          · change ((if err ≠ 0 then _ else _ : DrvProg _)).Conforms custody
              (if err ≠ 0 then .back vif else .gone)
            rw [if_pos herr, if_pos herr]
            exact ⟨rfl, fun _ _ => failFree_conforms vif err⟩

theorem triggerPsta_conforms (vif : Vif) (ifname : List Char) (mrpt : BitVec 32) :
    (triggerPsta vif ifname mrpt).Conforms custody (.waits vif) := by
  refine ⟨trivial, fun down _ => ?_⟩
  change ((if down ≠ 0 then _ else _ : DrvProg _)).Conforms custody (.waits vif)
  split
  · exact failDisarm_conforms vif down
  · refine ⟨trivial, fun set _ => ?_⟩
    change ((if set ≠ 0 then _ else _ : DrvProg _)).Conforms custody (.waits vif)
    split
    · exact ⟨trivial, fun _ _ => failDisarm_conforms vif set⟩
    · refine ⟨trivial, fun _ _ => ⟨trivial, fun up _ => ?_⟩⟩
      change ((if up ≠ 0 then _ else _ : DrvProg _)).Conforms custody (.waits vif)
      split
      · exact failDisarm_conforms vif up
      · exact ⟨trivial, fun came _ => ⟨rfl, fun _ _ => attachVif_conforms vif ifname came⟩⟩

theorem brcmfStartPstaRepeater_conforms (ifname : List Char) (mrpt : BitVec 32) :
    (brcmfStartPstaRepeater ifname mrpt).Conforms custody .outside := by
  refine ⟨trivial, fun armed _ => ?_⟩
  cases armed with
  | true => rfl
  | false =>
      refine ⟨trivial, fun vif _ => ?_⟩
      cases vif with
      | error err => rfl
      | ok vif => exact ⟨rfl, fun _ _ => triggerPsta_conforms vif ifname mrpt⟩

end R8000Plus.Radio
