import R8000Plus.Srab.Bus

/-!
The grant discipline of the SRAB bus: a requester gives the bus back on every
way out of a call, puts the other CTRLS bits back as it read them, and uses the
data registers only while it has the bus.
-/

namespace R8000Plus.Srab

open Effects

/-- What a call has seen of the bus so far. -/
structure Seen where
  /-- The last CTRLS word read. -/
  ctrls : Option Word
  /-- RCAGNT was read set. -/
  granted : Bool
  /-- GORDYN was read clear after the last command. -/
  completed : Bool
  /-- The low half of RD_L as read after that. -/
  data : Option Half

namespace Seen

def start : Seen := ⟨none, false, false, none⟩

def note (g : Seen) : (o : Access) → o.Ans → Seen
  | .readl .ctrls, word => { g with ctrls := some word, granted := g.granted || word.getLsbD 4 }
  | .readl .cmdstat, word => { g with completed := g.completed || !word.getLsbD 0 }
  | .readl .rdL, word => { g with data := if g.completed then some (word.setWidth 16) else g.data }
  | .readl .wdL, _ => g
  | .writel _ .cmdstat, _ => { g with completed := false, data := none }
  | .writel _ _, _ => g

/-- CTRLS is written back as it was read but for RCAREQ, and WD_L and CMDSTAT
are written only once RCAGNT was seen. -/
def Allows (g : Seen) : Access → Prop
  | .writel val .ctrls => ∃ read, g.ctrls = some read ∧
      val &&& ~~~B53_SRAB_CTRLS_RCAREQ = read &&& ~~~B53_SRAB_CTRLS_RCAREQ
  | .writel _ .wdL => g.granted = true
  | .writel _ .cmdstat => g.granted = true
  | _ => True

end Seen

def discipline {α : Type} (done : Seen → α → Prop) : Protocol Access Access.Ans Seen α where
  ok := Seen.Allows
  good _ _ _ := True
  update g o a := g.note o a
  done := done

/-- `*val` is assigned only what a completed operation left in RD_L. -/
def SrabCall.Assigns : (o : SrabCall) → Seen → o.Ans → Prop
  | .read16 _ _, g, (_, val) => ∀ v ∈ val, g.data = some v
  | .write16 _ _ _, _, _ => True

/-- The call keeps to the discipline, and RCAREQ is clear when it returns. -/
structure Disciplined (d : Dev) (o : SrabCall) : Prop where
  follows : o.body.ConformsIn Dev.perform (discipline o.Assigns) .start d
  released : (d.call o).2.ctrls.getLsbD 3 = false

/-- RCAGNT is seen within the polls of the call. -/
def Granted (d : Dev) (_ : SrabCall) : Prop := d.nextFate.grants = true

def next (d : Dev) (o : SrabCall) : Dev := (d.call o).2

/-! ### The discipline, whatever the hardware answers -/

section Conforms

variable (g : Seen)

theorem pollGrant_conforms (steps : Nat) :
    (pollGrant steps).Conforms (discipline fun g ret => ret = 0 → g.granted = true) g := by
  induction steps generalizing g with
  | zero => exact fun h => absurd h (by decide)
  | succ steps ih =>
      refine ⟨trivial, fun word _ => ?_⟩
      change Prog.Conforms _ _ (if word &&& B53_SRAB_CTRLS_RCAGNT ≠ 0 then _ else _)
      split
      · rename_i hgrant
        intro _
        change (g.granted || word.getLsbD 4) = true
        rw [(Dev.seesGrant_iff word).mp hgrant, Bool.or_true]
      · exact ih _

theorem rcareq_apart (word : Word) :
    (word ||| B53_SRAB_CTRLS_RCAREQ) &&& ~~~B53_SRAB_CTRLS_RCAREQ =
      word &&& ~~~B53_SRAB_CTRLS_RCAREQ := by
  apply BitVec.eq_of_getLsbD_eq
  intro i hi
  simp only [B53_SRAB_CTRLS_RCAREQ]
  interval_cases i <;> simp

theorem srabRequestGrant_conforms :
    srabRequestGrant.Conforms (discipline fun g ret => ret = 0 → g.granted = true) g := by
  refine ⟨trivial, fun word _ => ⟨⟨word, rfl, rcareq_apart word⟩, fun _ _ => ?_⟩⟩
  exact pollGrant_conforms _ _

theorem srabReleaseGrant_conforms :
    srabReleaseGrant.Conforms (discipline fun g' _ => g'.data = g.data) g := by
  refine ⟨trivial, fun word _ => ⟨⟨word, rfl, ?_⟩, fun _ _ => rfl⟩⟩
  rw [BitVec.and_assoc, BitVec.and_self]

theorem pollOp_conforms (steps : Nat) :
    (pollOp steps).Conforms (discipline fun g ret => ret = 0 → g.completed = true) g := by
  induction steps generalizing g with
  | zero => exact fun h => absurd h (by decide)
  | succ steps ih =>
      refine ⟨trivial, fun word _ => ?_⟩
      change Prog.Conforms _ _ (if word &&& B53_SRAB_CMDSTAT_GORDYN = 0 then _ else _)
      split
      · rename_i hdone
        intro _
        change (g.completed || !word.getLsbD 0) = true
        rw [(Dev.seesDone_iff word).mp hdone, Bool.not_false, Bool.or_true]
      · exact ih _

theorem srabOp_conforms (page reg : Byte) (op : Word) (hgranted : g.granted = true) :
    (srabOp page reg op).Conforms (discipline fun g ret => ret = 0 → g.completed = true) g :=
  ⟨hgranted, fun _ _ => pollOp_conforms _ _⟩

theorem takeData_conforms (ret : Int) (hdone : ret = 0 → g.completed = true) :
    (takeData ret).Conforms (discipline fun g val => ∀ v ∈ val, g.data = some v) g := by
  rw [takeData]
  split
  · rename_i hret
    refine ⟨trivial, fun word _ v hv => ?_⟩
    obtain rfl := Option.some.inj hv
    change (if g.completed then some (word.setWidth 16) else g.data) = _
    rw [hdone hret, if_pos rfl]
  · exact fun v hv => absurd hv (Option.not_mem_none v)

theorem conforms_bind {α β : Type} {mid : Seen → α → Prop} {done : Seen → β → Prop}
    {p : SrabProg α} {f : α → SrabProg β} {g : Seen} (hp : p.Conforms (discipline mid) g)
    (hf : ∀ g a, mid g a → (f a).Conforms (discipline done) g) :
    (p >>= f).Conforms (discipline done) g :=
  Prog.Conforms.bind hp hf

/-- Whatever the hardware answers, a call keeps to the discipline. -/
theorem body_conforms (o : SrabCall) : o.body.Conforms (discipline o.Assigns) .start := by
  cases o with
  | read16 page reg =>
      refine conforms_bind (srabRequestGrant_conforms _) fun g ret hret => ?_
      change Prog.Conforms _ _ (if ret ≠ 0 then _ else _)
      split
      · exact fun v hv => absurd hv (Option.not_mem_none v)
      · rename_i hzero
        have hgranted := hret (not_not.mp hzero)
        refine conforms_bind (srabOp_conforms g page reg 0 hgranted) fun g ret hdone => ?_
        refine conforms_bind (takeData_conforms g ret hdone) fun g val hval => ?_
        refine conforms_bind (srabReleaseGrant_conforms g) fun g' _ hdata => ?_
        intro v hv
        rw [hdata, hval v hv]
  | write16 page reg val =>
      refine conforms_bind (srabRequestGrant_conforms _) fun g ret hret => ?_
      change Prog.Conforms _ _ (if ret ≠ 0 then _ else _)
      split
      · trivial
      · rename_i hzero
        have hgranted := hret (not_not.mp hzero)
        refine ⟨hgranted, fun _ _ => ?_⟩
        change Prog.Conforms _ g (srabOp page reg B53_SRAB_CMDSTAT_WRITE >>= _)
        refine conforms_bind (srabOp_conforms g page reg _ hgranted) fun g ret _ => ?_
        exact conforms_bind (srabReleaseGrant_conforms g) fun g' _ _ => trivial

end Conforms

/-! ### Giving the bus back -/

/-- A call leaves RCAREQ set exactly when it was not granted the bus. -/
theorem call_rcareq (d : Dev) (o : SrabCall) :
    (d.call o).2.ctrls.getLsbD 3 = !d.nextFate.grants := by
  cases o with
  | read16 page reg =>
      obtain ⟨ctrls, rdL, asked, polled, hbit, hcall⟩ := d.read16_call page reg
      rw [hcall]
      exact hbit
  | write16 page reg val =>
      obtain ⟨ctrls, wdL, asked, polled, hbit, hcall⟩ := d.write16_call page reg val
      rw [hcall]
      exact hbit

theorem disciplined_iff (d : Dev) (o : SrabCall) : Disciplined d o ↔ Granted d o := by
  constructor
  · intro h
    have hreleased := h.released
    rwa [call_rcareq, Bool.not_eq_false'] at hreleased
  · intro hgranted
    refine ⟨(body_conforms o).conformsIn Dev.perform (fun _ _ _ => trivial) d, ?_⟩
    rw [call_rcareq, hgranted]
    rfl

/-- Over any calls the discipline is kept exactly when every one of them is
granted the bus within its polls. -/
theorem disciplined_run_iff (d : Dev) (calls : List SrabCall) :
    EveryStep next Disciplined d calls ↔ EveryStep next Granted d calls :=
  everyStep_congr (fun d o (_ : True) => disciplined_iff d o) (fun _ _ _ _ => trivial) trivial

/-- A call that times out waiting for the bus leaves its request standing. -/
theorem disciplined_run_ungranted :
    ¬ EveryStep next Disciplined (.reset fun _ => { Fate.clean with ctrls := fun _ => 0 })
      [.read16 0x0a 0xe0] := by
  intro hrun
  exact absurd hrun.1.released (by decide +kernel)

end R8000Plus.Srab
