import R8000Plus.Srab.Bus

/-!
The two modules that set a bit of a switch register for as long as they are
loaded, and the register they share with the live b53 driver. A module reads
the register, writes it back with the bit, and on unload writes what it read;
each of these is one transaction on the bus, and b53 writes between them.
-/

namespace R8000Plus.Srab

open Effects

/-- The register a module works on, and the bit it sets there. -/
structure PersistModule where
  page : Byte
  reg : Byte
  bit : Half

def PAGE_FC : Byte := 0x0a
def REG_FC_OOBPAUSE : Byte := 0xe0
def FC_OOBPAUSE_BIT : Half := 1 <<< 8

def PAGE_MMR : Byte := 0x02
def REG_BRCM_HDR : Byte := 0x03
def BRCM_HDR_ENABLE_BIT : Half := 1 <<< 0

def faSwitchOobpausePersist : PersistModule := ⟨PAGE_FC, REG_FC_OOBPAUSE, FC_OOBPAUSE_BIT⟩
def faSwitchBrcmhdrPersist : PersistModule := ⟨PAGE_MMR, REG_BRCM_HDR, BRCM_HDR_ENABLE_BIT⟩

/-- The static variables: whether `srab_base` is mapped, and the value read. -/
structure Statics where
  srabBase : Bool
  before : Half

def Statics.zero : Statics := ⟨false, 0⟩

abbrev CallProg := Prog SrabCall SrabCall.Ans

/-- The second half of init, once `val` is read. -/
def persistSet (m : PersistModule) (val : Half) : CallProg (Int × Statics) := do
  let ret ← Prog.request (SrabCall.write16 m.page m.reg (val ||| m.bit))
  if ret ≠ 0 then return (ret, ⟨false, val⟩)
  else return (0, ⟨true, val⟩)

/-- `mapped` is whether `ioremap` succeeds. -/
def persistInit (m : PersistModule) (mapped : Bool) : CallProg (Int × Statics) :=
  if mapped then do
    let (ret, val) ← Prog.request (SrabCall.read16 m.page m.reg)
    if ret ≠ 0 then return (ret, .zero)
    -- a read that returns zero has assigned `val`
    else persistSet m (val.getD 0)
  else return (-ENOMEM, .zero)

def persistExit (m : PersistModule) (st : Statics) : CallProg Statics := do
  if st.srabBase then
    let _ ← Prog.request (SrabCall.write16 m.page m.reg st.before)
    return { st with srabBase := false }
  else return st

/-! ### Loading and unloading beside b53 -/

inductive Stage where
  | absent
  | loading (p : CallProg (Int × Statics))
  | loaded (st : Statics)
  | unloading (p : CallProg Statics)

/-- The switch and the module. `last` and `own` are kept for what is said about
a run: the last value b53 wrote since the module read the register, and whether
the module was the last to write it. -/
structure Machine where
  dev : Dev
  stage : Stage
  /-- What b53 alone would have left in the register. -/
  baseline : Half
  last : Option Half
  own : Bool

inductive Event where
  /-- b53 writes the register. -/
  | b53 (val : Half)
  | insmod (mapped : Bool)
  | rmmod
  /-- The module's init or exit makes its next transaction, or returns. -/
  | module

def Event.isB53 : Event → Bool
  | .b53 _ => true
  | _ => false

def PersistModule.register (m : PersistModule) (d : Dev) : Half := d.regs m.page m.reg

namespace Machine

def fresh (m : PersistModule) (d : Dev) : Machine := ⟨d, .absent, m.register d, none, false⟩

def b53 (m : PersistModule) (val : Half) (s : Machine) : Machine :=
  { s with
    dev := { s.dev with regs := Dev.setReg s.dev.regs m.page m.reg val }
    baseline := val
    last := some val
    own := false }

/-- One transaction of the module. -/
def transact (o : SrabCall) (s : Machine) : Machine :=
  match o with
  | .read16 _ _ => { s with dev := (s.dev.call o).2, last := none }
  | .write16 _ _ _ =>
      { s with dev := (s.dev.call o).2, own := s.own || s.dev.nextFate.reaches }

/-- What the module does next. -/
def advance (s : Machine) : Machine :=
  match s.stage with
  | .absent => s
  | .loading (.ask o next) => { s.transact o with stage := .loading (next (s.dev.call o).1) }
  | .loading (.ret (ret, st)) => { s with stage := if ret = 0 then .loaded st else .absent }
  | .loaded _ => s
  | .unloading (.ask o next) => { s.transact o with stage := .unloading (next (s.dev.call o).1) }
  | .unloading (.ret _) => { s with stage := .absent }

def step (m : PersistModule) (s : Machine) : Event → Machine
  | .b53 val => s.b53 m val
  | .insmod mapped =>
      match s.stage with
      | .absent => { s with stage := .loading (persistInit m mapped), own := false }
      | _ => s
  | .rmmod =>
      match s.stage with
      | .loaded st => { s with stage := .unloading (persistExit m st) }
      | _ => s
  | .module => s.advance

end Machine

/-- With the module gone the register holds what the same b53 writes alone
leave in it. -/
def NoTrace (m : PersistModule) (d : Dev) (run : List Event) : Prop :=
  (run.foldl (Machine.step m) (.fresh m d)).stage = .absent →
    m.register (run.foldl (Machine.step m) (.fresh m d)).dev =
      m.register ((run.filter Event.isB53).foldl (Machine.step m) (.fresh m d)).dev

/-- The exit function is about to write the register. -/
def Stage.reverting : Stage → Bool
  | .unloading (.ask _ _) => true
  | _ => false

/-- The write of the exit function is granted the bus and completes. -/
def ExitCompletes (s : Machine) : Event → Prop
  | .module => s.stage.reverting = true →
      s.dev.nextFate.grants = true ∧ s.dev.nextFate.completes = true
  | _ => True

instance (s : Machine) : (e : Event) → Decidable (ExitCompletes s e)
  | .module => inferInstanceAs (Decidable (_ → _))
  | .b53 _ | .insmod _ | .rmmod => .isTrue trivial

/-- Where the module is the last to have written the register when it goes,
b53 has not written another value since the module's read: on a failed load
that is the value read with the bit set, on unload the value read. -/
def Undone (m : PersistModule) (s : Machine) (e : Event) : Prop :=
  match e, s.stage with
  | .module, .loading (.ret (ret, st)) =>
      ret ≠ 0 → s.own = true → s.last.getD st.before = st.before ||| m.bit
  | .module, .unloading (.ret st) => s.own = true → ∀ val ∈ s.last, val = st.before
  | _, _ => True

/-! ### What one transaction does to the register -/

section Calls

variable (m : PersistModule) (d : Dev)

theorem setReg_same (regs : Byte → Byte → Half) (page reg : Byte) (val : Half) :
    Dev.setReg regs page reg val page reg = val := by
  simp [Dev.setReg]

theorem read16_register (page reg : Byte) :
    m.register (d.call (.read16 page reg)).2 = m.register d := by
  obtain ⟨_, _, _, _, _, hcall⟩ := d.read16_call page reg
  rw [hcall]
  rfl

/-- A read that returns zero has assigned what the register holds. -/
theorem read16_value (h : (d.call (.read16 m.page m.reg)).1.1 = 0) :
    (d.call (.read16 m.page m.reg)).1.2 = some (m.register d) := by
  obtain ⟨_, _, _, _, _, hcall⟩ := d.read16_call m.page m.reg
  rw [hcall] at h ⊢
  by_cases hdone : (d.nextFate.grants && d.nextFate.completes) = true
  · rw [if_pos hdone]
    rfl
  · rw [if_neg hdone] at h
    have hnonzero : - EIO ≠ 0 := by decide
    exact absurd h hnonzero

theorem write16_register (val : Half) :
    m.register (d.call (.write16 m.page m.reg val)).2 =
      if d.nextFate.reaches then val else m.register d := by
  obtain ⟨_, _, _, _, _, hcall⟩ := d.write16_call m.page m.reg val
  rw [hcall]
  cases d.nextFate.reaches with
  | false => rfl
  | true => exact setReg_same d.regs m.page m.reg val

end Calls

theorem Fate.reaches_of_completes {f : Fate} (hgrants : f.grants = true)
    (hdone : f.completes = true) : f.reaches = true := by
  simp [Fate.reaches, hgrants, hdone]

/-! ### The register along a run -/

/-- The module has not written the register, or b53 has since. -/
def Machine.Others (m : PersistModule) (s : Machine) : Prop :=
  s.own = false ∧ m.register s.dev = s.baseline

/-- The module has read `val`, and b53's writes since are on record. -/
def Machine.Found (s : Machine) (val : Half) : Prop := s.baseline = s.last.getD val

/-- The register holds b53's value, or the module's `val` after it read `found`. -/
def Machine.Written (m : PersistModule) (found val : Half) (s : Machine) : Prop :=
  s.Others m ∨ s.own = true ∧ m.register s.dev = val ∧ s.Found found

/-- Where the module is, and what stands in the register then. -/
inductive Ledger (m : PersistModule) (s : Machine) : Prop
  | absent (hstage : s.stage = .absent) (hreg : m.register s.dev = s.baseline)
  | reading (hstage : s.stage = .loading (persistInit m true)) (hreg : s.Others m)
  | setting (val : Half) (hstage : s.stage = .loading (persistSet m val)) (hreg : s.Others m)
      (hfound : s.Found val)
  | failing (ret : Int) (st : Statics) (hstage : s.stage = .loading (.ret (ret, st)))
      (hret : ret ≠ 0) (hreg : s.Written m st.before (st.before ||| m.bit))
  | ending (st : Statics) (hstage : s.stage = .loading (.ret (0, st))) (hbase : st.srabBase = true)
      (hfound : s.Found st.before)
  | loaded (st : Statics) (hstage : s.stage = .loaded st) (hbase : st.srabBase = true)
      (hfound : s.Found st.before)
  | reverting (st : Statics) (hstage : s.stage = .unloading (persistExit m st))
      (hbase : st.srabBase = true) (hfound : s.Found st.before)
  | leaving (st : Statics) (hstage : s.stage = .unloading (.ret st))
      (hreg : s.Written m st.before st.before)

namespace Ledger

variable {m : PersistModule} {s : Machine}

theorem fresh (m : PersistModule) (d : Dev) : Ledger m (.fresh m d) := .absent rfl rfl

theorem others_b53 (m : PersistModule) (val : Half) (s : Machine) : (s.b53 m val).Others m :=
  ⟨rfl, setReg_same s.dev.regs m.page m.reg val⟩

theorem b53 (val : Half) (h : Ledger m s) : Ledger m (s.b53 m val) := by
  have hothers := others_b53 m val s
  cases h with
  | absent hstage hreg => exact .absent hstage hothers.2
  | reading hstage hreg => exact .reading hstage hothers
  | setting found hstage hreg hfound => exact .setting found hstage hothers rfl
  | failing ret st hstage hret hreg => exact .failing ret st hstage hret (.inl hothers)
  | ending st hstage hbase hfound => exact .ending st hstage hbase rfl
  | loaded st hstage hbase hfound => exact .loaded st hstage hbase rfl
  | reverting st hstage hbase hfound => exact .reverting st hstage hbase rfl
  | leaving st hstage hreg => exact .leaving st hstage (.inl hothers)

theorem insmod (mapped : Bool) (h : Ledger m s) : Ledger m (s.step m (.insmod mapped)) := by
  simp only [Machine.step]
  split
  · rename_i hstage
    cases h with
    | absent _ hreg =>
        cases mapped with
        | true => exact .reading rfl ⟨rfl, hreg⟩
        | false => exact .failing (-ENOMEM) .zero rfl (by decide) (.inl ⟨rfl, hreg⟩)
    | reading h | setting _ h | failing _ _ h | ending _ h | loaded _ h | reverting _ h
    | leaving _ h => exact absurd (h.symm.trans hstage) nofun
  · exact h

theorem rmmod (h : Ledger m s) : Ledger m (s.step m .rmmod) := by
  simp only [Machine.step]
  split
  · rename_i st' hstage
    cases h with
    | loaded st h hbase hfound =>
        obtain rfl : st = st' := Stage.loaded.inj (h.symm.trans hstage)
        exact .reverting st rfl hbase hfound
    | absent h | reading h | setting _ h | failing _ _ h | ending _ h | reverting _ h
    | leaving _ h => exact absurd (h.symm.trans hstage) nofun
  · exact h

theorem advance_loading {o : SrabCall} {next : o.Ans → CallProg (Int × Statics)}
    (hstage : s.stage = .loading (.ask o next)) :
    s.advance = { s.transact o with stage := .loading (next (s.dev.call o).1) } := by
  rw [Machine.advance, hstage]

theorem advance_unloading {o : SrabCall} {next : o.Ans → CallProg Statics}
    (hstage : s.stage = .unloading (.ask o next)) :
    s.advance = { s.transact o with stage := .unloading (next (s.dev.call o).1) } := by
  rw [Machine.advance, hstage]

/-- The read of init. Nothing is written by it. -/
theorem advance_reading (hstage : s.stage = .loading (persistInit m true))
    (hreg : s.Others m) : Ledger m s.advance := by
  rw [advance_loading hstage]
  have hregister := read16_register m s.dev m.page m.reg
  have hothers : (s.transact (.read16 m.page m.reg)).Others m :=
    ⟨hreg.1, hregister.trans hreg.2⟩
  by_cases hret : (s.dev.call (.read16 m.page m.reg)).1.1 = 0
  · refine .setting (m.register s.dev) ?_ hothers hreg.2.symm
    have hval := read16_value m s.dev hret
    change Stage.loading (if (s.dev.call (.read16 m.page m.reg)).1.1 ≠ 0 then _ else _) = _
    rw [if_neg (not_not.mpr hret), hval]
    rfl
  · refine .failing (s.dev.call (.read16 m.page m.reg)).1.1 .zero ?_ hret (.inl hothers)
    change Stage.loading (if (s.dev.call (.read16 m.page m.reg)).1.1 ≠ 0 then _ else _) = _
    rw [if_pos hret]
    rfl

/-- What a write of the module leaves in the register. -/
theorem transact_written {found : Half} (val : Half) (hreg : s.Others m)
    (hfound : s.Found found) :
    (s.transact (.write16 m.page m.reg val)).Written m found val := by
  have hregister := write16_register m s.dev val
  cases hreach : s.dev.nextFate.reaches with
  | false =>
      rw [hreach, if_neg Bool.false_ne_true] at hregister
      refine .inl ⟨?_, hregister.trans hreg.2⟩
      simp [Machine.transact, hreg.1, hreach]
  | true =>
      rw [hreach, if_pos rfl] at hregister
      refine .inr ⟨?_, hregister, hfound⟩
      simp [Machine.transact, hreach]

theorem advance_setting {val : Half} (hstage : s.stage = .loading (persistSet m val))
    (hreg : s.Others m) (hfound : s.Found val) : Ledger m s.advance := by
  rw [advance_loading hstage]
  have hwritten := transact_written (val ||| m.bit) hreg hfound
  by_cases hret : (s.dev.call (.write16 m.page m.reg (val ||| m.bit))).1 = 0
  · refine .ending ⟨true, val⟩ ?_ rfl hfound
    change Stage.loading (if (s.dev.call (.write16 m.page m.reg (val ||| m.bit))).1 ≠ 0
      then _ else _) = _
    rw [if_neg (not_not.mpr hret)]
    rfl
  · refine .failing _ ⟨false, val⟩ ?_ hret hwritten
    change Stage.loading (if (s.dev.call (.write16 m.page m.reg (val ||| m.bit))).1 ≠ 0
      then _ else _) = _
    rw [if_pos hret]
    rfl

theorem persistExit_mapped {st : Statics} (hbase : st.srabBase = true) :
    persistExit m st = .ask (.write16 m.page m.reg st.before)
      fun _ => .ret { st with srabBase := false } := by
  rw [persistExit, if_pos hbase]
  rfl

/-- The write of exit, which completes. -/
theorem advance_reverting {st : Statics} (hstage : s.stage = .unloading (persistExit m st))
    (hbase : st.srabBase = true) (hfound : s.Found st.before)
    (hexit : ExitCompletes s .module) : Ledger m s.advance := by
  rw [persistExit_mapped hbase] at hstage
  rw [advance_unloading hstage]
  obtain ⟨hgrants, hdone⟩ := hexit (by rw [hstage]; rfl)
  have hreach := Fate.reaches_of_completes hgrants hdone
  have hregister := write16_register m s.dev st.before
  rw [hreach, if_pos rfl] at hregister
  refine .leaving { st with srabBase := false } rfl (.inr ⟨?_, hregister, hfound⟩)
  simp [Machine.transact, hreach]

/-- Once the module is gone the register holds b53's value exactly when the
step that let it go was harmless. -/
theorem advance_failing {ret : Int} {st : Statics}
    (hstage : s.stage = .loading (.ret (ret, st))) (hret : ret ≠ 0)
    (hreg : s.Written m st.before (st.before ||| m.bit)) :
    m.register s.advance.dev = s.advance.baseline ↔ Undone m s .module := by
  have hadvance : s.advance = { s with stage := .absent } := by
    rw [Machine.advance, hstage]
    simp only [hret, if_false]
  simp only [hadvance, Undone, hstage]
  rcases hreg with ⟨hown, hreg⟩ | ⟨hown, hreg, hfound⟩
  · simp [hown, hreg]
  · rw [Machine.Found] at hfound
    simp only [hret, hown, hreg, hfound, ne_eq, not_false_eq_true, true_imp_iff]
    exact eq_comm

theorem getD_eq_iff {found val : Half} (last : Option Half) (h : found = val) :
    val = last.getD found ↔ ∀ v ∈ last, v = val := by
  subst h
  cases last with
  | none => simp
  | some v => simp [eq_comm]

theorem advance_leaving {st : Statics} (hstage : s.stage = .unloading (.ret st))
    (hreg : s.Written m st.before st.before) :
    m.register s.advance.dev = s.advance.baseline ↔ Undone m s .module := by
  have hadvance : s.advance = { s with stage := .absent } := by
    rw [Machine.advance, hstage]
  simp only [hadvance, Undone, hstage]
  rcases hreg with ⟨hown, hreg⟩ | ⟨hown, hreg, hfound⟩
  · simp [hown, hreg]
  · rw [Machine.Found] at hfound
    simp only [hown, hreg, hfound, true_imp_iff]
    exact getD_eq_iff s.last rfl

end Ledger

/-! ### Runs -/

/-- The module is loaded in part, or it has left no trace. -/
def Machine.Clear (m : PersistModule) (s : Machine) : Prop :=
  s.stage = .absent → m.register s.dev = s.baseline

namespace Ledger

variable {m : PersistModule} {s : Machine}

theorem clear (h : Ledger m s) : s.Clear m := by
  intro habsent
  cases h with
  | absent _ hreg => exact hreg
  | reading h | setting _ h | failing _ _ h | ending _ h | loaded _ h | reverting _ h
  | leaving _ h => exact absurd (h.symm.trans habsent) nofun

/-- What is to be shown of a step: it leaves a trace exactly when the module's
last write is not undone by then. -/
def Settled (m : PersistModule) (s : Machine) (e : Event) : Prop :=
  ((s.step m e).Clear m ↔ Undone m s e) ∧ (Undone m s e → Ledger m (s.step m e))

theorem settled_of_next {e : Event} (hnext : Ledger m (s.step m e)) (hundone : Undone m s e) :
    Settled m s e :=
  ⟨iff_of_true hnext.clear hundone, fun _ => hnext⟩

theorem settled_of_gone {e : Event} (habsent : (s.step m e).stage = .absent)
    (hiff : m.register (s.step m e).dev = (s.step m e).baseline ↔ Undone m s e) :
    Settled m s e :=
  ⟨⟨fun hclear => hiff.mp (hclear habsent), fun hundone _ => hiff.mpr hundone⟩,
    fun hundone => .absent habsent (hiff.mpr hundone)⟩

theorem settled_module (h : Ledger m s) (hexit : ExitCompletes s .module) :
    Settled m s .module := by
  have hstay (hadvance : s.advance = s) (hundone : Undone m s .module) : Settled m s .module :=
    settled_of_next (by rwa [Machine.step, hadvance]) hundone
  cases h with
  | absent hstage hreg =>
      refine hstay ?_ ?_
      · rw [Machine.advance, hstage]
      · simp only [Undone, hstage]
  | reading hstage hreg =>
      refine settled_of_next (advance_reading hstage hreg) ?_
      simp only [Undone, hstage]
      trivial
  | setting val hstage hreg hfound =>
      refine settled_of_next (advance_setting hstage hreg hfound) ?_
      simp only [Undone, hstage]
      trivial
  | failing ret st hstage hret hreg =>
      refine settled_of_gone ?_ (advance_failing hstage hret hreg)
      simp only [Machine.step, Machine.advance, hstage, hret, if_false]
  | ending st hstage hbase hfound =>
      have hadvance : s.advance = { s with stage := .loaded st } := by
        rw [Machine.advance, hstage]
        rfl
      refine settled_of_next ?_ ?_
      · rw [Machine.step, hadvance]
        exact .loaded st rfl hbase hfound
      · simp only [Undone, hstage]
        exact fun hzero => absurd rfl hzero
  | loaded st hstage hbase hfound =>
      refine hstay ?_ ?_
      · rw [Machine.advance, hstage]
      · simp only [Undone, hstage]
  | reverting st hstage hbase hfound =>
      refine settled_of_next (advance_reverting hstage hbase hfound hexit) ?_
      rw [persistExit_mapped hbase] at hstage
      simp only [Undone, hstage]
  | leaving st hstage hreg =>
      refine settled_of_gone ?_ (advance_leaving hstage hreg)
      simp only [Machine.step, Machine.advance, hstage]

theorem settled (h : Ledger m s) (e : Event) (hexit : ExitCompletes s e) : Settled m s e := by
  cases e with
  | b53 val => exact settled_of_next (h.b53 val) trivial
  | insmod mapped => exact settled_of_next (h.insmod mapped) trivial
  | rmmod => exact settled_of_next h.rmmod trivial
  | module => exact h.settled_module hexit

end Ledger

theorem advance_baseline (s : Machine) : s.advance.baseline = s.baseline := by
  have htransact (o : SrabCall) : (s.transact o).baseline = s.baseline := by
    cases o <;> rfl
  unfold Machine.advance
  split
  case h_2 | h_5 => exact htransact _
  all_goals rfl

theorem step_baseline (m : PersistModule) (s : Machine) {e : Event} (he : e.isB53 = false) :
    (s.step m e).baseline = s.baseline := by
  cases e with
  | b53 val => exact absurd he (by simp [Event.isB53])
  | insmod mapped | rmmod =>
      simp only [Machine.step]
      split <;> rfl
  | module => exact advance_baseline s

/-- `baseline` is the register of the run without the module. -/
theorem baseline_alone (m : PersistModule) (run : List Event) {s t : Machine}
    (h : s.baseline = m.register t.dev) :
    (run.foldl (Machine.step m) s).baseline =
      m.register ((run.filter Event.isB53).foldl (Machine.step m) t).dev := by
  induction run generalizing s t with
  | nil => exact h
  | cons e run ih =>
      cases he : e.isB53 with
      | true =>
          rw [List.filter_cons_of_pos he]
          cases e with
          | b53 val => exact ih (setReg_same t.dev.regs m.page m.reg val).symm
          | insmod mapped | rmmod | module => exact absurd he Bool.false_ne_true
      | false =>
          rw [List.filter_cons_of_neg (he ▸ Bool.false_ne_true)]
          exact ih ((step_baseline m s he).trans h)

theorem noTrace_iff (m : PersistModule) (d : Dev) (run : List Event) :
    NoTrace m d run ↔ (run.foldl (Machine.step m) (.fresh m d)).Clear m := by
  rw [NoTrace, Machine.Clear, baseline_alone m run (t := .fresh m d) rfl]

/-- With every exit write completing, the module leaves no trace at any time in
a run exactly when each of its last writes is undone. -/
theorem noTrace_run_iff (m : PersistModule) (d : Dev) (run : List Event)
    (hexit : EveryStep (Machine.step m) ExitCompletes (.fresh m d) run) :
    (∀ pre, pre <+: run → NoTrace m d pre) ↔
      EveryStep (Machine.step m) (Undone m) (.fresh m d) run := by
  have hinit := Ledger.fresh m d
  simp only [noTrace_iff]
  rw [← everyStep_reached_iff (P := Machine.Clear m) hinit.clear run]
  exact everyStep_congr_of (fun s e h hexit => (h.settled e hexit).1)
    (fun s e h hexit => (h.settled e hexit).2) hinit hexit

/-- Load, a write of b53, unload. -/
def overtaken : List Event :=
  [.insmod true, .module, .module, .module, .b53 1, .rmmod, .module, .module]

theorem overtaken_exit : EveryStep (Machine.step faSwitchOobpausePersist) ExitCompletes
    (.fresh faSwitchOobpausePersist (.reset fun _ => .clean)) overtaken := by
  decide +kernel

theorem noTrace_run_overtaken :
    (∀ pre, pre <+: overtaken → NoTrace faSwitchOobpausePersist (.reset fun _ => .clean) pre) ↔
      EveryStep (Machine.step faSwitchOobpausePersist) (Undone faSwitchOobpausePersist)
        (.fresh faSwitchOobpausePersist (.reset fun _ => .clean)) overtaken :=
  noTrace_run_iff faSwitchOobpausePersist (.reset fun _ => .clean) overtaken
    overtaken_exit

/-- The exit write takes back what b53 wrote while the module was loaded. -/
theorem noTrace_lost_update :
    EveryStep (Machine.step faSwitchOobpausePersist) ExitCompletes
        (.fresh faSwitchOobpausePersist (.reset fun _ => .clean)) overtaken ∧
      ¬ NoTrace faSwitchOobpausePersist (.reset fun _ => .clean) overtaken := by
  refine ⟨overtaken_exit, fun h => ?_⟩
  exact absurd (h rfl) (by decide +kernel)

end R8000Plus.Srab
