import R8000Plus.Effects.Protocol
import R8000Plus.Effects.Runs

/-!
The SRAB bus of the switch: the register accesses of `srab_read16` and
`srab_write16`, which three modules carry verbatim, and the bus they run on.
The CTRLS bit RCAREQ belongs to the requester; every other bit the hardware
answers is a part of the bus state, drawn anew with each request.
-/

namespace R8000Plus.Srab

open Effects

abbrev Word := BitVec 32
abbrev Half := BitVec 16
abbrev Byte := BitVec 8

/-- The registers at offsets 0x2c, 0x34, 0x3c and 0x40. -/
inductive SrabReg where
  | cmdstat
  | wdL
  | rdL
  | ctrls
  deriving DecidableEq, Repr

def B53_SRAB_CMDSTAT_WRITE : Word := 1 <<< 1
def B53_SRAB_CMDSTAT_GORDYN : Word := 1 <<< 0
def B53_SRAB_CMDSTAT_PAGE_SHIFT : Nat := 24
def B53_SRAB_CMDSTAT_REG_SHIFT : Nat := 16

def B53_SRAB_CTRLS_RCAREQ : Word := 1 <<< 3
def B53_SRAB_CTRLS_RCAGNT : Word := 1 <<< 4

def SRAB_GRANT_POLL_STEPS : Nat := 20
def SRAB_OP_POLL_STEPS : Nat := 5

def EIO : Int := 5
def ENOMEM : Int := 12

inductive Access where
  | readl (reg : SrabReg)
  | writel (val : Word) (reg : SrabReg)
  deriving DecidableEq, Repr

abbrev Access.Ans : Access → Type
  | .readl _ => Word
  | .writel _ _ => Unit

abbrev SrabProg := Prog Access Access.Ans

def readl (reg : SrabReg) : SrabProg Word := .request (Access.readl reg)

def writel (val : Word) (reg : SrabReg) : SrabProg Unit := .request (Access.writel val reg)

/-! ### The access functions -/

/-- The loop of `srab_request_grant` with `steps` rounds left. -/
def pollGrant : Nat → SrabProg Int
  | 0 => return - EIO
  | steps + 1 => do
      let ctrls ← readl .ctrls
      if ctrls &&& B53_SRAB_CTRLS_RCAGNT ≠ 0 then return 0
      else pollGrant steps

def srabRequestGrant : SrabProg Int := do
  let ctrls ← readl .ctrls
  writel (ctrls ||| B53_SRAB_CTRLS_RCAREQ) .ctrls
  pollGrant SRAB_GRANT_POLL_STEPS

def srabReleaseGrant : SrabProg Unit := do
  let ctrls ← readl .ctrls
  writel (ctrls &&& ~~~B53_SRAB_CTRLS_RCAREQ) .ctrls

def cmdstatOf (page reg : Byte) (op : Word) : Word :=
  (page.setWidth 32 <<< B53_SRAB_CMDSTAT_PAGE_SHIFT) |||
    (reg.setWidth 32 <<< B53_SRAB_CMDSTAT_REG_SHIFT) ||| B53_SRAB_CMDSTAT_GORDYN ||| op

/-- The loop of `srab_op` with `steps` rounds left. -/
def pollOp : Nat → SrabProg Int
  | 0 => return - EIO
  | steps + 1 => do
      let cmdstat ← readl .cmdstat
      if cmdstat &&& B53_SRAB_CMDSTAT_GORDYN = 0 then return 0
      else pollOp steps

def srabOp (page reg : Byte) (op : Word) : SrabProg Int := do
  writel (cmdstatOf page reg op) .cmdstat
  pollOp SRAB_OP_POLL_STEPS

/-- `if (!ret) *val = readl(srab_base + B53_SRAB_RD_L) & 0xffff`. -/
def takeData (ret : Int) : SrabProg (Option Half) := do
  if ret = 0 then
    let data ← readl .rdL
    return some (data.setWidth 16)
  else return none

/-- The second component is what is assigned to `*val`, if anything is. -/
def srabRead16 (page reg : Byte) : SrabProg (Int × Option Half) := do
  let ret ← srabRequestGrant
  if ret ≠ 0 then return (ret, none)
  else
    let ret ← srabOp page reg 0
    let val ← takeData ret
    srabReleaseGrant
    return (ret, val)

def srabWrite16 (page reg : Byte) (val : Half) : SrabProg Int := do
  let ret ← srabRequestGrant
  if ret ≠ 0 then return ret
  else
    writel (val.setWidth 32) .wdL
    let ret ← srabOp page reg B53_SRAB_CMDSTAT_WRITE
    srabReleaseGrant
    return ret

inductive SrabCall where
  | read16 (page reg : Byte)
  | write16 (page reg : Byte) (val : Half)
  deriving DecidableEq, Repr

abbrev SrabCall.Ans : SrabCall → Type
  | .read16 _ _ => Int × Option Half
  | .write16 _ _ _ => Int

def SrabCall.body : (o : SrabCall) → SrabProg o.Ans
  | .read16 page reg => srabRead16 page reg
  | .write16 page reg val => srabWrite16 page reg val

/-! ### The bus -/

/-- What the hardware answers from one request for the bus to the next: the
CTRLS and CMDSTAT words of successive reads, whether a write that is not seen
to complete still reaches its register, and the upper half of RD_L. -/
structure Fate where
  ctrls : Nat → Word
  cmdstat : Nat → Word
  lands : Bool
  upper : Half

namespace Fate

def grantAt (f : Fate) (k : Nat) : Bool := (f.ctrls k).getLsbD 4

def doneAt (f : Fate) (k : Nat) : Bool := !(f.cmdstat k).getLsbD 0

/-- RCAGNT is seen within the polls of `srab_request_grant`. -/
def grants (f : Fate) : Bool := (List.range SRAB_GRANT_POLL_STEPS).any f.grantAt

/-- GORDYN is seen clear within the polls of `srab_op`. -/
def completes (f : Fate) : Bool := (List.range SRAB_OP_POLL_STEPS).any f.doneAt

/-- A write reaches its register. -/
def reaches (f : Fate) : Bool := f.grants && (f.completes || f.lands)

/-- Granted and completed at the first poll. -/
def clean : Fate :=
  { ctrls := fun _ => B53_SRAB_CTRLS_RCAGNT, cmdstat := fun _ => 0, lands := true, upper := 0 }

end Fate

structure Dev where
  /-- CTRLS as last written, which is where RCAREQ is kept. -/
  ctrls : Word
  wdL : Word
  rdL : Word
  /-- The switch registers, by page and register. -/
  regs : Byte → Byte → Half
  /-- The last request for the bus, as an index into `fates`. -/
  turn : Nat
  /-- CTRLS reads since that request. -/
  asked : Nat
  /-- CMDSTAT reads since the last command. -/
  polled : Nat
  fates : Nat → Fate

namespace Dev

/-- A bus that has not been used, all registers zero. -/
def reset (fates : Nat → Fate) : Dev := ⟨0, 0, 0, fun _ _ => 0, 0, 0, 0, fates⟩

abbrev fate (d : Dev) : Fate := d.fates d.turn

/-- The fate of the request made next. -/
abbrev nextFate (d : Dev) : Fate := d.fates (d.turn + 1)

def ctrlsWord (d : Dev) : Word :=
  (d.fate.ctrls d.asked &&& ~~~B53_SRAB_CTRLS_RCAREQ) ||| (d.ctrls &&& B53_SRAB_CTRLS_RCAREQ)

def readl (d : Dev) : SrabReg → Word × Dev
  | .cmdstat => (d.fate.cmdstat d.polled, { d with polled := d.polled + 1 })
  | .wdL => (d.wdL, d)
  | .rdL => (d.rdL, d)
  | .ctrls => (d.ctrlsWord, { d with asked := d.asked + 1 })

def setReg (regs : Byte → Byte → Half) (page reg : Byte) (val : Half) : Byte → Byte → Half :=
  fun p r => if p = page ∧ r = reg then val else regs p r

/-- A command written to CMDSTAT. -/
def command (d : Dev) (val : Word) : Dev :=
  let page := val.extractLsb' 24 8
  let reg := val.extractLsb' 16 8
  if val.getLsbD 1 then
    if d.fate.completes || d.fate.lands then
      { d with polled := 0, regs := setReg d.regs page reg (d.wdL.setWidth 16) }
    else { d with polled := 0 }
  else if d.fate.completes then
    { d with polled := 0, rdL := d.fate.upper ++ d.regs page reg }
  else { d with polled := 0 }

def writel (d : Dev) (val : Word) : SrabReg → Dev
  | .cmdstat => d.command val
  | .wdL => { d with wdL := val }
  | .rdL => d
  | .ctrls =>
      if val.getLsbD 3 then { d with ctrls := val, turn := d.turn + 1, asked := 0 }
      else { d with ctrls := val }

def perform : (o : Access) → Dev → o.Ans × Dev
  | .readl reg, d => d.readl reg
  | .writel val reg, d => ((), d.writel val reg)

/-- One call from the request for the bus to its return. -/
def call (o : SrabCall) (d : Dev) : o.Ans × Dev := o.body.run perform d

@[simp] theorem perform_readl (reg : SrabReg) (d : Dev) :
    perform (.readl reg) d = d.readl reg := rfl

@[simp] theorem perform_writel (val : Word) (reg : SrabReg) (d : Dev) :
    perform (.writel val reg) d = ((), d.writel val reg) := rfl

/-! ### What the registers answer -/

theorem and_twoPow_eq_zero (x : Word) (i : Nat) (hi : i < 32) :
    x &&& BitVec.twoPow 32 i = 0 ↔ x.getLsbD i = false := by
  rw [BitVec.and_twoPow]
  split
  · rename_i hbit
    refine iff_of_false (fun h => ?_) (by simp [hbit])
    have hself : (BitVec.twoPow 32 i).getLsbD i = true := by simp [hi]
    rw [h] at hself
    simp at hself
  · rename_i hbit
    exact iff_of_true rfl (by simpa using hbit)

theorem seesGrant_iff (x : Word) : x &&& B53_SRAB_CTRLS_RCAGNT ≠ 0 ↔ x.getLsbD 4 = true := by
  have hzero := and_twoPow_eq_zero x 4 (by decide)
  rw [show B53_SRAB_CTRLS_RCAGNT = BitVec.twoPow 32 4 from rfl, ne_eq, hzero, Bool.not_eq_false]

theorem seesDone_iff (x : Word) :
    x &&& B53_SRAB_CMDSTAT_GORDYN = 0 ↔ x.getLsbD 0 = false :=
  and_twoPow_eq_zero x 0 (by decide)

/-- The hardware's bits of CTRLS come from the hardware. -/
theorem ctrlsWord_grant (d : Dev) : d.ctrlsWord.getLsbD 4 = d.fate.grantAt d.asked := by
  simp [ctrlsWord, B53_SRAB_CTRLS_RCAREQ, Fate.grantAt]

theorem request_bit (x : Word) : (x ||| B53_SRAB_CTRLS_RCAREQ).getLsbD 3 = true := by
  simp [B53_SRAB_CTRLS_RCAREQ]

theorem release_bit (x : Word) : (x &&& ~~~B53_SRAB_CTRLS_RCAREQ).getLsbD 3 = false := by
  simp [B53_SRAB_CTRLS_RCAREQ]

/-! ### What the functions do -/

theorem any_range'_succ (p : Nat → Bool) (k n : Nat) :
    (List.range' k (n + 1)).any p = (p k || (List.range' (k + 1) n).any p) := by
  rw [List.range'_succ, List.any_cons]

theorem pollGrant_run (d : Dev) (steps : Nat) :
    ∃ asked, (pollGrant steps).run perform d =
      (if (List.range' d.asked steps).any d.fate.grantAt then 0 else - EIO,
        { d with asked := asked }) := by
  induction steps generalizing d with
  | zero => exact ⟨d.asked, rfl⟩
  | succ steps ih =>
      have hstep : (pollGrant (steps + 1)).run perform d =
          (if d.ctrlsWord &&& B53_SRAB_CTRLS_RCAGNT ≠ 0 then (pure 0 : SrabProg Int)
            else pollGrant steps).run perform { d with asked := d.asked + 1 } := rfl
      rw [hstep, any_range'_succ, ← ctrlsWord_grant]
      by_cases hgrant : d.ctrlsWord.getLsbD 4 = true
      · rw [if_pos ((seesGrant_iff _).mpr hgrant), hgrant]
        exact ⟨d.asked + 1, rfl⟩
      · obtain ⟨asked, hrun⟩ := ih { d with asked := d.asked + 1 }
        rw [if_neg (mt (seesGrant_iff _).mp hgrant), hrun]
        rw [Bool.not_eq_true] at hgrant
        rw [hgrant, Bool.false_or]
        exact ⟨asked, rfl⟩

theorem pollOp_run (d : Dev) (steps : Nat) :
    ∃ polled, (pollOp steps).run perform d =
      (if (List.range' d.polled steps).any d.fate.doneAt then 0 else - EIO,
        { d with polled := polled }) := by
  induction steps generalizing d with
  | zero => exact ⟨d.polled, rfl⟩
  | succ steps ih =>
      have hstep : (pollOp (steps + 1)).run perform d =
          (if d.fate.cmdstat d.polled &&& B53_SRAB_CMDSTAT_GORDYN = 0 then
            (pure 0 : SrabProg Int) else pollOp steps).run perform
              { d with polled := d.polled + 1 } := rfl
      have hdone : d.fate.doneAt d.polled = !(d.fate.cmdstat d.polled).getLsbD 0 := rfl
      rw [hstep, any_range'_succ, hdone]
      cases hbit : (d.fate.cmdstat d.polled).getLsbD 0 with
      | false =>
          rw [if_pos ((seesDone_iff _).mpr hbit)]
          exact ⟨d.polled + 1, rfl⟩
      | true =>
          obtain ⟨polled, hrun⟩ := ih { d with polled := d.polled + 1 }
          have hbusy : ¬ d.fate.cmdstat d.polled &&& B53_SRAB_CMDSTAT_GORDYN = 0 := by
            rw [seesDone_iff, hbit]
            decide
          rw [if_neg hbusy, hrun, Bool.not_true, Bool.false_or]
          exact ⟨polled, rfl⟩

/-- The bus after a request: RCAREQ is set, and stays so however the polls go. -/
theorem srabRequestGrant_run (d : Dev) :
    ∃ ctrls asked, ctrls.getLsbD 3 = true ∧ srabRequestGrant.run perform d =
      (if d.nextFate.grants then 0 else - EIO,
        { d with ctrls := ctrls, turn := d.turn + 1, asked := asked }) := by
  let ctrls := d.ctrlsWord ||| B53_SRAB_CTRLS_RCAREQ
  have hset : ctrls.getLsbD 3 = true := request_bit _
  let requested : Dev := { d with ctrls := ctrls, turn := d.turn + 1, asked := 0 }
  obtain ⟨asked, hpoll⟩ := pollGrant_run requested SRAB_GRANT_POLL_STEPS
  have hwrite : ({ d with asked := d.asked + 1 } : Dev).writel ctrls .ctrls = requested := by
    simp only [writel, hset, if_true, requested]
  have hrun : srabRequestGrant.run perform d = (pollGrant SRAB_GRANT_POLL_STEPS).run perform
      (({ d with asked := d.asked + 1 } : Dev).writel ctrls .ctrls) := rfl
  rw [hrun, hwrite, hpoll, ← List.range_eq_range']
  exact ⟨ctrls, asked, hset, rfl⟩

theorem srabReleaseGrant_run (d : Dev) :
    ∃ ctrls asked, ctrls.getLsbD 3 = false ∧ srabReleaseGrant.run perform d =
      ((), { d with ctrls := ctrls, asked := asked }) := by
  let ctrls := d.ctrlsWord &&& ~~~B53_SRAB_CTRLS_RCAREQ
  have hclear : ctrls.getLsbD 3 = false := release_bit _
  have hrun : srabReleaseGrant.run perform d =
      ((), ({ d with asked := d.asked + 1 } : Dev).writel ctrls .ctrls) := rfl
  have hwrite : ({ d with asked := d.asked + 1 } : Dev).writel ctrls .ctrls =
      { d with ctrls := ctrls, asked := d.asked + 1 } := by
    simp only [writel, hclear, Bool.false_eq_true, if_false]
  rw [hrun, hwrite]
  exact ⟨ctrls, d.asked + 1, hclear, rfl⟩

theorem cmdstatOf_page (page reg : Byte) (op : Word) (hop : op = 0 ∨ op = B53_SRAB_CMDSTAT_WRITE) :
    (cmdstatOf page reg op).extractLsb' 24 8 = page := by
  apply BitVec.eq_of_getLsbD_eq
  intro i hi
  rcases hop with rfl | rfl <;>
  · simp only [cmdstatOf, B53_SRAB_CMDSTAT_PAGE_SHIFT, B53_SRAB_CMDSTAT_REG_SHIFT,
      B53_SRAB_CMDSTAT_GORDYN, B53_SRAB_CMDSTAT_WRITE]
    interval_cases i <;> simp

theorem cmdstatOf_reg (page reg : Byte) (op : Word) (hop : op = 0 ∨ op = B53_SRAB_CMDSTAT_WRITE) :
    (cmdstatOf page reg op).extractLsb' 16 8 = reg := by
  apply BitVec.eq_of_getLsbD_eq
  intro i hi
  rcases hop with rfl | rfl <;>
  · simp only [cmdstatOf, B53_SRAB_CMDSTAT_PAGE_SHIFT, B53_SRAB_CMDSTAT_REG_SHIFT,
      B53_SRAB_CMDSTAT_GORDYN, B53_SRAB_CMDSTAT_WRITE]
    interval_cases i <;> simp

theorem cmdstatOf_op (page reg : Byte) (op : Word) :
    (cmdstatOf page reg op).getLsbD 1 = op.getLsbD 1 := by
  simp [cmdstatOf, B53_SRAB_CMDSTAT_PAGE_SHIFT, B53_SRAB_CMDSTAT_REG_SHIFT,
    B53_SRAB_CMDSTAT_GORDYN]

theorem low_append {m n : Nat} (upper : BitVec m) (low : BitVec n) :
    (upper ++ low).setWidth n = low := by
  apply BitVec.eq_of_getLsbD_eq
  intro i hi
  simp [BitVec.getLsbD_append, hi]

/-- A read command leaves the register's value in RD_L, once it is done. -/
theorem command_read (d : Dev) (page reg : Byte) :
    ∃ rdL, d.command (cmdstatOf page reg 0) = { d with polled := 0, rdL := rdL } ∧
      (d.fate.completes = true → rdL.setWidth 16 = d.regs page reg) := by
  have hop : (cmdstatOf page reg 0).getLsbD 1 = false := cmdstatOf_op page reg 0
  simp only [command, hop, cmdstatOf_page page reg 0 (.inl rfl),
    cmdstatOf_reg page reg 0 (.inl rfl), Bool.false_eq_true, if_false]
  by_cases hdone : d.fate.completes = true
  · rw [if_pos hdone]
    exact ⟨_, rfl, fun _ => low_append _ _⟩
  · rw [if_neg hdone]
    exact ⟨d.rdL, rfl, fun h => absurd h hdone⟩

theorem command_write (d : Dev) (page reg : Byte) :
    d.command (cmdstatOf page reg B53_SRAB_CMDSTAT_WRITE) =
      { d with
        polled := 0
        regs := if d.fate.completes || d.fate.lands then
          setReg d.regs page reg (d.wdL.setWidth 16) else d.regs } := by
  have hop : (cmdstatOf page reg B53_SRAB_CMDSTAT_WRITE).getLsbD 1 = true :=
    cmdstatOf_op page reg B53_SRAB_CMDSTAT_WRITE
  simp only [command, hop, cmdstatOf_page page reg _ (.inr rfl),
    cmdstatOf_reg page reg _ (.inr rfl), if_true]
  by_cases hreach : (d.fate.completes || d.fate.lands) = true
  · rw [if_pos hreach, if_pos hreach]
  · rw [if_neg hreach, if_neg hreach]

theorem pollOp_fresh (d : Dev) (hpolled : d.polled = 0) :
    ∃ polled, (pollOp SRAB_OP_POLL_STEPS).run perform d =
      (if d.fate.completes then 0 else - EIO, { d with polled := polled }) := by
  obtain ⟨polled, hrun⟩ := pollOp_run d SRAB_OP_POLL_STEPS
  rw [hpolled, ← List.range_eq_range'] at hrun
  exact ⟨polled, hrun⟩

theorem srabOp_write_run (d : Dev) (page reg : Byte) :
    ∃ polled, (srabOp page reg B53_SRAB_CMDSTAT_WRITE).run perform d =
      (if d.fate.completes then 0 else - EIO,
        { d with
          polled := polled
          regs := if d.fate.completes || d.fate.lands then
            setReg d.regs page reg (d.wdL.setWidth 16) else d.regs }) := by
  have hrun : (srabOp page reg B53_SRAB_CMDSTAT_WRITE).run perform d =
      (pollOp SRAB_OP_POLL_STEPS).run perform
        (d.command (cmdstatOf page reg B53_SRAB_CMDSTAT_WRITE)) := rfl
  rw [hrun, command_write]
  exact pollOp_fresh _ rfl

theorem srabOp_read_run (d : Dev) (page reg : Byte) :
    ∃ rdL polled, (d.fate.completes = true → rdL.setWidth 16 = d.regs page reg) ∧
      (srabOp page reg 0).run perform d =
        (if d.fate.completes then 0 else - EIO, { d with polled := polled, rdL := rdL }) := by
  obtain ⟨rdL, hcommand, hdata⟩ := command_read d page reg
  have hrun : (srabOp page reg 0).run perform d =
      (pollOp SRAB_OP_POLL_STEPS).run perform (d.command (cmdstatOf page reg 0)) := rfl
  obtain ⟨polled, hpoll⟩ := pollOp_fresh { d with polled := 0, rdL := rdL } rfl
  rw [hrun, hcommand]
  exact ⟨rdL, polled, hdata, hpoll⟩

/-- A write from its request to its return. RCAREQ is still set afterwards
exactly when the bus was not granted. -/
theorem write16_call (d : Dev) (page reg : Byte) (val : Half) :
    ∃ ctrls wdL asked polled, ctrls.getLsbD 3 = !d.nextFate.grants ∧
      d.call (.write16 page reg val) =
        (if d.nextFate.grants && d.nextFate.completes then 0 else - EIO,
          { d with
            ctrls := ctrls, wdL := wdL, turn := d.turn + 1, asked := asked, polled := polled
            regs := if d.nextFate.reaches then setReg d.regs page reg val else d.regs }) := by
  obtain ⟨ctrls, asked, hset, hrequest⟩ := srabRequestGrant_run d
  have hcall : d.call (.write16 page reg val) = (srabWrite16 page reg val).run perform d := rfl
  rw [hcall, srabWrite16, Prog.run_bind_of_eq _ hrequest]
  cases hgrant : d.nextFate.grants with
  | false => exact ⟨ctrls, d.wdL, asked, d.polled, hset, by simp [hgrant, EIO, Fate.reaches]⟩
  | true =>
      let granted : Dev := { d with ctrls := ctrls, turn := d.turn + 1, asked := asked }
      obtain ⟨polled, hop⟩ := srabOp_write_run { granted with wdL := val.setWidth 32 } page reg
      obtain ⟨ctrls', asked', hclear, hrelease⟩ := srabReleaseGrant_run
        ((srabOp page reg B53_SRAB_CMDSTAT_WRITE).run perform
          { granted with wdL := val.setWidth 32 }).2
      have hdata : (Srab.writel (val.setWidth 32) .wdL).run perform granted =
          ((), { granted with wdL := val.setWidth 32 }) := rfl
      refine ⟨ctrls', val.setWidth 32, asked', polled, hclear, ?_⟩
      simp only [if_true, ne_eq, not_true, if_false]
      rw [Prog.run_bind_of_eq _ hdata, Prog.run_bind, Prog.run_bind_of_eq _ hrelease, hop]
      simp [granted, Fate.reaches, hgrant]

theorem takeData_run (d : Dev) (ret : Int) :
    (takeData ret).run perform d =
      (if ret = 0 then some (d.rdL.setWidth 16) else none, d) := by
  rw [takeData]
  split <;> rfl

/-- A read from its request to its return. -/
theorem read16_call (d : Dev) (page reg : Byte) :
    ∃ ctrls rdL asked polled, ctrls.getLsbD 3 = !d.nextFate.grants ∧
      d.call (.read16 page reg) =
        (if d.nextFate.grants && d.nextFate.completes then (0, some (d.regs page reg))
          else (- EIO, none),
          { d with
            ctrls := ctrls, rdL := rdL, turn := d.turn + 1, asked := asked
            polled := polled }) := by
  obtain ⟨ctrls, asked, hset, hrequest⟩ := srabRequestGrant_run d
  have hcall : d.call (.read16 page reg) = (srabRead16 page reg).run perform d := rfl
  rw [hcall, srabRead16, Prog.run_bind_of_eq _ hrequest]
  cases hgrant : d.nextFate.grants with
  | false => exact ⟨ctrls, d.rdL, asked, d.polled, hset, by simp [ EIO]⟩
  | true =>
      let granted : Dev := { d with ctrls := ctrls, turn := d.turn + 1, asked := asked }
      obtain ⟨rdL, polled, hvalue, hop⟩ := srabOp_read_run granted page reg
      obtain ⟨ctrls', asked', hclear, hrelease⟩ :=
        srabReleaseGrant_run { granted with polled := polled, rdL := rdL }
      refine ⟨ctrls', rdL, asked', polled, hclear, ?_⟩
      simp only [if_true, ne_eq, not_true, if_false]
      rw [Prog.run_bind_of_eq _ hop, Prog.run_bind_of_eq _ (takeData_run _ _),
        Prog.run_bind_of_eq _ hrelease]
      have hfate : granted.fate = d.nextFate := rfl
      rw [hfate] at hvalue ⊢
      cases hdone : d.nextFate.completes with
      | false => simp [granted, EIO]
      | true => simp [granted, hvalue hdone]

end Dev

end R8000Plus.Srab
