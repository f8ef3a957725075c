import R8000Plus.Vendor.FlowCache

/-!
The vendor driver down to its registers: the macros under the row functions, the
mode change, and the chip they run on. `SPINWAIT` is not in the repository; all
that is used of it is that it looks at a condition some number of times for each
wait and stops when it no longer holds.
-/

namespace R8000Plus.Vendor

open Effects Fa

/-- STATUS, next to the registers that `fa_accel` maps too. -/
inductive FaReg where
  | fa (reg : Reg)
  | status
  deriving DecidableEq, Repr

inductive RegOp where
  | rReg (reg : FaReg)
  | wReg (val : Word) (reg : FaReg)
  deriving DecidableEq, Repr

abbrev RegOp.Ans : RegOp → Type
  | .rReg _ => Word
  | .wReg _ _ => Unit

abbrev RegProg := Prog RegOp RegOp.Ans

def rReg (reg : FaReg) : RegProg Word := .request (RegOp.rReg reg)

def wReg (val : Word) (reg : FaReg) : RegProg Unit := .request (RegOp.wReg val reg)

/-- What the driver does not decide: whether `FA_777WAR_ENABLED` is set, and how
often `SPINWAIT` looks in so many microseconds. -/
structure Board where
  war777 : Bool
  spins : Nat → Nat

/-! ### Macros -/

/-- The loop of `SPINWAIT` on a condition of one register, `n` rounds left. -/
def spinwait (reg : FaReg) (holds : Word → Bool) : Nat → RegProg Unit
  | 0 => return ()
  | n + 1 => do
      if holds (← rReg reg) then spinwait reg holds n else return ()

/-- `SPINWAIT`, and the look at the register after it. -/
def waitFor (b : Board) (reg : FaReg) (holds : Word → Bool) (us : Nat) : RegProg Bool := do
  spinwait reg holds (b.spins us)
  return !holds (← rReg reg)

def ctfFaWReg (reg : FaReg) (m v : Word) : RegProg Unit := do
  let val ← rReg reg
  wReg ((val &&& ~~~m) ||| (v &&& m)) reg
  let _ ← rReg reg

def ctfFaWar777On (b : Board) : RegProg Unit :=
  if b.war777 then ctfFaWReg (.fa .control) CTF_CTL_HWQ_THRESHLD_MASK 0 else return ()

def ctfFaWar777Off (b : Board) : RegProg Unit :=
  if b.war777 then
    ctfFaWReg (.fa .control) CTF_CTL_HWQ_THRESHLD_MASK CTF_CTL_HWQ_DEF_THRESHLD_VAL
  else return ()

/-- `for (i = (n); i; i--)` of `CTF_FA_MACC_RD`, the words in their order. -/
def readDown : Nat → RegProg (List Word)
  | 0 => return []
  | i + 1 => do
      let word ← rReg (.fa (.mAccdata i))
      return (← readDown i) ++ [word]

/-- Word 0 is read twice, and the access is closed before it is waited for. -/
def ctfFaMaccRd (n : Nat) : RegProg (List Word) := do
  let _ ← rReg (.fa (.mAccdata 0))
  let d ← readDown n
  wReg 0 (.fa .memAccCtl)
  return d

/-- `CTF_FA_MACC_WR`, with `i` words left. -/
def ctfFaMaccWr (d : List Word) : Nat → RegProg Unit
  | 0 => return ()
  | i + 1 => do
      wReg (ofWords d i) (.fa (.mAccdata i))
      ctfFaMaccWr d i

def memAccBusy (status : Word) : Bool := status &&& CTF_DBG_MEM_ACC_BUSY ≠ 0

def memAccComplete (b : Board) : RegProg Bool := waitFor b (.fa .dbgStatus) memAccBusy 10000

/-! ### Row accesses -/

def readRow (b : Board) (table idx : Word) (n : Nat) : RegProg (Option (List Word)) := do
  wReg (ctfMemaccRdTable table idx) (.fa .memAccCtl)
  let tbl ← ctfFaMaccRd n
  if ← memAccComplete b then return some tbl else return none

def writeRow (b : Board) (table idx : Word) (tbl : List Word) : RegProg Bool := do
  wReg (ctfMemaccWrTable table idx) (.fa .memAccCtl)
  ctfFaMaccWr tbl tbl.length
  memAccComplete b

/-- The bracket that four of the row functions put around their access. -/
def underWar777 {α : Type} (b : Board) (p : RegProg α) : RegProg α := do
  ctfFaWar777On b
  let r ← p
  ctfFaWar777Off b
  return r

/-! ### The mode change -/

def CTF_CTL_SW_ACC_MODE : Word := 1 <<< 0
def CTF_CTL_BYPASS_CTF : Word := 1 <<< 1
def CTF_CTL_CRC_OWRT : Word := 1 <<< 3
def CTF_CTL_NAPT_FLOW_INIT : Word := 1 <<< 13
def CTF_CTL_NEXT_HOP_INIT : Word := 1 <<< 14
def CTF_CTL_HWQ_INIT : Word := 1 <<< 15
def CTF_CTL_LAB_INIT : Word := 1 <<< 16
def CTF_CTL_HB_INIT : Word := 1 <<< 17
def CTF_CTL_DSBL_MAC_DA_CHECK : Word := 1 <<< 18

/-- The done flags of the five inits, bits 5 to 9. -/
def CTF_INTSTAT_INIT_DONE : Word := 0x1F <<< 5

/-- The five bits that start an init. -/
def initStrobes : Word :=
  CTF_CTL_NAPT_FLOW_INIT ||| CTF_CTL_NEXT_HOP_INIT ||| CTF_CTL_HWQ_INIT |||
    CTF_CTL_LAB_INIT ||| CTF_CTL_HB_INIT

def modeBits : AccMode → Word
  | .normal => 0
  | .bypass => CTF_CTL_BYPASS_CTF
  | _ => CTF_CTL_SW_ACC_MODE

def setmodeControl (mode : AccMode) (val : Word) : Word :=
  (val &&& ~~~(CTF_CTL_SW_ACC_MODE ||| CTF_CTL_BYPASS_CTF)) ||| modeBits mode |||
    (CTF_CTL_DSBL_MAC_DA_CHECK ||| initStrobes ||| CTF_CTL_CRC_OWRT)

def initPending (status : Word) : Bool := status &&& CTF_INTSTAT_INIT_DONE ≠ CTF_INTSTAT_INIT_DONE

def setmodeRegs (b : Board) (mode : AccMode) : RegProg Bool := do
  let val ← rReg (.fa .control)
  wReg (setmodeControl mode val) (.fa .control)
  waitFor b .status initPending 50000

/-- The pool functions access their rows without a bracket of their own. -/
def RowOp.regs (b : Board) : (o : RowOp) → RegProg o.Ans
  | .read table idx n =>
      if table = CTF_MEMACC_TBL_NP then readRow b table idx n
      else underWar777 b (readRow b table idx n)
  | .write table idx tbl =>
      if table = CTF_MEMACC_TBL_NP then writeRow b table idx tbl
      else underWar777 b (writeRow b table idx tbl)
  | .init mode => setmodeRegs b mode
  | .war777 on => if on then ctfFaWar777On b else ctfFaWar777Off b

/-- The calls one after another. -/
def runCalls (fai : FaInfo) : List Call → RowProg FaInfo
  | [] => return fai
  | c :: calls => do runCalls (← c.prog fai) calls

def runCallsRegs (b : Board) (fai : FaInfo) (calls : List Call) : RegProg FaInfo :=
  (runCalls fai calls).expand (RowOp.regs b)

/-! ### The chip -/

/-- What the hardware does with one init: how many STATUS reads do not show it
done yet, and the rows it clears. -/
structure TableInit where
  pending : Nat
  wipes : RowAddr → Bool

/-- The register block with STATUS. The strobes of CONTROL read as zero. -/
structure Chip where
  dev : Dev
  /-- STATUS reads since an init was started. -/
  looked : Nat
  /-- The last init, as an index into `inits`. -/
  started : Nat
  inits : Nat → TableInit

/-- The tables an init with these strobes is for. -/
def initCovers (control : Word) (addr : RowAddr) : Bool :=
  (control.getLsbD 13 && addr.table = 0) || (control.getLsbD 14 && addr.table = 2)

namespace Chip

def writeControl (c : Chip) (val : Word) : Chip :=
  let dev := c.dev.writel (val &&& ~~~initStrobes) .control
  if val &&& initStrobes = 0 then { c with dev := dev }
  else
    { c with
      dev := { dev with
        rows := fun addr j =>
          if initCovers val addr && (c.inits (c.started + 1)).wipes addr then 0
          else dev.rows addr j }
      looked := 0
      started := c.started + 1 }

def rReg (c : Chip) : FaReg → Word × Chip
  | .fa reg => ((c.dev.readl reg).1, { c with dev := (c.dev.readl reg).2 })
  | .status =>
      (if c.looked < (c.inits c.started).pending then 0 else CTF_INTSTAT_INIT_DONE,
        { c with looked := c.looked + 1 })

def wReg (c : Chip) (val : Word) : FaReg → Chip
  | .fa .control => c.writeControl val
  | .fa reg => { c with dev := c.dev.writel val reg }
  | .status => c

def perform : (o : RegOp) → Chip → o.Ans × Chip
  | .rReg reg, c => c.rReg reg
  | .wReg val reg, c => ((), c.wReg val reg)

/-- An access or an init that is seen done within its wait has been performed,
and the data registers give the selected row. -/
structure Settles (c : Chip) (b : Board) : Prop where
  strobes : c.dev.control &&& initStrobes = 0
  sees : ∀ k, (c.dev.fates k).seen = id
  stores : ∀ k j, (c.dev.fates k).busy ≤ b.spins 10000 → (c.dev.fates k).reaches j = true
  clears : ∀ k addr, (c.inits k).pending ≤ b.spins 50000 → (c.inits k).wipes addr = true

/-- Nothing outlasts its wait. -/
def Prompt (c : Chip) (b : Board) : Prop :=
  (∀ k, (c.dev.fates k).busy ≤ b.spins 10000) ∧ ∀ k, (c.inits k).pending ≤ b.spins 50000

end Chip

end R8000Plus.Vendor
