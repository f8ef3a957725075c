import R8000Plus.Srab.Bus

/-!
The accesses of `b53_srab.c`, the driver that owns the switch. It has five widths
on the same bus: the upper words at offsets 0x30 and 0x38 carry what is above 32
bits. It gives the bus back on every way out, and takes for a timeout of the
grant what a loop of five rounds would end with.
-/

namespace R8000Plus.Srab.B53

open Effects

inductive B53Reg where
  | cmdstat
  | wdH
  | wdL
  | rdH
  | rdL
  | ctrls
  deriving DecidableEq, Repr

inductive Access where
  | readl (reg : B53Reg)
  | writel (val : Word) (reg : B53Reg)
  deriving DecidableEq, Repr

abbrev Access.Ans : Access → Type
  | .readl _ => Word
  | .writel _ _ => Unit

abbrev B53Prog := Prog Access Access.Ans

def readl (reg : B53Reg) : B53Prog Word := .request (Access.readl reg)

def writel (val : Word) (reg : B53Reg) : B53Prog Unit := .request (Access.writel val reg)

/-! ### The access functions -/

/-- `for (; i < n; i++)` with a read and a `break`, `steps` rounds from its end:
the value of `i` behind the loop. -/
def pollReg (reg : B53Reg) (stop : Word → Bool) (i : Nat) : Nat → B53Prog Nat
  | 0 => return i
  | steps + 1 => do
      let word ← readl reg
      if stop word then return i
      else pollReg reg stop (i + 1) steps

def b53SrabRequestGrant : B53Prog Int := do
  let ctrls ← readl .ctrls
  writel (ctrls ||| B53_SRAB_CTRLS_RCAREQ) .ctrls
  let i ← pollReg .ctrls (fun ctrls => ctrls &&& B53_SRAB_CTRLS_RCAGNT != 0) 0 20
  -- the loop ends at 20
  if i = 5 then return - EIO
  return 0

def b53SrabReleaseGrant : B53Prog Unit := do
  let ctrls ← readl .ctrls
  writel (ctrls &&& ~~~B53_SRAB_CTRLS_RCAREQ) .ctrls

def b53SrabOp (page reg : Byte) (op : Word) : B53Prog Int := do
  writel (cmdstatOf page reg op) .cmdstat
  let i ← pollReg .cmdstat (fun cmdstat => cmdstat &&& B53_SRAB_CMDSTAT_GORDYN == 0) 0 5
  if i = 5 then return - EIO
  return 0

/-- The five read functions from the grant to their label `err`; `take` assigns
`*val`. -/
def readGranted {α : Type} (take : B53Prog α) (page reg : Byte) (ret : Int) :
    B53Prog (Int × Option α) := do
  if ret ≠ 0 then return (ret, none)
  let ret ← b53SrabOp page reg 0
  if ret ≠ 0 then return (ret, none)
  let val ← take
  return (ret, some val)

def b53SrabRead {α : Type} (take : B53Prog α) (page reg : Byte) : B53Prog (Int × Option α) := do
  let ret ← b53SrabRequestGrant
  let r ← readGranted take page reg ret
  b53SrabReleaseGrant
  return r

/-- The same of the five write functions; `put` loads the data registers. -/
def writeGranted (put : B53Prog Unit) (page reg : Byte) (ret : Int) : B53Prog Int := do
  if ret ≠ 0 then return ret
  put
  b53SrabOp page reg B53_SRAB_CMDSTAT_WRITE

def b53SrabWrite (put : B53Prog Unit) (page reg : Byte) : B53Prog Int := do
  let ret ← b53SrabRequestGrant
  let ret ← writeGranted put page reg ret
  b53SrabReleaseGrant
  return ret

/-- The data word and, above 32 bits, the upper one. -/
def takeWide (mask : BitVec 64) : B53Prog (BitVec 64) := do
  let low ← readl .rdL
  let high ← readl .rdH
  return low.setWidth 64 + ((high.setWidth 64 &&& mask) <<< 32)

def b53SrabRead8 : Byte → Byte → B53Prog (Int × Option (BitVec 8)) :=
  b53SrabRead do return (← readl .rdL).setWidth 8

def b53SrabRead16 : Byte → Byte → B53Prog (Int × Option (BitVec 16)) :=
  b53SrabRead do return (← readl .rdL).setWidth 16

def b53SrabRead32 : Byte → Byte → B53Prog (Int × Option (BitVec 32)) :=
  b53SrabRead (readl .rdL)

def b53SrabRead48 : Byte → Byte → B53Prog (Int × Option (BitVec 64)) :=
  b53SrabRead (takeWide 0xffff)

def b53SrabRead64 : Byte → Byte → B53Prog (Int × Option (BitVec 64)) :=
  b53SrabRead (takeWide (BitVec.allOnes 64))

def b53SrabWrite8 (page reg : Byte) (value : BitVec 8) : B53Prog Int :=
  b53SrabWrite (writel (value.setWidth 32) .wdL) page reg

def b53SrabWrite16 (page reg : Byte) (value : BitVec 16) : B53Prog Int :=
  b53SrabWrite (writel (value.setWidth 32) .wdL) page reg

def b53SrabWrite32 (page reg : Byte) (value : BitVec 32) : B53Prog Int :=
  b53SrabWrite (writel value .wdL) page reg

def b53SrabWrite48 (page reg : Byte) (value : BitVec 64) : B53Prog Int :=
  b53SrabWrite (do
    writel (value.setWidth 32) .wdL
    writel (((value >>> 32).setWidth 16).setWidth 32) .wdH) page reg

def b53SrabWrite64 (page reg : Byte) (value : BitVec 64) : B53Prog Int :=
  b53SrabWrite (do
    writel (value.setWidth 32) .wdL
    writel ((value >>> 32).setWidth 32) .wdH) page reg

/-! ### The calls -/

inductive Width where
  | w8
  | w16
  | w32
  | w48
  | w64
  deriving DecidableEq, Repr

namespace Width

def bits : Width → Nat
  | .w8 => 8
  | .w16 => 16
  | .w32 => 32
  | .w48 => 48
  | .w64 => 64

/-- The C type that carries a value. -/
abbrev Val : Width → Type
  | .w8 => BitVec 8
  | .w16 => BitVec 16
  | .w32 => BitVec 32
  | .w48 => BitVec 64
  | .w64 => BitVec 64

/-- `*val` of the read function. -/
def take : (w : Width) → B53Prog w.Val
  | .w8 => do return (← readl .rdL).setWidth 8
  | .w16 => do return (← readl .rdL).setWidth 16
  | .w32 => readl .rdL
  | .w48 => takeWide 0xffff
  | .w64 => takeWide (BitVec.allOnes 64)

/-- What the write function loads. -/
def put : (w : Width) → w.Val → B53Prog Unit
  | .w8, value => writel (value.setWidth 32) .wdL
  | .w16, value => writel (value.setWidth 32) .wdL
  | .w32, value => writel value .wdL
  | .w48, value => do
      writel (value.setWidth 32) .wdL
      writel (((value >>> 32).setWidth 16).setWidth 32) .wdH
  | .w64, value => do
      writel (value.setWidth 32) .wdL
      writel ((value >>> 32).setWidth 32) .wdH

/-- The low bits of RD_H and RD_L. -/
def ofWide : (w : Width) → BitVec 64 → w.Val
  | .w8, data => data.setWidth 8
  | .w16, data => data.setWidth 16
  | .w32, data => data.setWidth 32
  | .w48, data => (data.setWidth 48).setWidth 64
  | .w64, data => data

def toWide : (w : Width) → w.Val → BitVec 64
  | .w8, value => value.setWidth 64
  | .w16, value => value.setWidth 64
  | .w32, value => value.setWidth 64
  | .w48, value => value
  | .w64, value => value

end Width

inductive B53Call where
  | read (w : Width) (page reg : Byte)
  | write (w : Width) (page reg : Byte) (value : w.Val)

abbrev B53Call.Ans : B53Call → Type
  | .read w _ _ => Int × Option w.Val
  | .write _ _ _ _ => Int

def B53Call.body : (o : B53Call) → B53Prog o.Ans
  | .read .w8 page reg => b53SrabRead8 page reg
  | .read .w16 page reg => b53SrabRead16 page reg
  | .read .w32 page reg => b53SrabRead32 page reg
  | .read .w48 page reg => b53SrabRead48 page reg
  | .read .w64 page reg => b53SrabRead64 page reg
  | .write .w8 page reg value => b53SrabWrite8 page reg value
  | .write .w16 page reg value => b53SrabWrite16 page reg value
  | .write .w32 page reg value => b53SrabWrite32 page reg value
  | .write .w48 page reg value => b53SrabWrite48 page reg value
  | .write .w64 page reg value => b53SrabWrite64 page reg value

def B53Call.width : B53Call → Width
  | .read w _ _ => w
  | .write w _ _ _ => w

def B53Call.page : B53Call → Byte
  | .read _ page _ => page
  | .write _ page _ _ => page

def B53Call.reg : B53Call → Byte
  | .read _ _ reg => reg
  | .write _ _ reg _ => reg

/-- What is returned. -/
def B53Call.ret : (o : B53Call) → o.Ans → Int
  | .read _ _ _, (ret, _) => ret
  | .write _ _ _ _, ret => ret

/-! ### The bus -/

/-- As on the 16-bit bus, for one request. `lands` is for a write that is made
without the bus or not seen to complete, `noise` for what RD_H and RD_L show
outside the register. -/
structure Fate where
  ctrls : Nat → Word
  cmdstat : Nat → Word
  lands : Bool
  noise : BitVec 64

namespace Fate

def grantAt (f : Fate) (k : Nat) : Bool := (f.ctrls k).getLsbD 4

def doneAt (f : Fate) (k : Nat) : Bool := !(f.cmdstat k).getLsbD 0

/-- The poll at which RCAGNT is first seen. -/
def firstGrant (f : Fate) : Option Nat := (List.range 20).find? f.grantAt

/-- How many polls are made for it. -/
def grantPolls (f : Fate) : Nat := f.firstGrant.elim 20 (· + 1)

def firstDone (f : Fate) : Option Nat := (List.range 5).find? f.doneAt

def completes (f : Fate) : Bool := f.firstDone.isSome

/-- `b53_srab_request_grant` reports no timeout. -/
def goesOn (f : Fate) : Bool := f.firstGrant ≠ some 5

end Fate

/-- The switch registers, each of a width of its own. -/
structure Switch where
  width : Byte → Byte → Nat
  regs : (page reg : Byte) → BitVec (width page reg)

namespace Switch

/-- What RD_H and RD_L show of a register, noise above its width. -/
def shown (s : Switch) (noise : BitVec 64) (page reg : Byte) : BitVec 64 :=
  (s.regs page reg).setWidth 64 ||| ((noise >>> s.width page reg) <<< s.width page reg)

def set (s : Switch) (page reg : Byte) (val : BitVec 64) : Switch :=
  { s with
    regs := fun p r =>
      if p = page ∧ r = reg then val.setWidth (s.width p r) else s.regs p r }

end Switch

structure Dev where
  ctrls : Word
  wdH : Word
  wdL : Word
  rdH : Word
  rdL : Word
  switch : Switch
  turn : Nat
  asked : Nat
  polled : Nat
  fates : Nat → Fate

namespace Dev

abbrev fate (d : Dev) : Fate := d.fates d.turn

abbrev nextFate (d : Dev) : Fate := d.fates (d.turn + 1)

/-- RCAGNT was set when CTRLS was last read. -/
def granted (d : Dev) : Bool := 0 < d.asked && d.fate.grantAt (d.asked - 1)

def ctrlsWord (d : Dev) : Word :=
  (d.fate.ctrls d.asked &&& ~~~B53_SRAB_CTRLS_RCAREQ) ||| (d.ctrls &&& B53_SRAB_CTRLS_RCAREQ)

def readl (d : Dev) : B53Reg → Word × Dev
  | .cmdstat => (d.fate.cmdstat d.polled, { d with polled := d.polled + 1 })
  | .wdH => (d.wdH, d)
  | .wdL => (d.wdL, d)
  | .rdH => (d.rdH, d)
  | .rdL => (d.rdL, d)
  | .ctrls => (d.ctrlsWord, { d with asked := d.asked + 1 })

def command (d : Dev) (val : Word) : Dev :=
  let page := val.extractLsb' 24 8
  let reg := val.extractLsb' 16 8
  let done := d.granted && d.fate.completes
  if val.getLsbD 1 then
    if done || d.fate.lands then
      { d with polled := 0, switch := d.switch.set page reg (d.wdH ++ d.wdL) }
    else { d with polled := 0 }
  else
    let data := if done then d.switch.shown d.fate.noise page reg else d.fate.noise
    { d with polled := 0, rdH := data.extractLsb' 32 32, rdL := data.setWidth 32 }

def writel (d : Dev) (val : Word) : B53Reg → Dev
  | .cmdstat => d.command val
  | .wdH => { d with wdH := val }
  | .wdL => { d with wdL := val }
  | .rdH => d
  | .rdL => d
  | .ctrls =>
      if val.getLsbD 3 then { d with ctrls := val, turn := d.turn + 1, asked := 0 }
      else { d with ctrls := val }

def perform : (o : Access) → Dev → o.Ans × Dev
  | .readl reg, d => d.readl reg
  | .writel val reg, d => ((), d.writel val reg)

def call (o : B53Call) (d : Dev) : o.Ans × Dev := o.body.run perform d

abbrev next (d : Dev) (o : B53Call) : Dev := (d.call o).2

end Dev

end R8000Plus.Srab.B53
