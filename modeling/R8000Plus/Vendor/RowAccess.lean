import R8000Plus.Fa.MemAccess

/-!
The hardware as the vendor driver's row functions show it. `fa_read_nhop_entry`,
`fa_write_nhop_entry`, `fa_read_napt_entry`, `fa_write_napt_entry` and the two
accesses inlined into the pool functions select a table and an index, move the
data words and poll `CTF_DBG_MEM_ACC_BUSY`; `BCME_BUSY` is their only failure.
A `Turn` is what the hardware is free to do in one such access.
-/

namespace R8000Plus.Vendor

open Effects Fa

def CTF_MEMACC_TBL_NP : Word := 1

def CTF_MAX_POOL_TABLE_INDEX : Nat := 4
def CTF_MAX_NEXTHOP_TABLE_INDEX : Nat := 128
def CTF_MAX_BUCKET_INDEX : Nat := 4
def CTF_MAX_FLOW_TABLE : Nat := 1024

inductive AccMode where
  /-- As `bzero` leaves it. -/
  | none
  | bypass
  | normal
  | swAcc
  deriving DecidableEq, Repr

inductive RowOp where
  | read (table idx : Word) (n : Nat)
  | write (table idx : Word) (words : List Word)
  /-- The table init that a mode change starts. -/
  | init (mode : AccMode)
  /-- The bracket of `fa_add_pool_entry`; the other functions carry their own. -/
  | war777 (on : Bool)
  deriving DecidableEq, Repr

/-- `none` and `false` are `BCME_BUSY`, or an init that is not done. -/
abbrev RowOp.Ans : RowOp → Type
  | .read _ _ _ => Option (List Word)
  | .write _ _ _ => Bool
  | .init _ => Bool
  | .war777 _ => Unit

abbrev RowProg := Prog RowOp RowOp.Ans

def faReadNhopEntry (idx : Word) : RowProg (Option (List Word)) :=
  .request (RowOp.read CTF_MEMACC_TBL_NH idx 3)

def faWriteNhopEntry (tbl : List Word) (idx : Word) : RowProg Bool :=
  .request (RowOp.write CTF_MEMACC_TBL_NH idx tbl)

def faReadNaptEntry (idx : Word) : RowProg (Option (List Word)) :=
  .request (RowOp.read CTF_MEMACC_TBL_NF idx 8)

def faWriteNaptEntry (tbl : List Word) (idx : Word) : RowProg Bool :=
  .request (RowOp.write CTF_MEMACC_TBL_NF idx tbl)

/-- The pool functions inline their accesses; both move two words. -/
def faReadPoolRow (idx : Word) : RowProg (Option (List Word)) :=
  .request (RowOp.read CTF_MEMACC_TBL_NP idx 2)

def faWritePoolRow (tbl : List Word) (idx : Word) : RowProg Bool :=
  .request (RowOp.write CTF_MEMACC_TBL_NP idx tbl)

def ctfFaWar777 (on : Bool) : RowProg Unit := .request (RowOp.war777 on)

/-! ### The hardware -/

/-- A busy write may still have stored some words, and a busy init wiped some
rows. The counters of flow rows move between accesses. -/
structure Turn where
  busy : Bool
  lands : Nat → Bool
  wipes : RowAddr → Bool
  counters : Nat → Option (Word × Word)

structure Hw where
  rows : Tables
  turn : Nat
  turns : Nat → Turn

namespace Hw

def now (hw : Hw) : Turn := hw.turns hw.turn

/-- The tables when the access reaches them. -/
def met (hw : Hw) : Tables := hw.rows.counted hw.now.counters

def stored (hw : Hw) (addr : RowAddr) (words : List Word) : Tables :=
  Function.update hw.met addr fun j =>
    if j < words.length ∧ (hw.now.busy = false ∨ hw.now.lands j = true) then ofWords words j
    else hw.met addr j

def wiped (hw : Hw) : Tables := fun addr j =>
  if (addr.table = 0 ∨ addr.table = 2) ∧ (hw.now.busy = false ∨ hw.now.wipes addr = true) then 0
  else hw.met addr j

def perform : (o : RowOp) → Hw → o.Ans × Hw
  | .read table idx n, hw =>
      (if hw.now.busy then none else some ((List.range n).map (hw.met (rowAt table idx))),
        { hw with rows := hw.met, turn := hw.turn + 1 })
  | .write table idx words, hw =>
      (!hw.now.busy, { hw with rows := hw.stored (rowAt table idx) words, turn := hw.turn + 1 })
  | .init _, hw => (!hw.now.busy, { hw with rows := hw.wiped, turn := hw.turn + 1 })
  | .war777 _, hw => ((), { hw with rows := hw.met, turn := hw.turn + 1 })

/-- No access times out. -/
def Prompt (hw : Hw) : Prop := ∀ k, (hw.turns k).busy = false

/-- Clear tables and no traffic. -/
def idle : Hw where
  rows := fun _ _ => 0
  turn := 0
  turns := fun _ => ⟨false, fun _ => true, fun _ => false, fun _ => none⟩

end Hw

end R8000Plus.Vendor
