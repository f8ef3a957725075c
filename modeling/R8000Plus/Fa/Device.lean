import R8000Plus.Effects.Prog
import R8000Plus.Fa.Slots

/-!
The FA register block as the driver sees it: CONTROL, MEM_ACC_CTL, DBG_STATUS
and the M_ACCDATA window onto the lookup tables. Whatever the hardware is free
to do during one indirect access is a `Fate`, drawn when MEM_ACC_CTL is
written. How the window reaches the row is not documented, so both readings
are kept: each word is stored on its own, or the row is stored as a whole when
word 0, the last one the driver writes, arrives.
-/

namespace R8000Plus.Fa

open Effects

/-- The registers the driver maps, at offsets 0x00, 0x04, 0x70 and
`0xa0 + 4 * j`. -/
inductive Reg where
  | control
  | memAccCtl
  | dbgStatus
  | mAccdata (j : Nat)
  deriving DecidableEq, Repr

def CTF_CTL_HWQ_THRESHLD_MASK : Word := 0x1FF <<< 4
def CTF_CTL_HWQ_DEF_THRESHLD_VAL : Word := 0x140 <<< 4

def CTF_MEMACC_TAB_INDEX_MASK : Word := 0x3FF
def CTF_MEMACC_RD_WR_N : Word := 1 <<< 12

def ctfMemaccWrTable (t i : Word) : Word :=
  (t <<< 10) ||| (i &&& CTF_MEMACC_TAB_INDEX_MASK)

def ctfMemaccRdTable (t i : Word) : Word :=
  CTF_MEMACC_RD_WR_N ||| (t <<< 10) ||| (i &&& CTF_MEMACC_TAB_INDEX_MASK)

def CTF_MEMACC_TBL_NF : Word := 0
def CTF_MEMACC_TBL_NH : Word := 2

def CTF_DBG_MEM_ACC_BUSY : Word := 1

def MEM_ACC_POLL_STEPS : Nat := 20

/-- A row of the lookup memory. -/
structure RowAddr where
  table : Nat
  idx : Nat
  deriving DecidableEq, Repr

def nfRowAt (idx : Nat) : RowAddr := ⟨0, idx⟩

def nhRowAt (idx : Nat) : RowAddr := ⟨2, idx⟩

/-- The row MEM_ACC_CTL points at. -/
def selected (ctl : Word) : RowAddr :=
  ⟨((ctl >>> 10) &&& 0x3).toNat, (ctl &&& CTF_MEMACC_TAB_INDEX_MASK).toNat⟩

def selectsRead (ctl : Word) : Bool := ctl.getLsbD 12

abbrev Tables := RowAddr → Nat → Word

/-- The words a row has; a next-hop row is shorter. -/
def RowAddr.words (addr : RowAddr) : Nat :=
  if addr.table = 2 then NH_ROW_WORDS else NF_ROW_WORDS

namespace Tables

def setWord (rows : Tables) (addr : RowAddr) (j : Nat) (val : Word) : Tables :=
  Function.update rows addr (Function.update (rows addr) j val)

/-- The row takes `words j` at every position `j` from `k` on. -/
def setFrom (rows : Tables) (addr : RowAddr) (words : Nat → Word) (k : Nat) : Tables :=
  Function.update rows addr fun j =>
    if k ≤ j ∧ j < addr.words then words j else rows addr j

abbrev setRow (rows : Tables) (addr : RowAddr) (words : Nat → Word) : Tables :=
  rows.setFrom addr words 0

/-- The hardware's own bits of an NF row: timestamp and hit counter, word 0
and the low three bits of word 1. -/
def counted (rows : Tables) (counters : Nat → Option (Word × Word)) : Tables :=
  fun addr j =>
    if addr.table ≠ 0 then rows addr j
    else
      match counters addr.idx with
      | none => rows addr j
      | some (c0, c1) =>
          if j = 0 then c0
          else if j = 1 then (rows addr 1 &&& ~~~7) ||| (c1 &&& 7)
          else rows addr j

theorem setFrom_of_ne (rows : Tables) {addr other : RowAddr} (words : Nat → Word) (k : Nat)
    (h : other ≠ addr) : rows.setFrom addr words k other = rows other :=
  Function.update_of_ne h _ _

theorem setFrom_apply (rows : Tables) (addr : RowAddr) (words : Nat → Word) (k j : Nat)
    (hk : k ≤ j) (hj : j < addr.words) : rows.setFrom addr words k addr j = words j := by
  simp [setFrom, hk, hj]

theorem setRow_of_ne (rows : Tables) {addr other : RowAddr} (words : Nat → Word)
    (h : other ≠ addr) : rows.setRow addr words other = rows other :=
  rows.setFrom_of_ne words 0 h

theorem setRow_apply (rows : Tables) (addr : RowAddr) (words : Nat → Word) (j : Nat)
    (hj : j < addr.words) : rows.setRow addr words addr j = words j :=
  rows.setFrom_apply addr words 0 j (Nat.zero_le j) hj

theorem setFrom_words (rows : Tables) (addr : RowAddr) (words : Nat → Word) :
    rows.setFrom addr words addr.words = rows := by
  have hrow : (fun j => if addr.words ≤ j ∧ j < addr.words then words j else rows addr j) =
      rows addr := by
    funext j
    rw [if_neg (by omega)]
  rw [setFrom, hrow, Function.update_eq_self]

/-- Filling from the top down, one word at a time. -/
theorem setWord_setFrom (rows : Tables) (addr : RowAddr) (words : Nat → Word) (k : Nat)
    (hk : k < addr.words) :
    (rows.setFrom addr words (k + 1)).setWord addr k (words k) = rows.setFrom addr words k := by
  simp only [setWord, setFrom, Function.update_self, Function.update_idem]
  congr 1
  funext j
  by_cases hj : j = k
  · subst hj
    simp [hk]
  · rw [Function.update_of_ne hj]
    have : (k + 1 ≤ j ∧ j < addr.words) ↔ (k ≤ j ∧ j < addr.words) := by omega
    simp only [this]

/-- A word that would be put back as it is can be left out. -/
theorem setFrom_succ (rows : Tables) (addr : RowAddr) (words : Nat → Word) (k : Nat)
    (h : words k = rows addr k) : rows.setFrom addr words (k + 1) = rows.setFrom addr words k := by
  simp only [setFrom]
  congr 1
  funext j
  by_cases hj : j = k
  · subst hj
    simp [h]
  · have : (k + 1 ≤ j ∧ j < addr.words) ↔ (k ≤ j ∧ j < addr.words) := by omega
    simp only [this]

end Tables

/-- What the hardware does with one indirect access. `busy` polls answer busy
before the first idle one. An access that goes idle within the driver's poll
budget has been performed; otherwise `lands` says which words of a write still
reached the row. A read reports `seen` of the row. Before the access, the
counters of NF rows may have moved. -/
structure Fate where
  busy : Nat
  lands : Nat → Bool
  seen : (Nat → Word) → Nat → Word
  counters : Nat → Option (Word × Word)

namespace Fate

def idle (f : Fate) : Bool := decide (f.busy < MEM_ACC_POLL_STEPS)

def reaches (f : Fate) (j : Nat) : Bool := f.idle || f.lands j

/-- A row `old` after a write of `words` with this fate. -/
def landed (f : Fate) (words old : Nat → Word) : Nat → Word :=
  fun j => if f.reaches j then words j else old j

/-- An access on hardware that performs everything at once. -/
def clean : Fate :=
  { busy := 0, lands := fun _ => true, seen := id, counters := fun _ => none }

theorem landed_of_idle {f : Fate} (h : f.idle = true) (words old : Nat → Word) :
    f.landed words old = words := by
  funext j
  simp [landed, reaches, h]

end Fate

inductive RowStore where
  | wordByWord
  | onWordZero
  deriving DecidableEq, Repr

structure Dev where
  store : RowStore
  control : Word
  ctl : Word
  window : Nat → Word
  rows : Tables
  /-- DBG_STATUS reads since MEM_ACC_CTL was last written. -/
  polled : Nat
  /-- The access MEM_ACC_CTL started last, as an index into `fates`. -/
  turn : Nat
  fates : Nat → Fate

namespace Dev

abbrev fate (d : Dev) : Fate := d.fates d.turn

/-- Everything zero, as after a power cycle. -/
def reset (store : RowStore) (fates : Nat → Fate) : Dev where
  store := store
  control := 0
  ctl := 0
  window := fun _ => 0
  rows := fun _ _ => 0
  polled := 0
  turn := 0
  fates := fates

def storeWord (d : Dev) (j : Nat) (val : Word) : Dev :=
  if selectsRead d.ctl then d
  else
    match d.store with
    | .wordByWord =>
        if d.fate.reaches j then { d with rows := d.rows.setWord (selected d.ctl) j val } else d
    | .onWordZero =>
        let window := Function.update d.window j val
        if j = 0 then
          { d with
            window := window
            rows := d.rows.setRow (selected d.ctl)
              (d.fate.landed window (d.rows (selected d.ctl))) }
        else { d with window := window }

def select (d : Dev) (ctl : Word) : Dev :=
  { d with
    ctl := ctl
    turn := d.turn + 1
    polled := 0
    rows := d.rows.counted (d.fates (d.turn + 1)).counters }

def writel (d : Dev) (val : Word) : Reg → Dev
  | .control => { d with control := val }
  | .memAccCtl => d.select val
  | .dbgStatus => d
  | .mAccdata j => d.storeWord j val

def readl (d : Dev) : Reg → Word × Dev
  | .control => (d.control, d)
  | .memAccCtl => (d.ctl, d)
  | .dbgStatus =>
      (if d.polled < d.fate.busy then CTF_DBG_MEM_ACC_BUSY else 0,
        { d with polled := d.polled + 1 })
  | .mAccdata j => (d.fate.seen (d.rows (selected d.ctl)) j, d)

end Dev

/-- The driver's static state next to the device. -/
structure Accel where
  flows : Slots
  dev : Dev

/-- The steps other contexts can see as one: a register access, a section
under `fa_flows_lock`, and a read of a slot through its pointer. -/
inductive Access where
  | readl (reg : Reg)
  | writel (val : Word) (reg : Reg)
  | alloc (cookie : Cookie)
  | find (cookie : Cookie)
  | free (slot : Slot)
  | load (slot : Slot)
  deriving DecidableEq, Repr

abbrev Access.Ans : Access → Type
  | .readl _ => Word
  | .writel _ _ => Unit
  | .alloc _ => Option Slot
  | .find _ => Option Slot
  | .free _ => Unit
  | .load _ => FaLiveFlow

namespace Accel

def perform : (o : Access) → Accel → o.Ans × Accel
  | .readl reg, w => ((w.dev.readl reg).1, { w with dev := (w.dev.readl reg).2 })
  | .writel val reg, w => ((), { w with dev := w.dev.writel val reg })
  | .alloc cookie, w => ((w.flows.alloc cookie).1, { w with flows := (w.flows.alloc cookie).2 })
  | .find cookie, w => (w.flows.find cookie, w)
  | .free slot, w => ((), { w with flows := w.flows.free slot })
  | .load slot, w => (w.flows slot, w)

end Accel

abbrev FaProg := Prog Access Access.Ans

end R8000Plus.Fa
