import R8000Plus.Fa.Device

/-!
`fa_macc_write` and `fa_macc_read` as register programs, and what one call of
each does to a device no other context touches meanwhile. `mdelay` has no
counterpart: the model has no clock.
-/

namespace R8000Plus.Fa

open Effects

def readl (reg : Reg) : FaProg Word := .request (Access.readl reg)

def writel (val : Word) (reg : Reg) : FaProg Unit := .request (Access.writel val reg)

/-- CONTROL after `war777_on`. -/
def hwqCleared (control : Word) : Word := control &&& ~~~CTF_CTL_HWQ_THRESHLD_MASK

/-- CONTROL after `war777_off`. -/
def hwqRestored (control : Word) : Word :=
  (control &&& ~~~CTF_CTL_HWQ_THRESHLD_MASK) ||| CTF_CTL_HWQ_DEF_THRESHLD_VAL

def war777On : FaProg Unit := do
  let val ← readl .control
  writel (hwqCleared val) .control

def war777Off : FaProg Unit := do
  let val ← readl .control
  writel (hwqRestored val) .control

/-- The polling loop with `steps` rounds left. -/
def waitMaccIdle : Nat → FaProg Bool
  | 0 => return false
  | steps + 1 => do
      let status ← readl .dbgStatus
      if status &&& CTF_DBG_MEM_ACC_BUSY = 0 then return true
      else waitMaccIdle steps

/-- `for (i = n; i > 0; i--)` over the data window, `i` words left. -/
def writeWords (words : List Word) : Nat → FaProg Unit
  | 0 => return ()
  | i + 1 => do
      writel (ofWords words i) (.mAccdata i)
      writeWords words i

/-- `for (i = 0; i < n; i++)` over the data window, from word `i` on with
`n` words left. -/
def readWords (i : Nat) : Nat → FaProg (List Word)
  | 0 => return []
  | n + 1 => do
      let word ← readl (.mAccdata i)
      let rest ← readWords (i + 1) n
      return word :: rest

def faMaccWrite (table idx : Word) (words : List Word) : FaProg Bool := do
  war777On
  writel (ctfMemaccWrTable table idx) .memAccCtl
  writeWords words words.length
  let idle ← waitMaccIdle MEM_ACC_POLL_STEPS
  war777Off
  return idle

def faMaccRead (table idx : Word) (n : Nat) : FaProg (Bool × List Word) := do
  war777On
  writel (ctfMemaccRdTable table idx) .memAccCtl
  let idle ← waitMaccIdle MEM_ACC_POLL_STEPS
  let words ← readWords 0 n
  writel 0 .memAccCtl
  war777Off
  return (idle, words)

/-! ### Which accesses they make -/

section Uses

variable {ok : Access → Prop}

theorem war777On_uses (hread : ok (.readl .control)) (hwrite : ∀ val, ok (.writel val .control)) :
    war777On.Uses ok :=
  ⟨hread, fun val => ⟨hwrite (hwqCleared val), fun _ => trivial⟩⟩

theorem war777Off_uses (hread : ok (.readl .control)) (hwrite : ∀ val, ok (.writel val .control)) :
    war777Off.Uses ok :=
  ⟨hread, fun val => ⟨hwrite (hwqRestored val), fun _ => trivial⟩⟩

theorem waitMaccIdle_uses (hread : ok (.readl .dbgStatus)) (steps : Nat) :
    (waitMaccIdle steps).Uses ok := by
  induction steps with
  | zero => trivial
  | succ steps ih =>
      refine ⟨hread, fun status => ?_⟩
      change Prog.Uses ok (if _ then _ else _)
      split
      · trivial
      · exact ih

theorem writeWords_uses (hwrite : ∀ val j, ok (.writel val (.mAccdata j))) (words : List Word)
    (k : Nat) : (writeWords words k).Uses ok := by
  induction k with
  | zero => trivial
  | succ k ih => exact ⟨hwrite _ _, fun _ => ih⟩

end Uses

/-! ### The encoding of MEM_ACC_CTL -/

theorem selected_wrTable (t i : Word) (ht : t.toNat < 2 ^ 2) (hi : i.toNat < 2 ^ 10) :
    selected (ctfMemaccWrTable t i) = ⟨t.toNat, i.toNat⟩ := by
  rw [eq_setWidth_of_lt t 2 ht, eq_setWidth_of_lt i 10 hi]
  simp only [selected, RowAddr.mk.injEq]
  constructor <;>
    refine congrArg BitVec.toNat (BitVec.eq_of_getLsbD_eq fun k hk => ?_) <;>
    simp only [ctfMemaccWrTable, CTF_MEMACC_TAB_INDEX_MASK] <;>
    interval_cases k <;> simp

theorem selected_rdTable (t i : Word) (ht : t.toNat < 2 ^ 2) (hi : i.toNat < 2 ^ 10) :
    selected (ctfMemaccRdTable t i) = ⟨t.toNat, i.toNat⟩ := by
  rw [eq_setWidth_of_lt t 2 ht, eq_setWidth_of_lt i 10 hi]
  simp only [selected, RowAddr.mk.injEq]
  constructor <;>
    refine congrArg BitVec.toNat (BitVec.eq_of_getLsbD_eq fun k hk => ?_) <;>
    simp only [ctfMemaccRdTable, CTF_MEMACC_TAB_INDEX_MASK, CTF_MEMACC_RD_WR_N] <;>
    interval_cases k <;> simp

theorem selectsRead_wrTable (t i : Word) (ht : t.toNat < 2 ^ 2) :
    selectsRead (ctfMemaccWrTable t i) = false := by
  rw [eq_setWidth_of_lt t 2 ht]
  simp [selectsRead, ctfMemaccWrTable, CTF_MEMACC_TAB_INDEX_MASK]

/-- The row that a table number and an index select; the hardware takes ten bits
of the index. -/
def rowAt (table idx : Word) : RowAddr :=
  ⟨table.toNat, (idx &&& CTF_MEMACC_TAB_INDEX_MASK).toNat⟩

theorem masked_lt (idx : Word) : (idx &&& CTF_MEMACC_TAB_INDEX_MASK).toNat < 2 ^ 10 := by
  rw [CTF_MEMACC_TAB_INDEX_MASK, BitVec.toNat_and]
  exact Nat.lt_of_le_of_lt Nat.and_le_right (by decide)

@[simp] theorem ctfMemaccWrTable_masked (t i : Word) :
    ctfMemaccWrTable t (i &&& CTF_MEMACC_TAB_INDEX_MASK) = ctfMemaccWrTable t i := by
  simp only [ctfMemaccWrTable, BitVec.and_assoc, BitVec.and_self]

@[simp] theorem ctfMemaccRdTable_masked (t i : Word) :
    ctfMemaccRdTable t (i &&& CTF_MEMACC_TAB_INDEX_MASK) = ctfMemaccRdTable t i := by
  simp only [ctfMemaccRdTable, BitVec.and_assoc, BitVec.and_self]

theorem selected_rdTable_rowAt (t i : Word) (ht : t.toNat < 2 ^ 2) :
    selected (ctfMemaccRdTable t i) = rowAt t i := by
  rw [← ctfMemaccRdTable_masked, selected_rdTable t _ ht (masked_lt i)]
  rfl

/-! ### Loops -/

/-- The device after the data words from `k` on went through the window. -/
def Dev.filled (d : Dev) (words : List Word) (k : Nat) : Dev :=
  match d.store with
  | .wordByWord =>
      { d with
        rows := d.rows.setFrom (selected d.ctl)
          (d.fate.landed (ofWords words) (d.rows (selected d.ctl))) k }
  | .onWordZero =>
      let window := fun j => if k ≤ j ∧ j < words.length then ofWords words j else d.window j
      if k = 0 then
        { d with
          window := window
          rows := d.rows.setRow (selected d.ctl)
            (d.fate.landed window (d.rows (selected d.ctl))) }
      else { d with window := window }

theorem Dev.filled_length (d : Dev) (words : List Word) (hpos : 0 < words.length)
    (hlen : words.length = (selected d.ctl).words) : d.filled words words.length = d := by
  have hwindow : (fun j => if words.length ≤ j ∧ j < words.length then ofWords words j
      else d.window j) = d.window := by
    funext j
    rw [if_neg (by omega)]
  simp only [Dev.filled]
  split
  · rw [hlen, Tables.setFrom_words]
  · rw [hwindow, if_neg (by omega)]

theorem Dev.storeWord_filled (d : Dev) (words : List Word) (k : Nat)
    (hctl : selectsRead d.ctl = false) (hk : k < words.length)
    (hlen : words.length = (selected d.ctl).words) :
    (d.filled words (k + 1)).storeWord k (ofWords words k) = d.filled words k := by
  cases hmode : d.store with
  | wordByWord =>
      let row := d.fate.landed (ofWords words) (d.rows (selected d.ctl))
      by_cases hreach : d.fate.reaches k = true
      · have hrow := d.rows.setWord_setFrom (selected d.ctl) row k (by omega)
        have hword : row k = ofWords words k := by simp [row, Fate.landed, hreach]
        rw [hword] at hrow
        simp [Dev.filled, hmode, hreach, Dev.storeWord, hctl, hrow, row]
      · have hrow := d.rows.setFrom_succ (selected d.ctl) row k
          (by simp [row, Fate.landed, hreach])
        simp [Dev.filled, hmode, hreach, Dev.storeWord, hctl, hrow, row]
  | onWordZero =>
      have hwindow : Function.update
          (fun j => if k < j ∧ j < words.length then ofWords words j else d.window j) k
          (ofWords words k) =
          fun j => if k ≤ j ∧ j < words.length then ofWords words j else d.window j := by
        funext j
        by_cases hj : j = k
        · subst hj
          simp [hk]
        · rw [Function.update_of_ne hj]
          have : (k < j ∧ j < words.length) ↔ (k ≤ j ∧ j < words.length) := by omega
          simp only [this]
      simp [Dev.filled, hmode, Dev.storeWord, hctl, hwindow]

section Loops

variable (flows : Slots)

/-- The write loop, started with the words from `k` on already through. -/
theorem writeWords_run (d : Dev) (words : List Word) (k : Nat)
    (hctl : selectsRead d.ctl = false) (hk : k ≤ words.length)
    (hlen : words.length = (selected d.ctl).words) :
    (writeWords words k).run Accel.perform ⟨flows, d.filled words k⟩ =
      ((), ⟨flows, d.filled words 0⟩) := by
  induction k with
  | zero => rfl
  | succ k ih =>
      have hstore := d.storeWord_filled words k hctl hk hlen
      simp only [writeWords, writel, Prog.request_bind, Prog.run_ask, Accel.perform,
        Dev.writel, hstore]
      exact ih (by omega)

/-- The polling loop answers by the fate of the access and moves nothing but
the poll count. -/
theorem waitMaccIdle_run (d : Dev) (steps : Nat) (hpolled : d.polled < d.fate.busy + 1) :
    ∃ polled, (waitMaccIdle steps).run Accel.perform ⟨flows, d⟩ =
      (decide (d.fate.busy < d.polled + steps), ⟨flows, { d with polled := polled }⟩) := by
  induction steps generalizing d with
  | zero => exact ⟨d.polled, by simp [waitMaccIdle]; omega⟩
  | succ steps ih =>
      by_cases hbusy : d.polled < d.fate.busy
      · obtain ⟨polled, hrun⟩ := ih { d with polled := d.polled + 1 } (by simpa using hbusy)
        refine ⟨polled, ?_⟩
        simp only [waitMaccIdle, readl, Prog.request_bind, Prog.run_ask, Accel.perform,
          Dev.readl, hbusy, if_true, CTF_DBG_MEM_ACC_BUSY]
        simp only [BitVec.and_self, BitVec.reduceEq, if_false]
        rw [hrun]
        simp only [Nat.add_right_comm, Nat.add_assoc]
      · refine ⟨d.polled + 1, ?_⟩
        simp only [waitMaccIdle, readl, Prog.request_bind, Prog.run_ask, Accel.perform,
          Dev.readl, hbusy, if_false]
        simp
        omega

theorem readWords_run (d : Dev) (i n : Nat) :
    (readWords i n).run Accel.perform ⟨flows, d⟩ =
      ((List.range' i n).map (d.fate.seen (d.rows (selected d.ctl))), ⟨flows, d⟩) := by
  induction n generalizing i with
  | zero => rfl
  | succ n ih =>
      simp only [readWords, readl, Prog.request_bind, Prog.run_ask, Accel.perform,
        Dev.readl, Prog.run_bind, ih, List.range'_succ, List.map_cons]
      rfl

end Loops

/-! ### One call -/

namespace Dev

/-- The fate of the access the next MEM_ACC_CTL write starts. -/
abbrev nextFate (d : Dev) : Fate := d.fates (d.turn + 1)

/-- The tables as that access finds them. -/
def countedRows (d : Dev) : Tables := d.rows.counted d.nextFate.counters

/-- What one `fa_macc_write` leaves behind, the access registers aside. -/
def wrote (d : Dev) (addr : RowAddr) (words : List Word) : Dev :=
  { d with
    control := hwqRestored d.control
    turn := d.turn + 1
    rows := d.countedRows.setRow addr
      (d.nextFate.landed (ofWords words) (d.countedRows addr)) }

/-- What one `fa_macc_read` leaves behind: the select and the final clear each
count as a start. -/
def wasRead (d : Dev) : Dev :=
  { d with
    control := hwqRestored d.control
    turn := d.turn + 2
    rows := d.countedRows.counted (d.fates (d.turn + 2)).counters }

/-- The words an `fa_macc_read` of `n` words of row `addr` reports. -/
def readBack (d : Dev) (addr : RowAddr) (n : Nat) : List Word :=
  (List.range n).map (d.nextFate.seen (d.countedRows addr))

/-- The registers that only serve the access protocol. -/
def scratch (d : Dev) (ctl : Word) (window : Nat → Word) (polled : Nat) : Dev :=
  { d with ctl := ctl, window := window, polled := polled }

end Dev

theorem Tables.setRow_congr (rows : Tables) (addr : RowAddr) (f g : Nat → Word)
    (h : ∀ j < addr.words, f j = g j) : rows.setRow addr f = rows.setRow addr g := by
  simp only [Tables.setRow, Tables.setFrom]
  congr 1
  funext j
  by_cases hj : j < addr.words
  · simp [hj, h j hj]
  · simp [hj]

@[simp] theorem hwqRestored_cleared (control : Word) :
    hwqRestored (hwqCleared control) = hwqRestored control := by
  simp only [hwqRestored, hwqCleared, BitVec.and_assoc, BitVec.and_self]

theorem war777On_run (flows : Slots) (d : Dev) :
    war777On.run Accel.perform ⟨flows, d⟩ =
      ((), ⟨flows, { d with control := hwqCleared d.control }⟩) := rfl

theorem war777Off_run (flows : Slots) (d : Dev) :
    war777Off.run Accel.perform ⟨flows, d⟩ =
      ((), ⟨flows, { d with control := hwqRestored d.control }⟩) := rfl

theorem writel_memAccCtl_run (flows : Slots) (d : Dev) (val : Word) :
    (writel val .memAccCtl).run Accel.perform ⟨flows, d⟩ = ((), ⟨flows, d.select val⟩) := rfl

theorem Dev.filled_zero (d : Dev) (words : List Word)
    (hlen : words.length = (selected d.ctl).words) :
    ∃ window, d.filled words 0 =
      { d with
        window := window
        rows := d.rows.setRow (selected d.ctl)
          (d.fate.landed (ofWords words) (d.rows (selected d.ctl))) } := by
  cases hmode : d.store with
  | wordByWord => exact ⟨d.window, by simp [Dev.filled, hmode]⟩
  | onWordZero =>
      let window := fun j => if j < words.length then ofWords words j else d.window j
      have hrow := d.rows.setRow_congr (selected d.ctl)
        (d.fate.landed window (d.rows (selected d.ctl)))
        (d.fate.landed (ofWords words) (d.rows (selected d.ctl)))
        (fun j hj => by simp [Fate.landed, window, hlen, hj])
      exact ⟨window, by simp [Dev.filled, hmode, window, ← hrow]⟩

theorem faMaccWrite_run (w : Accel) (table idx : Word) (words : List Word) (addr : RowAddr)
    (ht : table.toNat < 2 ^ 2) (hi : idx.toNat < 2 ^ 10)
    (haddr : addr = ⟨table.toNat, idx.toNat⟩) (hpos : 0 < words.length)
    (hlen : words.length = addr.words) :
    ∃ ctl window polled, (faMaccWrite table idx words).run Accel.perform w =
      (w.dev.nextFate.idle,
        { w with dev := (w.dev.wrote addr words).scratch ctl window polled }) := by
  obtain ⟨flows, d⟩ := w
  have hsel : selected (ctfMemaccWrTable table idx) = addr := by
    rw [haddr, selected_wrTable table idx ht hi]
  let started : Dev :=
    { d with control := hwqCleared d.control }.select (ctfMemaccWrTable table idx)
  have hstarted : words.length = (selected started.ctl).words := by
    simpa [started, Dev.select, hsel] using hlen
  have hfill : started.filled words words.length = started :=
    started.filled_length words hpos hstarted
  have hloop := writeWords_run flows started words words.length
    (selectsRead_wrTable table idx ht) le_rfl hstarted
  rw [hfill] at hloop
  obtain ⟨window, hzero⟩ := started.filled_zero words hstarted
  obtain ⟨polled, hwait⟩ := waitMaccIdle_run flows (started.filled words 0)
    MEM_ACC_POLL_STEPS (by rw [hzero]; simp [started, Dev.select])
  refine ⟨ctfMemaccWrTable table idx, window, polled, ?_⟩
  rw [faMaccWrite, Prog.run_bind_of_eq _ (war777On_run flows d),
    Prog.run_bind_of_eq _ (writel_memAccCtl_run flows _ _), Prog.run_bind_of_eq _ hloop,
    Prog.run_bind_of_eq _ hwait, Prog.run_bind_of_eq _ (war777Off_run flows _), hzero]
  simp [started, Dev.select, Dev.wrote, Dev.scratch, Dev.countedRows, Fate.idle, hsel]

theorem faMaccRead_run (w : Accel) (table idx : Word) (n : Nat) (addr : RowAddr)
    (ht : table.toNat < 2 ^ 2) (hi : idx.toNat < 2 ^ 10)
    (haddr : addr = ⟨table.toNat, idx.toNat⟩) :
    ∃ ctl window polled, (faMaccRead table idx n).run Accel.perform w =
      ((w.dev.nextFate.idle, w.dev.readBack addr n),
        { w with dev := w.dev.wasRead.scratch ctl window polled }) := by
  obtain ⟨flows, d⟩ := w
  have hsel : selected (ctfMemaccRdTable table idx) = addr := by
    rw [haddr, selected_rdTable table idx ht hi]
  let started : Dev :=
    { d with control := hwqCleared d.control }.select (ctfMemaccRdTable table idx)
  obtain ⟨polled, hwait⟩ := waitMaccIdle_run flows started MEM_ACC_POLL_STEPS
    (by simp [started, Dev.select])
  refine ⟨0, d.window, 0, ?_⟩
  rw [faMaccRead, Prog.run_bind_of_eq _ (war777On_run flows d),
    Prog.run_bind_of_eq _ (writel_memAccCtl_run flows _ _), Prog.run_bind_of_eq _ hwait,
    Prog.run_bind_of_eq _ (readWords_run flows _ 0 n),
    Prog.run_bind_of_eq _ (writel_memAccCtl_run flows _ _),
    Prog.run_bind_of_eq _ (war777Off_run flows _)]
  simp [started, Dev.select, Dev.wasRead, Dev.scratch, Dev.countedRows, Dev.readBack,
    Fate.idle, hsel, List.range_eq_range']

/-! Indices from 1024 on name the rows of their low ten bits. -/

theorem faMaccWrite_rowAt (w : Accel) (table idx : Word) (words : List Word)
    (ht : table.toNat < 2 ^ 2) (hpos : 0 < words.length)
    (hlen : words.length = (rowAt table idx).words) :
    ∃ ctl window polled, (faMaccWrite table idx words).run Accel.perform w =
      (w.dev.nextFate.idle,
        { w with dev := (w.dev.wrote (rowAt table idx) words).scratch ctl window polled }) := by
  have hrun := faMaccWrite_run w table (idx &&& CTF_MEMACC_TAB_INDEX_MASK) words
    (rowAt table idx) ht (masked_lt idx) rfl hpos hlen
  rwa [faMaccWrite, ctfMemaccWrTable_masked] at hrun

theorem faMaccRead_rowAt (w : Accel) (table idx : Word) (n : Nat) (ht : table.toNat < 2 ^ 2) :
    ∃ ctl window polled, (faMaccRead table idx n).run Accel.perform w =
      ((w.dev.nextFate.idle, w.dev.readBack (rowAt table idx) n),
        { w with dev := w.dev.wasRead.scratch ctl window polled }) := by
  have hrun := faMaccRead_run w table (idx &&& CTF_MEMACC_TAB_INDEX_MASK) n
    (rowAt table idx) ht (masked_lt idx) rfl
  rwa [faMaccRead, ctfMemaccRdTable_masked] at hrun

end R8000Plus.Fa
