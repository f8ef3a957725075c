import R8000Plus.Effects.Choices
import R8000Plus.Vendor.CacheRuns
import R8000Plus.Vendor.RegisterRuns

/-!
The driver on the registers refines the driver on the rows: over any calls, and
on any chip whose answers can be trusted, it ends as the row accesses make it end
for some turns of the hardware, and the tables show what they then show.
-/

namespace R8000Plus.Vendor

open Effects Fa

/-- One access of the rows with a given turn of the hardware. -/
def performAt (o : RowOp) (t : Turn) (rows : Tables) : o.Ans × Tables :=
  ((Hw.perform o ⟨rows, 0, fun _ => t⟩).1, (Hw.perform o ⟨rows, 0, fun _ => t⟩).2.rows)

/-- The chip shows the rows, as far as the driver looks at them, after counters
moved. It is the chip that `c₀` was. -/
structure Shows (c₀ c : Chip) (rows : Tables) : Prop where
  fates : c.dev.fates = c₀.dev.fates
  inits : c.inits = c₀.inits
  strobes : c.dev.control &&& initStrobes = 0
  rows : ∃ counters, ∀ addr, ∀ j < span addr, c.dev.rows addr j = rows.counted counters addr j

/-- Some turn of the hardware explains what the register accesses did. -/
def Explained (b : Board) (c₀ : Chip) (o : RowOp) (p : RegProg o.Ans) (c : Chip) (rows : Tables) :
    Prop :=
  ∃ t : Turn, (c₀.Prompt b → t.busy = false) ∧ (performAt o t rows).1 = (p.run Chip.perform c).1 ∧
    Shows c₀ (p.run Chip.perform c).2 (performAt o t rows).2

/-! ### The bracket -/

def Chip.setControl (c : Chip) (control : Word) : Chip :=
  { c with dev := { c.dev with control := control } }

theorem and_strobes_eq_zero {val mask v : Word} (hval : val &&& initStrobes = 0)
    (hmask : mask &&& initStrobes = 0) :
    ((val &&& ~~~mask) ||| (v &&& mask)) &&& initStrobes = 0 := by
  rw [BitVec.and_or_distrib_right, BitVec.and_assoc v, hmask, BitVec.and_assoc val,
    BitVec.and_comm _ initStrobes, ← BitVec.and_assoc val, hval]
  simp

theorem ctfFaWReg_run (c : Chip) (hstrobes : c.dev.control &&& initStrobes = 0) (v : Word) :
    ∃ control, control &&& initStrobes = 0 ∧
      (ctfFaWReg (.fa .control) CTF_CTL_HWQ_THRESHLD_MASK v).run Chip.perform c =
        ((), c.setControl control) := by
  let control := (c.dev.control &&& ~~~CTF_CTL_HWQ_THRESHLD_MASK) |||
    (v &&& CTF_CTL_HWQ_THRESHLD_MASK)
  have hcontrol : control &&& initStrobes = 0 := and_strobes_eq_zero hstrobes (by decide)
  have hrun : (ctfFaWReg (.fa .control) CTF_CTL_HWQ_THRESHLD_MASK v).run Chip.perform c =
      ((), c.writeControl control) := rfl
  exact ⟨control, hcontrol, by rw [hrun, c.writeControl_of_eq hcontrol]; rfl⟩

theorem ctfFaWar777_run (b : Board) (c : Chip) (hstrobes : c.dev.control &&& initStrobes = 0)
    (on : Bool) :
    ∃ control, control &&& initStrobes = 0 ∧
      (if on then ctfFaWar777On b else ctfFaWar777Off b).run Chip.perform c =
        ((), c.setControl control) := by
  rw [ctfFaWar777On, ctfFaWar777Off]
  cases b.war777 with
  | false => cases on <;> exact ⟨c.dev.control, hstrobes, rfl⟩
  | true =>
      cases on with
      | true => exact ctfFaWReg_run c hstrobes 0
      | false => exact ctfFaWReg_run c hstrobes CTF_CTL_HWQ_DEF_THRESHLD_VAL

section Steps

variable {b : Board} {c₀ c : Chip} {rows : Tables}

theorem Shows.setControl (h : Shows c₀ c rows) {control : Word}
    (hcontrol : control &&& initStrobes = 0) : Shows c₀ (c.setControl control) rows :=
  ⟨h.fates, h.inits, hcontrol, h.rows⟩

theorem Explained.underWar777 {o : RowOp} {p : RegProg o.Ans} (h : Shows c₀ c rows)
    (hp : ∀ c, Shows c₀ c rows → Explained b c₀ o p c rows) :
    Explained b c₀ o (underWar777 b p) c rows := by
  obtain ⟨control, hcontrol, hon⟩ := ctfFaWar777_run b c h.strobes true
  replace hon : (ctfFaWar777On b).run Chip.perform c = ((), c.setControl control) := hon
  obtain ⟨t, hprompt, hanswer, hshows⟩ := hp _ (h.setControl hcontrol)
  let r := p.run Chip.perform (c.setControl control)
  obtain ⟨control', hcontrol', hoff⟩ := ctfFaWar777_run b r.2 hshows.strobes false
  replace hoff : (ctfFaWar777Off b).run Chip.perform r.2 = ((), r.2.setControl control') := hoff
  have hrun : (Vendor.underWar777 b p).run Chip.perform c = (r.1, r.2.setControl control') := by
    rw [Vendor.underWar777, Prog.run_bind_of_eq _ hon, Prog.run_bind, Prog.run_bind_of_eq _ hoff]
    rfl
  rw [Explained, hrun]
  exact ⟨t, hprompt, hanswer, hshows.setControl hcontrol'⟩

theorem Explained.war777 (h : Shows c₀ c rows) (on : Bool) :
    Explained b c₀ (.war777 on) (RowOp.regs b (.war777 on)) c rows := by
  obtain ⟨control, hcontrol, hrun⟩ := ctfFaWar777_run b c h.strobes on
  obtain ⟨counters, hrows⟩ := h.rows
  rw [Explained, RowOp.regs, hrun]
  refine ⟨⟨false, fun _ => true, fun _ => true, counters⟩, fun _ => rfl, rfl, h.fates, h.inits,
    hcontrol, fun _ => none, fun addr j hj => ?_⟩
  rw [counted_none]
  exact hrows addr j hj

/-! ### Reading -/

theorem readRow_run (b : Board) (c : Chip) (table idx : Word) (n : Nat)
    (ht : table.toNat < 2 ^ 2) :
    ∃ polled, (readRow b table idx n).run Chip.perform c =
      (if (c.dev.fates (c.dev.turn + 2)).busy ≤ b.spins 10000 then
        some ((List.range n).map
          ((c.dev.fates (c.dev.turn + 1)).seen (c.dev.countedRows (rowAt table idx)))) else none,
        { c with dev := { (c.dev.select (ctfMemaccRdTable table idx)).select 0 with
          polled := polled } }) := by
  let c₁ : Chip := { c with dev := c.dev.select (ctfMemaccRdTable table idx) }
  have hselect : (Vendor.wReg (ctfMemaccRdTable table idx) (.fa .memAccCtl)).run Chip.perform c =
      ((), c₁) := rfl
  have hsel : selected c₁.dev.ctl = rowAt table idx := selected_rdTable_rowAt table idx ht
  have hread := c₁.ctfFaMaccRd_run n
  rw [hsel] at hread
  obtain ⟨polled, hwait⟩ := Chip.memAccComplete_run { c₁ with dev := c₁.dev.select 0 } b rfl
  have hfate : ({ c₁ with dev := c₁.dev.select 0 } : Chip).dev.fate =
      c.dev.fates (c.dev.turn + 2) := rfl
  rw [hfate] at hwait
  refine ⟨polled, ?_⟩
  rw [readRow, Prog.run_bind_of_eq _ hselect, Prog.run_bind_of_eq _ hread,
    Prog.run_bind_of_eq _ hwait]
  by_cases hidle : (c.dev.fates (c.dev.turn + 2)).busy ≤ b.spins 10000
  · rw [if_pos hidle, if_pos (decide_eq_true hidle)]
    rfl
  · rw [if_neg hidle, if_neg (by simpa using hidle)]
    rfl

theorem Explained.readRow (hc₀ : c₀.Settles b) (h : Shows c₀ c rows) {table idx : Word} {n : Nat}
    (ht : table.toNat < 2 ^ 2) (hn : n = span (rowAt table idx)) :
    Explained b c₀ (.read table idx n) (readRow b table idx n) c rows := by
  obtain ⟨counters, hrows⟩ := h.rows
  obtain ⟨polled, hrun⟩ := readRow_run b c table idx n ht
  have hsees : (c.dev.fates (c.dev.turn + 1)).seen = id := by
    rw [h.fates]
    exact hc₀.sees _
  have hmet : ∀ addr, ∀ j < span addr, c.dev.countedRows addr j =
      rows.counted (laterCounters c.dev.nextFate.counters counters) addr j := by
    intro addr j hj
    rw [← counted_counted]
    exact counted_congr _ (hrows addr j hj)
  rw [Explained, hrun]
  refine ⟨⟨decide (¬ (c.dev.fates (c.dev.turn + 2)).busy ≤ b.spins 10000), fun _ => true,
    fun _ => true, laterCounters c.dev.nextFate.counters counters⟩, fun hprompt => ?_, ?_,
    h.fates, h.inits, h.strobes, (c.dev.fates (c.dev.turn + 2)).counters, fun addr j hj => ?_⟩
  · rw [decide_eq_false_iff_not, not_not, h.fates]
    exact hprompt.1 _
  · have hwords : (List.range n).map (rows.counted
        (laterCounters c.dev.nextFate.counters counters) (rowAt table idx)) =
        (List.range n).map (c.dev.countedRows (rowAt table idx)) :=
      List.map_congr_left fun j hj => (hmet _ j (by rw [← hn]; simpa using hj)).symm
    rw [hsees]
    change (if decide _ = true then none else some ((List.range n).map (rows.counted
      (laterCounters c.dev.nextFate.counters counters) (rowAt table idx)))) = _
    rw [hwords]
    by_cases hidle : (c.dev.fates (c.dev.turn + 2)).busy ≤ b.spins 10000 <;> simp [hidle]
  · exact counted_congr _ (hmet addr j hj)

/-! ### Writing -/

theorem selected_wrTable_rowAt (t i : Word) (ht : t.toNat < 2 ^ 2) :
    selected (ctfMemaccWrTable t i) = rowAt t i := by
  rw [← ctfMemaccWrTable_masked, selected_wrTable t _ ht (masked_lt i)]
  rfl

theorem writeRow_run (b : Board) (c : Chip) (table idx : Word) (tbl : List Word)
    (ht : table.toNat < 2 ^ 2) (hlen : tbl.length ≤ (rowAt table idx).words) :
    ∃ polled window written, (writeRow b table idx tbl).run Chip.perform c =
        (decide (c.dev.nextFate.busy ≤ b.spins 10000),
          { c with dev := { c.dev.select (ctfMemaccWrTable table idx) with
            window := window, rows := written, polled := polled } }) ∧
      (∀ j < tbl.length, written (rowAt table idx) j =
        c.dev.nextFate.landed (ofWords tbl) (c.dev.countedRows (rowAt table idx)) j) ∧
      ∀ addr, addr ≠ rowAt table idx → written addr = c.dev.countedRows addr := by
  let c₁ : Chip := { c with dev := c.dev.select (ctfMemaccWrTable table idx) }
  have hselect : (Vendor.wReg (ctfMemaccWrTable table idx) (.fa .memAccCtl)).run Chip.perform c =
      ((), c₁) := rfl
  have hsel : selected c₁.dev.ctl = rowAt table idx := selected_wrTable_rowAt table idx ht
  have hctl : selectsRead c₁.dev.ctl = false := selectsRead_wrTable table idx ht
  have hk : tbl.length ≤ (selected c₁.dev.ctl).words := by rwa [hsel]
  have hstored := stores_stored hctl tbl hk
  obtain ⟨window, hsame⟩ := hstored.same
  have hpolled : (stores c₁.dev tbl tbl.length).polled = 0 := by rw [hsame]; rfl
  have hfate : (stores c₁.dev tbl tbl.length).fate = c.dev.nextFate := by rw [hsame]; rfl
  obtain ⟨polled, hwait⟩ := Chip.memAccComplete_run
    { c₁ with dev := stores c₁.dev tbl tbl.length } b hpolled
  have hrow := hstored.row
  have hothers := hstored.others
  rw [hsel] at hrow hothers
  refine ⟨polled, window, (stores c₁.dev tbl tbl.length).rows, ?_, hrow, hothers⟩
  rw [writeRow, Prog.run_bind_of_eq _ hselect, Prog.run_bind_of_eq _ (ctfFaMaccWr_run c₁ tbl _),
    hwait, hfate]
  refine Prod.ext rfl ?_
  change ({ c with dev := { stores c₁.dev tbl tbl.length with polled := polled } } : Chip) = _
  rw [hsame]

theorem Explained.writeRow (hc₀ : c₀.Settles b) (h : Shows c₀ c rows) {table idx : Word}
    {tbl : List Word} (ht : table.toNat < 2 ^ 2) (hlen : tbl.length = span (rowAt table idx)) :
    Explained b c₀ (.write table idx tbl) (writeRow b table idx tbl) c rows := by
  obtain ⟨counters, hrows⟩ := h.rows
  obtain ⟨polled, window, written, hrun, hrow, hothers⟩ := writeRow_run b c table idx tbl ht
    (hlen ▸ span_le_words _)
  have hmet : ∀ addr, ∀ j < span addr, c.dev.countedRows addr j =
      rows.counted (laterCounters c.dev.nextFate.counters counters) addr j := by
    intro addr j hj
    rw [← counted_counted]
    exact counted_congr _ (hrows addr j hj)
  rw [Explained, hrun]
  let t : Turn := ⟨decide (¬ c.dev.nextFate.busy ≤ b.spins 10000), c.dev.nextFate.reaches,
    fun _ => true, laterCounters c.dev.nextFate.counters counters⟩
  refine ⟨t, fun hprompt => ?_, ?_, h.fates, h.inits, h.strobes, fun _ => none,
    fun addr j hj => ?_⟩
  · rw [decide_eq_false_iff_not, not_not, Dev.nextFate, h.fates]
    exact hprompt.1 _
  · change (!decide _) = _
    rw [decide_not, Bool.not_not]
  rw [counted_none]
  change written addr j = Function.update (rows.counted t.counters) (rowAt table idx) _ addr j
  by_cases haddr : addr = rowAt table idx
  · subst haddr
    rw [Function.update_self, hrow j (hlen ▸ hj), Fate.landed]
    have hreaches : (j < tbl.length ∧ (t.busy = false ∨ t.lands j = true)) ↔
        c.dev.nextFate.reaches j = true := by
      refine ⟨fun hstore => ?_, fun hreach => ⟨hlen ▸ hj, .inr hreach⟩⟩
      rcases hstore.2 with hidle | hreach
      · rw [decide_eq_false_iff_not, not_not] at hidle
        rw [Dev.nextFate, h.fates] at hidle ⊢
        exact hc₀.stores _ j hidle
      · exact hreach
    change _ = if j < tbl.length ∧ (t.busy = false ∨ t.lands j = true) then _ else _
    simp only [hreaches, hmet _ j hj]
    rfl
  · rw [Function.update_of_ne haddr, hothers addr haddr]
    exact hmet addr j hj

/-! ### Table inits -/

theorem setmodeControl_bit (mode : AccMode) (val : Word) {i : Nat}
    (hi : initStrobes.getLsbD i = true) : (setmodeControl mode val).getLsbD i = true := by
  rw [setmodeControl, BitVec.getLsbD_or, BitVec.getLsbD_or (y := CTF_CTL_CRC_OWRT),
    BitVec.getLsbD_or (y := initStrobes), hi]
  simp

theorem setmodeControl_strobes (mode : AccMode) (val : Word) :
    setmodeControl mode val &&& initStrobes ≠ 0 := by
  intro hzero
  have hbit := congrArg (BitVec.getLsbD · 13) hzero
  rw [BitVec.getLsbD_and, setmodeControl_bit mode val (by decide)] at hbit
  exact absurd hbit (by decide)

theorem initCovers_setmode (mode : AccMode) (val : Word) (addr : RowAddr) :
    initCovers (setmodeControl mode val) addr = decide (addr.table = 0 ∨ addr.table = 2) := by
  rw [initCovers, setmodeControl_bit mode val (by decide),
    setmodeControl_bit mode val (by decide)]
  simp

theorem setmodeRegs_run (b : Board) (c : Chip) (mode : AccMode) :
    ∃ looked control cleared, control &&& initStrobes = 0 ∧
      (setmodeRegs b mode).run Chip.perform c =
        (decide ((c.inits (c.started + 1)).pending ≤ b.spins 50000),
          { c with
            dev := { c.dev with control := control, rows := cleared }
            looked := looked
            started := c.started + 1 }) ∧
      ∀ addr j, cleared addr j =
        if (addr.table = 0 ∨ addr.table = 2) ∧ (c.inits (c.started + 1)).wipes addr = true then 0
        else c.dev.rows addr j := by
  let control := setmodeControl mode c.dev.control
  have hcontrol : (control &&& ~~~initStrobes) &&& initStrobes = 0 := by
    rw [BitVec.and_assoc, BitVec.and_comm (~~~initStrobes), BitVec.and_not_self]
    exact BitVec.and_zero
  have hstart : (Vendor.wReg control (.fa .control)).run Chip.perform c =
      ((), c.writeControl control) := rfl
  let cleared : Tables := fun addr j =>
    if initCovers control addr && (c.inits (c.started + 1)).wipes addr then 0 else c.dev.rows addr j
  have hwrite : c.writeControl control = { c with
      dev := { c.dev with control := control &&& ~~~initStrobes, rows := cleared }
      looked := 0
      started := c.started + 1 } := by
    rw [Chip.writeControl, if_neg (setmodeControl_strobes _ _)]
    rfl
  rw [hwrite] at hstart
  obtain ⟨looked, hwait⟩ := Chip.initDone_run (c.writeControl control) b (by rw [hwrite])
  rw [hwrite] at hwait
  refine ⟨looked, control &&& ~~~initStrobes, cleared, hcontrol, ?_, fun addr j => ?_⟩
  · rw [setmodeRegs, Prog.run_bind_of_eq _ (c.rReg_run (.fa .control))]
    exact (Prog.run_bind_of_eq _ hstart).trans hwait
  · simp only [cleared, control, initCovers_setmode, Bool.and_eq_true, decide_eq_true_eq]

theorem Explained.init (hc₀ : c₀.Settles b) (h : Shows c₀ c rows) (mode : AccMode) :
    Explained b c₀ (.init mode) (setmodeRegs b mode) c rows := by
  obtain ⟨counters, hrows⟩ := h.rows
  obtain ⟨looked, control, cleared, hcontrol, hrun, hcleared⟩ := setmodeRegs_run b c mode
  let wipe := c.inits (c.started + 1)
  have hclears : wipe.pending ≤ b.spins 50000 → ∀ addr, wipe.wipes addr = true := by
    intro hdone addr
    simp only [wipe, h.inits] at hdone ⊢
    exact hc₀.clears _ addr hdone
  rw [Explained, hrun]
  let t : Turn := ⟨decide (¬ wipe.pending ≤ b.spins 50000), fun _ => true, wipe.wipes, counters⟩
  refine ⟨t, fun hprompt => ?_, ?_, h.fates, h.inits, hcontrol, fun _ => none,
    fun addr j hj => ?_⟩
  · rw [decide_eq_false_iff_not, not_not]
    simp only [wipe, h.inits]
    exact hprompt.2 _
  · change (!decide _) = _
    rw [decide_not, Bool.not_not]
  have hwiped : (t.busy = false ∨ t.wipes addr = true) ↔ wipe.wipes addr = true := by
    refine ⟨fun hor => ?_, .inr⟩
    rcases hor with hdone | hwipe
    · exact hclears (by simpa [t] using hdone) addr
    · exact hwipe
  rw [counted_none]
  change cleared addr j = if (addr.table = 0 ∨ addr.table = 2) ∧
    (t.busy = false ∨ t.wipes addr = true) then 0 else rows.counted counters addr j
  rw [hcleared addr j, ← hrows addr j hj]
  simp only [hwiped, wipe]

end Steps

/-! ### What the driver asks for -/

/-- Whole rows of the three tables. -/
def RowOp.Fits : RowOp → Prop
  | .read table idx n => table.toNat < 2 ^ 2 ∧ n = span (rowAt table idx)
  | .write table idx tbl => table.toNat < 2 ^ 2 ∧ tbl.length = span (rowAt table idx)
  | _ => True

def RowOp.Answered : (o : RowOp) → o.Ans → Prop
  | .read _ _ n, a => ∀ tbl ∈ a, tbl.length = n
  | _, _ => True

/-- A pool row, which is accessed without a bracket. -/
def RowOp.InPool : RowOp → Prop
  | .read table _ _ | .write table _ _ => table = CTF_MEMACC_TBL_NP
  | _ => False

/-- HWQ_THRESHLD after the access, from what it was before. -/
def RowOp.threshold (found : Word) : RowOp → Word
  | .read table _ _ | .write table _ _ =>
      if table = CTF_MEMACC_TBL_NP then found else CTF_CTL_HWQ_DEF_THRESHLD_VAL
  | .init _ => found
  | .war777 on => if on then 0 else CTF_CTL_HWQ_DEF_THRESHLD_VAL

/-- Whole rows are moved, those of the pool table only inside a bracket. -/
def rowRules {α : Type} (done : Word → α → Prop) : Protocol RowOp RowOp.Ans Word α where
  ok g o := o.Fits ∧ (o.InPool → g = 0)
  good _ o a := o.Answered a
  update g o _ := o.threshold g
  done := done

/-- The rules are kept, `Q` holds of the result, and no bracket is left open. -/
def Keeps {α : Type} (p : RowProg α) (Q : α → Prop) : Prop :=
  ∀ g, p.Conforms (rowRules fun g' a => Q a ∧ (g' = g ∨ g' = CTF_CTL_HWQ_DEF_THRESHLD_VAL)) g

theorem keeps_ret {α : Type} {Q : α → Prop} {a : α} (h : Q a) : Keeps (.ret a) Q :=
  fun _ => ⟨h, .inl rfl⟩

theorem Keeps.bind {α β : Type} {p : RowProg α} {f : α → RowProg β} {Q : α → Prop}
    {R : β → Prop} (hp : Keeps p Q) (hf : ∀ a, Q a → Keeps (f a) R) : Keeps (p >>= f) R := by
  intro g
  refine Prog.Conforms.bind (hp g) ?_
  rintro g' a ⟨ha, hg'⟩
  refine (hf a ha g').weaken ?_
  rintro g'' value ⟨hvalue, hg''⟩
  refine ⟨hvalue, ?_⟩
  rcases hg'' with rfl | hdef
  · exact hg'
  · exact .inr hdef

/-- An access with a bracket of its own. -/
theorem keeps_request {o : RowOp} (hfits : o.Fits) (hpool : ¬ o.InPool)
    (hclosed : ∀ g, o.threshold g = g ∨ o.threshold g = CTF_CTL_HWQ_DEF_THRESHLD_VAL) :
    Keeps (Prog.request o) o.Answered :=
  fun g => ⟨⟨hfits, fun h => absurd h hpool⟩, fun _ ha => ⟨ha, hclosed g⟩⟩

theorem nh_ne_np : CTF_MEMACC_TBL_NH ≠ CTF_MEMACC_TBL_NP := by decide

theorem nf_ne_np : CTF_MEMACC_TBL_NF ≠ CTF_MEMACC_TBL_NP := by decide

theorem faReadNhopEntry_keeps (idx : Word) :
    Keeps (faReadNhopEntry idx) fun a => ∀ d ∈ a, d.length = NH_ROW_WORDS :=
  keeps_request (o := .read CTF_MEMACC_TBL_NH idx 3) ⟨by decide, rfl⟩ nh_ne_np fun _ => .inr rfl

theorem faWriteNhopEntry_keeps {tbl : List Word} (hlen : tbl.length = NH_ROW_WORDS) (idx : Word) :
    Keeps (faWriteNhopEntry tbl idx) fun _ => True :=
  keeps_request (o := .write CTF_MEMACC_TBL_NH idx tbl) ⟨by decide, hlen⟩ nh_ne_np fun _ => .inr rfl

theorem faReadNaptEntry_keeps (idx : Word) :
    Keeps (faReadNaptEntry idx) fun a => ∀ tbl ∈ a, tbl.length = NF_ROW_WORDS :=
  keeps_request (o := .read CTF_MEMACC_TBL_NF idx 8) ⟨by decide, rfl⟩ nf_ne_np fun _ => .inr rfl

theorem faWriteNaptEntry_keeps {tbl : List Word} (hlen : tbl.length = NF_ROW_WORDS) (idx : Word) :
    Keeps (faWriteNaptEntry tbl idx) fun _ => True :=
  keeps_request (o := .write CTF_MEMACC_TBL_NF idx tbl) ⟨by decide, hlen⟩ nf_ne_np fun _ => .inr rfl

section Keeps

variable (fai : FaInfo)

theorem scanNhop_keeps (mac : Mac) (idx : Byte) (n : Nat) :
    Keeps (scanNhop mac idx n) fun _ => True := by
  induction n generalizing idx with
  | zero => exact keeps_ret trivial
  | succ n ih =>
      rw [scanNhop]
      refine (faReadNhopEntry_keeps _).bind fun a _ => ?_
      cases a with
      | none => exact keeps_ret trivial
      | some d =>
          dsimp only
          split
          · exact keeps_ret trivial
          · exact ih _

theorem faFindNhop_keeps (tb : FaNapt) (nh : NhopEntry) :
    Keeps (faFindNhop fai tb nh) fun _ => True := by
  refine (scanNhop_keeps _ _ _).bind fun r _ => ?_
  dsimp only
  split <;> exact keeps_ret trivial

theorem faAddNhopEntry_keeps (tb : FaNapt) (nh : NhopEntry) :
    Keeps (faAddNhopEntry fai tb nh) fun _ => True := by
  rw [faAddNhopEntry]
  split
  · exact keeps_ret trivial
  refine (faFindNhop_keeps fai tb nh).bind fun r _ => ?_
  dsimp only
  split
  · exact keeps_ret trivial
  · refine (faWriteNhopEntry_keeps rfl _).bind fun stored _ => ?_
    cases stored <;> exact keeps_ret trivial

theorem faDeleteNhopEntry_keeps (npi : FaNapt) :
    Keeps (faDeleteNhopEntry fai npi) fun _ => True := by
  rw [faDeleteNhopEntry]
  generalize (if fai.nhi.ref npi.nhIdx = 0 then fai.nhi else fai.nhi.decRef npi.nhIdx) = nhi
  split
  · refine (faWriteNhopEntry_keeps rfl _).bind fun stored _ => ?_
    cases stored <;> exact keeps_ret trivial
  · exact keeps_ret trivial

/-- Inside the bracket. -/
theorem scanPool_conforms (pt : PoolEntry) (i : Byte) (n : Nat) :
    (scanPool pt i n).Conforms (rowRules fun g _ => g = 0) 0 := by
  induction n generalizing i with
  | zero => rfl
  | succ n ih =>
      refine ⟨⟨⟨by decide, rfl⟩, fun _ => rfl⟩, fun a _ => ?_⟩
      cases a with
      | none => rfl
      | some d =>
          change Prog.Conforms _ _ (if pt.remapMac = ctfFaGetNpSa (ofWords d) ∧ _ then _ else _)
          split
          · rfl
          · exact ih _

theorem findOrAddPool_conforms (tb : FaNapt) (pe : PoolEntry) :
    (findOrAddPool tb pe).Conforms (rowRules fun g _ => g = 0) 0 := by
  have hfind : (faFindPool tb pe).Conforms (rowRules fun g _ => g = 0) 0 := by
    refine Prog.Conforms.bind (scanPool_conforms _ _ _) ?_
    rintro g r rfl
    dsimp only
    split <;> rfl
  refine Prog.Conforms.bind hfind ?_
  rintro g r rfl
  dsimp only
  split
  · rfl
  · refine ⟨⟨⟨by decide, rfl⟩, fun _ => rfl⟩, fun stored _ => ?_⟩
    cases stored <;> rfl

theorem faAddPoolEntry_keeps (tb : FaNapt) (pe : PoolEntry) :
    Keeps (faAddPoolEntry tb pe) fun _ => True := by
  refine fun g => ⟨⟨trivial, False.elim⟩, fun _ _ => ?_⟩
  change Prog.Conforms _ 0 (findOrAddPool tb pe >>= fun r => ctfFaWar777 false >>= fun _ => pure r)
  refine Prog.Conforms.bind (findOrAddPool_conforms tb pe) fun g' r _ => ?_
  exact ⟨⟨trivial, False.elim⟩, fun _ _ => ⟨trivial, .inr rfl⟩⟩

theorem faNaptProgram_keeps (ipc : Ipc) (naptIdx : Nat) :
    Keeps (faNaptProgram fai ipc naptIdx) fun _ => True := by
  refine (faAddNhopEntry_keeps fai _ _).bind fun r _ => ?_
  dsimp only
  split
  · exact keeps_ret trivial
  refine (faAddPoolEntry_keeps _ _).bind fun r _ => ?_
  split
  · exact keeps_ret trivial
  · refine (faWriteNaptEntry_keeps rfl _).bind fun stored _ => ?_
    cases stored <;> exact keeps_ret trivial

theorem faNaptAdd_keeps (ipc : Ipc) (v6 mem : Bool) :
    Keeps (faNaptAdd fai ipc v6 mem) fun _ => True := by
  rw [faNaptAdd]
  split
  · exact keeps_ret trivial
  split
  · exact keeps_ret trivial
  split
  · exact keeps_ret trivial
  cases freeBucket fai ipc.tuple with
  | none => exact keeps_ret trivial
  | some naptIdx =>
      dsimp only
      split_ifs
      · exact keeps_ret trivial
      · exact keeps_ret trivial
      · exact keeps_ret trivial
      · exact faNaptProgram_keeps fai ipc naptIdx

theorem faNaptDelLl_keeps (napt : FaNapt) : Keeps (faNaptDelLl fai napt) fun _ => True := by
  refine (faReadNaptEntry_keeps _).bind fun a ha => ?_
  cases a with
  | none => exact keeps_ret trivial
  | some tbl =>
      dsimp only
      generalize (if napt.v6 then 7 else 6) = vidx
      split
      · exact keeps_ret trivial
      · have hlen : (tbl.set vidx (ofWords tbl vidx &&& ~~~NF_VALID)).length = NF_ROW_WORDS := by
          rw [List.length_set, ha tbl rfl]
        refine (faWriteNaptEntry_keeps hlen _).bind fun stored _ => ?_
        cases stored with
        | false => exact keeps_ret trivial
        | true => exact (faDeleteNhopEntry_keeps fai napt).bind fun _ _ => keeps_ret trivial

theorem flushFlows_keeps (flows : List FaNapt) :
    Keeps (flushFlows fai flows) fun _ => True := by
  induction flows generalizing fai with
  | nil => exact keeps_ret trivial
  | cons napt flows ih => exact (faNaptDelLl_keeps fai napt).bind fun r _ => ih _

theorem faSetmode_keeps (mode : AccMode) : Keeps (faSetmode fai mode) fun _ => True := by
  rw [faSetmode]
  split
  · exact keeps_ret trivial
  · refine (keeps_request (o := .init mode) trivial not_false fun _ => .inl rfl).bind fun done _ => ?_
    cases done <;> exact keeps_ret trivial

theorem faDown_keeps : Keeps (faDown fai) fun _ => True := by
  rw [faDown]
  split
  · exact keeps_ret trivial
  refine (faSetmode_keeps fai _).bind fun r _ => ?_
  dsimp only
  split
  · exact keeps_ret trivial
  · refine Keeps.bind (Q := fun _ => True) ?_ fun _ _ => keeps_ret trivial
    rw [faFlush]
    split
    · exact keeps_ret trivial
    · exact (flushFlows_keeps _ _).bind fun _ _ => keeps_ret trivial

theorem faUp_keeps (mode : AccMode) : Keeps (faUp fai mode) fun _ => True := by
  rw [faUp]
  split_ifs
  · exact keeps_ret trivial
  · exact (faDown_keeps fai).bind fun _ _ => keeps_ret trivial
  · exact keeps_ret trivial
  · refine (faSetmode_keeps fai mode).bind fun r _ => ?_
    dsimp only
    split <;> exact keeps_ret trivial

theorem faNaptDel_keeps (ipc : Ipc) (v6 : Bool) : Keeps (faNaptDel fai ipc v6) fun _ => True := by
  rw [faNaptDel]
  cases faNaptLkupLl fai v6 ipc.tuple with
  | none => exact keeps_ret trivial
  | some napt => exact (faNaptDelLl_keeps _ napt).bind fun _ _ => keeps_ret trivial

theorem faNaptLive_keeps (ipc : Ipc) (v6 : Bool) :
    Keeps (faNaptLive fai ipc v6) fun _ => True := by
  rw [faNaptLive]
  split
  · exact keeps_ret trivial
  cases faNaptLkupLl fai v6 ipc.tuple with
  | none => exact keeps_ret trivial
  | some napt =>
      refine (faReadNaptEntry_keeps _).bind fun a _ => ?_
      cases a with
      | none => exact keeps_ret trivial
      | some tbl =>
          dsimp only
          split <;> exact keeps_ret trivial

theorem Call.prog_keeps (c : Call) : Keeps (c.prog fai) fun _ => True := by
  cases c with
  | add ipc v6 mem => exact (faNaptAdd_keeps fai ipc v6 mem).bind fun _ _ => keeps_ret trivial
  | del ipc v6 => exact (faNaptDel_keeps fai ipc v6).bind fun _ _ => keeps_ret trivial
  | live ipc v6 => exact (faNaptLive_keeps fai ipc v6).bind fun _ _ => keeps_ret trivial
  | conntrack ipc v6 => exact keeps_ret trivial
  | up mode => exact (faUp_keeps fai mode).bind fun _ _ => keeps_ret trivial
  | down => exact (faDown_keeps fai).bind fun _ _ => keeps_ret trivial

theorem runCalls_keeps (calls : List Call) : Keeps (runCalls fai calls) fun _ => True := by
  induction calls generalizing fai with
  | nil => exact keeps_ret trivial
  | cons c calls ih => exact (c.prog_keeps fai).bind fun fai' _ => ih fai'

end Keeps

/-! ### Runs -/

theorem RowOp.regs_explained {b : Board} {c₀ c : Chip} {rows : Tables} (hc₀ : c₀.Settles b)
    (o : RowOp) (ho : o.Fits) (h : Shows c₀ c rows) : Explained b c₀ o (o.regs b) c rows := by
  cases o with
  | read table idx n =>
      have hplain : ∀ c, Shows c₀ c rows →
          Explained b c₀ (.read table idx n) (readRow b table idx n) c rows :=
        fun c hc => Explained.readRow hc₀ hc ho.1 ho.2
      rw [RowOp.regs]
      split
      · exact hplain c h
      · exact Explained.underWar777 h hplain
  | write table idx tbl =>
      have hplain : ∀ c, Shows c₀ c rows →
          Explained b c₀ (.write table idx tbl) (writeRow b table idx tbl) c rows :=
        fun c hc => Explained.writeRow hc₀ hc ho.1 ho.2
      rw [RowOp.regs]
      split
      · exact hplain c h
      · exact Explained.underWar777 h hplain
  | init mode => exact Explained.init hc₀ h mode
  | war777 on => exact Explained.war777 h on

theorem runCalls_run (fai : FaInfo) (calls : List Call) (hw : Hw) :
    (runCalls fai calls).run Hw.perform hw =
      ((calls.foldl Etc.step ⟨fai, hw⟩).fai, (calls.foldl Etc.step ⟨fai, hw⟩).hw) := by
  induction calls generalizing fai hw with
  | nil => rfl
  | cons c calls ih =>
      rw [runCalls, Prog.run_bind]
      exact ih _ _

/-- The answers of `performAt`, one turn for each access, are those of `Hw`. -/
theorem run_drawing_performAt {α : Type} (p : RowProg α) (turns : Nat → Turn) (rows : Tables) :
    p.run Hw.perform ⟨rows, 0, turns⟩ =
      ((p.run (drawing performAt turns) (rows, 0)).1,
        ⟨(p.run (drawing performAt turns) (rows, 0)).2.1,
          (p.run (drawing performAt turns) (rows, 0)).2.2, turns⟩) :=
  (Prog.run_proj (f := fun s : Tables × Nat => (⟨s.1, s.2, turns⟩ : Hw))
    (fun o s => by cases o <;> rfl) p (rows, 0)).symm

theorem readDown_yields (n : Nat) : (readDown n).Yields fun d => d.length = n := by
  induction n with
  | zero => rfl
  | succ n ih =>
      refine fun word => ih.bind fun d hd => ?_
      rw [Prog.pure_eq, Prog.yields_ret, List.length_append, hd]
      rfl

theorem readRow_yields (b : Board) (table idx : Word) (n : Nat) :
    (readRow b table idx n).Yields fun a => ∀ tbl ∈ a, tbl.length = n := by
  have hread : (ctfFaMaccRd n).Yields fun d => d.length = n :=
    fun _ => (readDown_yields n).bind fun _ hd _ => hd
  refine fun _ => hread.bind fun d hd => Prog.yields_bind_of_forall _ fun done => ?_
  cases done with
  | false => exact fun tbl htbl => absurd htbl (Option.not_mem_none tbl)
  | true =>
      intro tbl htbl
      obtain rfl := Option.some.inj htbl
      exact hd

/-- The registers answer a row access with as many words as it asks for. -/
theorem RowOp.regs_yields (b : Board) (o : RowOp) : (o.regs b).Yields o.Answered := by
  cases o with
  | read table idx n =>
      rw [RowOp.regs]
      split
      · exact readRow_yields b table idx n
      · exact Prog.yields_bind_of_forall _ fun _ => (readRow_yields b table idx n).bind
          fun _ hr => Prog.yields_bind_of_forall _ fun _ => hr
  | write | init | war777 => exact Prog.yields_of_forall (fun _ => trivial) _

/-- A program run on the registers is one run on the rows, with some turns of
the hardware. -/
theorem Keeps.simulated {α : Type} {p : RowProg α} {Q : α → Prop} (hp : Keeps p Q) {b : Board} {c : Chip}
    (hc : c.Settles b) :
    ∃ hw : Hw, hw.rows = c.dev.rows ∧ (c.Prompt b → hw.Prompt) ∧
      ((p.expand (RowOp.regs b)).run Chip.perform c).1 = (p.run Hw.perform hw).1 ∧
      ∀ addr, ∀ j < span addr,
        ownedWord addr j (((p.expand (RowOp.regs b)).run Chip.perform c).2.dev.rows addr j) =
          (p.run Hw.perform hw).2.view addr j := by
  have hshows : Shows c c c.dev.rows :=
    ⟨rfl, rfl, hc.strobes, fun _ => none, fun _ _ _ => by rw [counted_none]⟩
  have hmatch : ∀ (g : Word) (o : RowOp) (c' : Chip) (rows : Tables),
      o.Fits ∧ (o.InPool → g = 0) → Shows c c' rows → ∃ t : Turn, (c.Prompt b → t.busy = false) ∧
        (performAt o t rows).1 = ((o.regs b).run Chip.perform c').1 ∧
        Shows c ((o.regs b).run Chip.perform c').2 (performAt o t rows).2 :=
    fun _ o c' rows ho h => o.regs_explained hc ho.1 h
  let quiet : Turn := ⟨false, fun _ => true, fun _ => true, fun _ => none⟩
  obtain ⟨turns, hturns, hvalue, hend⟩ := (hp 0).exists_choices
    (h := fun o => (o.regs b).run Chip.perform) (i := quiet) (fun _ => rfl)
    (fun _ o c' _ => (o.regs_yields b).run Chip.perform c') hmatch hshows
  have hrows := run_drawing_performAt p turns c.dev.rows
  refine ⟨⟨c.dev.rows, 0, turns⟩, rfl, fun hprompt k => hturns k hprompt, ?_, fun addr j hj => ?_⟩
  · rw [Prog.run_expand, ← hvalue, hrows]
  · obtain ⟨counters, hshown⟩ := hend.rows
    rw [Prog.run_expand, hshown addr j hj, ownedWord_counted, hrows]
    rfl

/-- Over any calls the driver ends on the registers as on the rows. -/
theorem registers_refine (b : Board) (c : Chip) (hc : c.Settles b) (fai : FaInfo)
    (calls : List Call) :
    ∃ hw : Hw, hw.rows = c.dev.rows ∧ (c.Prompt b → hw.Prompt) ∧
      ((runCallsRegs b fai calls).run Chip.perform c).1 =
        (calls.foldl Etc.step ⟨fai, hw⟩).fai ∧
      ∀ addr, ∀ j < span addr,
        ownedWord addr j (((runCallsRegs b fai calls).run Chip.perform c).2.dev.rows addr j) =
          (calls.foldl Etc.step ⟨fai, hw⟩).hw.view addr j := by
  obtain ⟨hw, hrows, hprompt, hvalue, hview⟩ := (runCalls_keeps fai calls).simulated hc
  rw [runCalls_run] at hvalue hview
  exact ⟨hw, hrows, hprompt, hvalue, hview⟩

/-- A chip that is waited for at every access and init, and counts a hit on every
flow row before each access. -/
def Chip.slow : Chip where
  dev := Dev.reset .onWordZero fun _ =>
    { Fate.clean with busy := 3, counters := fun _ => some (8, 0) }
  looked := 0
  started := 0
  inits := fun _ => ⟨5, fun _ => true⟩

/-- A round of `SPINWAIT` for every ten microseconds. -/
def Board.usual : Board := ⟨true, fun us => us / 10⟩

theorem Chip.slow_settles : Chip.slow.Settles Board.usual :=
  ⟨by decide, fun _ => rfl, fun _ _ _ => rfl, fun _ _ _ => rfl⟩

theorem registers_refine_pair :
    let calls := Call.up .normal :: pairCalls
    ∃ hw : Hw, hw.rows = Chip.slow.dev.rows ∧ (Chip.slow.Prompt Board.usual → hw.Prompt) ∧
      ((runCallsRegs Board.usual FaInfo.attached calls).run Chip.perform Chip.slow).1 =
        (calls.foldl Etc.step ⟨FaInfo.attached, hw⟩).fai ∧
      ∀ addr, ∀ j < span addr,
        ownedWord addr j (((runCallsRegs Board.usual FaInfo.attached calls).run Chip.perform
          Chip.slow).2.dev.rows addr j) =
          (calls.foldl Etc.step ⟨FaInfo.attached, hw⟩).hw.view addr j :=
  registers_refine Board.usual Chip.slow Chip.slow_settles FaInfo.attached
    (.up .normal :: pairCalls)

end R8000Plus.Vendor
