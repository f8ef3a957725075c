import R8000Plus.Fa.NhCodec

/-!
The device whose NH rows are no wider than an NH entry: of word 2 the memory
keeps three bits, as `fa_macc_test` saw when it read back `0x3` for
`0x33333333`. The driver compares whole words. What it writes is narrow
already, so on this device the comparison decides as it would on a memory of
whole words, and so does everything after it.
-/

namespace R8000Plus.Fa

open Effects

/-- What the memory keeps of word `j` of a row. -/
def RowAddr.kept (addr : RowAddr) (j : Nat) (val : Word) : Word :=
  if addr.table = 2 ∧ j = 2 then val &&& 0x7 else val

def Tables.narrow (rows : Tables) : Tables := fun addr j => addr.kept j (rows addr j)

def Dev.narrow (d : Dev) : Dev := { d with rows := d.rows.narrow }

namespace Accel

def narrow (w : Accel) : Accel := { w with dev := w.dev.narrow }

/-- One access on the narrow device: whatever it stores is cut to the width of
the memory. -/
def performNarrow (o : Access) (w : Accel) : o.Ans × Accel :=
  ((perform o w).1, (perform o w).2.narrow)

def callNarrow (o : Call) (w : Accel) : o.Ans × Accel := o.body.run performNarrow w

def callbackNarrow (cls : FlowClsOffload) (w : Accel) : Int × Accel :=
  (faSetupBlockCb true .clsflower cls).run callNarrow w

abbrev nextNarrow (w : Accel) (cls : FlowClsOffload) : Accel := (w.callbackNarrow cls).2

def runCallbacksNarrow (w : Accel) (run : List FlowClsOffload) : Accel := run.foldl nextNarrow w

/-- What the callbacks of a run return. -/
def returns (w : Accel) (run : List FlowClsOffload) : List Int :=
  answers next (fun w cls => (w.callback cls).1) w run

def returnsNarrow (w : Accel) (run : List FlowClsOffload) : List Int :=
  answers nextNarrow (fun w cls => (w.callbackNarrow cls).1) w run

end Accel

/-- `Dev.verifies` on the narrow device: the row is cut before it is read back. -/
def Dev.verifiesNarrow (d : Dev) (addr : RowAddr) (row : List Word) : Bool :=
  d.nextFate.idle && ((d.wrote addr row).nextFate.idle &&
    (d.wrote addr row).narrow.readBack addr row.length == row)

/-! ### Width -/

@[simp] theorem RowAddr.kept_kept (addr : RowAddr) (j : Nat) (val : Word) :
    addr.kept j (addr.kept j val) = addr.kept j val := by
  simp only [RowAddr.kept]
  split
  · rw [BitVec.and_assoc, BitVec.and_self]
  · rfl

theorem RowAddr.kept_of_table {addr : RowAddr} (h : addr.table ≠ 2) (j : Nat) (val : Word) :
    addr.kept j val = val := by
  simp [RowAddr.kept, h]

theorem and_seven_eq_iff (x : Word) : x &&& 0x7 = x ↔ x.toNat < 8 := by
  rw [← BitVec.toNat_inj, toNat_and_seven]
  omega

theorem RowAddr.kept_of_lt (addr : RowAddr) (j : Nat) (val : Word) (h : val.toNat < 8) :
    addr.kept j val = val := by
  simp only [RowAddr.kept]
  split
  · exact (and_seven_eq_iff val).mpr h
  · rfl

namespace Tables

@[simp] theorem narrow_apply (rows : Tables) (addr : RowAddr) (j : Nat) :
    rows.narrow addr j = addr.kept j (rows addr j) := rfl

@[simp] theorem narrow_narrow (rows : Tables) : rows.narrow.narrow = rows.narrow := by
  funext addr j
  simp

/-- A row may be cut before it is stored or after. -/
theorem narrow_update (rows : Tables) (addr : RowAddr) {row row' : Nat → Word}
    (h : ∀ j, addr.kept j (row' j) = addr.kept j (row j)) :
    narrow (Function.update rows.narrow addr row') = narrow (Function.update rows addr row) := by
  funext other j
  by_cases hother : other = addr
  · subst hother
    simp [h]
  · simp [Function.update_of_ne hother]

theorem narrow_setWord (rows : Tables) (addr : RowAddr) (j : Nat) (val : Word) :
    (rows.narrow.setWord addr j val).narrow = (rows.setWord addr j val).narrow := by
  refine rows.narrow_update addr fun k => ?_
  by_cases hk : k = j
  · subst hk
    simp
  · simp [Function.update_of_ne hk]

theorem narrow_setRow_landed (rows : Tables) (addr : RowAddr) (f : Fate) (words : Nat → Word) :
    (rows.narrow.setRow addr (f.landed words (rows.narrow addr))).narrow =
      (rows.setRow addr (f.landed words (rows addr))).narrow := by
  refine rows.narrow_update addr fun j => ?_
  have hlanded : addr.kept j (f.landed words (rows.narrow addr) j) =
      addr.kept j (f.landed words (rows addr) j) := by
    by_cases hreach : f.reaches j = true
    · simp [Fate.landed, hreach]
    · simp [Fate.landed, hreach]
  by_cases hj : 0 ≤ j ∧ j < addr.words
  · rw [if_pos hj, if_pos hj, hlanded]
  · rw [if_neg hj, if_neg hj, narrow_apply, RowAddr.kept_kept]

theorem narrow_counted (rows : Tables) (counters : Nat → Option (Word × Word)) :
    (rows.narrow.counted counters).narrow = (rows.counted counters).narrow := by
  funext addr j
  by_cases htable : addr.table = 0
  · have hkept : ∀ k val, addr.kept k val = val := RowAddr.kept_of_table (by omega)
    simp only [narrow_apply, counted, hkept]
  · simp [counted, htable]

end Tables

namespace Dev

@[simp] theorem narrow_narrow (d : Dev) : d.narrow.narrow = d.narrow := by
  simp [Dev.narrow]

theorem narrow_storeWord (d : Dev) (j : Nat) (val : Word) :
    (d.narrow.storeWord j val).narrow = (d.storeWord j val).narrow := by
  obtain ⟨store, control, ctl, window, rows, polled, turn, fates⟩ := d
  simp only [narrow, storeWord]
  by_cases hread : selectsRead ctl = true
  · simp [hread]
  · cases store with
    | wordByWord =>
        by_cases hreach : (fates turn).reaches j = true
        · simp [hread, hreach, Tables.narrow_setWord]
        · simp [hread, hreach]
    | onWordZero =>
        by_cases hj : j = 0
        · simp only [hread, hj, Bool.false_eq_true, if_true, if_false, Dev.fate,
            Tables.narrow_setRow_landed]
        · simp [hread, hj]

theorem narrow_select (d : Dev) (ctl : Word) :
    (d.narrow.select ctl).narrow = (d.select ctl).narrow := by
  simp [select, narrow, Tables.narrow_counted]

end Dev

@[simp] theorem Accel.narrow_narrow (w : Accel) : w.narrow.narrow = w.narrow := by
  simp [Accel.narrow]

/-! ### Accesses -/

/-- Every access but a read of the data window. -/
def Access.Blind : Access → Prop
  | .readl (.mAccdata _) => False
  | _ => True

/-- From `w` on, the program runs the same on the narrow device. -/
abbrev SameNarrow {α : Type} (p : FaProg α) (w : Accel) : Prop :=
  p.Agrees Accel.perform Accel.performNarrow Accel.narrow w

/-- Only a read of the data window can tell the two devices apart. -/
theorem Accel.performNarrow_blind (o : Access) (w : Accel) (ho : o.Blind) :
    performNarrow o w.narrow = ((perform o w).1, (perform o w).2.narrow) := by
  cases o with
  | readl reg =>
      cases reg with
      | mAccdata j => exact ho.elim
      | control | memAccCtl | dbgStatus =>
          refine Prod.ext rfl ?_
          simp [performNarrow, perform, Dev.readl, Accel.narrow, Dev.narrow]
  | writel val reg =>
      cases reg with
      | mAccdata j =>
          simp only [performNarrow, perform, Dev.writel, Accel.narrow, Dev.narrow_storeWord]
      | memAccCtl =>
          simp only [performNarrow, perform, Dev.writel, Accel.narrow, Dev.narrow_select]
      | control | dbgStatus =>
          simp [performNarrow, perform, Dev.writel, Accel.narrow, Dev.narrow]
  | alloc cookie | find cookie | free slot | load slot =>
      simp [performNarrow, perform, Accel.narrow]

theorem sameNarrow_of_blind {α : Type} {p : FaProg α} (hp : p.Uses Access.Blind) (w : Accel) :
    SameNarrow p w :=
  hp.agrees (fun o w ho => Accel.performNarrow_blind o w ho) w

/-! ### The accesses of one row -/

/-- The row loses nothing to the width of the memory. -/
def Tables.NarrowAt (rows : Tables) (addr : RowAddr) : Prop := rows.narrow addr = rows addr

namespace Tables.NarrowAt

theorem of_table (rows : Tables) {addr : RowAddr} (h : addr.table ≠ 2) : rows.NarrowAt addr := by
  funext j
  exact RowAddr.kept_of_table h j _

theorem narrow (rows : Tables) (addr : RowAddr) : rows.narrow.NarrowAt addr :=
  congrFun rows.narrow_narrow addr

theorem counted {rows : Tables} {addr : RowAddr} (h : rows.NarrowAt addr)
    (counters : Nat → Option (Word × Word)) : (rows.counted counters).NarrowAt addr := by
  by_cases htable : addr.table = 2
  · have hrow : rows.counted counters addr = rows addr := by
      funext j
      simp [Tables.counted, htable]
    funext j
    rw [narrow_apply, hrow]
    exact congrFun h j
  · exact of_table _ htable

/-- A row just stored, when none of its words is too wide. -/
theorem setRow (rows : Tables) (addr : RowAddr) (words : Nat → Word)
    (h : ∀ j < addr.words, addr.kept j (words j) = words j) :
    (rows.setRow addr words).NarrowAt addr := by
  by_cases htable : addr.table = 2
  · funext j
    by_cases hj : j < addr.words
    · rw [narrow_apply, rows.setRow_apply addr words j hj, h j hj]
    · have hne : j ≠ 2 := by
        simp only [RowAddr.words, htable, if_true, NH_ROW_WORDS] at hj
        omega
      simp [RowAddr.kept, hne]
  · exact of_table _ htable

end Tables.NarrowAt

theorem faMaccWrite_blind (table idx : Word) (words : List Word) :
    (faMaccWrite table idx words).Uses Access.Blind :=
  (war777On_uses trivial fun _ => trivial).bind fun _ => ⟨trivial, fun _ =>
    (writeWords_uses (fun _ _ => trivial) words words.length).bind fun _ =>
      (waitMaccIdle_uses trivial MEM_ACC_POLL_STEPS).bind fun _ =>
        (war777Off_uses trivial fun _ => trivial).bind fun _ => trivial⟩

theorem writel_memAccCtl_blind (ctl : Word) : (writel ctl .memAccCtl).Uses Access.Blind :=
  ⟨trivial, fun _ => trivial⟩

/-- Reading a row that fits moves nothing and sees no difference. -/
theorem readWords_narrow (w : Accel) (hrow : w.dev.rows.NarrowAt (selected w.dev.ctl))
    (i n : Nat) : SameNarrow (readWords i n) w := by
  induction n generalizing i with
  | zero => rfl
  | succ n ih =>
      have hread : SameNarrow (readl (.mAccdata i)) w := by
        have hseen : w.narrow.dev.rows (selected w.dev.ctl) = w.dev.rows (selected w.dev.ctl) :=
          hrow
        have hanswer : (w.narrow.dev.readl (.mAccdata i)).1 = (w.dev.readl (.mAccdata i)).1 :=
          congrArg (fun row => w.dev.fate.seen row i) hseen
        exact Prod.ext hanswer w.narrow_narrow
      have hrun : (readl (.mAccdata i)).run Accel.perform w =
          (w.dev.fate.seen (w.dev.rows (selected w.dev.ctl)) i, w) := rfl
      refine hread.bind_of_eq hrun ?_
      exact (ih (i + 1)).bind (Prog.agrees_ret _ _)

theorem faMaccRead_narrow (w : Accel) (table idx : Word) (n : Nat) (ht : table.toNat < 2 ^ 2)
    (hrow : w.dev.rows.NarrowAt (rowAt table idx)) :
    SameNarrow (faMaccRead table idx n) w := by
  obtain ⟨flows, d⟩ := w
  let started : Dev :=
    { d with control := hwqCleared d.control }.select (ctfMemaccRdTable table idx)
  obtain ⟨polled, hwait⟩ := waitMaccIdle_run flows started MEM_ACC_POLL_STEPS
    (by simp [started, Dev.select])
  have hstarted : started.rows.NarrowAt (selected started.ctl) := by
    have hsel : selected started.ctl = rowAt table idx := selected_rdTable_rowAt table idx ht
    rw [hsel]
    exact hrow.counted _
  have hon : SameNarrow war777On ⟨flows, d⟩ :=
    sameNarrow_of_blind (war777On_uses trivial fun _ => trivial) _
  have hselect : SameNarrow (writel (ctfMemaccRdTable table idx) .memAccCtl)
      ⟨flows, { d with control := hwqCleared d.control }⟩ :=
    sameNarrow_of_blind (writel_memAccCtl_blind _) _
  have hpoll : SameNarrow (waitMaccIdle MEM_ACC_POLL_STEPS) ⟨flows, started⟩ :=
    sameNarrow_of_blind (waitMaccIdle_uses trivial _) _
  have hdata : SameNarrow (readWords 0 n) ⟨flows, { started with polled := polled }⟩ :=
    readWords_narrow ⟨flows, { started with polled := polled }⟩ hstarted 0 n
  have htail : ∀ idle words, (do
      writel 0 .memAccCtl
      war777Off
      return (idle, words) : FaProg (Bool × List Word)).Uses Access.Blind :=
    fun idle words => ⟨trivial, fun _ =>
      (war777Off_uses trivial fun _ => trivial).bind fun _ => trivial⟩
  rw [faMaccRead]
  refine hon.bind_of_eq (war777On_run flows d) (hselect.bind_of_eq
    (writel_memAccCtl_run flows _ _) (hpoll.bind_of_eq hwait (hdata.bind ?_)))
  exact sameNarrow_of_blind (htail _ _) _

/-! ### The check -/

abbrev SameNarrowCall {α : Type} (p : CallProg α) (w : Accel) : Prop :=
  p.Agrees Accel.call Accel.callNarrow Accel.narrow w

theorem callMaccWrite_narrow (w : Accel) (table idx : Word) (row : List Word) :
    SameNarrowCall (callMaccWrite table idx row) w :=
  sameNarrow_of_blind (faMaccWrite_blind table idx row) w

theorem callMaccRead_narrow (w : Accel) (table idx : Word) (n : Nat) (ht : table.toNat < 2 ^ 2)
    (hrow : w.dev.rows.NarrowAt (rowAt table idx)) :
    SameNarrowCall (callMaccRead table idx n) w :=
  faMaccRead_narrow w table idx n ht hrow

section Check

variable (w : Accel) (table idx : Word) (row : List Word) (ht : table.toNat < 2 ^ 2)
variable (hpos : 0 < row.length) (hlen : row.length = (rowAt table idx).words)

include ht hpos hlen in
/-- The check on the narrow device, for any row. -/
theorem writeVerified_narrow_fst :
    ((writeVerified table idx row).run Accel.callNarrow w.narrow).1 =
      w.dev.verifiesNarrow (rowAt table idx) row := by
  obtain ⟨ctl, window, polled, hwrite⟩ := faMaccWrite_rowAt w table idx row ht hpos hlen
  let w1 : Accel :=
    { w with dev := (w.dev.wrote (rowAt table idx) row).scratch ctl window polled }
  have hput : (callMaccWrite table idx row).run Accel.callNarrow w.narrow =
      (w.dev.nextFate.idle, w1.narrow) := by
    have hwide : (callMaccWrite table idx row).run Accel.call w =
        (w.dev.nextFate.idle, w1) := hwrite
    rw [callMaccWrite_narrow w table idx row, hwide]
  rw [writeVerified, Prog.run_bind_of_eq _ hput]
  cases hidle : w.dev.nextFate.idle with
  | false => simp [Dev.verifiesNarrow, hidle]
  | true =>
      obtain ⟨ctl', window', polled', hread⟩ :=
        faMaccRead_rowAt w1.narrow table idx row.length ht
      have hget := callMaccRead_narrow w1.narrow table idx row.length ht
        (Tables.NarrowAt.narrow _ _)
      have hwide : (callMaccRead table idx row.length).run Accel.call w1.narrow = _ := hread
      rw [SameNarrowCall, Prog.Agrees, Accel.narrow_narrow, hwide] at hget
      rw [if_pos rfl, Prog.run_bind_of_eq _ hget]
      rw [Dev.verifiesNarrow, hidle, Bool.true_and]
      rfl

include ht hpos hlen in
/-- A row that fits is written and checked as on a memory of whole words. -/
theorem writeVerified_narrow (hrow : ∀ j, (rowAt table idx).kept j (ofWords row j) = ofWords row j) :
    SameNarrowCall (writeVerified table idx row) w := by
  obtain ⟨ctl, window, polled, hwrite⟩ := faMaccWrite_rowAt w table idx row ht hpos hlen
  have hput : (callMaccWrite table idx row).run Accel.call w = _ := hwrite
  refine (callMaccWrite_narrow w table idx row).bind_of_eq hput ?_
  cases hidle : w.dev.nextFate.idle with
  | false => exact Prog.agrees_ret _ _
  | true =>
      have hfits : (w.dev.wrote (rowAt table idx) row).rows.NarrowAt (rowAt table idx) := by
        simp only [Dev.wrote, Fate.landed_of_idle hidle]
        exact Tables.NarrowAt.setRow _ _ _ fun j _ => hrow j
      rw [if_pos rfl]
      exact (callMaccRead_narrow _ table idx row.length ht hfits).bind (Prog.agrees_ret _ _)

end Check

theorem rowAt_nh (idx : Word) :
    rowAt CTF_MEMACC_TBL_NH idx = nhRowAt (idx &&& CTF_MEMACC_TAB_INDEX_MASK).toNat := rfl

/-- What an NH row of three words reads back as once it is stored. -/
theorem readBack_narrow (d : Dev) (hfaithful : d.Faithful) (idx : Nat) (a b c : Word)
    (hidle : d.nextFate.idle = true)
    (hread : (d.wrote (nhRowAt idx) [a, b, c]).nextFate.idle = true) :
    (d.wrote (nhRowAt idx) [a, b, c]).narrow.readBack (nhRowAt idx) NH_ROW_WORDS =
      [a, b, c &&& 0x7] := by
  have hseen : (d.wrote (nhRowAt idx) [a, b, c]).narrow.nextFate.seen = id := hfaithful _ hread
  have hword : ∀ j < NH_ROW_WORDS,
      (d.wrote (nhRowAt idx) [a, b, c]).narrow.countedRows (nhRowAt idx) j =
        (nhRowAt idx).kept j (ofWords [a, b, c] j) := by
    intro j hj
    rw [← Dev.wrote_apply hidle (nhRowAt idx) [a, b, c] j hj]
    rfl
  have hrange : List.range NH_ROW_WORDS = [0, 1, 2] := rfl
  rw [Dev.readBack, hseen, hrange]
  simp only [List.map_cons, List.map_nil, id_eq]
  rw [hword 0 (by decide), hword 1 (by decide), hword 2 (by decide)]
  rfl

/-- The run of `fa_macc_test`. -/
example :
    ((do
      let _ ← faMaccWrite CTF_MEMACC_TBL_NH 0 [0x11111111, 0x22222222, 0x33333333]
      faMaccRead CTF_MEMACC_TBL_NH 0 NH_ROW_WORDS : FaProg (Bool × List Word)).run
        Accel.performNarrow (Accel.loaded (.reset .wordByWord fun _ => .clean))).1 =
      (true, [0x11111111, 0x22222222, 0x3]) := by
  decide +kernel

/-- On the narrow device the check of a stored row asks whether word 2 fits. -/
theorem verifiesNarrow_nh (d : Dev) (hfaithful : d.Faithful) (idx : Nat) (row : List Word)
    (hlen : row.length = NH_ROW_WORDS) :
    d.verifiesNarrow (nhRowAt idx) row =
      (d.nextFate.idle && (d.fates (d.turn + 2)).idle && decide ((ofWords row 2).toNat < 8)) := by
  obtain ⟨a, b, c, rfl⟩ := List.length_eq_three.mp hlen
  have hnext : (d.wrote (nhRowAt idx) [a, b, c]).nextFate = d.fates (d.turn + 2) := rfl
  rw [Dev.verifiesNarrow, hnext]
  cases hidle : d.nextFate.idle with
  | false => rfl
  | true =>
      cases hread : (d.fates (d.turn + 2)).idle with
      | false => rfl
      | true =>
          have hback := readBack_narrow d hfaithful idx a b c hidle hread
          rw [NH_ROW_WORDS] at hback
          rw [Bool.eq_iff_iff]
          simp only [hback, Bool.true_and, List.length_cons, List.length_nil, beq_iff_eq,
            List.cons.injEq, true_and, and_true, decide_eq_true_eq]
          exact and_seven_eq_iff c

theorem writeVerified_narrow_nh (w : Accel) (hfaithful : w.dev.Faithful) (idx : Word)
    (row : List Word) (hlen : row.length = NH_ROW_WORDS) :
    ((writeVerified CTF_MEMACC_TBL_NH idx row).run Accel.callNarrow w.narrow).1 =
      (w.dev.nextFate.idle && (w.dev.fates (w.dev.turn + 2)).idle &&
        decide ((ofWords row 2).toNat < 8)) := by
  have hpos : 0 < row.length := by
    rw [hlen]
    decide
  rw [writeVerified_narrow_fst w _ idx row CTF_MEMACC_TBL_NH_lt hpos hlen, rowAt_nh,
    verifiesNarrow_nh w.dev hfaithful _ row hlen]

/-- The row codec: the fields come back, nothing lies outside the 67 bits of the
entry, so word 2 has three bits, and where the memory keeps no more of it the
comparison still never fails: the check succeeds whenever both accesses go idle. -/
theorem nhRow_codec :
    (∀ a : NhArgs, nhFields (ofWords a.row) = a.fields) ∧
      (∀ (a : NhArgs) (j i : Nat),
        NH_ENTRY_BITS ≤ 32 * j + i → (ofWords a.row j).getLsbD i = false) ∧
      (∀ a : NhArgs, (ofWords a.row 2).toNat < 8) ∧
      ∀ (a : NhArgs) (w : Accel) (idx : Word), w.dev.Faithful →
        ((writeVerified CTF_MEMACC_TBL_NH idx a.row).run Accel.callNarrow w.narrow).1 =
          (w.dev.nextFate.idle && (w.dev.fates (w.dev.turn + 2)).idle) := by
  refine ⟨NhArgs.nhFields_row, fun a => nhRow_other_bits a.s a.ft a.o a.vt,
    fun a => nhRow_word_two_lt a.s a.ft a.o a.vt, fun a w idx hfaithful => ?_⟩
  have hfits : (ofWords a.row 2).toNat < 8 := nhRow_word_two_lt a.s a.ft a.o a.vt
  rw [writeVerified_narrow_nh w hfaithful idx a.row rfl, decide_eq_true hfits, Bool.and_true]

/-- The entry with every bit set is checked on narrow rows. -/
theorem nhRow_codec_clean :
    ((writeVerified CTF_MEMACC_TBL_NH 1 (faSetNhEntry ![255, 255, 255, 255, 255, 255] 1 3 65535)).run
        Accel.callNarrow (Accel.loaded (.reset .onWordZero fun _ => .clean)).narrow).1 = true ∧
      (ofWords (faSetNhEntry ![255, 255, 255, 255, 255, 255] 1 3 65535) 2).getLsbD 3 = false :=
  ⟨nhRow_codec.2.2.2 ⟨![255, 255, 255, 255, 255, 255], 1, 3, 65535, by decide, by decide, by decide⟩
      (Accel.loaded (.reset .onWordZero fun _ => .clean)) 1 fun _ _ => rfl,
    nhRow_codec.2.1 ⟨![255, 255, 255, 255, 255, 255], 1, 3, 65535, by decide, by decide, by decide⟩
      2 3 (by decide)⟩

/-! ### Callbacks -/

/-- What `fa_set_nh_entry` builds fits the memory. -/
theorem kept_nhRow (addr : RowAddr) (s : Mac) (ft o vt : Word) (j : Nat) :
    addr.kept j (ofWords (faSetNhEntry s ft o vt) j) = ofWords (faSetNhEntry s ft o vt) j := by
  by_cases hj : j = 2
  · subst hj
    exact addr.kept_of_lt 2 _ (nhRow_word_two_lt s ft o vt)
  · simp [RowAddr.kept, hj]

theorem rowAt_nf_table (idx : Word) : (rowAt CTF_MEMACC_TBL_NF idx).table ≠ 2 := by
  change (0 : Nat) ≠ 2
  decide

theorem faFlowAlloc_narrow (w : Accel) (cookie : Cookie) :
    SameNarrowCall (faFlowAlloc cookie) w :=
  w.performNarrow_blind (.alloc cookie) trivial

theorem faFlowFind_narrow (w : Accel) (cookie : Cookie) : SameNarrowCall (faFlowFind cookie) w :=
  w.performNarrow_blind (.find cookie) trivial

theorem faFlowFree_narrow (w : Accel) (f : Slot) : SameNarrowCall (faFlowFree f) w :=
  w.performNarrow_blind (.free f) trivial

theorem loadFlow_narrow (w : Accel) (f : Slot) : SameNarrowCall (loadFlow f) w :=
  w.performNarrow_blind (.load f) trivial

theorem writeVerified_nhRow_narrow (w : Accel) (idx : Word) (d : Decoded) :
    SameNarrowCall (writeVerified CTF_MEMACC_TBL_NH idx d.nhRow) w :=
  writeVerified_narrow w _ idx d.nhRow CTF_MEMACC_TBL_NH_lt (by simp [NH_ROW_WORDS]) rfl
    (kept_nhRow _ _ _ _ _)

theorem writeVerified_nfRow_narrow (w : Accel) (idx nhIdx : Word) (d : Decoded) :
    SameNarrowCall (writeVerified CTF_MEMACC_TBL_NF idx (d.nfRow nhIdx)) w :=
  writeVerified_narrow w _ idx _ CTF_MEMACC_TBL_NF_lt (by simp [NF_ROW_WORDS]) rfl
    fun j => RowAddr.kept_of_table (rowAt_nf_table idx) j _

theorem faFlowReplaceLive_narrow (w : Accel) (cookie : Cookie) (rule : FlowRule) :
    SameNarrowCall (faFlowReplaceLive cookie rule) w := by
  have hfinish : ∀ (w : Accel) (f : Slot) (ok : Bool), SameNarrowCall (do
      if !ok then
        faFlowFree f
        return -EOPNOTSUPP
      return 0 : CallProg Int) w := by
    intro w f ok
    cases ok with
    | true => exact Prog.agrees_ret _ _
    | false => exact (faFlowFree_narrow w f).bind (Prog.agrees_ret _ _)
  rw [faFlowReplaceLive]
  cases (faDecodeRule rule).refused with
  | true => exact Prog.agrees_ret _ _
  | false =>
      simp only [Bool.false_eq_true, if_false]
      refine (faFlowAlloc_narrow w cookie).bind ?_
      cases ((faFlowAlloc cookie).run Accel.call w).1 with
      | none => exact Prog.agrees_ret _ _
      | some f =>
          refine (loadFlow_narrow _ f).bind ((writeVerified_nhRow_narrow _ _ _).bind ?_)
          split
          · exact (writeVerified_nfRow_narrow _ _ _ _).bind (hfinish _ f _)
          · exact hfinish _ f false

theorem faFlowDestroyLive_narrow (w : Accel) (cookie : Cookie) :
    SameNarrowCall (faFlowDestroyLive cookie) w := by
  rw [faFlowDestroyLive]
  refine (faFlowFind_narrow w cookie).bind ?_
  cases ((faFlowFind cookie).run Accel.call w).1 with
  | none => exact Prog.agrees_ret _ _
  | some f =>
      refine (loadFlow_narrow _ f).bind ((callMaccRead_narrow _ _ _ _ CTF_MEMACC_TBL_NF_lt
        (.of_table _ (rowAt_nf_table _))).bind ?_)
      dsimp only
      split
      · exact (callMaccWrite_narrow _ _ _ _).bind (faFlowFree_narrow _ f)
      · exact faFlowFree_narrow _ f

theorem faSetupBlockCb_narrow (w : Accel) (live : Bool) (type : TcSetupType)
    (cls : FlowClsOffload) : SameNarrowCall (faSetupBlockCb live type cls) w := by
  obtain ⟨command, cookie, rule⟩ := cls
  cases type with
  | ft | other => exact Prog.agrees_ret _ _
  | clsflower =>
      cases command with
      | stats | other => exact Prog.agrees_ret _ _
      | replace =>
          cases live with
          | false => exact Prog.agrees_ret _ _
          | true => exact faFlowReplaceLive_narrow w cookie rule
      | destroy =>
          cases live with
          | false => exact Prog.agrees_ret _ _
          | true => exact (faFlowDestroyLive_narrow w cookie).bind (Prog.agrees_ret _ _)

namespace Accel

/-- A callback on the narrow device answers as on a memory of whole words, and
leaves what the narrow memory keeps of the same rows. -/
theorem callback_narrow (w : Accel) (cls : FlowClsOffload) :
    w.narrow.callbackNarrow cls = ((w.callback cls).1, (w.callback cls).2.narrow) :=
  faSetupBlockCb_narrow w true .clsflower cls

theorem nextNarrow_eq {w w' : Accel} (h : w' = w.narrow) (cls : FlowClsOffload) :
    w'.nextNarrow cls = (w.next cls).narrow := by
  rw [h, nextNarrow, callback_narrow]

/-- So does every callback of a run. -/
theorem runCallbacks_narrow (w : Accel) (run : List FlowClsOffload) :
    w.narrow.returnsNarrow run = w.returns run ∧
      w.narrow.runCallbacksNarrow run = (w.runCallbacks run).narrow := by
  have hret : ∀ w' w cls, w' = narrow w → (w'.callbackNarrow cls).1 = (w.callback cls).1 := by
    rintro _ w cls rfl
    rw [callback_narrow]
  have hnext : ∀ w' w cls, w' = narrow w → w'.nextNarrow cls = (w.next cls).narrow :=
    fun _ _ cls h => nextNarrow_eq h cls
  refine ⟨answers_sim hret hnext rfl run, ?_⟩
  exact EveryStep.sim (R := fun w' w => w' = narrow w) (fun w' w cls h _ _ => hnext w' w cls h)
    (fun _ _ => trivial) rfl (everyStep_true w run)

end Accel

end R8000Plus.Fa
