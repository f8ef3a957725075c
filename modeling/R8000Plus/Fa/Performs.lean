import R8000Plus.Fa.VerifyGate

/-!
Hardware that performs every access. It may still count a packet in a new NF
row before that row is read back, and this is then the one way in which a
REPLACE that finds a slot fails.
-/

namespace R8000Plus.Fa

/-- Every access goes idle and every read is right; counters may move. -/
def Dev.Performs (d : Dev) : Prop := ∀ t, (d.fates t).idle = true ∧ (d.fates t).seen = id

/-- A device that counts a packet on every NF row before each access but the
fifth. -/
def Dev.countingLate : Dev :=
  .reset .wordByWord fun t => if t = 5 then .clean else .counting

theorem Dev.countingLate_performs : Dev.countingLate.Performs := by
  intro t
  by_cases ht : t = 5 <;> simp only [countingLate, reset, ht, if_true, if_false] <;>
    exact ⟨rfl, rfl⟩

namespace Dev.Performs

variable {d : Dev}

theorem idle (h : d.Performs) : d.nextFate.idle = true := (h _).1

theorem seen (h : d.Performs) : d.nextFate.seen = id := (h _).2

theorem faithful (h : d.Performs) : d.Faithful := fun t _ => (h t).2

theorem wrote (h : d.Performs) (addr : RowAddr) (row : List Word) : (d.wrote addr row).Performs :=
  h

theorem wasRead (h : d.Performs) : d.wasRead.Performs := h

theorem afterVerify (h : d.Performs) (addr : RowAddr) (row : List Word) :
    (d.afterVerify addr row).Performs := by
  intro t
  rw [afterVerify_fates]
  exact h t

/-- A row reads back as written, but for what the counters did since. -/
theorem readBack_wrote (h : d.Performs) (addr : RowAddr) (row : List Word) (j : Nat)
    (hj : j < addr.words) :
    ofWords ((d.wrote addr row).readBack addr addr.words) j =
      (d.wrote addr row).countedRows addr j := by
  have hseen : (d.wrote addr row).nextFate.seen = id := (h.wrote addr row).seen
  simp [ofWords, readBack, hseen, hj]

/-- NH rows have no counters, so one reads back as it was written. -/
theorem verifies_nh (h : d.Performs) (idx : Nat) (row : List Word)
    (hlen : row.length = NH_ROW_WORDS) : d.verifies (nhRowAt idx) row = true := by
  have hread : (d.wrote (nhRowAt idx) row).nextFate.idle = true := (h _).1
  have hrow : (d.wrote (nhRowAt idx) row).countedRows (nhRowAt idx) =
      (d.wrote (nhRowAt idx) row).rows (nhRowAt idx) := rfl
  have hback : (d.wrote (nhRowAt idx) row).readBack (nhRowAt idx) row.length = row := by
    rw [readBack, (h.wrote _ row).seen, hrow]
    exact map_range_ofWords fun j hj =>
      wrote_apply h.idle (nhRowAt idx) row j (by rw [nhRowAt_words]; omega)
  simp [Dev.verifies, h.idle, hread, hback]

end Dev.Performs

/-- Whether the counters move in NF row `idx`. -/
def Fate.counts (f : Fate) (idx : Nat) : Bool :=
  (f.counters idx).any fun (c0, c1) => c0 != 0 || c1 &&& 7 != 0

theorem Fate.reaches_of_idle {f : Fate} (h : f.idle = true) (j : Nat) : f.reaches j = true := by
  simp [Fate.reaches, h]

theorem and_or_low (x y : Word) : ((x &&& ~~~7) ||| (y &&& 7)) &&& 7 = y &&& 7 := by
  apply BitVec.eq_of_getLsbD_eq
  intro k hk
  interval_cases k <;> simp

/-- The hardware's bits of a row that had none set. -/
theorem Fate.counted_low_iff (f : Fate) (rows : Tables) (idx : Nat)
    (hzero : rows (nfRowAt idx) 0 = 0) (hlow : rows (nfRowAt idx) 1 &&& 7 = 0) :
    rows.counted f.counters (nfRowAt idx) 0 = 0 ∧
        rows.counted f.counters (nfRowAt idx) 1 &&& 7 = 0 ↔ f.counts idx = false := by
  have htable : ¬ (nfRowAt idx).table ≠ 0 := fun h => h rfl
  simp only [Tables.counted, if_neg htable, counts, show (nfRowAt idx).idx = idx from rfl]
  cases f.counters idx with
  | none => exact iff_of_true ⟨hzero, hlow⟩ rfl
  | some c =>
      simp only [if_true, one_ne_zero, if_false, and_or_low, Option.any_some,
        Bool.or_eq_false_iff, bne_eq_false_iff_eq]

namespace Accel

/-- Whether a packet is counted in the new NF row of slot `i` before the
read-back, the fifth access of a REPLACE. -/
def countedEarly (w : Accel) (i : Slot) : Bool := (w.dev.fates (w.dev.turn + 5)).counts i.idx

variable {w : Accel}

theorem nhDone_performs (h : w.dev.Performs) (d : Decoded) (i : Slot) :
    (w.nhDone d i).Performs := h.afterVerify _ _

/-- Both rows are stored as written ... -/
theorem readsBack_of_performs (h : w.dev.Performs) (d : Decoded) (i : Slot) : ReadsBack w d i where
  nh := h.verifies_nh _ _ rfl
  written := (nhDone_performs h d i).idle
  read := ((nhDone_performs h d i).wrote _ _).idle
  bits j hj := by
    have hdone := nhDone_performs h d i
    have hback : w.nfBack d i j = _ := hdone.readBack_wrote (nfRowAt i.idx) (d.nfRow i.word) j hj
    have hwrote := Dev.wrote_apply hdone.idle (nfRowAt i.idx) (d.nfRow i.word) j hj
    rw [hback, Dev.sameRow_countedRows _ _ j, hwrote]

theorem nhDone_wrote_nextFate (h : w.dev.Performs) (d : Decoded) (i : Slot) :
    ((w.nhDone d i).wrote (nfRowAt i.idx) (d.nfRow i.word)).nextFate =
      w.dev.fates (w.dev.turn + 5) := by
  simp only [nhDone, Dev.afterVerify, h.idle, if_true]
  rfl

/-- ... so what the comparison depends on is whether the hardware counts. -/
theorem unhit_iff (h : w.dev.Performs) (d : Decoded) (i : Slot) :
    Unhit w d i ↔ w.countedEarly i = false := by
  have hdone := nhDone_performs h d i
  have hback : ∀ j < NF_ROW_WORDS, w.nfBack d i j =
      ((w.nhDone d i).wrote (nfRowAt i.idx) (d.nfRow i.word)).countedRows (nfRowAt i.idx) j :=
    fun j hj => hdone.readBack_wrote (nfRowAt i.idx) (d.nfRow i.word) j hj
  have hwrote : ∀ j < NF_ROW_WORDS,
      ((w.nhDone d i).wrote (nfRowAt i.idx) (d.nfRow i.word)).rows (nfRowAt i.idx) j =
        ofWords (d.nfRow i.word) j :=
    fun j hj => Dev.wrote_apply hdone.idle (nfRowAt i.idx) (d.nfRow i.word) j hj
  obtain ⟨hzero, hlow⟩ := nfRow_low d i
  rw [Unhit, hardware_fields_iff, hback 0 (by decide), hback 1 (by decide), Dev.countedRows,
    nhDone_wrote_nextFate h, countedEarly, Fate.counted_low_iff]
  · exact (hwrote 0 (by decide)).trans hzero
  · rw [hwrote 1 (by decide), hlow]

theorem accepted_iff (h : w.dev.Performs) (cookie : Cookie) (d : Decoded) (i : Slot) :
    (w.replaced cookie d i).1 = 0 ↔ w.countedEarly i = false :=
  (replaced_zero_iff w cookie d i (readsBack_of_performs h d i)).trans (unhit_iff h d i)

/-- The row is valid even if the REPLACE fails. -/
theorem nfValid_replaced (h : w.dev.Performs) (cookie : Cookie) (d : Decoded) (i : Slot) :
    nfValid ((w.replaced cookie d i).2.dev.rows (nfRowAt i.idx)) = true := by
  have hreach := Fate.reaches_of_idle (h.afterVerify (nhRowAt i.idx) d.nhRow).idle 6
  rw [nfValid_replaced_self, if_pos ⟨h.verifies_nh _ _ rfl, hreach⟩]

theorem nfValid_destroyed (h : w.dev.Performs) (i : Slot) :
    nfValid ((w.destroyed i).dev.rows (nfRowAt i.idx)) = false := by
  rw [nfValid_destroyed_self, if_pos ⟨h.idle, Fate.reaches_of_idle h.wasRead.idle 6⟩]

theorem next_performs (hindexed : w.flows.Indexed) (h : w.dev.Performs) (cls : FlowClsOffload) :
    (w.next cls).dev.Performs := by
  intro t
  rw [w.next_fates hindexed]
  exact h t

end Accel

end R8000Plus.Fa
