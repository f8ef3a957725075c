import R8000Plus.Fa.Codec
import R8000Plus.Fa.Durable

/-!
The comparison that decides whether a flow stays offloaded. It runs over all
eight words of the NF row, and a row is live from its valid bit on, so it also
compares the timestamp and the hit counter, which are the hardware's to write.
-/

namespace R8000Plus.Fa

open Effects

/-- The timestamp, `CTF_FA_MACC_DATA0_TS`. -/
def nfTimestamp (row : Nat → Word) : Word := row 0 &&& 0x7

/-- The hit counter as `fa_napt_live` puts it together. -/
def nfHits (row : Nat → Word) : Word := ((row 1 &&& 0x7) <<< 29) ||| (row 0 >>> 3)

section Gate

variable (w : Accel) (d : Decoded) (i : Slot)

/-- The device once the next-hop row of slot `i` is verified. -/
def Accel.nhDone : Dev := w.dev.afterVerify (nhRowAt i.idx) d.nhRow

/-- The NF row of slot `i` as it reads back. -/
def Accel.nfBack : Nat → Word :=
  ofWords (((w.nhDone d i).wrote (nfRowAt i.idx) (d.nfRow i.word)).readBack (nfRowAt i.idx)
    NF_ROW_WORDS)

/-- No access times out, and both rows read back as written on every bit that
the driver encodes. -/
structure ReadsBack : Prop where
  nh : w.dev.verifies (nhRowAt i.idx) d.nhRow = true
  written : (w.nhDone d i).nextFate.idle = true
  read : ((w.nhDone d i).wrote (nfRowAt i.idx) (d.nfRow i.word)).nextFate.idle = true
  bits : ∀ j < NF_ROW_WORDS, w.nfBack d i j &&& driverBits (nfRowAt i.idx) j =
    ofWords (d.nfRow i.word) j &&& driverBits (nfRowAt i.idx) j

/-- The hardware has not counted or stamped the row by the time it is read. -/
def Unhit : Prop := nfTimestamp (w.nfBack d i) = 0 ∧ nfHits (w.nfBack d i) = 0

end Gate

/-! ### The fields of the hardware -/

/-- Both fields are empty exactly when the bits they lie on are. -/
theorem hardware_fields_iff (row : Nat → Word) :
    nfTimestamp row = 0 ∧ nfHits row = 0 ↔ row 0 = 0 ∧ row 1 &&& 0x7 = 0 := by
  rw [nfTimestamp, nfHits, show (0 : Word) = 0#32 from rfl, BitVec.or_eq_zero_iff]
  simp only [← BitVec.toNat_inj, BitVec.toNat_shiftLeft, BitVec.toNat_ushiftRight,
    toNat_and_seven, BitVec.toNat_ofNat, Nat.shiftLeft_eq, Nat.shiftRight_eq_div_pow]
  omega

/-- The driver leaves the hardware's bits zero. -/
theorem nfRow_low (d : Decoded) (i : Slot) :
    ofWords (d.nfRow i.word) 0 = 0 ∧ ofWords (d.nfRow i.word) 1 &&& 0x7 = 0 := by
  have hbits := (d.nfArgs i).row_other_bits
  refine ⟨rfl, BitVec.eq_of_getLsbD_eq fun k hk => ?_⟩
  rw [BitVec.getLsbD_and]
  by_cases hlow : k < 3
  · have hfield : nfFieldBit 1 k = false := by
      simpa [nfFieldBit] using hlow
    have hbit : (ofWords (d.nfRow i.word) 1).getLsbD k = false := hbits 1 k hfield
    rw [hbit, Bool.false_and]
    exact BitVec.getLsbD_zero.symm
  · have hmask : (0x7 : Word).getLsbD k = false := by
      interval_cases k <;> simp at hlow ⊢
    rw [hmask, Bool.and_false]
    exact BitVec.getLsbD_zero.symm

theorem low_or_high (x : Word) : (x &&& ~~~0x7) ||| (x &&& 0x7) = x := by
  apply BitVec.eq_of_getLsbD_eq
  intro k hk
  interval_cases k <;> simp

/-- Where the driver's bits agree, whole rows do exactly when the hardware's
bits are zero. -/
theorem row_eq_iff (d : Decoded) (i : Slot) (back : Nat → Word)
    (hbits : ∀ j < NF_ROW_WORDS, back j &&& driverBits (nfRowAt i.idx) j =
      ofWords (d.nfRow i.word) j &&& driverBits (nfRowAt i.idx) j) :
    (∀ j < NF_ROW_WORDS, back j = ofWords (d.nfRow i.word) j) ↔
      back 0 = 0 ∧ back 1 &&& 0x7 = 0 := by
  obtain ⟨hzero, hlow⟩ := nfRow_low d i
  constructor
  · intro h
    exact ⟨(h 0 (by decide)).trans hzero, by rw [h 1 (by decide), hlow]⟩
  · rintro ⟨hback0, hback1⟩ j hj
    match j with
    | 0 => exact hback0.trans hzero.symm
    | 1 =>
        have hhigh : back 1 &&& ~~~0x7 = ofWords (d.nfRow i.word) 1 &&& ~~~0x7 := hbits 1 hj
        rw [← low_or_high (back 1), ← low_or_high (ofWords (d.nfRow i.word) 1), hhigh, hback1,
          hlow]
    | j + 2 =>
        have hall : driverBits (nfRowAt i.idx) (j + 2) = BitVec.allOnes 32 := by
          simp [driverBits, nfRowAt]
        have h := hbits (j + 2) hj
        rwa [hall, BitVec.and_allOnes, BitVec.and_allOnes] at h

/-! ### The gate -/

theorem eq_iff_ofWords {a b : List Word} (hlen : a.length = b.length) :
    a = b ↔ ∀ j < b.length, ofWords a j = ofWords b j := by
  refine ⟨fun h j _ => by rw [h], fun h => List.ext_getElem hlen fun j ha hb => ?_⟩
  rw [ofWords_getElem a j ha, ofWords_getElem b j hb, h j hb]

/-- The second comparison succeeds exactly on a row the hardware left alone. -/
theorem verifies_iff (w : Accel) (d : Decoded) (i : Slot) (hback : ReadsBack w d i) :
    (w.nhDone d i).verifies (nfRowAt i.idx) (d.nfRow i.word) = true ↔ Unhit w d i := by
  have hlen : (((w.nhDone d i).wrote (nfRowAt i.idx) (d.nfRow i.word)).readBack (nfRowAt i.idx)
      (d.nfRow i.word).length).length = (d.nfRow i.word).length := by
    simp [Dev.readBack]
  rw [Dev.verifies, hback.written, hback.read, Bool.true_and, Bool.true_and, beq_iff_eq,
    eq_iff_ofWords hlen, Unhit, hardware_fields_iff]
  exact row_eq_iff d i _ hback.bits

theorem replaced_zero_iff (w : Accel) (cookie : Cookie) (d : Decoded) (i : Slot)
    (hback : ReadsBack w d i) : (w.replaced cookie d i).1 = 0 ↔ Unhit w d i := by
  rw [Accel.replaced_accepted_iff, and_iff_right hback.nh]
  exact verifies_iff w d i hback

/-- An accepted rule whose rows are stored as written: it is answered 0 and
keeps its slot exactly when no packet has been counted yet. -/
theorem verify_gate_iff (w : Accel) (cookie : Cookie) (rule : FlowRule) (i : Slot)
    (hrefused : (faDecodeRule rule).refused = false) (hfree : w.flows.firstFree = some i)
    (hback : ReadsBack w (faDecodeRule rule) i) :
    (w.callback ⟨.replace, cookie, rule⟩).1 = 0 ∧
        (w.callback ⟨.replace, cookie, rule⟩).2.flows i = Slots.taken cookie i ↔
      Unhit w (faDecodeRule rule) i := by
  obtain ⟨hret, ctl, window, polled, hend⟩ :=
    faFlowReplaceLive_run w cookie rule i hrefused hfree
  have hcall : w.callback ⟨.replace, cookie, rule⟩ =
      (faFlowReplaceLive cookie rule).run Accel.call w := rfl
  rw [hcall, hret, hend, ← replaced_zero_iff w cookie (faDecodeRule rule) i hback]
  refine and_iff_left_of_imp fun hzero => ?_
  simp only [Accel.replaced_flows, hzero, Function.update_self, decide_true]
  rfl

/-- Hardware that has counted one hit on every NF row before each access. -/
def Fate.counting : Fate := { Fate.clean with counters := fun _ => some (8, 0) }

instance (w : Accel) (d : Decoded) (i : Slot) : Decidable (ReadsBack w d i) :=
  decidable_of_iff
    (w.dev.verifies (nhRowAt i.idx) d.nhRow = true ∧ (w.nhDone d i).nextFate.idle = true ∧
      ((w.nhDone d i).wrote (nfRowAt i.idx) (d.nfRow i.word)).nextFate.idle = true ∧
      ∀ j < NF_ROW_WORDS, w.nfBack d i j &&& driverBits (nfRowAt i.idx) j =
        ofWords (d.nfRow i.word) j &&& driverBits (nfRowAt i.idx) j)
    ⟨fun ⟨nh, written, read, bits⟩ => ⟨nh, written, read, bits⟩,
      fun h => ⟨h.nh, h.written, h.read, h.bits⟩⟩

theorem verify_gate_clean :
    ((Accel.loaded (.reset .wordByWord fun _ => .clean)).callback
          ⟨.replace, 7, .toWan fun _ => 0⟩).1 = 0 ∧
        ((Accel.loaded (.reset .wordByWord fun _ => .clean)).callback
          ⟨.replace, 7, .toWan fun _ => 0⟩).2.flows ⟨0, by decide⟩ =
            Slots.taken 7 ⟨0, by decide⟩ ↔
      Unhit (.loaded (.reset .wordByWord fun _ => .clean)) (faDecodeRule (.toWan fun _ => 0))
        ⟨0, by decide⟩ :=
  verify_gate_iff (.loaded (.reset .wordByWord fun _ => .clean)) 7 (.toWan fun _ => 0)
    ⟨0, by decide⟩ (by decide) (by decide +kernel) (by decide +kernel)

/-- A row that is stored as written and hit once is rejected. -/
theorem verify_gate_counted :
    (faDecodeRule (.toWan fun _ => 0)).refused = false ∧
      ReadsBack (.loaded (.reset .wordByWord fun _ => .counting))
        (faDecodeRule (.toWan fun _ => 0)) ⟨0, by decide⟩ ∧
      ((Accel.loaded (.reset .wordByWord fun _ => .counting)).callback
        ⟨.replace, 7, .toWan fun _ => 0⟩).1 = -EOPNOTSUPP ∧
      (((Accel.loaded (.reset .wordByWord fun _ => .counting)).callback
        ⟨.replace, 7, .toWan fun _ => 0⟩).2.flows ⟨0, by decide⟩).inUse = false := by
  exact ⟨by decide, by decide +kernel, by decide +kernel, by decide +kernel⟩

end R8000Plus.Fa
