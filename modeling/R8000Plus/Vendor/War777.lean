import R8000Plus.Vendor.Refinement

/-!
The workaround for erratum 777 in the vendor driver: while it is enabled, the
lookup memory is only accessed with HWQ_THRESHLD cleared, and no call leaves the
threshold cleared. The bracket sits in the row functions, but for the pool table
around the whole search.
-/

namespace R8000Plus.Vendor

open Effects Fa

def HWQ_THRESHLD (control : Word) : Word := control &&& CTF_CTL_HWQ_THRESHLD_MASK

/-- The accesses of the indirect window. -/
def RegOp.InWindow : RegOp → Prop
  | .rReg (.fa (.mAccdata _)) => True
  | .wReg _ (.fa (.mAccdata _)) => True
  | .wReg _ (.fa .memAccCtl) => True
  | _ => False

/-- The window is accessed with the threshold cleared. The state is the threshold;
CONTROL reads with it. -/
def regRules {α : Type} (done : Word → α → Prop) : Protocol RegOp RegOp.Ans Word α where
  ok g o := o.InWindow → g = 0
  good g o a :=
    match o, a with
    | .rReg (.fa .control), val => HWQ_THRESHLD val = g
    | _, _ => True
  update g o _ :=
    match o with
    | .wReg val (.fa .control) => HWQ_THRESHLD val
    | _ => g
  done := done

/-! ### Programs that leave CONTROL alone -/

def RegOp.LeavesControl : RegOp → Prop
  | .wReg _ (.fa .control) => False
  | _ => True

theorem regRules_of_uses {α : Type} {Q : α → Prop} {g : Word} {p : RegProg α} (hy : p.Yields Q)
    (hu : p.Uses fun o => o.LeavesControl ∧ (o.InWindow → g = 0)) :
    p.Conforms (regRules fun g' a => Q a ∧ g' = g) g := by
  induction p with
  | ret value => exact ⟨hy, rfl⟩
  | ask o next ih =>
      refine ⟨hu.1.2, fun a _ => ?_⟩
      have hkept : (regRules (α := α) fun g' a => Q a ∧ g' = g).update g o a = g := by
        have hleaves := hu.1.1
        cases o with
        | rReg reg => rfl
        | wReg val reg =>
            cases reg with
            | status => rfl
            | fa reg => cases reg <;> first | rfl | exact hleaves.elim
      rw [hkept]
      exact ih a (hy a) (hu.2 a)

section Uses

variable {ok : RegOp → Prop}

theorem spinwait_uses {reg : FaReg} (hread : ok (.rReg reg)) (holds : Word → Bool) (n : Nat) :
    (spinwait reg holds n).Uses ok := by
  induction n with
  | zero => trivial
  | succ n ih =>
      refine ⟨hread, fun w => ?_⟩
      change Prog.Uses ok (if holds w then _ else _)
      split
      · exact ih
      · trivial

theorem waitFor_uses {reg : FaReg} (hread : ok (.rReg reg)) (b : Board) (holds : Word → Bool)
    (us : Nat) : (waitFor b reg holds us).Uses ok :=
  (spinwait_uses hread holds _).bind fun _ => ⟨hread, fun _ => trivial⟩

theorem readDown_uses (hread : ∀ j, ok (.rReg (.fa (.mAccdata j)))) (n : Nat) :
    (readDown n).Uses ok := by
  induction n with
  | zero => trivial
  | succ n ih => exact ⟨hread n, fun _ => ih.bind fun _ => trivial⟩

theorem ctfFaMaccWr_uses (hwrite : ∀ val j, ok (.wReg val (.fa (.mAccdata j)))) (d : List Word)
    (n : Nat) : (ctfFaMaccWr d n).Uses ok := by
  induction n with
  | zero => trivial
  | succ n ih => exact ⟨hwrite _ _, fun _ => ih⟩

end Uses

theorem readRow_regRules (b : Board) (table idx : Word) (n : Nat) :
    (readRow b table idx n).Conforms
      (regRules fun g a => (∀ tbl ∈ a, tbl.length = n) ∧ g = 0) 0 := by
  have hdown : (readDown n).Uses fun o => o.LeavesControl ∧ (o.InWindow → (0 : Word) = 0) :=
    readDown_uses (fun _ => ⟨trivial, fun _ => rfl⟩) n
  have hread : (ctfFaMaccRd n).Uses fun o => o.LeavesControl ∧ (o.InWindow → (0 : Word) = 0) :=
    ⟨⟨trivial, fun _ => rfl⟩, fun _ => hdown.bind fun _ => ⟨⟨trivial, fun _ => rfl⟩, fun _ => trivial⟩⟩
  refine regRules_of_uses (readRow_yields b table idx n)
    ⟨⟨trivial, fun _ => rfl⟩, fun _ => hread.bind fun tbl => ?_⟩
  refine (waitFor_uses ⟨trivial, False.elim⟩ b _ _).bind fun done => ?_
  cases done <;> trivial

theorem writeRow_regRules (b : Board) (table idx : Word) (tbl : List Word) :
    (writeRow b table idx tbl).Conforms (regRules fun g _ => True ∧ g = 0) 0 := by
  refine regRules_of_uses (Prog.yields_of_forall (fun _ => trivial) _)
    ⟨⟨trivial, fun _ => rfl⟩, fun _ => ?_⟩
  refine (ctfFaMaccWr_uses (fun _ _ => ⟨trivial, fun _ => rfl⟩) tbl _).bind fun _ => ?_
  exact waitFor_uses ⟨trivial, False.elim⟩ b _ _

/-! ### The bracket and the mode change -/

theorem ctfFaWReg_regRules (g v : Word) :
    (ctfFaWReg (.fa .control) CTF_CTL_HWQ_THRESHLD_MASK v).Conforms
      (regRules fun g' _ => g' = HWQ_THRESHLD v) g := by
  refine ⟨False.elim, fun val _ => ⟨False.elim, fun _ _ => ⟨False.elim, fun _ _ => ?_⟩⟩⟩
  change HWQ_THRESHLD ((val &&& ~~~CTF_CTL_HWQ_THRESHLD_MASK) ||| (v &&& CTF_CTL_HWQ_THRESHLD_MASK)) =
    HWQ_THRESHLD v
  rw [HWQ_THRESHLD, BitVec.and_or_distrib_right, BitVec.and_assoc, BitVec.and_comm (~~~_),
    BitVec.and_not_self, BitVec.and_assoc, BitVec.and_self]
  simp [HWQ_THRESHLD]

theorem threshold_setmode (mode : AccMode) (val : Word) :
    HWQ_THRESHLD (setmodeControl mode val) = HWQ_THRESHLD val := by
  have hmode : modeBits mode &&& CTF_CTL_HWQ_THRESHLD_MASK = 0 := by cases mode <;> decide
  have hclear : ~~~(CTF_CTL_SW_ACC_MODE ||| CTF_CTL_BYPASS_CTF) &&& CTF_CTL_HWQ_THRESHLD_MASK =
      CTF_CTL_HWQ_THRESHLD_MASK := by decide
  have hrest : (CTF_CTL_DSBL_MAC_DA_CHECK ||| initStrobes ||| CTF_CTL_CRC_OWRT) &&&
      CTF_CTL_HWQ_THRESHLD_MASK = 0 := by decide
  rw [HWQ_THRESHLD, setmodeControl, BitVec.and_or_distrib_right, BitVec.and_or_distrib_right,
    hmode, hrest, BitVec.and_assoc, hclear]
  simp [HWQ_THRESHLD]

/-- With the workaround enabled, a row access moves the threshold as the rules of
the rows say. -/
theorem RowOp.regs_regRules (spins : Nat → Nat) (g : Word) (o : RowOp)
    (hpool : o.InPool → g = 0) :
    (o.regs ⟨true, spins⟩).Conforms (regRules fun g' a => o.Answered a ∧ g' = o.threshold g) g := by
  have hunder : ∀ {α : Type} {Q : α → Prop} {p : RegProg α},
      p.Conforms (regRules fun g a => Q a ∧ g = 0) 0 →
      (underWar777 ⟨true, spins⟩ p).Conforms
        (regRules fun g' a => Q a ∧ g' = CTF_CTL_HWQ_DEF_THRESHLD_VAL) g := by
    intro α Q p hp
    refine Prog.Conforms.bind (ctfFaWReg_regRules g 0) ?_
    rintro g' - rfl
    refine Prog.Conforms.bind hp ?_
    rintro g'' a ⟨ha, rfl⟩
    refine Prog.Conforms.bind (ctfFaWReg_regRules 0 CTF_CTL_HWQ_DEF_THRESHLD_VAL) ?_
    rintro g''' - rfl
    exact ⟨ha, rfl⟩
  cases o with
  | read table idx n =>
      rw [RowOp.regs, RowOp.threshold]
      split
      · next htable =>
        obtain rfl := hpool htable
        exact readRow_regRules _ table idx n
      · exact hunder (readRow_regRules _ table idx n)
  | write table idx tbl =>
      rw [RowOp.regs, RowOp.threshold]
      split
      · next htable =>
        obtain rfl := hpool htable
        exact writeRow_regRules _ table idx tbl
      · exact hunder (writeRow_regRules _ table idx tbl)
  | init mode =>
      refine ⟨False.elim, fun val hval => ⟨False.elim, fun _ _ => ?_⟩⟩
      change Prog.Conforms _ (HWQ_THRESHLD (setmodeControl mode val)) _
      rw [threshold_setmode, show HWQ_THRESHLD val = g from hval]
      exact regRules_of_uses (Prog.yields_of_forall (fun _ => trivial) _)
        (waitFor_uses ⟨trivial, False.elim⟩ _ _ _)
  | war777 on =>
      cases on with
      | true => exact (ctfFaWReg_regRules g 0).weaken fun _ _ h => ⟨trivial, h⟩
      | false =>
          exact (ctfFaWReg_regRules g CTF_CTL_HWQ_DEF_THRESHLD_VAL).weaken fun _ _ h => ⟨trivial, h⟩

/-! ### Runs -/

/-- An access of the window finds the threshold cleared. -/
def Chip.Sheltered (c : Chip) (o : RegOp) : Prop := o.InWindow → HWQ_THRESHLD c.dev.control = 0

theorem storeWord_control (d : Dev) (j : Nat) (val : Word) :
    (d.storeWord j val).control = d.control := by
  rw [Dev.storeWord]
  split
  · rfl
  · split
    · split <;> rfl
    · dsimp only
      split <;> rfl

theorem threshold_writeControl (c : Chip) (val : Word) :
    HWQ_THRESHLD (c.writeControl val).dev.control = HWQ_THRESHLD val := by
  have hcontrol : (c.writeControl val).dev.control = val &&& ~~~initStrobes := by
    rw [Chip.writeControl]
    split <;> rfl
  have hkeep : ~~~initStrobes &&& CTF_CTL_HWQ_THRESHLD_MASK = CTF_CTL_HWQ_THRESHLD_MASK := by
    decide
  rw [hcontrol, HWQ_THRESHLD, BitVec.and_assoc, hkeep, HWQ_THRESHLD]

theorem Chip.regRules_step {α : Type} {done : Word → α → Prop} (g : Word) (o : RegOp) (c : Chip)
    (h : HWQ_THRESHLD c.dev.control = g) :
    (regRules done).good g o (Chip.perform o c).1 ∧
      HWQ_THRESHLD (Chip.perform o c).2.dev.control =
        (regRules done).update g o (Chip.perform o c).1 := by
  cases o with
  | rReg reg =>
      cases reg with
      | status => exact ⟨trivial, h⟩
      | fa reg =>
          cases reg with
          | control => exact ⟨h, h⟩
          | memAccCtl | dbgStatus | mAccdata => exact ⟨trivial, h⟩
  | wReg val reg =>
      refine ⟨trivial, ?_⟩
      cases reg with
      | status => exact h
      | fa reg =>
          cases reg with
          | control => exact threshold_writeControl c val
          | memAccCtl | dbgStatus => exact h
          | mAccdata j =>
              change HWQ_THRESHLD (c.dev.storeWord j val).control = g
              rw [storeWord_control]
              exact h

/-- With the workaround enabled, every access of the window in a run of the driver
is made with the threshold cleared, and afterwards the threshold is as it was or
has its default. -/
theorem war777_shelters (spins : Nat → Nat) (c : Chip) (fai : FaInfo) (calls : List Call) :
    (runCallsRegs ⟨true, spins⟩ fai calls).Asks Chip.perform Chip.Sheltered c ∧
      (HWQ_THRESHLD ((runCallsRegs ⟨true, spins⟩ fai calls).run Chip.perform c).2.dev.control =
          HWQ_THRESHLD c.dev.control ∨
        HWQ_THRESHLD ((runCallsRegs ⟨true, spins⟩ fai calls).run Chip.perform c).2.dev.control =
          CTF_CTL_HWQ_DEF_THRESHLD_VAL) := by
  let g := HWQ_THRESHLD c.dev.control
  have hconforms : (runCallsRegs ⟨true, spins⟩ fai calls).Conforms
      (regRules fun g' _ => True ∧ (g' = g ∨ g' = CTF_CTL_HWQ_DEF_THRESHLD_VAL)) g := by
    refine Prog.Conforms.expand (fun g o ho => ?_) ?_ (runCalls_keeps fai calls g)
    · exact o.regs_regRules spins g ho.2
    · exact fun _ _ h => h
  have hok : ∀ (g : Word) (o : RegOp) (c : Chip), HWQ_THRESHLD c.dev.control = g →
      (o.InWindow → g = 0) → c.Sheltered o := fun g o c h hok hwindow => h.trans (hok hwindow)
  obtain ⟨hasks, g', hend, -, hdone⟩ := hconforms.asks Chip.perform hok
    (fun g o c h _ => c.regRules_step g o h) rfl
  exact ⟨hasks, hdone.imp hend.trans hend.trans⟩

end R8000Plus.Vendor
