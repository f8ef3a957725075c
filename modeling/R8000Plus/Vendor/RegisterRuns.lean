import R8000Plus.Vendor.Registers
import R8000Plus.Vendor.RowView

/-!
The register accesses under the row accesses. On a chip whose answers can be
trusted, each row function does to the tables what its row access says for some
turn of the hardware, so that every run of the driver on the registers is a run
of it on the rows.
-/

namespace R8000Plus.Vendor

open Effects Fa

/-- The words of a row that the driver moves. -/
def span (addr : RowAddr) : Nat := if addr.table = 1 then 2 else addr.words

theorem span_le_words (addr : RowAddr) : span addr ≤ addr.words := by
  rw [span]
  split
  · next h =>
    rw [RowAddr.words, h]
    decide
  · exact le_rfl

/-! ### Counters -/

/-- Counters that moved twice. -/
def laterCounters (new old : Nat → Option (Word × Word)) (idx : Nat) : Option (Word × Word) :=
  (new idx).or (old idx)

theorem counted_congr {rows rows' : Tables} (counters : Nat → Option (Word × Word))
    {addr : RowAddr} {j : Nat} (h : rows addr j = rows' addr j) :
    rows.counted counters addr j = rows'.counted counters addr j := by
  simp only [Tables.counted]
  by_cases h1 : j = 1
  · subst h1
    rw [h]
  · simp only [h, h1, if_false]

theorem counted_none (rows : Tables) : rows.counted (fun _ => none) = rows := by
  funext addr j
  simp [Tables.counted]

theorem counted_counted (rows : Tables) (old new : Nat → Option (Word × Word)) :
    (rows.counted old).counted new = rows.counted (laterCounters new old) := by
  funext addr j
  simp only [Tables.counted, laterCounters]
  by_cases htable : addr.table = 0
  · cases hnew : new addr.idx with
    | none => simp only [htable, ne_eq, not_true_eq_false, if_false, Option.none_or]
    | some c =>
        cases hold : old addr.idx with
        | none => simp only [htable, ne_eq, not_true_eq_false, if_false, Option.some_or]
        | some c' =>
            have hword : ((rows addr 1 &&& ~~~7 ||| c'.2 &&& 7) &&& ~~~7) ||| c.2 &&& 7 =
                rows addr 1 &&& ~~~7 ||| c.2 &&& 7 := by
              rw [BitVec.and_or_distrib_right, BitVec.and_assoc, BitVec.and_self,
                BitVec.and_assoc c'.2, BitVec.and_not_self]
              simp
            simp only [htable, ne_eq, not_true_eq_false, if_false, Option.some_or, one_ne_zero,
              if_true, hword]
            split_ifs <;> rfl
  · simp only [htable, ne_eq, not_false_eq_true, if_true]

/-! ### Single accesses -/

namespace Chip

variable (c : Chip)

theorem rReg_run (reg : FaReg) : (Vendor.rReg reg).run perform c = c.rReg reg := rfl

theorem and_not_of_and_eq_zero {val mask : Word} (h : val &&& mask = 0) : val &&& ~~~mask = val := by
  apply BitVec.eq_of_getLsbD_eq
  intro i hi
  have hbit := congrArg (BitVec.getLsbD · i) h
  simp only [BitVec.getLsbD_and] at hbit
  rw [BitVec.getLsbD_and, BitVec.getLsbD_not]
  revert hbit
  cases val.getLsbD i <;> cases mask.getLsbD i <;> simp [hi]

/-- No strobe is set: CONTROL takes the value. -/
theorem writeControl_of_eq {val : Word} (h : val &&& initStrobes = 0) :
    c.writeControl val = { c with dev := { c.dev with control := val } } := by
  rw [writeControl, if_pos h, and_not_of_and_eq_zero h]
  rfl

/-! ### Waiting -/

/-- A wait on a register that holds its condition for `bound` looks, `n` of
which are gone. -/
theorem spinwait_run {reg : FaReg} {holds : Word → Bool} {look : Nat → Chip} {bound : Nat}
    (hread : ∀ n, ∃ w, (look n).rReg reg = (w, look (n + 1)) ∧ holds w = decide (n < bound))
    (k n : Nat) : ∃ m, (spinwait reg holds k).run perform (look n) = ((), look m) ∧
      (m < bound ↔ n + k < bound) := by
  induction k generalizing n with
  | zero => exact ⟨n, rfl, by rw [Nat.add_zero]⟩
  | succ k ih =>
      obtain ⟨w, hw, hholds⟩ := hread n
      have hrun : (spinwait reg holds (k + 1)).run perform (look n) =
          (if holds w then spinwait reg holds k else pure ()).run perform (look (n + 1)) := by
        rw [spinwait, Prog.run_bind_of_eq _ ((rReg_run (look n) reg).trans hw)]
      rw [hrun, hholds]
      by_cases hn : n < bound
      · obtain ⟨m, hm, hiff⟩ := ih (n + 1)
        rw [if_pos (decide_eq_true hn)]
        exact ⟨m, hm, by rw [hiff]; omega⟩
      · rw [if_neg (by simpa using hn)]
        exact ⟨n + 1, rfl, by omega⟩

theorem waitFor_run {reg : FaReg} {holds : Word → Bool} {look : Nat → Chip} {bound : Nat}
    (hread : ∀ n, ∃ w, (look n).rReg reg = (w, look (n + 1)) ∧ holds w = decide (n < bound))
    (b : Board) (us n : Nat) : ∃ m, (waitFor b reg holds us).run perform (look n) =
      (decide (bound ≤ n + b.spins us), look m) := by
  obtain ⟨m, hm, hiff⟩ := spinwait_run hread (b.spins us) n
  obtain ⟨w, hw, hholds⟩ := hread m
  refine ⟨m + 1, ?_⟩
  rw [waitFor, Prog.run_bind_of_eq _ hm, Prog.run_bind_of_eq _ ((rReg_run (look m) reg).trans hw)]
  change (!holds w, look (m + 1)) = _
  rw [hholds, decide_eq_decide.mpr hiff, ← decide_not]
  simp only [not_lt]

theorem memAccComplete_run (b : Board) (hpolled : c.dev.polled = 0) :
    ∃ polled, (memAccComplete b).run perform c =
      (decide (c.dev.fate.busy ≤ b.spins 10000), { c with dev := { c.dev with polled := polled } }) := by
  let look (n : Nat) : Chip := { c with dev := { c.dev with polled := n } }
  have hread : ∀ n, ∃ w, (look n).rReg (.fa .dbgStatus) = (w, look (n + 1)) ∧
      memAccBusy w = decide (n < c.dev.fate.busy) := by
    intro n
    refine ⟨if n < c.dev.fate.busy then CTF_DBG_MEM_ACC_BUSY else 0, rfl, ?_⟩
    by_cases hn : n < c.dev.fate.busy <;> simp [hn, memAccBusy, CTF_DBG_MEM_ACC_BUSY]
  obtain ⟨m, hm⟩ := waitFor_run hread b 10000 0
  have hat : look 0 = c := by
    simp only [look, ← hpolled]
  rw [hat, Nat.zero_add] at hm
  exact ⟨m, hm⟩

theorem initDone_run (b : Board) (hlooked : c.looked = 0) :
    ∃ looked, (waitFor b .status initPending 50000).run perform c =
      (decide ((c.inits c.started).pending ≤ b.spins 50000), { c with looked := looked }) := by
  let look (n : Nat) : Chip := { c with looked := n }
  have hread : ∀ n, ∃ w, (look n).rReg .status = (w, look (n + 1)) ∧
      initPending w = decide (n < (c.inits c.started).pending) := by
    intro n
    refine ⟨if n < (c.inits c.started).pending then 0 else CTF_INTSTAT_INIT_DONE, rfl, ?_⟩
    by_cases hn : n < (c.inits c.started).pending <;>
      simp [hn, initPending, CTF_INTSTAT_INIT_DONE]
  obtain ⟨m, hm⟩ := waitFor_run hread b 50000 0
  have hat : look 0 = c := by
    simp only [look, ← hlooked]
  rw [hat, Nat.zero_add] at hm
  exact ⟨m, hm⟩

/-! ### The data registers -/

theorem readDown_run (n : Nat) : (readDown n).run perform c =
    ((List.range n).map (c.dev.fate.seen (c.dev.rows (selected c.dev.ctl))), c) := by
  induction n with
  | zero => rfl
  | succ n ih =>
      have hrun : (readDown (n + 1)).run perform c =
          (readDown n >>= fun rest =>
            pure (rest ++ [c.dev.fate.seen (c.dev.rows (selected c.dev.ctl)) n])).run perform c :=
        rfl
      rw [hrun, Prog.run_bind_of_eq _ ih, List.range_succ, List.map_append]
      rfl

theorem ctfFaMaccRd_run (n : Nat) : (ctfFaMaccRd n).run perform c =
    ((List.range n).map (c.dev.fate.seen (c.dev.rows (selected c.dev.ctl))),
      { c with dev := c.dev.select 0 }) := by
  have hrun : (ctfFaMaccRd n).run perform c =
      (readDown n >>= fun d => Vendor.wReg 0 (.fa .memAccCtl) >>= fun _ => pure d).run perform c :=
    rfl
  rw [hrun, Prog.run_bind_of_eq _ (c.readDown_run n)]
  rfl

end Chip

/-- The device after the words below `k` went through the window, from the top. -/
def stores (d : Dev) (tbl : List Word) : Nat → Dev
  | 0 => d
  | k + 1 => stores (d.storeWord k (ofWords tbl k)) tbl k

theorem ctfFaMaccWr_run (c : Chip) (tbl : List Word) (k : Nat) :
    (ctfFaMaccWr tbl k).run Chip.perform c = ((), { c with dev := stores c.dev tbl k }) := by
  induction k generalizing c with
  | zero => rfl
  | succ k ih =>
      exact ih { c with dev := c.dev.storeWord k (ofWords tbl k) }

/-- What the words do to the rows: those below `k` of the selected row are
stored as far as they reach it, the other rows stay. -/
structure Stored (d d' : Dev) (tbl : List Word) (k : Nat) : Prop where
  same : ∃ window, d' = { d with window := window, rows := d'.rows }
  row : ∀ j < k, d'.rows (selected d.ctl) j =
    d.fate.landed (ofWords tbl) (d.rows (selected d.ctl)) j
  others : ∀ addr, addr ≠ selected d.ctl → d'.rows addr = d.rows addr

theorem stores_wordByWord {d : Dev} (hstore : d.store = .wordByWord)
    (hctl : selectsRead d.ctl = false) (tbl : List Word) (k : Nat) :
    stores d tbl k = { d with
      rows := Function.update d.rows (selected d.ctl) fun j =>
        if j < k then d.fate.landed (ofWords tbl) (d.rows (selected d.ctl)) j
        else d.rows (selected d.ctl) j } := by
  induction k generalizing d with
  | zero => simp [stores]
  | succ k ih =>
      let row := d.fate.landed (ofWords tbl) (d.rows (selected d.ctl))
      let d' : Dev := { d with
        rows := Function.update d.rows (selected d.ctl)
          (Function.update (d.rows (selected d.ctl)) k (row k)) }
      have hword : d.storeWord k (ofWords tbl k) = d' := by
        rw [Dev.storeWord, hctl, hstore]
        simp only [Bool.false_eq_true, if_false]
        cases hreach : d.fate.reaches k with
        | true => simp [d', row, hreach, hstore, Tables.setWord, Fate.landed]
        | false => simp [d', row, hreach, Fate.landed]
      rw [stores, hword]
      refine (ih (d := d') hstore hctl).trans ?_
      simp only [d']
      simp only [Function.update_self, Function.update_idem]
      congr 2
      funext j
      by_cases hj : j = k
      · subst hj
        simp [row]
      · have hlt : j < k ↔ j < k + 1 := by omega
        simp only [Fate.landed, Function.update_of_ne hj, hlt]

theorem stores_onWordZero {d : Dev} (hstore : d.store = .onWordZero)
    (hctl : selectsRead d.ctl = false) (tbl : List Word) (k : Nat) :
    stores d tbl (k + 1) = { d with
      window := fun j => if j ≤ k then ofWords tbl j else d.window j
      rows := d.rows.setRow (selected d.ctl)
        (d.fate.landed (fun j => if j ≤ k then ofWords tbl j else d.window j)
          (d.rows (selected d.ctl))) } := by
  have hmerge : ∀ (window : Nat → Word) k, (fun j => if j ≤ k then ofWords tbl j else
      Function.update window (k + 1) (ofWords tbl (k + 1)) j) =
      fun j => if j ≤ k + 1 then ofWords tbl j else window j := by
    intro window k
    funext j
    by_cases hj : j = k + 1
    · subst hj
      simp
    · rw [Function.update_of_ne hj]
      have hle : j ≤ k ↔ j ≤ k + 1 := by omega
      simp only [hle]
  induction k generalizing d with
  | zero =>
      have hzero : Function.update d.window 0 (ofWords tbl 0) =
          fun j => if j ≤ 0 then ofWords tbl j else d.window j := by
        funext j
        by_cases hj : j = 0 <;> simp [hj]
      simp [stores, Dev.storeWord, hctl, hstore, hzero]
  | succ k ih =>
      let d' : Dev :=
        { d with window := Function.update d.window (k + 1) (ofWords tbl (k + 1)) }
      have hword : d.storeWord (k + 1) (ofWords tbl (k + 1)) = d' := by
        simp [d', Dev.storeWord, hctl, hstore]
      rw [stores, hword]
      refine (ih (d := d') hstore hctl).trans ?_
      simp only [d', hmerge]

theorem stores_stored {d : Dev} (hctl : selectsRead d.ctl = false) (tbl : List Word) {k : Nat}
    (hk : k ≤ (selected d.ctl).words) : Stored d (stores d tbl k) tbl k := by
  cases hstore : d.store with
  | wordByWord =>
      rw [stores_wordByWord hstore hctl]
      refine ⟨⟨d.window, rfl⟩, fun j hj => ?_, fun addr hne => Function.update_of_ne hne _ _⟩
      simp only [Function.update_self, if_pos hj]
  | onWordZero =>
      cases k with
      | zero => exact ⟨⟨d.window, rfl⟩, fun j hj => absurd hj (Nat.not_lt_zero j), fun _ _ => rfl⟩
      | succ k =>
          rw [stores_onWordZero hstore hctl]
          refine ⟨⟨_, rfl⟩, fun j hj => ?_, fun addr hne => d.rows.setRow_of_ne _ hne⟩
          have hle : j ≤ k := Nat.le_of_lt_succ hj
          refine (d.rows.setRow_apply _ _ j (Nat.lt_of_lt_of_le hj hk)).trans ?_
          simp only [Fate.landed, hle, if_true]

end R8000Plus.Vendor
