import R8000Plus.Srab.Mainline

/-!
What one call of `b53_srab.c` comes to: its answer, what it leaves on the bus and
what it leaves in the switch, by the fate of its request.
-/

namespace R8000Plus.Srab.B53

open Effects

namespace Dev

/-- A polling loop on a register whose reads give `word` one after the other. -/
theorem pollReg_run {reg : B53Reg} {stop : Word → Bool} {word : Nat → Word} {states : Nat → Dev}
    (hread : ∀ k, perform (.readl reg) (states k) = (word k, states (k + 1))) (i steps : Nat) :
    (pollReg reg stop i steps).run perform (states i) =
      let first := (List.range' i steps).find? fun k => stop (word k)
      (first.getD (i + steps), states (first.elim (i + steps) (· + 1))) := by
  induction steps generalizing i with
  | zero => rfl
  | succ steps ih =>
      have hstep : (pollReg reg stop i (steps + 1)).run perform (states i) =
          (if stop (word i) then (pure i : B53Prog Nat) else pollReg reg stop (i + 1) steps).run
            perform (states (i + 1)) := by
        change Prog.run perform _ (perform (.readl reg) (states i)).2 = _
        rw [hread]
        rfl
      rw [hstep, List.range'_succ, List.find?_cons]
      cases stop (word i) with
      | true => rfl
      | false =>
          rw [if_neg Bool.false_ne_true, ih, Nat.add_right_comm, Nat.add_assoc]

theorem ctrlsWord_grant (d : Dev) :
    (d.ctrlsWord &&& B53_SRAB_CTRLS_RCAGNT != 0) = d.fate.grantAt d.asked := by
  have hbit : d.ctrlsWord.getLsbD 4 = d.fate.grantAt d.asked := by
    simp [ctrlsWord, B53_SRAB_CTRLS_RCAREQ, Fate.grantAt]
  rw [← hbit, Bool.eq_iff_iff, bne_iff_ne]
  exact Srab.Dev.seesGrant_iff _

theorem cmdstat_done (f : Fate) (k : Nat) :
    (f.cmdstat k &&& B53_SRAB_CMDSTAT_GORDYN == 0) = f.doneAt k := by
  rw [Bool.eq_iff_iff, beq_iff_eq, Srab.Dev.seesDone_iff, Fate.doneAt, Bool.not_eq_true']

/-- After a request for the bus: RCAREQ is set, and CTRLS was polled. -/
def requested (d : Dev) (ctrls : Word) : Dev :=
  { d with ctrls := ctrls, turn := d.turn + 1, asked := d.nextFate.grantPolls }

theorem b53SrabRequestGrant_run (d : Dev) :
    ∃ ctrls, b53SrabRequestGrant.run perform d =
      (if d.nextFate.goesOn then 0 else - EIO, d.requested ctrls) := by
  let ctrls := d.ctrlsWord ||| B53_SRAB_CTRLS_RCAREQ
  let stop : Word → Bool := fun ctrls => ctrls &&& B53_SRAB_CTRLS_RCAGNT != 0
  have hset : ctrls.getLsbD 3 = true := Srab.Dev.request_bit _
  let states : Nat → Dev := fun k => { d with ctrls := ctrls, turn := d.turn + 1, asked := k }
  have hwrite : ({ d with asked := d.asked + 1 } : Dev).writel ctrls .ctrls = states 0 := by
    simp only [writel, hset, if_true, states]
  have hread : ∀ k, perform (.readl .ctrls) (states k) = ((states k).ctrlsWord, states (k + 1)) :=
    fun k => rfl
  have htest : (fun k => stop (states k).ctrlsWord) = d.nextFate.grantAt :=
    funext fun k => (states k).ctrlsWord_grant
  have hpoll : (pollReg .ctrls stop 0 20).run perform (states 0) =
      (d.nextFate.firstGrant.getD 20, states d.nextFate.grantPolls) := by
    rw [pollReg_run hread, htest, ← List.range_eq_range']
    rfl
  have hrun : b53SrabRequestGrant.run perform d =
      (pollReg .ctrls stop 0 20 >>= fun i => if i = 5 then pure (- EIO) else pure 0).run perform
        (({ d with asked := d.asked + 1 } : Dev).writel ctrls .ctrls) := rfl
  refine ⟨ctrls, ?_⟩
  rw [hrun, hwrite, Prog.run_bind_of_eq _ hpoll]
  unfold Fate.goesOn
  cases hfirst : d.nextFate.firstGrant with
  | none => simp [states, requested]
  | some k =>
      by_cases hk : k = 5
      · simp [hk, states, requested]
      · simp [hk, states, requested]

/-- RCAGNT was seen by the polls if it was by the last one. -/
theorem requested_granted (d : Dev) (ctrls : Word) :
    (d.requested ctrls).granted = d.nextFate.firstGrant.isSome := by
  have hfate : (d.requested ctrls).fate = d.nextFate := rfl
  unfold granted
  rw [hfate, requested, Fate.grantPolls]
  cases hfirst : d.nextFate.firstGrant with
  | some k =>
      have hgrant : d.nextFate.grantAt k = true := List.find?_some hfirst
      simp [hgrant]
  | none =>
      have hnever := List.find?_eq_none.mp hfirst 19 (by decide)
      simpa using hnever

theorem b53SrabReleaseGrant_run (d : Dev) :
    ∃ ctrls asked, ctrls.getLsbD 3 = false ∧ b53SrabReleaseGrant.run perform d =
      ((), { d with ctrls := ctrls, asked := asked }) := by
  let ctrls := d.ctrlsWord &&& ~~~B53_SRAB_CTRLS_RCAREQ
  have hclear : ctrls.getLsbD 3 = false := Srab.Dev.release_bit _
  have hrun : b53SrabReleaseGrant.run perform d =
      ((), ({ d with asked := d.asked + 1 } : Dev).writel ctrls .ctrls) := rfl
  have hwrite : ({ d with asked := d.asked + 1 } : Dev).writel ctrls .ctrls =
      { d with ctrls := ctrls, asked := d.asked + 1 } := by
    simp only [writel, hclear, Bool.false_eq_true, if_false]
  rw [hrun, hwrite]
  exact ⟨ctrls, d.asked + 1, hclear, rfl⟩

/-- What a command leaves alone. -/
structure Commanded (d e : Dev) : Prop where
  ctrls : e.ctrls = d.ctrls
  asked : e.asked = d.asked
  turn : e.turn = d.turn
  fates : e.fates = d.fates

theorem Commanded.fate {d e : Dev} (h : Commanded d e) : e.fate = d.fate := by
  rw [Dev.fate, h.fates, h.turn]

theorem command_commanded (d : Dev) (val : Word) :
    (d.command val).polled = 0 ∧ Commanded d (d.command val) := by
  unfold command
  dsimp only
  split
  · split <;> exact ⟨rfl, rfl, rfl, rfl, rfl⟩
  · exact ⟨rfl, rfl, rfl, rfl, rfl⟩

theorem b53SrabOp_run (d : Dev) (page reg : Byte) (op : Word) :
    ∃ polled, (b53SrabOp page reg op).run perform d =
      (if d.fate.completes then 0 else - EIO,
        { d.command (cmdstatOf page reg op) with polled := polled }) := by
  let d' := d.command (cmdstatOf page reg op)
  let stop : Word → Bool := fun cmdstat => cmdstat &&& B53_SRAB_CMDSTAT_GORDYN == 0
  obtain ⟨hpolled, hkept⟩ := d.command_commanded (cmdstatOf page reg op)
  have hfate : d'.fate = d.fate := hkept.fate
  let states : Nat → Dev := fun k => { d' with polled := k }
  have hstart : d' = states 0 := by
    change d' = { d' with polled := 0 }
    rw [← hpolled]
  have hread : ∀ k, perform (.readl .cmdstat) (states k) = (d'.fate.cmdstat k, states (k + 1)) :=
    fun k => rfl
  have htest : (fun k => stop (d'.fate.cmdstat k)) = d.fate.doneAt := by
    funext k
    rw [← hfate]
    exact cmdstat_done d'.fate k
  have hpoll : (pollReg .cmdstat stop 0 5).run perform (states 0) =
      (d.fate.firstDone.getD 5, states (d.fate.firstDone.elim 5 (· + 1))) := by
    rw [pollReg_run hread, htest, ← List.range_eq_range']
    rfl
  have hrun : (b53SrabOp page reg op).run perform d =
      (pollReg .cmdstat stop 0 5 >>= fun i => if i = 5 then pure (- EIO) else pure 0).run
        perform d' := rfl
  refine ⟨d.fate.firstDone.elim 5 (· + 1), ?_⟩
  rw [hrun, hstart, Prog.run_bind_of_eq _ hpoll]
  unfold Fate.completes
  cases hfirst : d.fate.firstDone with
  | none => rfl
  | some k =>
      have hk : k < 5 := List.mem_range.mp (List.mem_of_find?_eq_some hfirst)
      have hne : k ≠ 5 := by omega
      simp [hne, states, d']

theorem wide_eq (high low : Word) :
    low.setWidth 64 + (high.setWidth 64 <<< 32) = high ++ low := by
  have happ : (high ++ low).toNat = high.toNat * 2 ^ 32 + low.toNat := by
    rw [BitVec.toNat_append, ← Nat.shiftLeft_add_eq_or_of_lt low.isLt, Nat.shiftLeft_eq]
  have hhigh := high.isLt
  have hlow := low.isLt
  apply BitVec.eq_of_toNat_eq
  rw [happ, BitVec.toNat_add, BitVec.toNat_shiftLeft, BitVec.toNat_setWidth,
    BitVec.toNat_setWidth, Nat.shiftLeft_eq]
  omega

theorem low_words (high low : Word) {n : Nat} (hn : n ≤ 32) :
    (high ++ low).setWidth n = low.setWidth n := by
  rw [BitVec.setWidth_append, dif_pos hn]

theorem mask16 (x : Word) :
    x.setWidth 64 &&& 0xffff = ((x.setWidth 16).setWidth 32).setWidth 64 := by
  have hmask : (x.toNat % 2 ^ 64) &&& (2 ^ 16 - 1) = x.toNat % 2 ^ 64 % 2 ^ 16 :=
    Nat.and_two_pow_sub_one_eq_mod _ _
  apply BitVec.eq_of_toNat_eq
  simp only [BitVec.toNat_and, BitVec.toNat_setWidth]
  change (x.toNat % 2 ^ 64) &&& (2 ^ 16 - 1) = _
  rw [hmask]
  omega

theorem low48_append (high low : Word) :
    (high.setWidth 16).setWidth 32 ++ low = ((high ++ low).setWidth 48).setWidth 64 := by
  ext i hi
  simp only [BitVec.getElem_append, BitVec.getElem_setWidth, BitVec.getLsbD_setWidth,
    BitVec.getLsbD_append]
  grind

theorem take_run (w : Width) (d : Dev) :
    w.take.run perform d = (w.ofWide (d.rdH ++ d.rdL), d) := by
  cases w with
  | w8 => exact congrArg (·, d) (low_words _ _ (by decide)).symm
  | w16 => exact congrArg (·, d) (low_words _ _ (by decide)).symm
  | w32 => exact congrArg (·, d) (Srab.Dev.low_append d.rdH d.rdL).symm
  | w48 =>
      refine congrArg (·, d) ?_
      change _ + ((d.rdH.setWidth 64 &&& 0xffff) <<< 32) = _
      rw [mask16, wide_eq]
      exact low48_append _ _
  | w64 =>
      refine congrArg (·, d) ?_
      change _ + ((d.rdH.setWidth 64 &&& BitVec.allOnes 64) <<< 32) = _
      rw [BitVec.and_allOnes]
      exact wide_eq _ _

theorem value_words (value : BitVec 64) :
    (value >>> 32).setWidth 32 ++ value.setWidth 32 = value := by
  ext i hi
  simp only [BitVec.getElem_append, BitVec.getElem_setWidth, BitVec.getLsbD_ushiftRight]
  grind

/-- The data registers after `put`: a narrow value leaves WD_H. -/
theorem put_run (w : Width) (value : w.Val) (d : Dev) :
    ∃ wdH wdL, (w.put value).run perform d = ((), { d with wdH := wdH, wdL := wdL }) ∧
      (wdH ++ wdL).setWidth w.bits = (w.toWide value).setWidth w.bits := by
  cases w with
  | w8 =>
      refine ⟨d.wdH, value.setWidth 32, rfl, ?_⟩
      rw [Width.bits, low_words _ _ (by decide)]
      simp [Width.toWide]
  | w16 =>
      refine ⟨d.wdH, value.setWidth 32, rfl, ?_⟩
      rw [Width.bits, low_words _ _ (by decide)]
      simp [Width.toWide]
  | w32 =>
      refine ⟨d.wdH, value, rfl, ?_⟩
      rw [Width.bits, low_words _ _ (by decide)]
      simp [Width.toWide]
  | w48 =>
      have hhigh : ((value >>> 32).setWidth 32).setWidth 16 = (value >>> 32).setWidth 16 :=
        BitVec.setWidth_setWidth_of_le _ (by decide)
      refine ⟨((value >>> 32).setWidth 16).setWidth 32, value.setWidth 32, rfl, ?_⟩
      rw [← hhigh, low48_append, value_words]
      exact BitVec.setWidth_setWidth_of_le _ (by decide)
  | w64 =>
      refine ⟨(value >>> 32).setWidth 32, value.setWidth 32, rfl, ?_⟩
      rw [value_words]
      rfl

/-- A call gives the bus back. -/
structure Returned (d e : Dev) : Prop where
  released : e.ctrls.getLsbD 3 = false
  turn : e.turn = d.turn + 1
  fates : e.fates = d.fates

/-- What RD_H and RD_L hold after a read command of the next call. -/
def data (d : Dev) (page reg : Byte) : BitVec 64 :=
  if d.nextFate.firstGrant.isSome && d.nextFate.completes then
    d.switch.shown d.nextFate.noise page reg
  else d.nextFate.noise

theorem command_read (d : Dev) (page reg : Byte) :
    ∃ rdH rdL, d.command (cmdstatOf page reg 0) = { d with polled := 0, rdH := rdH, rdL := rdL } ∧
      rdH ++ rdL = if d.granted && d.fate.completes then d.switch.shown d.fate.noise page reg
        else d.fate.noise := by
  let data := if d.granted && d.fate.completes then d.switch.shown d.fate.noise page reg
    else d.fate.noise
  have hop : (cmdstatOf page reg 0).getLsbD 1 = false := Srab.Dev.cmdstatOf_op page reg 0
  refine ⟨data.extractLsb' 32 32, data.setWidth 32, ?_, ?_⟩
  · unfold command
    dsimp only
    rw [hop, if_neg Bool.false_ne_true, Srab.Dev.cmdstatOf_page _ _ _ (.inl rfl),
      Srab.Dev.cmdstatOf_reg _ _ _ (.inl rfl)]
  · ext i hi
    simp only [BitVec.getElem_append, BitVec.getElem_setWidth]
    grind

theorem command_write (d : Dev) (page reg : Byte) :
    d.command (cmdstatOf page reg B53_SRAB_CMDSTAT_WRITE) =
      { d with
        polled := 0
        switch := if (d.granted && d.fate.completes) || d.fate.lands then
          d.switch.set page reg (d.wdH ++ d.wdL) else d.switch } := by
  have hop : (cmdstatOf page reg B53_SRAB_CMDSTAT_WRITE).getLsbD 1 = true :=
    Srab.Dev.cmdstatOf_op page reg _
  unfold command
  dsimp only
  rw [if_pos hop, Srab.Dev.cmdstatOf_page _ _ _ (.inr rfl),
    Srab.Dev.cmdstatOf_reg _ _ _ (.inr rfl)]
  split <;> rfl

/-- A call gives the bus back, whatever it did with the grant it asked for. -/
theorem call_run {α : Type} {access : Int → B53Prog α} {a : α} {d r : Dev} {ctrls : Word}
    (hrequest : b53SrabRequestGrant.run perform d =
      (if d.nextFate.goesOn then 0 else - EIO, d.requested ctrls))
    (haccess : (access (if d.nextFate.goesOn then 0 else - EIO)).run perform
      (d.requested ctrls) = (a, r)) (hkept : Commanded (d.requested ctrls) r) :
    ∃ e, Returned d e ∧ e.switch = r.switch ∧
      (b53SrabRequestGrant >>= fun ret => access ret >>= fun r =>
        b53SrabReleaseGrant >>= fun _ => pure r).run perform d = (a, e) := by
  obtain ⟨ctrls', asked, hclear, hrelease⟩ := b53SrabReleaseGrant_run r
  refine ⟨{ r with ctrls := ctrls', asked := asked }, ⟨hclear, hkept.turn, hkept.fates⟩, rfl, ?_⟩
  rw [Prog.run_bind_of_eq _ hrequest, Prog.run_bind_of_eq _ haccess,
    Prog.run_bind_of_eq _ hrelease]
  rfl

theorem readGranted_run {α : Type} {take : B53Prog α} {val : BitVec 64 → α}
    (htake : ∀ e, take.run perform e = (val (e.rdH ++ e.rdL), e)) (page reg : Byte) (d : Dev)
    (ctrls : Word) :
    ∃ r, Commanded (d.requested ctrls) r ∧ r.switch = d.switch ∧
      (readGranted take page reg (if d.nextFate.goesOn then 0 else - EIO)).run perform
        (d.requested ctrls) =
        (if d.nextFate.goesOn && d.nextFate.completes then (0, some (val (d.data page reg)))
          else (- EIO, none), r) := by
  let r := d.requested ctrls
  cases hgo : d.nextFate.goesOn with
  | false => exact ⟨r, ⟨rfl, rfl, rfl, rfl⟩, rfl, rfl⟩
  | true =>
      obtain ⟨polled, hop⟩ := b53SrabOp_run r page reg 0
      obtain ⟨rdH, rdL, hcommand, hdata⟩ := command_read r page reg
      rw [requested_granted] at hdata
      rw [hcommand] at hop
      have hfate : r.fate = d.nextFate := rfl
      rw [hfate] at hop hdata
      let r' : Dev := { r with rdH := rdH, rdL := rdL, polled := polled }
      refine ⟨r', ⟨rfl, rfl, rfl, rfl⟩, rfl, ?_⟩
      change (b53SrabOp page reg 0 >>= fun ret =>
        if ret ≠ 0 then pure (ret, none) else take >>= fun val => pure (ret, some val)).run
          perform r = _
      rw [Prog.run_bind_of_eq _ hop]
      cases hdone : d.nextFate.completes with
      | false => rfl
      | true =>
          have hval : val (d.data page reg) = val (r'.rdH ++ r'.rdL) := congrArg val hdata.symm
          change (take >>= fun val => pure (0, some val)).run perform r' = _
          rw [Prog.run_bind_of_eq _ (htake r'), hval]
          rfl

theorem b53SrabRead_run {α : Type} {take : B53Prog α} {val : BitVec 64 → α}
    (htake : ∀ e, take.run perform e = (val (e.rdH ++ e.rdL), e)) (page reg : Byte) (d : Dev) :
    ∃ e, Returned d e ∧ e.switch = d.switch ∧ (b53SrabRead take page reg).run perform d =
      (if d.nextFate.goesOn && d.nextFate.completes then (0, some (val (d.data page reg)))
        else (- EIO, none), e) := by
  obtain ⟨ctrls, hrequest⟩ := b53SrabRequestGrant_run d
  obtain ⟨r, hkept, hswitch, haccess⟩ := readGranted_run htake page reg d ctrls
  obtain ⟨e, he, hsame, hrun⟩ := call_run hrequest haccess hkept
  exact ⟨e, he, hsame.trans hswitch, hrun⟩

/-- What of `data` a write of `w` bits brings to the register. -/
def stored (d : Dev) (page reg : Byte) (data : BitVec 64) : Switch :=
  if d.nextFate.goesOn && ((d.nextFate.firstGrant.isSome && d.nextFate.completes) ||
      d.nextFate.lands) then d.switch.set page reg data
  else d.switch

theorem writeGranted_run (w : Width) (value : w.Val) (page reg : Byte) (d : Dev) (ctrls : Word) :
    ∃ r data, Commanded (d.requested ctrls) r ∧
      data.setWidth w.bits = (w.toWide value).setWidth w.bits ∧
      r.switch = d.stored page reg data ∧
      (writeGranted (w.put value) page reg (if d.nextFate.goesOn then 0 else - EIO)).run perform
        (d.requested ctrls) =
        (if d.nextFate.goesOn && d.nextFate.completes then 0 else - EIO, r) := by
  let r := d.requested ctrls
  obtain ⟨wdH, wdL, hput, hdata⟩ := put_run w value r
  unfold stored
  cases hgo : d.nextFate.goesOn with
  | false => exact ⟨r, w.toWide value, ⟨rfl, rfl, rfl, rfl⟩, rfl, rfl, rfl⟩
  | true =>
      let loaded : Dev := { r with wdH := wdH, wdL := wdL }
      obtain ⟨polled, hop⟩ := b53SrabOp_run loaded page reg B53_SRAB_CMDSTAT_WRITE
      rw [command_write] at hop
      have hgranted : loaded.granted = d.nextFate.firstGrant.isSome := requested_granted d ctrls
      have hfate : loaded.fate = d.nextFate := rfl
      rw [hgranted, hfate] at hop
      let switch : Switch :=
        if (d.nextFate.firstGrant.isSome && d.nextFate.completes) || d.nextFate.lands then
          d.switch.set page reg (wdH ++ wdL)
        else d.switch
      refine ⟨{ loaded with switch := switch, polled := polled }, wdH ++ wdL,
        ⟨rfl, rfl, rfl, rfl⟩, hdata, rfl, ?_⟩
      change (w.put value >>= fun _ =>
        b53SrabOp page reg B53_SRAB_CMDSTAT_WRITE).run perform r = _
      rw [Prog.run_bind_of_eq _ hput]
      exact hop

theorem b53SrabWrite_run (w : Width) (value : w.Val) (page reg : Byte) (d : Dev) :
    ∃ e data, Returned d e ∧ data.setWidth w.bits = (w.toWide value).setWidth w.bits ∧
      e.switch = d.stored page reg data ∧
      (b53SrabWrite (w.put value) page reg).run perform d =
        (if d.nextFate.goesOn && d.nextFate.completes then 0 else - EIO, e) := by
  obtain ⟨ctrls, hrequest⟩ := b53SrabRequestGrant_run d
  obtain ⟨r, data, hkept, hdata, hswitch, haccess⟩ := writeGranted_run w value page reg d ctrls
  obtain ⟨e, he, hsame, hrun⟩ := call_run hrequest haccess hkept
  exact ⟨e, data, he, hdata, hsame.trans hswitch, hrun⟩

theorem body_read (w : Width) (page reg : Byte) :
    (B53Call.read w page reg).body = b53SrabRead w.take page reg := by
  cases w <;> rfl

theorem body_write (w : Width) (page reg : Byte) (value : w.Val) :
    (B53Call.write w page reg value).body = b53SrabWrite (w.put value) page reg := by
  cases w <;> rfl

theorem read_call (d : Dev) (w : Width) (page reg : Byte) :
    ∃ e, Returned d e ∧ e.switch = d.switch ∧ d.call (.read w page reg) =
      (if d.nextFate.goesOn && d.nextFate.completes then (0, some (w.ofWide (d.data page reg)))
        else (- EIO, none), e) := by
  rw [call, body_read]
  exact b53SrabRead_run (take_run w) page reg d

theorem write_call (d : Dev) (w : Width) (page reg : Byte) (value : w.Val) :
    ∃ e data, Returned d e ∧ data.setWidth w.bits = (w.toWide value).setWidth w.bits ∧
      e.switch = d.stored page reg data ∧ d.call (.write w page reg value) =
        (if d.nextFate.goesOn && d.nextFate.completes then 0 else - EIO, e) := by
  rw [call, body_write]
  exact b53SrabWrite_run w value page reg d

theorem eio_ne : (- EIO : Int) ≠ 0 := by decide

theorem call_returned (d : Dev) (o : B53Call) :
    Returned d (d.next o) ∧
      (o.ret (d.call o).1 = 0 ↔ (d.nextFate.goesOn && d.nextFate.completes) = true) := by
  cases o with
  | read w page reg =>
      obtain ⟨e, he, -, hcall⟩ := read_call d w page reg
      rw [next, hcall]
      refine ⟨he, ?_⟩
      cases d.nextFate.goesOn && d.nextFate.completes with
      | true => exact iff_of_true rfl rfl
      | false => exact iff_of_false eio_ne Bool.false_ne_true
  | write w page reg value =>
      obtain ⟨e, data, he, -, -, hcall⟩ := write_call d w page reg value
      rw [next, hcall]
      refine ⟨he, ?_⟩
      cases d.nextFate.goesOn && d.nextFate.completes with
      | true => exact iff_of_true rfl rfl
      | false => exact iff_of_false eio_ne Bool.false_ne_true

end Dev

end R8000Plus.Srab.B53
