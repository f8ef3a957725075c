import R8000Plus.Effects.LastSet
import R8000Plus.Srab.MainlineCalls

/-!
Runs of `b53_srab.c` calls: when the bus is only used by the one who has it and
the caller is told the truth, and what is read back of what was written.
-/

namespace R8000Plus.Srab.B53

open Effects

/-! ### The bus discipline -/

/-- Only CTRLS is for those who have not been granted the bus. -/
def Access.OnCtrls : Access → Prop
  | .readl reg => reg = .ctrls
  | .writel _ reg => reg = .ctrls

def Dev.Alone (d : Dev) (o : Access) : Prop := ¬o.OnCtrls → d.granted

structure Dev.Sound (d : Dev) (o : B53Call) : Prop where
  alone : o.body.Asks Dev.perform Dev.Alone d
  /-- The caller is told whether the register was reached. -/
  told : o.ret (d.call o).1 = 0 ↔ d.nextFate.firstGrant.isSome ∧ d.nextFate.completes
  released : (d.next o).ctrls.getLsbD 3 = false

/-- The grant is seen, and not by the poll whose number is taken for the end of
the loop unless the command would have failed. -/
def Fate.OnTime (f : Fate) : Prop :=
  ∃ k, f.firstGrant = some k ∧ (k = 5 → f.completes = false)

theorem Fate.onTime_iff (f : Fate) :
    f.OnTime ↔ f.firstGrant.isSome ∧
      ((f.goesOn && f.completes) = true ↔ f.firstGrant.isSome ∧ f.completes) := by
  unfold Fate.OnTime Fate.goesOn
  cases hfirst : f.firstGrant with
  | none => simp
  | some k =>
      by_cases hk : k = 5
      · simp [hk]
      · simp [hk]

namespace Dev

/-! ### Who touches what -/

theorem pollReg_uses {ok : Access → Prop} {reg : B53Reg} (hok : ok (.readl reg))
    (stop : Word → Bool) (i steps : Nat) : (pollReg reg stop i steps).Uses ok := by
  induction steps generalizing i with
  | zero => trivial
  | succ steps ih =>
      refine ⟨hok, fun word => ?_⟩
      change Prog.Uses ok (if stop word then pure i else pollReg reg stop (i + 1) steps)
      split
      · trivial
      · exact ih (i + 1)

theorem request_onCtrls : b53SrabRequestGrant.Uses Access.OnCtrls := by
  have hctrls : Access.OnCtrls (.readl .ctrls) := rfl
  refine ⟨rfl, fun ctrls => ⟨rfl, fun _ => ?_⟩⟩
  apply Prog.Uses.bind (pollReg_uses hctrls _ 0 20)
  intro i
  split <;> trivial

theorem release_onCtrls : b53SrabReleaseGrant.Uses Access.OnCtrls :=
  ⟨rfl, fun _ => ⟨rfl, fun _ => trivial⟩⟩

theorem op_offCtrls (page reg : Byte) (op : Word) :
    (b53SrabOp page reg op).Uses (¬Access.OnCtrls ·) := by
  refine ⟨B53Reg.noConfusion, fun _ => ?_⟩
  apply Prog.Uses.bind (pollReg_uses B53Reg.noConfusion _ 0 5)
  intro i
  split <;> trivial

theorem take_offCtrls (w : Width) : w.take.Uses (¬Access.OnCtrls ·) := by
  cases w <;> simp [Width.take, takeWide, B53.readl, Access.OnCtrls, Prog.request]

theorem put_offCtrls (w : Width) (value : w.Val) : (w.put value).Uses (¬Access.OnCtrls ·) := by
  cases w <;> simp [Width.put, B53.writel, Access.OnCtrls, Prog.request]

theorem alone_onCtrls {α : Type} {p : B53Prog α} (hp : p.Uses Access.OnCtrls) (d : Dev) :
    p.Asks perform Alone d := by
  have hok : ∀ (s : Dev) (o : Access), True → o.OnCtrls → Alone s o ∧ True :=
    fun s o _ ho => ⟨fun hoff => absurd ho hoff, trivial⟩
  exact hp.asks perform hok trivial

/-- Nothing but CTRLS moves the grant. -/
theorem offCtrls_granted (d : Dev) {o : Access} (ho : ¬o.OnCtrls) :
    (perform o d).2.granted = d.granted := by
  cases o with
  | readl reg => cases reg <;> first | rfl | exact absurd rfl ho
  | writel val reg =>
      cases reg with
      | cmdstat =>
          obtain ⟨-, hkept⟩ := d.command_commanded val
          change (d.command val).granted = d.granted
          rw [granted, hkept.asked, hkept.fate, granted]
      | ctrls => exact absurd rfl ho
      | _ => rfl

theorem alone_offCtrls {α : Type} {p : B53Prog α} (hp : p.Uses (¬Access.OnCtrls ·)) {d : Dev}
    (hgranted : d.granted = true) : p.Asks perform Alone d := by
  have hok : ∀ (s : Dev) (o : Access), s.granted = true → ¬o.OnCtrls →
      Alone s o ∧ (perform o s).2.granted = true :=
    fun s o hs ho => ⟨fun _ => hs, (s.offCtrls_granted ho).trans hs⟩
  exact hp.asks perform hok hgranted

/-- What a call does between the request and the release. -/
structure Between {α : Type} (access : Int → B53Prog α) : Prop where
  refused : (access (- EIO)).Uses fun _ => False
  accepted : (access 0).Uses (¬Access.OnCtrls ·)
  first : ∃ o next, access 0 = .ask o next

theorem call_alone {α : Type} {access : Int → B53Prog α} (h : Between access) (d : Dev) :
    (b53SrabRequestGrant >>= fun ret => access ret >>= fun r =>
      b53SrabReleaseGrant >>= fun _ => pure r).Asks perform Alone d ↔
      d.nextFate.firstGrant.isSome := by
  obtain ⟨ctrls, hrequest⟩ := b53SrabRequestGrant_run d
  have hleave : ∀ a (e : Dev),
      (b53SrabReleaseGrant >>= fun _ => (pure a : B53Prog α)).Asks perform Alone e :=
    fun a e => alone_onCtrls (release_onCtrls.bind (f := fun _ => pure a) fun _ => trivial) e
  rw [Prog.asks_bind, Prog.asks_bind, hrequest, and_iff_right (alone_onCtrls request_onCtrls d),
    and_iff_left (hleave _ _)]
  have hgranted := requested_granted d ctrls
  unfold Fate.goesOn
  cases hfirst : d.nextFate.firstGrant with
  | some k =>
      rw [hfirst] at hgranted
      refine iff_of_true ?_ rfl
      by_cases hk : k = 5
      · have hno : ∀ (s : Dev) (o : Access), True → False → Alone s o ∧ True :=
          fun s o _ ho => ho.elim
        rw [if_neg (by simp [hk])]
        exact h.refused.asks perform hno trivial
      · rw [if_pos (by simp [hk])]
        exact alone_offCtrls h.accepted hgranted
  | none =>
      rw [hfirst] at hgranted
      refine iff_of_false ?_ Bool.false_ne_true
      obtain ⟨o, next, hfirst⟩ := h.first
      have hoff := h.accepted
      rw [hfirst] at hoff
      rw [if_pos (by simp), hfirst]
      rintro ⟨hasked, -⟩
      exact absurd ((hasked hoff.1).symm.trans hgranted) Bool.noConfusion

theorem between_read (w : Width) (page reg : Byte) : Between (readGranted w.take page reg) where
  refused := trivial
  accepted := by
    refine (op_offCtrls page reg 0).bind fun ret => ?_
    split
    · trivial
    · exact (take_offCtrls w).bind fun _ => trivial
  first := ⟨_, _, rfl⟩

theorem between_write (w : Width) (value : w.Val) (page reg : Byte) :
    Between (writeGranted (w.put value) page reg) where
  refused := trivial
  accepted := (put_offCtrls w value).bind fun _ => op_offCtrls page reg B53_SRAB_CMDSTAT_WRITE
  first := by cases w <;> exact ⟨_, _, rfl⟩

theorem alone_iff (d : Dev) (o : B53Call) :
    o.body.Asks perform Alone d ↔ d.nextFate.firstGrant.isSome := by
  cases o with
  | read w page reg =>
      rw [body_read]
      exact call_alone (between_read w page reg) d
  | write w page reg value =>
      rw [body_write]
      exact call_alone (between_write w value page reg) d

theorem sound_iff (d : Dev) (o : B53Call) : Sound d o ↔ d.nextFate.OnTime := by
  obtain ⟨hreturned, hret⟩ := call_returned d o
  rw [Fate.onTime_iff, ← alone_iff d o, ← hret, alone_iff]
  constructor
  · intro h
    exact ⟨(alone_iff d o).mp h.alone, h.told⟩
  · rintro ⟨halone, htold⟩
    exact ⟨(alone_iff d o).mpr halone, htold, hreturned.released⟩

/-- The fates of a run's calls are the next ones in turn. -/
theorem everyStep_nextFate (P : Fate → Prop) (d : Dev) (calls : List B53Call) :
    EveryStep next (fun d _ => P d.nextFate) d calls ↔
      ∀ k < calls.length, P (d.fates (d.turn + 1 + k)) := by
  induction calls generalizing d with
  | nil => simp
  | cons o calls ih =>
      obtain ⟨hreturned, -⟩ := call_returned d o
      rw [everyStep_cons, ih, hreturned.turn, hreturned.fates, List.length_cons]
      constructor
      · rintro ⟨hfirst, hrest⟩ k hk
        cases k with
        | zero => exact hfirst
        | succ k =>
            have h := hrest k (by omega)
            rwa [show d.turn + 1 + (k + 1) = d.turn + 1 + 1 + k by omega]
      · intro h
        refine ⟨h 0 (Nat.succ_pos _), fun k hk => ?_⟩
        have hnext := h (k + 1) (by omega)
        rwa [show d.turn + 1 + 1 + k = d.turn + 1 + (k + 1) by omega]

/-- In a run, every call keeps off the switch until it has the bus, tells its
caller whether the register was reached and gives the bus back, if and only if
each grant comes on time. -/
theorem sound_run_iff (d : Dev) (calls : List B53Call) :
    EveryStep next Sound d calls ↔ ∀ k < calls.length, (d.fates (d.turn + 1 + k)).OnTime := by
  have hiff : ∀ (d : Dev) (o : B53Call), True → (Sound d o ↔ d.nextFate.OnTime) :=
    fun d o _ => sound_iff d o
  rw [everyStep_congr hiff (fun _ _ _ _ => trivial) trivial]
  exact everyStep_nextFate Fate.OnTime d calls

/-! ### Reading back -/

/-- What is read back of a value written. -/
def written (page reg : Byte) : B53Call → Option (BitVec 64)
  | .read _ _ _ => none
  | .write w p r value =>
      if page = p ∧ reg = r then some (((w.toWide value).setWidth w.bits).setWidth 64) else none

/-- A call at its register's own width that is granted the bus and completes. -/
structure Served (d : Dev) (o : B53Call) : Prop where
  granted : d.nextFate.firstGrant.isSome
  goesOn : d.nextFate.goesOn
  completes : d.nextFate.completes
  fits : d.switch.width o.page o.reg = o.width.bits

theorem ofWide_noise (w : Width) (x noise : BitVec 64) :
    w.ofWide (x ||| ((noise >>> w.bits) <<< w.bits)) = w.ofWide x := by
  have hlow : (x ||| ((noise >>> w.bits) <<< w.bits)).setWidth w.bits = x.setWidth w.bits := by
    ext i hi
    simp [BitVec.getLsbD_shiftLeft, hi]
  cases w with
  | w48 => exact congrArg (BitVec.setWidth 64) hlow
  | w64 => exact (BitVec.setWidth_eq _).symm.trans (hlow.trans (BitVec.setWidth_eq _))
  | _ => exact hlow

theorem ofWide_shown {w : Width} {s : Switch} {page reg : Byte}
    (hfits : s.width page reg = w.bits) (noise : BitVec 64) :
    w.ofWide (s.shown noise page reg) = w.ofWide ((s.regs page reg).setWidth 64) := by
  unfold Switch.shown
  generalize (s.regs page reg).setWidth 64 = x
  rw [hfits, ofWide_noise]

theorem served_observe {page reg : Byte} {d : Dev} {o : B53Call} (h : Served d o) :
    ((d.next o).switch.regs page reg).setWidth 64 =
      (written page reg o).getD ((d.switch.regs page reg).setWidth 64) := by
  cases o with
  | read w p r =>
      obtain ⟨e, -, hswitch, hcall⟩ := read_call d w p r
      rw [next, hcall, hswitch]
      rfl
  | write w p r value =>
      obtain ⟨e, data, -, hdata, hswitch, hcall⟩ := write_call d w p r value
      have hfits : d.switch.width p r = w.bits := h.fits
      have hstored : d.stored p r data = d.switch.set p r data := by
        rw [stored, h.goesOn, h.granted, h.completes]
        rfl
      rw [next, hcall, hswitch, hstored, written]
      by_cases hhere : page = p ∧ reg = r
      · obtain ⟨rfl, rfl⟩ := hhere
        have hset : (d.switch.set page reg data).regs page reg =
            data.setWidth (d.switch.width page reg) := if_pos ⟨rfl, rfl⟩
        rw [hset, if_pos ⟨rfl, rfl⟩]
        change (data.setWidth (d.switch.width page reg)).setWidth 64 =
          ((w.toWide value).setWidth w.bits).setWidth 64
        rw [hfits, hdata]
      · have hset : (d.switch.set p r data).regs page reg = d.switch.regs page reg :=
          if_neg hhere
        rw [hset, if_neg hhere]
        rfl

/-- In a run of calls that are all served, a register reads as what was last
written to it, at each of the five widths. -/
theorem read_back {d : Dev} {calls : List B53Call} {w : Width} {page reg : Byte}
    (h : EveryStep next Served d (calls ++ [.read w page reg])) :
    ((calls.foldl next d).call (.read w page reg)).1 =
      (0, some (w.ofWide ((lastSet (written page reg) calls).getD
        ((d.switch.regs page reg).setWidth 64)))) := by
  obtain ⟨hcalls, hread, -⟩ := (everyStep_append _ _ _ _).mp h
  let shows : Dev → BitVec 64 := fun d => (d.switch.regs page reg).setWidth 64
  have hstep : ∀ d o, Served d o → shows (d.next o) = (written page reg o).getD (shows d) :=
    fun d o ho => served_observe ho
  have hobserve : ((calls.foldl next d).switch.regs page reg).setWidth 64 = _ :=
    hcalls.observe hstep
  obtain ⟨e, -, -, hcall⟩ := read_call (calls.foldl next d) w page reg
  rw [hcall, hread.goesOn, hread.completes, data, hread.granted, hread.completes, ← hobserve]
  have hfits : (calls.foldl next d).switch.width page reg = w.bits := hread.fits
  change (0, some (w.ofWide (Switch.shown _ _ page reg))) = _
  rw [ofWide_shown hfits]

end Dev

/-- Granted at the second poll and completed at the third, with all else set. -/
def Fate.brisk : Fate where
  ctrls k := if k = 0 then 0xffffffef else 0xffffffff
  cmdstat k := if k = 2 then 0xfffffffe else 0xffffffff
  lands := false
  noise := BitVec.allOnes 64

/-- Page 5 has 48-bit registers, the others have 16-bit ones. -/
def Dev.brisk : Dev where
  ctrls := 0
  wdH := 0xffffffff
  wdL := 0
  rdH := 0
  rdL := 0
  switch := { width := fun page _ => if page = 5 then 48 else 16, regs := fun _ _ => 0 }
  turn := 0
  asked := 0
  polled := 0
  fates := fun _ => Fate.brisk

namespace Dev

instance (d : Dev) (o : B53Call) : Decidable (Served d o) :=
  decidable_of_iff (d.nextFate.firstGrant.isSome ∧ d.nextFate.goesOn ∧ d.nextFate.completes ∧
    d.switch.width o.page o.reg = o.width.bits)
    ⟨fun ⟨hgranted, hgo, hdone, hfits⟩ => ⟨hgranted, hgo, hdone, hfits⟩,
      fun h => ⟨h.granted, h.goesOn, h.completes, h.fits⟩⟩

def macThenHalf : List B53Call :=
  [.write .w48 5 0 0x0000abcd12345678, .write .w16 0 0 0x4321]

theorem read_back_mac :
    ((macThenHalf.foldl next brisk).call (.read .w48 5 0)).1 =
      (0, some (Width.w48.ofWide ((lastSet (written 5 0) macThenHalf).getD
        ((brisk.switch.regs 5 0).setWidth 64)))) :=
  read_back (by decide +kernel)

end Dev

end R8000Plus.Srab.B53
