import R8000Plus.Fa.Napt
import R8000Plus.Fa.Performs
import R8000Plus.Vendor.Forwarding

/-!
Which packets the chip takes over for `fa_accel.c`, and how they leave. On
hardware that performs every access, and as long as every new flow row reads
back as written, the driver and its two tables are a table of rules by slot; a
packet finds its rule only among the rows the chip searches for it.
-/

namespace R8000Plus.Fa

open Effects
open Vendor (FlowId Sent hits nhMacs npRows ownedWord nfFields_owned nfFields_congr
  initCrcccittTab CTF_MAX_BUCKET_INDEX)

/-! ### The chip -/

section Chip

-- `searched` is the rows the chip searches for a packet, in its order
variable (searched : FlowId → List Nat) (v : Tables) (k : FlowId)

def sentBy (idx : Nat) : Sent where
  dst := nhMacs v ((nfFields (v (nfRowAt idx))).nhIdx.setWidth 8)
  src := (npRows v ((nfFields (v (nfRowAt idx))).poolIdx.setWidth 8)).mac
  headers := naptRewrite (v (nfRowAt idx)) k.headers

/-- How a packet leaves, `none` for the CPU port. -/
def deliver : Option Sent :=
  ((searched k).find? fun idx => hits (nfFields (v (nfRowAt idx))) k).map (sentBy v k)

/-- The lookup the vendor's driver places its rows for. -/
theorem forward_eq_deliver :
    Vendor.forward v k = deliver (FlowId.rows initCrcccittTab) v k := rfl

theorem deliver_eq_findSome :
    deliver searched v k = (searched k).findSome? fun idx =>
      if hits (nfFields (v (nfRowAt idx))) k then some (sentBy v k idx) else none := by
  rw [deliver]
  induction searched k with
  | nil => rfl
  | cons idx rest ih =>
      rw [List.find?_cons, List.findSome?_cons]
      cases hits (nfFields (v (nfRowAt idx))) k with
      | false => exact ih
      | true => rfl

end Chip

/-! ### The table of rules -/

structure Installed where
  cookie : Cookie
  rule : Decoded

abbrev RuleTable := Slot → Option Installed

/-- The packets of a rule: TCP, with the addresses and ports it matches on. -/
def Decoded.covers (d : Decoded) (k : FlowId) : Bool :=
  decide (k.headers = ⟨d.srcIp, d.dstIp, d.srcPort, d.dstPort⟩) && k.proto == 6

/-- They leave for the rule's MAC with one address rewritten. -/
def Decoded.send (d : Decoded) (src : Mac) (k : FlowId) : Sent where
  dst := d.dstMac
  src := src
  headers :=
    if d.isSnat then { k.headers with saddr := d.natIp } else { k.headers with daddr := d.natIp }

namespace RuleTable

def empty : RuleTable := fun _ => none

def firstEmpty (t : RuleTable) : Option Slot :=
  (List.finRange FA_MAX_LIVE_FLOWS).find? fun i => (t i).isNone

def slotOf (cookie : Cookie) (t : RuleTable) : Option Slot :=
  (List.finRange FA_MAX_LIVE_FLOWS).find? fun i => (t i).any fun e => e.cookie == cookie

def step (t : RuleTable) (cls : FlowClsOffload) : RuleTable :=
  match cls.command with
  | .replace =>
      if (faDecodeRule cls.rule).refused then t
      else
        match t.firstEmpty with
        | some i => Function.update t i (some ⟨cls.cookie, faDecodeRule cls.rule⟩)
        | none => t
  | .destroy =>
      match t.slotOf cls.cookie with
      | some i => Function.update t i none
      | none => t
  | _ => t

/-- The entry whose rows have the index. -/
def atRow (t : RuleTable) (idx : Nat) : Option Installed :=
  ((List.finRange FA_MAX_LIVE_FLOWS).find? fun i : Slot => decide (i.idx = idx)).bind t

def deliver (searched : FlowId → List Nat) (src : Mac) (t : RuleTable) (k : FlowId) :
    Option Sent :=
  (searched k).findSome? fun idx => (t.atRow idx).bind fun e =>
    if e.rule.covers k then some (e.rule.send src k) else none

theorem atRow_idx (t : RuleTable) (i : Slot) : t.atRow i.idx = t i := by
  have hfind : ((List.finRange FA_MAX_LIVE_FLOWS).find? fun j : Slot => decide (j.idx = i.idx)) =
      some i := by
    cases hfound : (List.finRange FA_MAX_LIVE_FLOWS).find? fun j : Slot => decide (j.idx = i.idx)
      with
    | none =>
        have hno := List.find?_eq_none.mp hfound i (List.mem_finRange i)
        exact absurd (decide_eq_true rfl) hno
    | some j =>
        have hidx : j.idx = i.idx := by simpa using List.find?_some hfound
        rw [Slot.idx_injective hidx]
  rw [atRow, hfind, Option.bind_some]

theorem atRow_eq_some {t : RuleTable} {idx : Nat} {e : Installed} (h : t.atRow idx = some e) :
    ∃ i : Slot, i.idx = idx ∧ t i = some e := by
  obtain ⟨i, hfound, hentry⟩ := Option.bind_eq_some_iff.mp h
  exact ⟨i, by simpa using List.find?_some hfound, hentry⟩

end RuleTable

/-! ### The driver holds the table -/

theorem SameRow.eq_of_table {addr : RowAddr} {row row' : Nat → Word} (h : SameRow addr row row')
    (htable : addr.table ≠ 0) : row' = row := by
  funext j
  have hj := h j
  rwa [driverBits, if_pos htable, BitVec.and_allOnes, BitVec.and_allOnes] at hj

theorem nfValid_of_sameRow {idx : Nat} {row row' : Nat → Word}
    (h : SameRow (nfRowAt idx) row row') : nfValid row' = nfValid row := by
  have hword := h 6
  rw [Accel.driverBits_nf idx (by decide), BitVec.and_allOnes, BitVec.and_allOnes] at hword
  exact nfValid_congr hword

theorem proto_of_accepted {rule : FlowRule} (h : (faDecodeRule rule).refused = false) :
    (faDecodeRule rule).proto = 6 := by
  simp only [Decoded.refused, Bool.or_eq_false_iff, bne_eq_false_iff_eq] at h
  exact h.1.2

theorem ownedWord_nf (idx j : Nat) (w : Word) :
    ownedWord (nfRowAt idx) j w = w &&& driverBits (nfRowAt idx) j := by
  have htable : ¬ (nfRowAt idx).table ≠ 0 := fun h => h rfl
  rw [ownedWord, driverBits, if_neg htable, if_neg htable]
  split
  · exact BitVec.and_zero.symm
  · split
    · rfl
    · exact BitVec.and_allOnes.symm

namespace Accel

/-- The hardware has the rule in the flow row ... -/
theorem Intact.fields {w : Accel} {cookie : Cookie} {d : Decoded} {i : Slot}
    (h : w.Intact cookie d i) :
    nfFields (w.dev.rows (nfRowAt i.idx)) = (d.nfArgs i).fields := by
  have hrow := h.nf
  rw [h.slot, Slots.taken_nfIdx, Slots.taken_nhIdx, Slot.word_toNat] at hrow
  have howned : ∀ j < NF_ROW_WORDS,
      ownedWord (nfRowAt i.idx) j (w.dev.rows (nfRowAt i.idx) j) =
        ownedWord (nfRowAt i.idx) j (ofWords (d.nfArgs i).row j) := by
    intro j hj
    rw [ownedWord_nf, ownedWord_nf]
    exact hrow j hj
  calc nfFields (w.dev.rows (nfRowAt i.idx))
      = nfFields (fun j => ownedWord (nfRowAt i.idx) j (w.dev.rows (nfRowAt i.idx) j)) :=
        (nfFields_owned _ _).symm
    _ = nfFields (fun j => ownedWord (nfRowAt i.idx) j (ofWords (d.nfArgs i).row j)) :=
        nfFields_congr howned
    _ = nfFields (ofWords (d.nfArgs i).row) := nfFields_owned _ _
    _ = (d.nfArgs i).fields := NfArgs.nfFields_row _

/-- ... and its MAC in the next-hop row that the flow row names. -/
theorem Intact.mac {w : Accel} {cookie : Cookie} {d : Decoded} {i : Slot}
    (h : w.Intact cookie d i) : nhMacs w.dev.rows ((i.word.setWidth 7).setWidth 8) = d.dstMac := by
  have hidx : ((i.word.setWidth 7).setWidth 8).toNat = i.idx := by
    have hlt := i.word_lt
    simp only [BitVec.toNat_setWidth]
    rw [Slot.word_toNat] at hlt ⊢
    omega
  have hrow := h.nh
  rw [h.slot, Slots.taken_nhIdx, Slot.word_toNat] at hrow
  have hsame : ctfFaGetNhDa (w.dev.rows (nhRowAt i.idx)) = ctfFaGetNhDa (ofWords d.nhRow) := by
    simp only [ctfFaGetNhDa, hrow 0 (by decide), hrow 1 (by decide), hrow 2 (by decide)]
  rw [nhMacs, hidx]
  exact hsame.trans (ctfFaGetNhDa_row ..)

theorem Intact.hits_iff {w : Accel} {cookie : Cookie} {d : Decoded} {i : Slot}
    (h : w.Intact cookie d i) (hproto : d.proto = 6) (k : FlowId) :
    hits (nfFields (w.dev.rows (nfRowAt i.idx))) k = d.covers k := by
  rw [Bool.eq_iff_iff, hits, h.fields]
  simp only [NfArgs.fields, Decoded.nfArgs, hproto, Decoded.covers, FlowId.headers,
    Bool.and_eq_true, Bool.true_and, beq_iff_eq, decide_eq_true_eq, Tuple.mk.injEq,
    Vendor.ntohl_injective.eq_iff, Vendor.ntohs_injective.eq_iff, and_assoc, beq_self_eq_true]
  rw [eq_comm (a := d.srcIp), eq_comm (a := d.dstIp), eq_comm (a := d.srcPort),
    eq_comm (a := d.dstPort), eq_comm (a := true), beq_iff_eq]

theorem Intact.sentBy {w : Accel} {cookie : Cookie} {d : Decoded} {i : Slot}
    (h : w.Intact cookie d i) (k : FlowId) :
    Fa.sentBy w.dev.rows k i.idx = d.send (npRows w.dev.rows 0).mac k := by
  have hmac := h.mac
  rw [Fa.sentBy, h.fields, h.sends]
  simp only [NfArgs.fields, Decoded.nfArgs, hmac]
  rfl

/-- A callback leaves the flows of other slots intact, whatever their cookies. -/
theorem Intact.keep {w : Accel} {cookie : Cookie} {d : Decoded} {i : Slot}
    (h : w.Intact cookie d i) (hfaithful : w.dev.Faithful) (hindexed : w.flows.Indexed)
    {cls : FlowClsOffload} (hne : ∀ k, w.ownSlot cls = some k → k ≠ i) :
    (w.next cls).Intact cookie d i := by
  have hout := callback_outcome w cls hindexed
  have hframe := hout.frame hfaithful
  refine h.congr (flows_of_ne hout hne) (hframe.rows _ fun k hk => ?_)
    (hframe.rows _ fun k hk => ?_)
  · exact ⟨(nfRowAt_ne_nhRowAt _ _).symm, fun heq =>
      hne k hk (Slot.idx_injective (congrArg RowAddr.idx heq)).symm⟩
  · exact ⟨fun heq => hne k hk (Slot.idx_injective (nfRowAt_injective heq)).symm,
      nfRowAt_ne_nhRowAt _ _⟩

end Accel

/-- The flow row of a REPLACE, if it writes one, reads back as written: no packet
is counted in it before. -/
def Accel.ReadsAsWritten (w : Accel) (cls : FlowClsOffload) : Prop :=
  ∀ i, w.target cls = some i → w.countedEarly i = false

/-- The driver holds the table: the rows of an entry are as its rule says, and no
other row is valid. -/
structure RuleTable.HeldBy (src : Mac) (t : RuleTable) (w : Accel) : Prop where
  indexed : w.flows.Indexed
  performs : w.dev.Performs
  entry : ∀ i e, t i = some e → w.Intact e.cookie e.rule i ∧ e.rule.proto = 6
  unused : ∀ i, t i = none → (w.flows i).inUse = false
  invalid : ∀ idx, (∀ i : Slot, i.idx = idx → t i = none) →
    nfValid (w.dev.rows (nfRowAt idx)) = false
  src : (npRows w.dev.rows 0).mac = src

namespace RuleTable.HeldBy

variable {src : Mac} {t : RuleTable} {w : Accel}

theorem inUse (h : t.HeldBy src w) (i : Slot) : (w.flows i).inUse = (t i).isSome := by
  cases hentry : t i with
  | none => exact h.unused i hentry
  | some e =>
      rw [(h.entry i e hentry).1.slot]
      rfl

theorem firstFree (h : t.HeldBy src w) : w.flows.firstFree = t.firstEmpty := by
  have htest : (fun i => !(w.flows i).inUse) = fun i => (t i).isNone := by
    funext i
    rw [h.inUse, Option.not_isSome]
  rw [Slots.firstFree, htest, firstEmpty]

theorem find (h : t.HeldBy src w) (cookie : Cookie) : w.flows.find cookie = t.slotOf cookie := by
  have htest : (fun i => (w.flows i).inUse && (w.flows i).cookie == cookie) =
      fun i => (t i).any fun e => e.cookie == cookie := by
    funext i
    cases hentry : t i with
    | none => rw [h.inUse, hentry, Option.isSome_none, Bool.false_and, Option.any_none]
    | some e =>
        rw [(h.entry i e hentry).1.slot]
        rfl
  rw [Slots.find, htest, slotOf]

/-- One row of the tables is one entry. -/
theorem row (h : t.HeldBy src w) (k : FlowId) (idx : Nat) :
    (if hits (nfFields (w.dev.rows (nfRowAt idx))) k then some (sentBy w.dev.rows k idx) else none) =
      (t.atRow idx).bind fun e => if e.rule.covers k then some (e.rule.send src k) else none := by
  cases hentry : t.atRow idx with
  | some e =>
      obtain ⟨i, rfl, hi⟩ := atRow_eq_some hentry
      obtain ⟨hintact, hproto⟩ := h.entry i e hi
      rw [Option.bind_some, hintact.hits_iff hproto, hintact.sentBy, h.src]
  | none =>
      have hinvalid : nfValid (w.dev.rows (nfRowAt idx)) = false := by
        refine h.invalid idx fun i hi => ?_
        rw [← hi, atRow_idx] at hentry
        exact hentry
      have hmiss : hits (nfFields (w.dev.rows (nfRowAt idx))) k = false := by
        rw [hits, show (nfFields (w.dev.rows (nfRowAt idx))).valid = _ from hinvalid]
        rfl
      rw [hmiss, Option.bind_none]
      rfl

theorem deliver (h : t.HeldBy src w) (searched : FlowId → List Nat) (k : FlowId) :
    Fa.deliver searched w.dev.rows k = t.deliver searched src k := by
  rw [deliver_eq_findSome, RuleTable.deliver, funext (h.row k)]

/-! ### Steps and runs -/

/-- A callback that works on slot `i` changes that entry only. -/
theorem change (h : t.HeldBy src w) {cls : FlowClsOffload} {i : Slot}
    (hown : w.ownSlot cls = some i) (x : Option Installed)
    (hentry : ∀ e, x = some e → (w.next cls).Intact e.cookie e.rule i ∧ e.rule.proto = 6)
    (hempty : x = none → ((w.next cls).flows i).inUse = false ∧
      nfValid ((w.next cls).dev.rows (nfRowAt i.idx)) = false) :
    HeldBy src (Function.update t i x) (w.next cls) := by
  have hout := callback_outcome w cls h.indexed
  have hframe := hout.frame h.performs.faithful
  have hother : ∀ {j : Slot}, j ≠ i → ∀ k, w.ownSlot cls = some k → k ≠ j := by
    rintro j hji k hk rfl
    exact hji (Option.some.inj (hk.symm.trans hown))
  refine ⟨w.callback_indexed cls h.indexed, Accel.next_performs h.indexed h.performs cls,
    fun j e hj => ?_, fun j hj => ?_, fun idx hidx => ?_, ?_⟩
  · by_cases hji : j = i
    · subst hji
      rw [Function.update_self] at hj
      exact hentry e hj
    · rw [Function.update_of_ne hji] at hj
      obtain ⟨hintact, hproto⟩ := h.entry j e hj
      exact ⟨hintact.keep h.performs.faithful h.indexed (hother hji), hproto⟩
  · by_cases hji : j = i
    · subst hji
      rw [Function.update_self] at hj
      exact (hempty hj).1
    · rw [Function.update_of_ne hji] at hj
      rw [Accel.flows_of_ne hout (hother hji)]
      exact h.unused j hj
  · by_cases hii : idx = i.idx
    · subst hii
      have hnone := hidx i rfl
      rw [Function.update_self] at hnone
      exact (hempty hnone).2
    · have hkept := hframe.rows (nfRowAt idx) fun k hk => by
        obtain rfl := Option.some.inj (hown.symm.trans hk)
        exact ⟨fun heq => hii (nfRowAt_injective heq), nfRowAt_ne_nhRowAt _ _⟩
      rw [nfValid_of_sameRow hkept]
      refine h.invalid idx fun j hj => ?_
      have hji : j ≠ i := fun heq => hii (by rw [← hj, heq])
      have hnone := hidx j hj
      rwa [Function.update_of_ne hji] at hnone
  · have hkept := hframe.rows ⟨1, 0⟩ fun k _ =>
      ⟨fun heq => absurd (congrArg RowAddr.table heq) (by simp [nfRowAt]),
        fun heq => absurd (congrArg RowAddr.table heq) (by simp [nhRowAt])⟩
    have hrow : (w.next cls).dev.rows ⟨1, 0⟩ = w.dev.rows ⟨1, 0⟩ :=
      hkept.eq_of_table Nat.one_ne_zero
    have hpool : npRows (w.next cls).dev.rows 0 = npRows w.dev.rows 0 := congrArg Vendor.npRow hrow
    rw [hpool]
    exact h.src

theorem step (h : t.HeldBy src w) {cls : FlowClsOffload} (hreads : w.ReadsAsWritten cls) :
    (t.step cls).HeldBy src (w.next cls) := by
  have hout := callback_outcome w cls h.indexed
  generalize hret : (w.callback cls).1 = ret at hout
  generalize hnext : (w.callback cls).2 = w' at hout
  have hsame : w' = w → t.step cls = t → (t.step cls).HeldBy src (w.next cls) := by
    rintro rfl hstep
    rw [hstep, Accel.next, hnext]
    exact h
  cases hout with
  | ignored hcmd =>
      refine hsame rfl ?_
      rw [RuleTable.step]
      split
      · next hreplace => exact absurd hreplace hcmd.1
      · next hdestroy => exact absurd hdestroy hcmd.2
      · rfl
  | skipped hcmd hskip =>
      refine hsame rfl ?_
      simp only [RuleTable.step, hcmd]
      rcases hskip with hrefused | hfull
      · rw [if_pos hrefused]
      · rw [← h.firstFree, hfull]
        split <;> rfl
  | unknown hcmd hfind =>
      refine hsame rfl ?_
      simp only [RuleTable.step, hcmd]
      rw [← h.find, hfind]
  | replaced i w' hcmd hrefused hfree hend =>
      subst hnext
      obtain ⟨ctl, window, polled, hend⟩ := hend
      have htarget : w.target cls = some i := by simp [Accel.target, hcmd, hrefused, hfree]
      have hown : w.ownSlot cls = some i := by simp [Accel.ownSlot, hcmd, htarget]
      have hstep : t.step cls =
          Function.update t i (some ⟨cls.cookie, faDecodeRule cls.rule⟩) := by
        simp only [RuleTable.step, hcmd, hrefused, ← h.firstFree, hfree]
        rfl
      rw [hstep]
      refine h.change hown _ (fun e he => ?_) (fun hnone => absurd hnone (Option.some_ne_none _))
      obtain rfl := Option.some.inj he
      have haccepted := (Accel.accepted_iff h.performs cls.cookie (faDecodeRule cls.rule) i).mpr
        (hreads i htarget)
      have hintact := Accel.replaced_intact haccepted
      rw [Accel.next, hend]
      exact ⟨hintact.congr rfl (.refl _ _) (.refl _ _), proto_of_accepted hrefused⟩
  | destroyed i w' hcmd hfind hend =>
      subst hnext
      obtain ⟨ctl, window, polled, hend⟩ := hend
      have hown : w.ownSlot cls = some i := by simp [Accel.ownSlot, hcmd, hfind]
      have hstep : t.step cls = Function.update t i none := by
        simp only [RuleTable.step, hcmd, ← h.find, hfind]
      rw [hstep]
      refine h.change hown _ (fun e he => absurd he.symm (Option.some_ne_none _)) fun _ => ?_
      rw [Accel.next, hend]
      constructor
      · exact congrArg FaLiveFlow.inUse (w.flows.free_self i)
      · exact Accel.nfValid_destroyed h.performs i

theorem run (h : t.HeldBy src w) {run : List FlowClsOffload}
    (hreads : EveryStep Accel.next Accel.ReadsAsWritten w run) :
    (run.foldl RuleTable.step t).HeldBy src (w.runCallbacks run) := by
  have hstep : ∀ (t : RuleTable) (w : Accel) cls, t.HeldBy src w → True → w.ReadsAsWritten cls →
      (t.step cls).HeldBy src (w.next cls) := fun _ _ _ h _ hreads => h.step hreads
  exact EveryStep.sim hstep (fun _ _ => trivial) h hreads

end RuleTable.HeldBy

/-- Module load, with no valid flow row. -/
theorem RuleTable.empty_heldBy {dev : Dev} (h : dev.Performs)
    (hinvalid : ∀ idx, nfValid (dev.rows (nfRowAt idx)) = false) :
    RuleTable.empty.HeldBy (npRows dev.rows 0).mac (Accel.loaded dev) where
  indexed := Slots.loaded_indexed
  performs := h
  entry _ _ hentry := absurd hentry.symm (Option.some_ne_none _)
  unused _ _ := rfl
  invalid idx _ := hinvalid idx
  src := rfl

/-- After any callbacks the chip sends a packet on as the first rule of the table
says that is in a row searched for the packet and covers it, and leaves all other
packets to the CPU. -/
theorem callbacks_deliver {dev : Dev} (h : dev.Performs)
    (hinvalid : ∀ idx, nfValid (dev.rows (nfRowAt idx)) = false)
    (searched : FlowId → List Nat) {run : List FlowClsOffload}
    (hreads : EveryStep Accel.next Accel.ReadsAsWritten (Accel.loaded dev) run) (k : FlowId) :
    deliver searched ((Accel.loaded dev).runCallbacks run).dev.rows k =
      (run.foldl RuleTable.step RuleTable.empty).deliver searched (npRows dev.rows 0).mac k :=
  ((RuleTable.empty_heldBy h hinvalid).run hreads).deliver searched k

theorem Dev.countingLate_invalid (idx : Nat) :
    nfValid (Dev.countingLate.rows (nfRowAt idx)) = false := by
  simp [Dev.countingLate, Dev.reset, nfValid]

/-- The connection of `FlowRule.toWan`. -/
def FlowId.toWan : FlowId :=
  ⟨htonl 0xC0A80164, htonl 0x08080808, 6, cpuToBe16 50000, cpuToBe16 443⟩

theorem toWan_readsAsWritten : EveryStep Accel.next Accel.ReadsAsWritten
    (Accel.loaded .countingLate) [⟨.replace, 7, .toWan fun _ => 9⟩] := ⟨fun _ _ => rfl, trivial⟩

/-- A chip that searches all rows finds it. -/
theorem callbacks_deliver_toWan :
    deliver (fun _ => List.range 33)
        ((Accel.loaded .countingLate).runCallbacks [⟨.replace, 7, .toWan fun _ => 9⟩]).dev.rows
        FlowId.toWan =
      some ⟨fun _ => 9, (npRows Dev.countingLate.rows 0).mac,
        ⟨htonl 0xCB007105, htonl 0x08080808, cpuToBe16 50000, cpuToBe16 443⟩⟩ :=
  (callbacks_deliver Dev.countingLate_performs Dev.countingLate_invalid (fun _ => List.range 33)
    toWan_readsAsWritten FlowId.toWan).trans (by decide +kernel)

/-! ### The rows the vendor's driver would use -/

/-- The vendor's driver puts a connection into one of the four rows its CRC names;
this one puts it into the first free row. If the chip searches the rows of the
CRC, it finds an accepted flow exactly when its row happens to be one of them. -/
theorem forward_isSome_iff {dev : Dev} (h : dev.Performs)
    (hinvalid : ∀ idx, nfValid (dev.rows (nfRowAt idx)) = false) {run : List FlowClsOffload}
    (hreads : EveryStep Accel.next Accel.ReadsAsWritten (Accel.loaded dev) run) (k : FlowId) :
    (Vendor.forward ((Accel.loaded dev).runCallbacks run).dev.rows k).isSome = true ↔
      ∃ i e, run.foldl RuleTable.step RuleTable.empty i = some e ∧ e.rule.covers k = true ∧
        i.idx / CTF_MAX_BUCKET_INDEX = k.bucket initCrcccittTab := by
  have hheld := (RuleTable.empty_heldBy h hinvalid).run hreads
  rw [forward_eq_deliver, hheld.deliver, RuleTable.deliver, List.findSome?_isSome_iff]
  constructor
  · rintro ⟨idx, hidx, hsome⟩
    obtain ⟨sent, hsent⟩ := Option.isSome_iff_exists.mp hsome
    obtain ⟨e, hentry, hanswer⟩ := Option.bind_eq_some_iff.mp hsent
    obtain ⟨i, rfl, hi⟩ := RuleTable.atRow_eq_some hentry
    refine ⟨i, e, hi, ?_, FlowId.mem_rows.mp hidx⟩
    by_contra hno
    rw [if_neg hno] at hanswer
    exact Option.some_ne_none _ hanswer.symm
  · rintro ⟨i, e, hi, hcovers, hbucket⟩
    refine ⟨i.idx, FlowId.mem_rows.mpr hbucket, ?_⟩
    rw [RuleTable.atRow_idx, hi, Option.bind_some, if_pos hcovers]
    rfl

/-- It has CRC 54, and no row of this driver is one of those. -/
theorem forward_isSome_toWan :
    ¬ (Vendor.forward ((Accel.loaded .countingLate).runCallbacks
      [⟨.replace, 7, .toWan fun _ => 9⟩]).dev.rows FlowId.toWan).isSome = true := by
  intro hsome
  obtain ⟨i, -, -, -, hbucket⟩ := (forward_isSome_iff Dev.countingLate_performs
    Dev.countingLate_invalid toWan_readsAsWritten FlowId.toWan).mp hsome
  have hcrc : FlowId.toWan.bucket initCrcccittTab = 54 := by decide +kernel
  have hle := i.idx_le
  simp only [FA_MAX_LIVE_FLOWS, CTF_MAX_BUCKET_INDEX, hcrc] at hle hbucket
  omega

end R8000Plus.Fa
