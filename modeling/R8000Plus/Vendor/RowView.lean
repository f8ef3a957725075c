import R8000Plus.Vendor.HopPool

/-!
Row accesses on hardware that answers in time. What the driver owns of the
tables, the counters of flow rows left out, only changes where it writes; the
runs of the table functions are read off that view.
-/

namespace R8000Plus.Vendor

open Effects Fa

/-- The part of a row word that the driver owns. -/
def ownedWord (addr : RowAddr) (j : Nat) (w : Word) : Word :=
  if addr.table ≠ 0 then w
  else if j = 0 then 0
  else if j = 1 then w &&& ~~~7
  else w

theorem ownedWord_of_table {addr : RowAddr} (h : addr.table ≠ 0) (j : Nat) (w : Word) :
    ownedWord addr j w = w :=
  if_pos h

theorem ownedWord_of_le {addr : RowAddr} {j : Nat} (hj : 2 ≤ j) (w : Word) :
    ownedWord addr j w = w := by
  simp only [ownedWord, show j ≠ 0 by omega, show j ≠ 1 by omega, if_false, ite_self]

theorem ownedWord_counted (rows : Tables) (counters : Nat → Option (Word × Word))
    (addr : RowAddr) (j : Nat) :
    ownedWord addr j (rows.counted counters addr j) = ownedWord addr j (rows addr j) := by
  simp only [ownedWord, Tables.counted]
  by_cases htable : addr.table = 0
  · cases counters addr.idx with
    | none => simp only [htable, ne_eq, not_true_eq_false, if_false]
    | some c =>
        simp only [htable, ne_eq, not_true_eq_false, if_false]
        by_cases h0 : j = 0
        · simp only [h0, if_true]
        by_cases h1 : j = 1
        · subst h1
          simp only [one_ne_zero, if_false, if_true]
          rw [BitVec.and_or_distrib_right, BitVec.and_assoc, BitVec.and_self, BitVec.and_assoc,
            BitVec.and_not_self]
          simp only [BitVec.ofNat_eq_ofNat, BitVec.and_zero, BitVec.or_zero]
        · simp only [h0, h1, if_false]
  · simp only [htable, ne_eq, not_false_eq_true, if_true]

namespace Hw

/-- The tables without the counters. -/
def view (hw : Hw) : Tables := fun addr j => ownedWord addr j (hw.rows addr j)

/-- The view with the leading words of a row replaced. -/
def viewWith (v : Tables) (addr : RowAddr) (words : List Word) : Tables :=
  Function.update v addr fun j =>
    if j < words.length then ownedWord addr j (ofWords words j) else v addr j

variable {hw : Hw}

theorem Prompt.now (h : hw.Prompt) : hw.now.busy = false := h _

theorem met_owned (hw : Hw) (addr : RowAddr) (j : Nat) :
    ownedWord addr j (hw.met addr j) = hw.view addr j :=
  ownedWord_counted hw.rows hw.now.counters addr j

theorem war777_run (h : hw.Prompt) (on : Bool) :
    ∃ hw', (ctfFaWar777 on).run Hw.perform hw = ((), hw') ∧ hw'.Prompt ∧ hw'.view = hw.view :=
  ⟨{ hw with rows := hw.met, turn := hw.turn + 1 }, rfl, h,
    funext fun addr => funext fun j => hw.met_owned addr j⟩

/-- A read: the words have what the driver owns of the row, and the view stays. -/
theorem read_run (h : hw.Prompt) (table idx : Word) (n : Nat) :
    ∃ ws hw', Hw.perform (.read table idx n) hw = (some ws, hw') ∧ hw'.Prompt ∧
      hw'.view = hw.view ∧ ws.length = n ∧
      ∀ j < n, ownedWord (rowAt table idx) j (ofWords ws j) = hw.view (rowAt table idx) j := by
  refine ⟨(List.range n).map (hw.met (rowAt table idx)),
    { hw with rows := hw.met, turn := hw.turn + 1 }, ?_, h, ?_, by simp, fun j hj => ?_⟩
  · simp only [perform, h.now, Bool.false_eq_true, if_false]
  · funext addr j
    exact hw.met_owned addr j
  · have hword : ofWords ((List.range n).map (hw.met (rowAt table idx))) j =
        hw.met (rowAt table idx) j := by simp [ofWords, hj]
    rw [hword]
    exact hw.met_owned (rowAt table idx) j

/-- A write replaces the leading words of its row. -/
theorem write_run (h : hw.Prompt) (table idx : Word) (words : List Word) :
    ∃ hw', Hw.perform (.write table idx words) hw = (true, hw') ∧ hw'.Prompt ∧
      hw'.view = viewWith hw.view (rowAt table idx) words := by
  refine ⟨{ hw with rows := hw.stored (rowAt table idx) words, turn := hw.turn + 1 }, ?_, h, ?_⟩
  · simp only [perform, h.now, Bool.not_false]
  funext addr j
  simp only [view, stored, viewWith, h.now, true_or, and_true, Function.update_apply]
  split
  · next haddr =>
    subst haddr
    dsimp only
    split
    · rfl
    · exact hw.met_owned _ j
  · exact hw.met_owned addr j

end Hw

/-! ### Next-hop rows -/

/-- The MACs that the rows of the next-hop table decode to. -/
def nhMacs (v : Tables) (i : Byte) : Mac := ctfFaGetNhDa (v ⟨2, i.toNat⟩)

theorem rowAt_nh (i : Byte) : rowAt CTF_MEMACC_TBL_NH (i.setWidth 32) = ⟨2, i.toNat⟩ := by
  have hidx : (i.setWidth 32 &&& CTF_MEMACC_TAB_INDEX_MASK) = i.setWidth 32 := by
    apply BitVec.eq_of_getLsbD_eq
    intro k hk
    simp only [CTF_MEMACC_TAB_INDEX_MASK, BitVec.getLsbD_and, BitVec.getLsbD_setWidth]
    by_cases hk8 : k < 8
    · interval_cases k <;> simp
    · simp [BitVec.getLsbD_of_ge i k (by omega)]
  rw [rowAt, hidx, BitVec.toNat_setWidth, Nat.mod_eq_of_lt (by have := i.isLt; omega)]
  rfl

theorem nhMacs_viewWith (v : Tables) (i : Byte) (words : List Word) (hlen : words.length = 3) :
    nhMacs (Hw.viewWith v ⟨2, i.toNat⟩ words) =
      Function.update (nhMacs v) i (ctfFaGetNhDa (ofWords words)) := by
  funext k
  by_cases hk : k = i
  · subst hk
    rw [Function.update_self, nhMacs, Hw.viewWith, Function.update_self]
    refine ctfFaGetNhDa_congr fun j hj => ?_
    have hj3 : j < words.length := by rw [hlen]; exact hj
    rw [if_pos hj3, ownedWord_of_table (Nat.succ_ne_zero 1)]
  · have hne : (⟨2, k.toNat⟩ : RowAddr) ≠ ⟨2, i.toNat⟩ := by
      intro heq
      exact hk (BitVec.eq_of_toNat_eq (RowAddr.mk.inj heq).2)
    rw [Function.update_of_ne hk, nhMacs, Hw.viewWith, Function.update_of_ne hne]
    rfl

theorem faReadNhopEntry_run {hw : Hw} (h : hw.Prompt) (i : Byte) :
    ∃ d hw', (faReadNhopEntry (i.setWidth 32)).run Hw.perform hw = (some d, hw') ∧ hw'.Prompt ∧
      hw'.view = hw.view ∧ ctfFaGetNhDa (ofWords d) = nhMacs hw.view i := by
  obtain ⟨d, hw', hrun, hprompt, hview, -, hwords⟩ := hw.read_run h CTF_MEMACC_TBL_NH
    (i.setWidth 32) 3
  refine ⟨d, hw', hrun, hprompt, hview, ?_⟩
  rw [rowAt_nh] at hwords
  refine ctfFaGetNhDa_congr fun j hj => ?_
  rw [← hwords j hj, ownedWord_of_table (Nat.succ_ne_zero 1)]

theorem faWriteNhopEntry_run {hw : Hw} (h : hw.Prompt) (tbl : List Word) (i : Byte) :
    ∃ hw', (faWriteNhopEntry tbl (i.setWidth 32)).run Hw.perform hw = (true, hw') ∧ hw'.Prompt ∧
      hw'.view = Hw.viewWith hw.view ⟨2, i.toNat⟩ tbl := by
  obtain ⟨hw', hrun, hprompt, hview⟩ := hw.write_run h CTF_MEMACC_TBL_NH (i.setWidth 32) tbl
  rw [rowAt_nh] at hview
  exact ⟨hw', hrun, hprompt, hview⟩

/-- The scan stops at its first row when that has the MAC. -/
theorem scanNhop_hit {hw : Hw} (h : hw.Prompt) {mac : Mac} {idx : Byte} (n : Nat)
    (hmac : nhMacs hw.view idx = mac) :
    ∃ hw', (scanNhop mac idx (n + 1)).run Hw.perform hw = ((.ok, idx), hw') ∧ hw'.Prompt ∧
      hw'.view = hw.view := by
  obtain ⟨d, hw', hrun, hprompt, hview, hd⟩ := faReadNhopEntry_run h idx
  refine ⟨hw', ?_, hprompt, hview⟩
  rw [scanNhop, Prog.run_bind_of_eq _ hrun]
  simp only [hd, hmac, if_true]
  rfl

/-- It reports a MAC that none of the rows left has as not found. -/
theorem scanNhop_miss {hw : Hw} (h : hw.Prompt) {mac : Mac} (n : Nat) (idx : Byte)
    (hn : idx.toNat + n = CTF_MAX_NEXTHOP_TABLE_INDEX)
    (hno : ∀ i : Byte, i.toNat < CTF_MAX_NEXTHOP_TABLE_INDEX → nhMacs hw.view i ≠ mac) :
    ∃ i hw', (scanNhop mac idx n).run Hw.perform hw = ((.notFound, i), hw') ∧ hw'.Prompt ∧
      hw'.view = hw.view := by
  induction n generalizing idx hw with
  | zero => exact ⟨idx, hw, rfl, h, rfl⟩
  | succ n ih =>
      obtain ⟨d, hw', hrun, hprompt, hview, hd⟩ := faReadNhopEntry_run h idx
      have hlt : idx.toNat < CTF_MAX_NEXTHOP_TABLE_INDEX := by omega
      have hnext : (idx + 1).toNat = idx.toNat + 1 := by
        have hidx : idx.toNat < 128 := hlt
        rw [BitVec.toNat_add]
        exact Nat.mod_eq_of_lt (by simp; omega)
      obtain ⟨i, hw'', hrest, hprompt', hview'⟩ := ih hprompt (idx + 1) (by omega)
        (by rwa [hview])
      refine ⟨i, hw'', ?_, hprompt', hview'.trans hview⟩
      rw [scanNhop, Prog.run_bind_of_eq _ hrun]
      simp only [hd, if_neg (hno idx hlt)]
      exact hrest

theorem nhMacs_congr {v v' : Tables} (h : ∀ addr, addr.table = 2 → v' addr = v addr) :
    nhMacs v' = nhMacs v := by
  funext i
  rw [nhMacs, nhMacs, h _ rfl]

theorem nhMacs_view (hw : Hw) : nhMacs hw.view = nhMacs hw.rows := by
  funext i
  exact ctfFaGetNhDa_congr fun j _ => ownedWord_of_table (Nat.succ_ne_zero 1) j _

/-! ### Flow rows -/

theorem rowAt_nf {idx : Nat} (h : idx < CTF_MAX_FLOW_TABLE) :
    rowAt CTF_MEMACC_TBL_NF (BitVec.ofNat 32 idx) = ⟨0, idx⟩ := by
  have hlt : idx < 1024 := h
  have hidx : (BitVec.ofNat 32 idx &&& CTF_MEMACC_TAB_INDEX_MASK).toNat = idx := by
    rw [CTF_MEMACC_TAB_INDEX_MASK, BitVec.toNat_and, BitVec.toNat_ofNat,
      Nat.mod_eq_of_lt (by omega)]
    exact (Nat.and_two_pow_sub_one_eq_mod idx 10).trans (Nat.mod_eq_of_lt hlt)
  rw [rowAt, hidx]
  rfl

theorem faReadNaptEntry_run {hw : Hw} (h : hw.Prompt) {idx : Nat} (hidx : idx < CTF_MAX_FLOW_TABLE) :
    ∃ tbl hw', (faReadNaptEntry (BitVec.ofNat 32 idx)).run Hw.perform hw = (some tbl, hw') ∧
      hw'.Prompt ∧ hw'.view = hw.view ∧ tbl.length = NF_ROW_WORDS ∧
      ∀ j < NF_ROW_WORDS, ownedWord ⟨0, idx⟩ j (ofWords tbl j) = hw.view ⟨0, idx⟩ j := by
  obtain ⟨tbl, hw', hrun, hprompt, hview, hlen, hwords⟩ := hw.read_run h CTF_MEMACC_TBL_NF
    (BitVec.ofNat 32 idx) 8
  rw [rowAt_nf hidx] at hwords
  exact ⟨tbl, hw', hrun, hprompt, hview, hlen, hwords⟩

theorem faWriteNaptEntry_run {hw : Hw} (h : hw.Prompt) (tbl : List Word) {idx : Nat}
    (hidx : idx < CTF_MAX_FLOW_TABLE) :
    ∃ hw', (faWriteNaptEntry tbl (BitVec.ofNat 32 idx)).run Hw.perform hw = (true, hw') ∧
      hw'.Prompt ∧ hw'.view = Hw.viewWith hw.view ⟨0, idx⟩ tbl := by
  obtain ⟨hw', hrun, hprompt, hview⟩ := hw.write_run h CTF_MEMACC_TBL_NF (BitVec.ofNat 32 idx) tbl
  rw [rowAt_nf hidx] at hview
  exact ⟨hw', hrun, hprompt, hview⟩

namespace Hw

theorem viewWith_self (v : Tables) (addr : RowAddr) (words : List Word) {j : Nat}
    (hj : j < words.length) : viewWith v addr words addr j = ownedWord addr j (ofWords words j) := by
  rw [viewWith, Function.update_self, if_pos hj]

theorem viewWith_of_ne (v : Tables) {addr other : RowAddr} (words : List Word) (h : other ≠ addr) :
    viewWith v addr words other = v other :=
  Function.update_of_ne h _ _

end Hw

theorem nfValid_owned (row : Nat → Word) (idx : Nat) :
    nfValid (fun j => ownedWord ⟨0, idx⟩ j (row j)) = nfValid row := by
  rw [nfValid, nfValid, ownedWord_of_le (by decide)]

end R8000Plus.Vendor
