import R8000Plus.Vendor.HopRuns

/-!
The pool table: one row for each direction, found by source MAC and direction or
written at the direction's index. While each direction keeps to one source MAC,
the row a flow is given stays what it was given for.
-/

namespace R8000Plus.Vendor

open Effects Fa

/-! ### The row format -/

/-- The row gives back the MAC packed across its two words. -/
theorem ctfFaGetNpSa_row (s : Mac) (e : Word) : ctfFaGetNpSa (ofWords (ctfFaSetNpEntry s e)) = s := by
  funext k
  apply BitVec.eq_of_getLsbD_eq
  intro b hb
  fin_cases k
  all_goals
    simp only [ctfFaGetNpSa, ofWords, ctfFaSetNpEntry, List.getD_cons_succ, List.getD_cons_zero,
      Fin.zero_eta, Fin.mk_one, Fin.reduceFinMk, Matrix.cons_val, BitVec.getLsbD_or,
      BitVec.getLsbD_and, BitVec.getLsbD_shiftLeft, BitVec.getLsbD_ushiftRight,
      BitVec.getLsbD_setWidth]
    interval_cases b <;> simp

theorem npExternal_row (s : Mac) (e : Word) :
    ofWords (ctfFaSetNpEntry s e) 0 &&& 0x1 = e &&& 0x1 := by
  apply BitVec.eq_of_getLsbD_eq
  intro b hb
  simp only [ofWords, ctfFaSetNpEntry, List.getD_cons_zero, BitVec.getLsbD_or,
    BitVec.getLsbD_and, BitVec.getLsbD_shiftLeft, BitVec.getLsbD_setWidth]
  interval_cases b <;> simp

/-- A pool row as `fa_find_pool` compares it. -/
structure NpRow where
  mac : Mac
  external : Word
  deriving DecidableEq

def npRow (row : Nat → Word) : NpRow := ⟨ctfFaGetNpSa row, row 0 &&& 0x1⟩

def PoolEntry.row (pe : PoolEntry) : NpRow := ⟨pe.remapMac, pe.external⟩

theorem npRow_congr {row row' : Nat → Word} (h : ∀ j < 2, row j = row' j) :
    npRow row = npRow row' := by
  simp only [npRow, ctfFaGetNpSa, h 0 (by decide), h 1 (by decide)]

theorem npRow_set (s : Mac) {e : Word} (he : e &&& 0x1 = e) :
    npRow (ofWords (ctfFaSetNpEntry s e)) = ⟨s, e⟩ := by
  rw [npRow, ctfFaGetNpSa_row, npExternal_row, he]

/-- The rows of the pool table. -/
def npRows (v : Tables) (i : Byte) : NpRow := npRow (v ⟨1, i.toNat⟩)

/-! ### Runs -/

theorem rowAt_np (i : Byte) : rowAt CTF_MEMACC_TBL_NP (i.setWidth 32) = ⟨1, i.toNat⟩ := by
  have hidx := congrArg RowAddr.idx (rowAt_nh i)
  rw [rowAt] at hidx ⊢
  rw [RowAddr.mk.injEq]
  exact ⟨rfl, hidx⟩

variable {hw : Hw}

theorem faReadPoolRow_run (h : hw.Prompt) (i : Byte) :
    ∃ d hw', (faReadPoolRow (i.setWidth 32)).run Hw.perform hw = (some d, hw') ∧ hw'.Prompt ∧
      hw'.view = hw.view ∧ npRow (ofWords d) = npRows hw.view i := by
  obtain ⟨d, hw', hrun, hprompt, hview, -, hwords⟩ := hw.read_run h CTF_MEMACC_TBL_NP
    (i.setWidth 32) 2
  refine ⟨d, hw', hrun, hprompt, hview, ?_⟩
  rw [rowAt_np] at hwords
  refine npRow_congr fun j hj => ?_
  rw [← hwords j hj, ownedWord_of_table Nat.one_ne_zero]

/-- The scan finds the first row that matches. -/
theorem scanPool_run (h : hw.Prompt) (pt : PoolEntry) (n : Nat) (i : Byte) :
    ∃ r hw', (scanPool pt i n).run Hw.perform hw = (r, hw') ∧ hw'.Prompt ∧ hw'.view = hw.view ∧
      match ((List.range n).map fun k => i + BitVec.ofNat 8 k).find?
        fun k => npRows hw.view k = pt.row with
      | some k => r = (.ok, k)
      | none => r.1 = .notFound := by
  induction n generalizing hw i with
  | zero => exact ⟨(.notFound, i), hw, rfl, h, rfl, rfl⟩
  | succ n ih =>
      obtain ⟨d, hw₁, hrun, hprompt, hview, hd⟩ := faReadPoolRow_run h i
      have hmatch : (pt.remapMac = ctfFaGetNpSa (ofWords d) ∧
          ofWords d 0 &&& 0x1 = pt.external) ↔ npRows hw.view i = pt.row := by
        rw [← hd, npRow, PoolEntry.row, NpRow.mk.injEq, eq_comm]
      have hlist : (List.range (n + 1)).map (fun k => i + BitVec.ofNat 8 k) =
          i :: (List.range n).map fun k => i + 1 + BitVec.ofNat 8 k := by
        rw [List.range_succ_eq_map, List.map_cons, List.map_map]
        refine congrArg₂ _ (by simp) (List.map_congr_left fun k _ => ?_)
        simp only [Function.comp, Nat.succ_eq_add_one]
        bv_omega
      rw [scanPool, hlist]
      by_cases hi : npRows hw.view i = pt.row
      · refine ⟨(.ok, i), hw₁, ?_, hprompt, hview, ?_⟩
        · rw [Prog.run_bind_of_eq _ hrun]
          simp only [if_pos (hmatch.mpr hi)]
          rfl
        · rw [List.find?_cons_of_pos (by simpa using hi)]
      · obtain ⟨r, hw', hrest, hprompt', hview', hr⟩ := ih hprompt (i + 1)
        refine ⟨r, hw', ?_, hprompt', hview'.trans hview, ?_⟩
        · rw [Prog.run_bind_of_eq _ hrun]
          simp only [if_neg (mt hmatch.mp hi)]
          exact hrest
        · rw [List.find?_cons_of_neg (by simpa using hi), ← hview]
          exact hr

/-! ### One source MAC for each direction -/

/-- The direction bit of a pool row, and the index its row is written at. -/
def poolDir (external : Bool) : Word := if external then CTF_NP_EXTERNAL else CTF_NP_INTERNAL

def poolIdxOf (external : Bool) : Byte := (poolDir external).setWidth 8

/-- Every row is clear or its direction's. -/
structure Pools (remap : Bool → Mac) (rows : Byte → NpRow) : Prop where
  lower : ∀ e, rows (poolIdxOf e) = ⟨0, 0⟩ ∨ rows (poolIdxOf e) = ⟨remap e, poolDir e⟩
  two : rows 2 = ⟨0, 0⟩
  three : rows 3 = ⟨0, 0⟩

theorem Pools.find {remap : Bool → Mac} {rows : Byte → NpRow} (h : Pools remap rows) (e : Bool) :
    [(0 : Byte), 1, 2, 3].find? (fun k => rows k = ⟨remap e, poolDir e⟩) =
      if rows (poolIdxOf e) = ⟨remap e, poolDir e⟩ then some (poolIdxOf e) else none := by
  have hzero := h.lower false
  have hone := h.lower true
  have hidx : poolIdxOf false = 0 ∧ poolIdxOf true = 1 := by decide
  have hdir : poolDir false = 0 ∧ poolDir true = 1 := by decide
  rw [hidx.1, hdir.1] at hzero
  rw [hidx.2, hdir.2] at hone
  have hne : (0 : Word) ≠ 1 := by decide
  have hother : ∀ {k : Byte} {row row' : NpRow}, rows k = row → row ≠ row' →
      (rows k = row') = False := fun hk hrow => eq_false fun heq => hrow (hk.symm.trans heq)
  cases e with
  | false =>
      rw [hidx.1, hdir.1]
      by_cases hhit : rows 0 = ⟨remap false, 0⟩
      · simp only [List.find?_cons, hhit, decide_true, if_true]
      · have hclear : rows 0 = ⟨0, 0⟩ := hzero.resolve_right hhit
        have hmac : (⟨0, 0⟩ : NpRow) ≠ ⟨remap false, 0⟩ := fun heq => hhit (hclear.trans heq)
        have h1 : (rows 1 = ⟨remap false, 0⟩) = False := by
          rcases hone with h1 | h1
          · exact hother h1 hmac
          · exact hother h1 fun heq => hne (NpRow.mk.inj heq).2.symm
        simp only [List.find?_cons, List.find?_nil, hother hclear hmac, h1, hother h.two hmac,
          hother h.three hmac, decide_false, if_false]
  | true =>
      rw [hidx.2, hdir.2]
      have hdirs : ∀ mac, (⟨mac, 0⟩ : NpRow) ≠ ⟨remap true, 1⟩ :=
        fun mac heq => hne (NpRow.mk.inj heq).2
      have h0 : (rows 0 = ⟨remap true, 1⟩) = False := by
        rcases hzero with h0 | h0 <;> exact hother h0 (hdirs _)
      by_cases hhit : rows 1 = ⟨remap true, 1⟩
      · simp only [List.find?_cons, h0, hhit, decide_false, decide_true, if_true]
      · simp only [List.find?_cons, List.find?_nil, h0, hhit, hother h.two (hdirs _),
          hother h.three (hdirs _), decide_false, if_false]

/-- Whatever is not a pool row is as before. -/
def OnlyPools (v v' : Tables) : Prop := ∀ addr, addr.table ≠ 1 → v' addr = v addr

theorem npRows_viewWith (v : Tables) (i : Byte) (words : List Word) (hlen : words.length = 2) :
    npRows (Hw.viewWith v ⟨1, i.toNat⟩ words) =
      Function.update (npRows v) i (npRow (ofWords words)) := by
  funext k
  by_cases hk : k = i
  · subst hk
    rw [Function.update_self, npRows, Hw.viewWith, Function.update_self]
    refine npRow_congr fun j hj => ?_
    rw [if_pos (by omega), ownedWord_of_table Nat.one_ne_zero]
  · have hne : (⟨1, k.toNat⟩ : RowAddr) ≠ ⟨1, i.toNat⟩ := by
      intro heq
      exact hk (BitVec.eq_of_toNat_eq (RowAddr.mk.inj heq).2)
    rw [Function.update_of_ne hk, npRows, Hw.viewWith, Function.update_of_ne hne]
    rfl

theorem npRows_congr {v v' : Tables} (h : ∀ addr, addr.table = 1 → v' addr = v addr) :
    npRows v' = npRows v := by
  funext i
  rw [npRows, npRows, h _ rfl]

/-- A flow gets its direction's row, with the source MAC in it, and the other
direction's row is not touched. -/
theorem findOrAddPool_run (hp : hw.Prompt) {remap : Bool → Mac} (e : Bool)
    (h : Pools remap (npRows hw.view)) (tb : FaNapt) :
    ∃ ret hw', (findOrAddPool tb ⟨poolDir e, remap e⟩).run Hw.perform hw =
        ((ret, { tb with poolIdx := poolIdxOf e }), hw') ∧ ret ≠ .busy ∧ hw'.Prompt ∧
      OnlyPools hw.view hw'.view ∧
      npRows hw'.view =
        Function.update (npRows hw.view) (poolIdxOf e) ⟨remap e, poolDir e⟩ := by
  obtain ⟨r, hw₁, hscan, hprompt₁, hview₁, hr⟩ := scanPool_run hp ⟨poolDir e, remap e⟩
    CTF_MAX_POOL_TABLE_INDEX 0
  have hlist : (List.range CTF_MAX_POOL_TABLE_INDEX).map (fun k => (0 : Byte) + BitVec.ofNat 8 k) =
      [0, 1, 2, 3] := by decide
  have hmask : poolIdxOf e &&& 3 = poolIdxOf e := by cases e <;> decide
  rw [hlist, PoolEntry.row, h.find e] at hr
  by_cases hhit : npRows hw.view (poolIdxOf e) = ⟨remap e, poolDir e⟩
  · rw [if_pos hhit] at hr
    obtain rfl : r = _ := hr
    refine ⟨.ok, hw₁, ?_, by simp, hprompt₁, fun addr _ => by rw [hview₁], ?_⟩
    · have hfind : (faFindPool tb ⟨poolDir e, remap e⟩).run Hw.perform hw =
          ((.ok, { tb with poolIdx := poolIdxOf e }), hw₁) := by
        rw [faFindPool, Prog.run_bind_of_eq _ hscan]
        simp only [if_true, hmask]
        rfl
      rw [findOrAddPool, Prog.run_bind_of_eq _ hfind]
      rfl
    · rw [hview₁, ← hhit, Function.update_eq_self]
  · rw [if_neg hhit] at hr
    obtain ⟨ret, i⟩ := r
    obtain rfl : ret = .notFound := hr
    have hfind : (faFindPool tb ⟨poolDir e, remap e⟩).run Hw.perform hw =
        ((.notFound, tb), hw₁) := by
      rw [faFindPool, Prog.run_bind_of_eq _ hscan]
      rfl
    have hidx : poolDir e = (poolIdxOf e).setWidth 32 := by cases e <;> decide
    have hdir : poolDir e &&& 0x1 = poolDir e := by cases e <;> decide
    obtain ⟨hw', hrun, hprompt, hview⟩ := hw₁.write_run hprompt₁ CTF_MEMACC_TBL_NP (poolDir e)
      (ctfFaSetNpEntry (remap e) (poolDir e))
    have hwrite : (faWritePoolRow (ctfFaSetNpEntry (remap e) (poolDir e)) (poolDir e)).run
        Hw.perform hw₁ = (true, hw') := hrun
    rw [hidx, rowAt_np, ← hidx] at hview
    refine ⟨.notFound, hw', ?_, by simp, hprompt, fun addr htable => ?_, ?_⟩
    · rw [findOrAddPool, Prog.run_bind_of_eq _ hfind]
      dsimp only
      rw [if_neg (by simp), Prog.run_bind_of_eq _ hwrite]
      rfl
    · have hne : addr ≠ ⟨1, (poolIdxOf e).toNat⟩ := by
        rintro rfl
        exact htable rfl
      rw [hview, Hw.viewWith, Function.update_of_ne hne, hview₁]
    · rw [hview, npRows_viewWith _ _ _ rfl, npRow_set _ hdir, hview₁]

theorem faAddPoolEntry_run (hp : hw.Prompt) {remap : Bool → Mac} (e : Bool)
    (h : Pools remap (npRows hw.view)) (tb : FaNapt) :
    ∃ ret hw', (faAddPoolEntry tb ⟨poolDir e, remap e⟩).run Hw.perform hw =
        ((ret, { tb with poolIdx := poolIdxOf e }), hw') ∧ ret ≠ .busy ∧ hw'.Prompt ∧
      OnlyPools hw.view hw'.view ∧
      npRows hw'.view =
        Function.update (npRows hw.view) (poolIdxOf e) ⟨remap e, poolDir e⟩ := by
  obtain ⟨hw₁, hon, hprompt₁, hview₁⟩ := hw.war777_run hp true
  rw [← hview₁] at h ⊢
  obtain ⟨ret, hw₂, hrun, hret, hprompt₂, honly, hrows⟩ := findOrAddPool_run hprompt₁ e h tb
  obtain ⟨hw₃, hoff, hprompt₃, hview₃⟩ := hw₂.war777_run hprompt₂ false
  rw [← hview₃] at honly hrows
  refine ⟨ret, hw₃, ?_, hret, hprompt₃, honly, hrows⟩
  rw [faAddPoolEntry, Prog.run_bind_of_eq _ hon, Prog.run_bind_of_eq _ hrun,
    Prog.run_bind_of_eq _ hoff]
  rfl

theorem Pools.update {remap : Bool → Mac} {rows : Byte → NpRow} (h : Pools remap rows) (e : Bool) :
    Pools remap (Function.update rows (poolIdxOf e) ⟨remap e, poolDir e⟩) := by
  refine ⟨fun e' => ?_, ?_, ?_⟩
  · by_cases he : poolIdxOf e' = poolIdxOf e
    · have hee : e' = e := by
        revert he
        cases e <;> cases e' <;> decide
      rw [hee, Function.update_self]
      exact .inr rfl
    · rw [Function.update_of_ne he]
      exact h.lower e'
  · rw [Function.update_of_ne (by cases e <;> decide)]
    exact h.two
  · rw [Function.update_of_ne (by cases e <;> decide)]
    exact h.three

/-- A direction's row stays its direction's. -/
theorem update_poolRow {remap : Bool → Mac} {rows : Byte → NpRow} {e e' : Bool}
    (h : rows (poolIdxOf e') = ⟨remap e', poolDir e'⟩) :
    Function.update rows (poolIdxOf e) ⟨remap e, poolDir e⟩ (poolIdxOf e') =
      ⟨remap e', poolDir e'⟩ := by
  by_cases he : e' = e
  · rw [he, Function.update_self]
  · have hidx : poolIdxOf e' ≠ poolIdxOf e := by
      revert he
      cases e <;> cases e' <;> decide
    rw [Function.update_of_ne hidx, h]

end R8000Plus.Vendor
