import R8000Plus.Fa.OrphanRows

/-!
Next-hop rows under valid NF rows: what each kind of row write does to them,
looked at after every single word.
-/

namespace R8000Plus.Fa

open Effects

/-! ### Tables and the flows of their rows -/

/-- The next-hop words of the flow an NF row was last written for. -/
abbrev NhOf := Nat → Option (List Word)

/-- Two next hops are the same row of hardware words. -/
def SameNextHop (nh nh' : List Word) : Prop := ∀ j < NH_ROW_WORDS, ofWords nh j = ofWords nh' j

namespace Tables

/-- The words of the next-hop row that the NF row at `idx` refers to. -/
def nhUnder (rows : Tables) (idx : Nat) : Nat → Word :=
  rows (nhRowAt (nfNhIdx (rows (nfRowAt idx))).toNat)

/-- Each valid NF row refers to an NH row that holds the words written for the
flow of that row. -/
def NhKept (rows : Tables) (nhOf : NhOf) : Prop :=
  ∀ idx nh, nfValid (rows (nfRowAt idx)) = true → nhOf idx = some nh →
    ∀ j < NH_ROW_WORDS, rows.nhUnder idx j = ofWords nh j

/-- Each valid NF row refers to the NH row of its own index. -/
def OwnNh (rows : Tables) (nhOf : NhOf) : Prop :=
  ∀ idx nh, nfValid (rows (nfRowAt idx)) = true → nhOf idx = some nh →
    (nfNhIdx (rows (nfRowAt idx))).toNat = idx

/-- Equal in all that next hops depend on. -/
structure SameNh (rows rows' : Tables) : Prop where
  valid : ∀ idx, nfValid (rows' (nfRowAt idx)) = nfValid (rows (nfRowAt idx))
  nhIdx : ∀ idx, nfNhIdx (rows' (nfRowAt idx)) = nfNhIdx (rows (nfRowAt idx))
  nh : ∀ idx, rows' (nhRowAt idx) = rows (nhRowAt idx)

theorem SameNh.refl (rows : Tables) : rows.SameNh rows := ⟨fun _ => rfl, fun _ => rfl, fun _ => rfl⟩

theorem SameNh.trans {a b c : Tables} (hab : a.SameNh b) (hbc : b.SameNh c) : a.SameNh c where
  valid := fun idx => (hbc.valid idx).trans (hab.valid idx)
  nhIdx := fun idx => (hbc.nhIdx idx).trans (hab.nhIdx idx)
  nh := fun idx => (hbc.nh idx).trans (hab.nh idx)

theorem SameNh.nhUnder {a b : Tables} (h : a.SameNh b) (idx : Nat) :
    b.nhUnder idx = a.nhUnder idx := by
  rw [Tables.nhUnder, Tables.nhUnder, h.nhIdx, h.nh]

theorem SameNh.nhKept {a b : Tables} (h : a.SameNh b) (nhOf : NhOf) :
    b.NhKept nhOf ↔ a.NhKept nhOf := by
  simp only [NhKept, h.valid, h.nhUnder]

theorem SameNh.ownNh {a b : Tables} (h : a.SameNh b) (nhOf : NhOf) :
    b.OwnNh nhOf ↔ a.OwnNh nhOf := by
  simp only [OwnNh, h.valid, h.nhIdx]

theorem nfNhIdx_congr {row row' : Nat → Word} (h : row 1 = row' 1) :
    nfNhIdx row = nfNhIdx row' := by
  rw [nfNhIdx, nfNhIdx, h]

/-- The counters lie below the next-hop index. -/
theorem nfNhIdx_counted (word c1 : Word) :
    ((((word &&& ~~~7) ||| (c1 &&& 7)) >>> 8) &&& 0x7F) = ((word >>> 8) &&& 0x7F) := by
  apply BitVec.eq_of_getLsbD_eq
  intro i hi
  interval_cases i <;> simp

theorem sameNh_counted (rows : Tables) (counters : Nat → Option (Word × Word)) :
    rows.SameNh (rows.counted counters) where
  valid := fun idx => nfValid_congr (counted_apply _ _ _ 6 (by omega))
  nhIdx := fun idx => by
    have hmoved := nfNhIdx_counted (rows (nfRowAt idx) 1)
    simp only [nfNhIdx, counted, nfRowAt]
    cases counters idx with
    | none => rfl
    | some c => exact hmoved c.2
  nh := fun idx => by
    funext j
    simp [counted, nhRowAt]

theorem SameNh.setRow {a b : Tables} (h : a.SameNh b) (addr : RowAddr) (words : Nat → Word) :
    (a.setRow addr words).SameNh (b.setRow addr words) := by
  have hword : ∀ idx j, j < NF_ROW_WORDS → addr = nfRowAt idx →
      b.setRow addr words (nfRowAt idx) j = a.setRow addr words (nfRowAt idx) j := by
    rintro idx j hj rfl
    rw [setRow_apply _ _ _ _ (by rwa [nfRowAt_words]),
      setRow_apply _ _ _ _ (by rwa [nfRowAt_words])]
  constructor
  · intro idx
    by_cases haddr : addr = nfRowAt idx
    · exact nfValid_congr (hword idx 6 (by decide) haddr)
    · rw [setRow_of_ne _ _ (Ne.symm haddr), setRow_of_ne _ _ (Ne.symm haddr), h.valid]
  · intro idx
    by_cases haddr : addr = nfRowAt idx
    · exact nfNhIdx_congr (hword idx 1 (by decide) haddr)
    · rw [setRow_of_ne _ _ (Ne.symm haddr), setRow_of_ne _ _ (Ne.symm haddr), h.nhIdx]
  · intro idx
    by_cases haddr : addr = nhRowAt idx
    · subst haddr
      simp only [Tables.setRow, setFrom, Function.update_self, h.nh]
    · rw [setRow_of_ne _ _ (Ne.symm haddr), setRow_of_ne _ _ (Ne.symm haddr), h.nh]

/-- The tables with the words of one row from `m` on written, on a device that
performs the write. -/
def partly (rows : Tables) (store : RowStore) (addr : RowAddr) (words : List Word) (m : Nat) :
    Tables :=
  match store with
  | .wordByWord => rows.setFrom addr (ofWords words) m
  | .onWordZero => if m = 0 then rows.setRow addr (ofWords words) else rows

theorem partly_zero (rows : Tables) (store : RowStore) (addr : RowAddr) (words : List Word) :
    rows.partly store addr words 0 = rows.setRow addr (ofWords words) := by
  cases store <;> rfl

theorem partly_of_ne (rows : Tables) (store : RowStore) {addr other : RowAddr}
    (words : List Word) (m : Nat) (h : other ≠ addr) :
    rows.partly store addr words m other = rows other := by
  cases store with
  | wordByWord => exact rows.setFrom_of_ne _ _ h
  | onWordZero =>
      simp only [partly]
      split
      · exact rows.setRow_of_ne _ h
      · rfl

/-- A word of a row that is being written is the old one or the new one. -/
theorem partly_apply (rows : Tables) (store : RowStore) (addr : RowAddr) (words : List Word)
    (m j : Nat) :
    rows.partly store addr words m addr j = rows addr j ∨
      rows.partly store addr words m addr j = ofWords words j := by
  have hfrom : ∀ k, rows.setFrom addr (ofWords words) k addr j = rows addr j ∨
      rows.setFrom addr (ofWords words) k addr j = ofWords words j := by
    intro k
    simp only [setFrom, Function.update_self]
    split
    · exact .inr rfl
    · exact .inl rfl
  cases store with
  | wordByWord => exact hfrom m
  | onWordZero =>
      simp only [partly]
      split
      · exact hfrom 0
      · exact .inl rfl

theorem setFrom_below (rows : Tables) (addr : RowAddr) (words : Nat → Word) {k j : Nat}
    (h : j < k) : rows.setFrom addr words k addr j = rows addr j := by
  simp [setFrom, Nat.not_le.mpr h]

end Tables

/-- The flow of a row is recorded by the writes of the callback that installs
it, and by no others. -/
def NhOf.note (nhOf : NhOf) (nh : Option (List Word)) (idx : Nat) : NhOf :=
  match nh with
  | some words => Function.update nhOf idx (some words)
  | none => nhOf

/-- With the words from `m` on sent to the NF row at `idx`. -/
def NhOf.partly (nhOf : NhOf) (store : RowStore) (nh : Option (List Word)) (idx m : Nat) : NhOf :=
  if store = .wordByWord ∨ m = 0 then nhOf.note nh idx else nhOf

namespace Tables

variable {rows : Tables} {nhOf : NhOf}

/-- Writing an NH row word by word does no harm exactly when the valid NF row of
that index, if any, belongs to a flow with the same next hop. -/
theorem nhWrite_kept_iff (hkept : rows.NhKept nhOf) (hown : rows.OwnNh nhOf) (store : RowStore)
    (idx : Nat) (words : List Word) :
    (∀ m < NH_ROW_WORDS, (rows.partly store (nhRowAt idx) words m).NhKept nhOf) ↔
      (nfValid (rows (nfRowAt idx)) = true → ∀ nh, nhOf idx = some nh →
        SameNextHop nh words) := by
  have hnf : ∀ m k, rows.partly store (nhRowAt idx) words m (nfRowAt k) = rows (nfRowAt k) :=
    fun m k => rows.partly_of_ne store words m (nfRowAt_ne_nhRowAt k idx)
  constructor
  · intro h hvalid nh hnh j hj
    have hafter := h 0 (by decide) idx nh (by rwa [hnf]) hnh j hj
    rw [nhUnder, hnf, hown idx nh hvalid hnh, partly_zero] at hafter
    rw [← hafter]
    exact setRow_apply _ _ _ _ hj
  · intro hsame m _ k nh hvalid hnh j hj
    rw [hnf] at hvalid
    have hk := hown k nh hvalid hnh
    have hold := hkept k nh hvalid hnh j hj
    rw [nhUnder, hk] at hold
    rw [nhUnder, hnf, hk]
    by_cases hidx : k = idx
    · subst hidx
      rcases rows.partly_apply store (nhRowAt k) words m j with heq | heq
      · rw [heq, hold]
      · rw [heq, hsame hvalid nh hnh j hj]
    · have hne : nhRowAt k ≠ nhRowAt idx := fun heq => hidx (congrArg RowAddr.idx heq)
      rw [rows.partly_of_ne store words m hne, hold]

/-- Writing a valid NF row for a flow whose next hop is in place does no harm
where rows are stored whole. Where they are stored word by word the valid bit
comes before the next-hop index, so the old index must do meanwhile. -/
theorem nfWrite_kept_iff (hkept : rows.NhKept nhOf) (store : RowStore) (idx : Nat)
    (nh row : List Word) (hvalid : nfValid (ofWords row) = true)
    (hidx : (nfNhIdx (ofWords row)).toNat = idx)
    (hnh : ∀ j < NH_ROW_WORDS, rows (nhRowAt idx) j = ofWords nh j) :
    (∀ m < NF_ROW_WORDS, (rows.partly store (nfRowAt idx) row m).NhKept
        (nhOf.partly store (some nh) idx m)) ↔
      (store = .wordByWord → ∀ j < NH_ROW_WORDS, rows.nhUnder idx j = ofWords nh j) := by
  have hnhRow : ∀ m k, rows.partly store (nfRowAt idx) row m (nhRowAt k) = rows (nhRowAt k) :=
    fun m k => rows.partly_of_ne store row m (nfRowAt_ne_nhRowAt idx k).symm
  constructor
  · rintro h rfl j hj
    have h6 : (rows.partly .wordByWord (nfRowAt idx) row 2) (nfRowAt idx) 6 = ofWords row 6 :=
      rows.setFrom_apply _ _ 2 6 (by decide) (by rw [nfRowAt_words]; decide)
    have h1 : (rows.partly .wordByWord (nfRowAt idx) row 2) (nfRowAt idx) 1 =
        rows (nfRowAt idx) 1 := rows.setFrom_below _ _ (by decide)
    have hmid := h 2 (by decide) idx nh (by rw [nfValid_congr h6, hvalid])
      (by simp [NhOf.partly, NhOf.note]) j hj
    rwa [nhUnder, nfNhIdx_congr h1, hnhRow] at hmid
  · intro hold m hm k words hv hk j hj
    by_cases hki : k = idx
    · subst hki
      have hnew : nfNhIdx (rows.partly store (nfRowAt k) row m (nfRowAt k)) =
          nfNhIdx (ofWords row) → nhOf.partly store (some nh) k m k = some nh →
          (rows.partly store (nfRowAt k) row m).nhUnder k j = ofWords words j := by
        intro hnhIdx hflow
        rw [nhUnder, hnhIdx, hidx, hnhRow, hnh j hj,
          Option.some.inj (hflow.symm.trans hk)]
      cases store with
      | wordByWord =>
          have hflow : nhOf.partly .wordByWord (some nh) k m k = some nh := by
            simp [NhOf.partly, NhOf.note]
          rcases rows.partly_apply .wordByWord (nfRowAt k) row m 1 with h1 | h1
          · rw [nhUnder, nfNhIdx_congr h1, hnhRow, ← Option.some.inj (hflow.symm.trans hk)]
            exact hold rfl j hj
          · exact hnew (nfNhIdx_congr h1) hflow
      | onWordZero =>
          by_cases hm0 : m = 0
          · subst hm0
            have h1 : rows.partly .onWordZero (nfRowAt k) row 0 (nfRowAt k) 1 = ofWords row 1 :=
              rows.setRow_apply _ _ 1 (by rw [nfRowAt_words]; decide)
            exact hnew (nfNhIdx_congr h1) (by simp [NhOf.partly, NhOf.note])
          · have hrows : rows.partly .onWordZero (nfRowAt k) row m = rows := by
              simp [partly, hm0]
            rw [hrows] at hv ⊢
            exact hkept k words hv (by simpa [NhOf.partly, hm0] using hk) j hj
    · have hne : nfRowAt k ≠ nfRowAt idx := fun heq => hki (nfRowAt_injective heq)
      have hrow := rows.partly_of_ne store row m hne
      have hflow : nhOf.partly store (some nh) idx m k = nhOf k := by
        simp only [NhOf.partly, NhOf.note]
        split
        · exact Function.update_of_ne hki _ _
        · rfl
      rw [hrow] at hv
      rw [nhUnder, hrow, hnhRow]
      exact hkept k words hv (hflow ▸ hk) j hj

/-- Writing an NF row back with the valid bit cleared does no harm: the valid
bit goes before the next-hop index does. -/
theorem clear_kept (hkept : rows.NhKept nhOf) (store : RowStore) (idx : Nat) (row : List Word)
    (hinvalid : nfValid (ofWords row) = false) (m : Nat) :
    (rows.partly store (nfRowAt idx) row m).NhKept nhOf := by
  have hnhRow : ∀ k, rows.partly store (nfRowAt idx) row m (nhRowAt k) = rows (nhRowAt k) :=
    fun k => rows.partly_of_ne store row m (nfRowAt_ne_nhRowAt idx k).symm
  intro k words hv hk j hj
  by_cases hki : k = idx
  · subst hki
    have h6 : rows.partly store (nfRowAt k) row m (nfRowAt k) 6 ≠ ofWords row 6 := by
      intro h6
      rw [nfValid_congr h6, hinvalid] at hv
      exact Bool.false_ne_true hv
    have hold : ∀ j, j = 1 ∨ j = 6 →
        rows.partly store (nfRowAt k) row m (nfRowAt k) j = rows (nfRowAt k) j := by
      intro j hj
      cases store with
      | wordByWord =>
          have hm : 6 < m := by
            by_contra hle
            exact h6 (rows.setFrom_apply _ _ m 6 (by omega) (by rw [nfRowAt_words]; decide))
          exact rows.setFrom_below _ _ (by omega)
      | onWordZero =>
          by_cases hm : m = 0
          · subst hm
            exact absurd (rows.setRow_apply _ _ 6 (by rw [nfRowAt_words]; decide)) h6
          · simp [partly, hm]
    rw [nfValid_congr (hold 6 (.inr rfl))] at hv
    rw [nhUnder, nfNhIdx_congr (hold 1 (.inl rfl)), hnhRow]
    exact hkept k words hv hk j hj
  · have hne : nfRowAt k ≠ nfRowAt idx := fun heq => hki (nfRowAt_injective heq)
    rw [rows.partly_of_ne store row m hne] at hv
    rw [nhUnder, rows.partly_of_ne store row m hne, hnhRow]
    exact hkept k words hv hk j hj

theorem nhWrite_ownNh (hown : rows.OwnNh nhOf) (idx : Nat) (words : Nat → Word) :
    (rows.setRow (nhRowAt idx) words).OwnNh nhOf := by
  intro k nh hv hk
  rw [rows.setRow_of_ne _ (nfRowAt_ne_nhRowAt k idx)] at hv ⊢
  exact hown k nh hv hk

theorem nfWrite_ownNh (hown : rows.OwnNh nhOf) (idx : Nat) (nh row : List Word)
    (hidx : (nfNhIdx (ofWords row)).toNat = idx) :
    (rows.setRow (nfRowAt idx) (ofWords row)).OwnNh (nhOf.note (some nh) idx) := by
  intro k words hv hk
  by_cases hki : k = idx
  · subst hki
    have h1 := rows.setRow_apply (nfRowAt k) (ofWords row) 1 (by rw [nfRowAt_words]; decide)
    rw [nfNhIdx_congr h1, hidx]
  · have hne : nfRowAt k ≠ nfRowAt idx := fun heq => hki (nfRowAt_injective heq)
    rw [rows.setRow_of_ne _ hne] at hv ⊢
    exact hown k words hv (by rwa [NhOf.note, Function.update_of_ne hki] at hk)

theorem clear_ownNh (hown : rows.OwnNh nhOf) (idx : Nat) (row : List Word)
    (hinvalid : nfValid (ofWords row) = false) :
    (rows.setRow (nfRowAt idx) (ofWords row)).OwnNh nhOf := by
  intro k words hv hk
  by_cases hki : k = idx
  · subst hki
    have h6 := rows.setRow_apply (nfRowAt k) (ofWords row) 6 (by rw [nfRowAt_words]; decide)
    rw [nfValid_congr h6, hinvalid] at hv
    exact absurd hv Bool.false_ne_true
  · have hne : nfRowAt k ≠ nfRowAt idx := fun heq => hki (nfRowAt_injective heq)
    rw [rows.setRow_of_ne _ hne] at hv ⊢
    exact hown k words hv hk

end Tables

end R8000Plus.Fa
