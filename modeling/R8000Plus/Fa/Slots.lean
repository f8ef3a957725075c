import R8000Plus.Fa.Rows

/-!
The slot table `fa_flows`. The three functions here are the bodies the source
runs with `fa_flows_lock` held; a scan with `break` is `List.find?` over the
slots in order.
-/

namespace R8000Plus.Fa

/-- `unsigned long` on the 32-bit ARM core of this router. -/
abbrev Cookie := BitVec 32

def FA_MAX_LIVE_FLOWS : Nat := 32

structure FaLiveFlow where
  cookie : Cookie
  nhIdx : Word
  nfIdx : Word
  inUse : Bool
  deriving DecidableEq, Repr

abbrev Slot := Fin FA_MAX_LIVE_FLOWS

abbrev Slots := Slot → FaLiveFlow

/-- Static storage is zero when the module is loaded. -/
def Slots.loaded : Slots := fun _ => ⟨0, 0, 0, false⟩

/-- The index both rows of a slot use; row 0 is left alone. -/
def Slot.idx (i : Slot) : Nat := i.val + 1

def Slot.word (i : Slot) : Word := BitVec.ofNat 32 i.idx

namespace Slots

/-- The slot `fa_flow_alloc` takes: the first one not in use. -/
def firstFree (flows : Slots) : Option Slot :=
  (List.finRange FA_MAX_LIVE_FLOWS).find? fun i => !(flows i).inUse

def taken (cookie : Cookie) (i : Slot) : FaLiveFlow :=
  { inUse := true, cookie := cookie, nhIdx := i.word, nfIdx := i.word }

def alloc (cookie : Cookie) (flows : Slots) : Option Slot × Slots :=
  match flows.firstFree with
  | some i => (some i, Function.update flows i (taken cookie i))
  | none => (none, flows)

def find (cookie : Cookie) (flows : Slots) : Option Slot :=
  (List.finRange FA_MAX_LIVE_FLOWS).find? fun i =>
    (flows i).inUse && (flows i).cookie == cookie

def free (i : Slot) (flows : Slots) : Slots :=
  Function.update flows i { flows i with inUse := false }

/-- The loop of `fa_accel_exit`: how many slots were still open, and the table
with all of them given back. -/
def releaseOpen (flows : Slots) : Nat × Slots :=
  ((List.finRange FA_MAX_LIVE_FLOWS).countP fun i => (flows i).inUse,
    fun i => { flows i with inUse := false })

/-- An in-use slot names its own rows. -/
def Indexed (flows : Slots) : Prop :=
  ∀ i, (flows i).inUse = true → (flows i).nhIdx = i.word ∧ (flows i).nfIdx = i.word

theorem firstFree_some {flows : Slots} {i : Slot} (h : flows.firstFree = some i) :
    (flows i).inUse = false := by
  have := List.find?_some h
  simpa using this

theorem firstFree_none {flows : Slots} :
    flows.firstFree = none ↔ ∀ i, (flows i).inUse = true := by
  simp [firstFree]

theorem find_some {flows : Slots} {cookie : Cookie} {i : Slot}
    (h : flows.find cookie = some i) :
    (flows i).inUse = true ∧ (flows i).cookie = cookie := by
  have := List.find?_some h
  simpa using this

theorem find_none {flows : Slots} {cookie : Cookie} :
    flows.find cookie = none ↔ ∀ i, (flows i).inUse = true → (flows i).cookie ≠ cookie := by
  simp [find]

@[simp] theorem taken_inUse (cookie : Cookie) (i : Slot) : (taken cookie i).inUse = true := rfl

@[simp] theorem taken_cookie (cookie : Cookie) (i : Slot) :
    (taken cookie i).cookie = cookie := rfl

@[simp] theorem taken_nhIdx (cookie : Cookie) (i : Slot) : (taken cookie i).nhIdx = i.word := rfl

@[simp] theorem taken_nfIdx (cookie : Cookie) (i : Slot) : (taken cookie i).nfIdx = i.word := rfl

theorem alloc_some {flows : Slots} {cookie : Cookie} {i : Slot}
    (h : flows.firstFree = some i) :
    flows.alloc cookie = (some i, Function.update flows i (taken cookie i)) := by
  simp [alloc, h]

theorem alloc_none {flows : Slots} {cookie : Cookie} (h : flows.firstFree = none) :
    flows.alloc cookie = (none, flows) := by
  simp [alloc, h]

@[simp] theorem free_self (flows : Slots) (i : Slot) :
    flows.free i i = { flows i with inUse := false } := by
  simp [free]

theorem free_of_ne (flows : Slots) {i j : Slot} (h : j ≠ i) : flows.free i j = flows j := by
  simp [free, h]

theorem Indexed.alloc {flows : Slots} (h : flows.Indexed) (cookie : Cookie) :
    (flows.alloc cookie).2.Indexed := by
  cases hf : flows.firstFree with
  | none => rwa [alloc_none hf]
  | some i =>
      rw [alloc_some hf]
      intro j hj
      by_cases hji : j = i
      · subst hji
        simp
      · simp only [Function.update_of_ne hji] at hj ⊢
        exact h j hj

theorem Indexed.free {flows : Slots} (h : flows.Indexed) (i : Slot) :
    (flows.free i).Indexed := by
  intro j hj
  by_cases hji : j = i
  · subst hji
    simp at hj
  · rw [free_of_ne flows hji] at hj ⊢
    exact h j hj

theorem loaded_indexed : Slots.loaded.Indexed := by
  intro i hi
  simp [Slots.loaded] at hi

end Slots

theorem Slot.idx_pos (i : Slot) : 1 ≤ i.idx := Nat.le_add_left 1 i.val

theorem Slot.idx_le (i : Slot) : i.idx ≤ FA_MAX_LIVE_FLOWS := i.isLt

theorem Slot.idx_injective : Function.Injective Slot.idx := by
  intro i j h
  exact Fin.ext (Nat.succ.inj h)

theorem Slot.idx_ne {i j : Slot} (h : j ≠ i) : j.idx ≠ i.idx := fun heq =>
  h (Slot.idx_injective heq)

@[simp] theorem Slot.word_toNat (i : Slot) : i.word.toNat = i.idx := by
  have h := i.idx_le
  simp only [FA_MAX_LIVE_FLOWS] at h
  simp only [Slot.word, BitVec.toNat_ofNat]
  omega

end R8000Plus.Fa
