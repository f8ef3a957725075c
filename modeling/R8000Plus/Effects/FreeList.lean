import Mathlib.Tactic

/-!
Free lists kept in an array of successors: `next i` is the index after `i`, and
a sentinel ends the list. The list an array represents is determined by its
head, never repeats an index, and is changed by writes to its own cells only.
-/

namespace R8000Plus.Effects

variable {ι : Type}

/-- Following `next` from `head` passes the indices of the list and ends at
`nil`. -/
def Linked (next : ι → ι) (nil : ι) : ι → List ι → Prop
  | head, [] => head = nil
  | head, i :: rest => head = i ∧ i ≠ nil ∧ Linked next nil (next i) rest

variable {next : ι → ι} {nil : ι}

@[simp] theorem linked_nil (head : ι) : Linked next nil head [] ↔ head = nil := Iff.rfl

@[simp] theorem linked_cons (head i : ι) (rest : List ι) :
    Linked next nil head (i :: rest) ↔
      head = i ∧ i ≠ nil ∧ Linked next nil (next i) rest := Iff.rfl

theorem Linked.eq {head : ι} {l l' : List ι} (h : Linked next nil head l)
    (h' : Linked next nil head l') : l = l' := by
  induction l generalizing head l' with
  | nil =>
      cases l' with
      | nil => rfl
      | cons i rest => exact absurd (h'.1.symm.trans h) h'.2.1
  | cons i rest ih =>
      cases l' with
      | nil => exact absurd (h.1.symm.trans h') h.2.1
      | cons j rest' =>
          obtain rfl : i = j := h.1.symm.trans h'.1
          rw [ih h.2.2 h'.2.2]

/-- A tail of the list is the list from its own head. -/
theorem Linked.of_append {head : ι} {pre suf : List ι} (h : Linked next nil head (pre ++ suf)) :
    ∃ head', Linked next nil head' suf := by
  induction pre generalizing head with
  | nil => exact ⟨head, h⟩
  | cons i pre ih => exact ih h.2.2

theorem Linked.nodup {head : ι} {l : List ι} (h : Linked next nil head l) : l.Nodup := by
  induction l generalizing head with
  | nil => exact List.nodup_nil
  | cons i rest ih =>
      refine List.nodup_cons.mpr ⟨fun hmem => ?_, ih h.2.2⟩
      -- the list would come back to `i` and go on as it did the first time
      obtain ⟨pre, suf, hsplit⟩ := List.append_of_mem hmem
      have hback : Linked next nil (next i) (pre ++ i :: suf) := hsplit ▸ h.2.2
      obtain ⟨head', hagain⟩ := hback.of_append
      have hsame : suf = rest := hagain.2.2.eq h.2.2
      have hlength := congrArg List.length hsplit
      simp only [List.length_append, List.length_cons, hsame] at hlength
      omega

/-- The list is empty exactly when its head is the sentinel. -/
theorem Linked.head_eq_nil_iff {head : ι} {l : List ι} (h : Linked next nil head l) :
    head = nil ↔ l = [] := by
  cases l with
  | nil => simpa using h
  | cons i rest =>
      simp only [List.cons_ne_nil, iff_false]
      exact h.1 ▸ h.2.1

theorem Linked.congr {next' : ι → ι} {head : ι} {l : List ι} (h : Linked next nil head l)
    (heq : ∀ i ∈ l, next' i = next i) : Linked next' nil head l := by
  induction l generalizing head with
  | nil => exact h
  | cons i rest ih =>
      refine ⟨h.1, h.2.1, ?_⟩
      rw [heq i (by simp)]
      exact ih h.2.2 fun j hj => heq j (by simp [hj])

section Update

variable [DecidableEq ι]

theorem Linked.update {head : ι} {l : List ι} (h : Linked next nil head l) {i : ι} (hi : i ∉ l)
    (v : ι) : Linked (Function.update next i v) nil head l :=
  h.congr fun _ hj => Function.update_of_ne (ne_of_mem_of_not_mem hj hi) v next

/-- Taking the head, whose own cell may be reused. -/
theorem Linked.pop {i : ι} {rest : List ι} (h : Linked next nil i (i :: rest)) (v : ι) :
    Linked (Function.update next i v) nil (next i) rest :=
  h.2.2.update (List.nodup_cons.mp h.nodup).1 v

theorem Linked.push {head i : ι} {l : List ι} (h : Linked next nil head l) (hi : i ∉ l)
    (hnil : i ≠ nil) : Linked (Function.update next i head) nil i (i :: l) := by
  refine ⟨rfl, hnil, ?_⟩
  rw [Function.update_self]
  exact h.update hi head

end Update

/-- An index that is its own successor starts no list. -/
theorem not_linked_of_self {i : ι} (hself : next i = i) (hnil : i ≠ nil) (l : List ι) :
    ¬ Linked next nil i l := by
  intro h
  cases l with
  | nil => exact hnil h
  | cons j rest =>
      obtain rfl : i = j := h.1
      have hagain : Linked next nil i rest := hself ▸ h.2.2
      have hlength := congrArg List.length (h.eq hagain)
      simp at hlength

end R8000Plus.Effects
