import Mathlib.Tactic
import Mathlib.Data.Finset.Card
import Mathlib.Data.Fintype.Basic

/-!
Tables of cells, each empty or holding one key. A table where no key stands
twice is a finite map from keys to cells; filling an empty cell and emptying a
cell are insertion and removal of the key.
-/

namespace R8000Plus.Effects

abbrev Cells (ι κ : Type) := ι → Option κ

namespace Cells

variable {ι κ : Type}

/-- No key stands in two cells. -/
def Unique (cells : Cells ι κ) : Prop :=
  ∀ ⦃i j k⦄, cells i = some k → cells j = some k → i = j

section Update

variable [DecidableEq ι]

theorem Unique.clear {cells : Cells ι κ} (h : cells.Unique) (i : ι) :
    Unique (Function.update cells i none) := by
  intro a b k ha hb
  have hai : a ≠ i := by
    rintro rfl
    simp at ha
  have hbi : b ≠ i := by
    rintro rfl
    simp at hb
  rw [Function.update_of_ne hai] at ha
  rw [Function.update_of_ne hbi] at hb
  exact h ha hb

theorem unique_put_iff {cells : Cells ι κ} {i : ι} (hempty : cells i = none) (k : κ) :
    Unique (Function.update cells i (some k)) ↔ cells.Unique ∧ ∀ j, cells j ≠ some k := by
  constructor
  · intro h
    refine ⟨fun a b c ha hb => ?_, fun j hj => ?_⟩
    · have hai : a ≠ i := by
        rintro rfl
        simp [hempty] at ha
      have hbi : b ≠ i := by
        rintro rfl
        simp [hempty] at hb
      exact h (by rwa [Function.update_of_ne hai]) (by rwa [Function.update_of_ne hbi])
    · have hji : j ≠ i := by
        rintro rfl
        simp [hempty] at hj
      exact hji (h (k := k) (by rwa [Function.update_of_ne hji]) (by simp))
  · rintro ⟨hunique, hfresh⟩ a b c ha hb
    by_cases hai : a = i <;> by_cases hbi : b = i
    · rw [hai, hbi]
    · subst hai
      rw [Function.update_of_ne hbi] at hb
      simp only [Function.update_self, Option.some.injEq] at ha
      exact absurd (ha ▸ hb) (hfresh b)
    · subst hbi
      rw [Function.update_of_ne hai] at ha
      simp only [Function.update_self, Option.some.injEq] at hb
      exact absurd (hb ▸ ha) (hfresh a)
    · rw [Function.update_of_ne hai] at ha
      rw [Function.update_of_ne hbi] at hb
      exact hunique ha hb

/-- Filling a cell, whatever it held. -/
theorem Unique.fill_iff {cells : Cells ι κ} (h : cells.Unique) (i : ι) (k : κ) :
    Unique (Function.update cells i (some k)) ↔ ∀ j, j ≠ i → cells j ≠ some k := by
  have hempty : Function.update cells i none i = none := Function.update_self ..
  have hput := unique_put_iff hempty k
  rw [Function.update_idem, and_iff_right (h.clear i)] at hput
  rw [hput]
  refine forall_congr' fun j => ?_
  by_cases hji : j = i
  · subst hji
    simp
  · simp only [hji, Function.update_of_ne hji, ne_eq, not_false_eq_true, forall_const]

end Update

section Finite

variable [Fintype ι]

def occupied (cells : Cells ι κ) : Finset ι :=
  Finset.univ.filter fun i => (cells i).isSome

@[simp] theorem mem_occupied {cells : Cells ι κ} {i : ι} :
    i ∈ cells.occupied ↔ (cells i).isSome = true := by
  simp [occupied]

variable [DecidableEq κ]

def keys (cells : Cells ι κ) : Finset κ :=
  Finset.univ.biUnion fun i => (cells i).toFinset

@[simp] theorem mem_keys {cells : Cells ι κ} {k : κ} : k ∈ cells.keys ↔ ∃ i, cells i = some k := by
  simp [keys]

/-- Without repeated keys there are as many keys as cells in use. -/
theorem Unique.card_occupied {cells : Cells ι κ} (h : cells.Unique) :
    cells.occupied.card = cells.keys.card := by
  refine Finset.card_bij (fun i hi => (cells i).get (mem_occupied.mp hi)) ?_ ?_ ?_
  · intro i hi
    exact mem_keys.mpr ⟨i, (Option.some_get _).symm⟩
  · intro i hi j hj heq
    refine h (k := (cells i).get (mem_occupied.mp hi)) (Option.some_get _).symm ?_
    rw [heq, Option.some_get]
  · intro k hk
    obtain ⟨i, hi⟩ := mem_keys.mp hk
    exact ⟨i, mem_occupied.mpr (by simp [hi]), by simp [hi]⟩

variable [DecidableEq ι]

theorem keys_put {cells : Cells ι κ} {i : ι} (hempty : cells i = none) (k : κ) :
    keys (Function.update cells i (some k)) = insert k cells.keys := by
  ext c
  simp only [mem_keys, Finset.mem_insert]
  constructor
  · rintro ⟨j, hj⟩
    by_cases hji : j = i
    · subst hji
      simp only [Function.update_self, Option.some.injEq] at hj
      exact .inl hj.symm
    · rw [Function.update_of_ne hji] at hj
      exact .inr ⟨j, hj⟩
  · rintro (rfl | ⟨j, hj⟩)
    · exact ⟨i, by simp⟩
    · have hji : j ≠ i := by
        rintro rfl
        simp [hempty] at hj
      exact ⟨j, by rwa [Function.update_of_ne hji]⟩

theorem Unique.keys_clear {cells : Cells ι κ} (h : cells.Unique) {i : ι} {k : κ}
    (hi : cells i = some k) : keys (Function.update cells i none) = cells.keys.erase k := by
  ext c
  simp only [mem_keys, Finset.mem_erase]
  constructor
  · rintro ⟨j, hj⟩
    have hji : j ≠ i := by
      rintro rfl
      simp at hj
    rw [Function.update_of_ne hji] at hj
    exact ⟨fun hc => hji (h (hc ▸ hj) hi), j, hj⟩
  · rintro ⟨hne, j, hj⟩
    have hji : j ≠ i := by
      rintro rfl
      exact hne (Option.some.inj (hj.symm.trans hi))
    exact ⟨j, by rwa [Function.update_of_ne hji]⟩

end Finite

end Cells

end R8000Plus.Effects
