import Mathlib.Tactic

/-!
Interned keys: each holder of a key refers to it by an index, and the holders of
one key share its index. `Coherent` is that indices and keys name each other
among the holders; how many hold an index is its reference count.
-/

namespace R8000Plus.Effects

variable {ι κ : Type}

/-- Among the holders, indices and keys correspond one to one. -/
def Coherent (holders : List (ι × κ)) : Prop :=
  ∀ a ∈ holders, ∀ b ∈ holders, a.1 = b.1 ↔ a.2 = b.2

namespace Coherent

variable {holders holders' : List (ι × κ)} {i : ι} {k : κ}

theorem nil : Coherent ([] : List (ι × κ)) := fun _ ha => absurd ha List.not_mem_nil

theorem mono (h : Coherent holders) (hsub : ∀ a ∈ holders', a ∈ holders) : Coherent holders' :=
  fun a ha b hb => h a (hsub a ha) b (hsub b hb)

theorem perm (h : Coherent holders) (hperm : holders'.Perm holders) : Coherent holders' :=
  h.mono fun _ ha => hperm.mem_iff.mp ha

/-- One more holder of a key that is held. -/
theorem share (h : Coherent holders) (hmem : (i, k) ∈ holders) : Coherent ((i, k) :: holders) :=
  h.mono fun a ha => by
    rcases List.mem_cons.mp ha with rfl | hold
    · exact hmem
    · exact hold

/-- The first holder of a key, at an index nobody holds. -/
theorem intern (h : Coherent holders) (hi : ∀ a ∈ holders, a.1 ≠ i)
    (hk : ∀ a ∈ holders, a.2 ≠ k) : Coherent ((i, k) :: holders) := by
  intro a ha b hb
  rcases List.mem_cons.mp ha with rfl | ha <;> rcases List.mem_cons.mp hb with rfl | hb
  · exact iff_of_true rfl rfl
  · exact iff_of_false (hi b hb).symm (hk b hb).symm
  · exact iff_of_false (hi a ha) (hk a ha)
  · exact h a ha b hb

/-- As many indices are held as keys. -/
theorem card_eq [DecidableEq ι] [DecidableEq κ] (h : Coherent holders) :
    (holders.map Prod.fst).toFinset.card = (holders.map Prod.snd).toFinset.card := by
  have hfst : (holders.map Prod.fst).toFinset = holders.toFinset.image Prod.fst := by
    ext
    simp
  have hsnd : (holders.map Prod.snd).toFinset = holders.toFinset.image Prod.snd := by
    ext
    simp
  rw [hfst, hsnd, Finset.card_image_of_injOn, Finset.card_image_of_injOn]
  · intro a ha b hb heq
    rw [Finset.mem_coe, List.mem_toFinset] at ha hb
    exact Prod.ext ((h a ha b hb).mpr heq) heq
  · intro a ha b hb heq
    rw [Finset.mem_coe, List.mem_toFinset] at ha hb
    exact Prod.ext heq ((h a ha b hb).mp heq)

end Coherent

/-! ### Reference counts -/

section Count

variable [DecidableEq ι] (holders : List (ι × κ)) (i : ι)

def held : Nat := holders.countP fun a => a.1 = i

theorem held_le_length : held holders i ≤ holders.length := List.countP_le_length

theorem held_eq_zero_iff : held holders i = 0 ↔ ∀ a ∈ holders, a.1 ≠ i := by
  simp [held, List.countP_eq_zero]

theorem held_perm {holders holders' : List (ι × κ)} (hperm : holders'.Perm holders) :
    held holders' i = held holders i :=
  hperm.countP_eq _

@[simp] theorem held_cons_self (k : κ) : held ((i, k) :: holders) i = held holders i + 1 := by
  simp [held]

theorem held_cons_of_ne {j : ι} (hne : j ≠ i) (k : κ) : held ((j, k) :: holders) i = held holders i := by
  simp [held, hne]

end Count

end R8000Plus.Effects
