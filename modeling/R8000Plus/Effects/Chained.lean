import Mathlib.Tactic

/-!
Hash tables with chained buckets. A table gives every bucket its chain of
entries; what an operation does to one chain is stated for the table's entries
as a whole.
-/

namespace R8000Plus.Effects

/-- The chain of every bucket, in the order it is searched. -/
abbrev Chains (α : Type) := Nat → List α

namespace Chains

variable {α κ : Type}

/-- All entries of a table of `n` buckets, bucket by bucket. -/
def entries (n : Nat) (t : Chains α) : List α := (List.range n).flatMap t

@[simp] theorem mem_entries {n : Nat} {t : Chains α} {a : α} :
    a ∈ entries n t ↔ ∃ b < n, a ∈ t b := by
  simp [entries]

theorem mem_entries_of_mem {n b : Nat} {t : Chains α} {a : α} (hb : b < n) (ha : a ∈ t b) :
    a ∈ entries n t :=
  mem_entries.mpr ⟨b, hb, ha⟩

theorem entries_congr {n : Nat} {t t' : Chains α} (h : ∀ b < n, t' b = t b) :
    entries n t' = entries n t :=
  List.flatMap_congr fun b hb => h b (List.mem_range.mp hb)

/-- One chain can be set before all the others. -/
theorem entries_perm_chain (t : Chains α) {n b : Nat} (hb : b < n) :
    (entries n t).Perm (t b ++ entries n (Function.update t b [])) := by
  induction n with
  | zero => omega
  | succ n ih =>
      simp only [entries, List.range_succ, List.flatMap_append, List.flatMap_cons,
        List.flatMap_nil, List.append_nil] at ih ⊢
      by_cases hbn : b = n
      · subst hbn
        have hrest : (List.range b).flatMap (Function.update t b []) = (List.range b).flatMap t :=
          entries_congr fun c hc => by rw [Function.update_of_ne (by omega)]
        rw [hrest, Function.update_self, List.append_nil]
        exact List.perm_append_comm
      · rw [Function.update_of_ne (Ne.symm hbn), ← List.append_assoc]
        exact (ih (by omega)).append_right (t n)

/-- Taking an entry out of one chain takes it out of the entries. -/
theorem entries_update_perm {t : Chains α} {n b : Nat} (hb : b < n) {a : α} {l : List α}
    (h : (t b).Perm (a :: l)) :
    (entries n t).Perm (a :: entries n (Function.update t b l)) := by
  have hbefore := entries_perm_chain t hb
  have hafter := entries_perm_chain (Function.update t b l) hb
  rw [Function.update_self, Function.update_idem] at hafter
  exact hbefore.trans ((h.append_right _).trans (hafter.symm.cons a))

theorem entries_insert_perm (t : Chains α) {n b : Nat} (hb : b < n) (a : α) :
    (entries n (Function.update t b (a :: t b))).Perm (a :: entries n t) := by
  have hperm := entries_update_perm (t := Function.update t b (a :: t b)) hb (a := a)
    (l := t b) (by rw [Function.update_self])
  rwa [Function.update_idem, Function.update_eq_self] at hperm

section Remove

variable {p : α → Bool} {a : α} {l : List α}

/-- The first entry of a chain with a property, beside the chain without it. -/
theorem perm_cons_eraseP (h : l.find? p = some a) : l.Perm (a :: l.eraseP p) := by
  induction l with
  | nil => simp at h
  | cons x l ih =>
      by_cases hx : p x = true
      · rw [List.find?_cons_of_pos hx, Option.some.injEq] at h
        rw [List.eraseP_cons_of_pos hx, h]
      · rw [List.find?_cons_of_neg hx] at h
        rw [List.eraseP_cons_of_neg hx]
        exact ((ih h).cons x).trans (List.Perm.swap a x _)

theorem entries_remove_perm {t : Chains α} {n b : Nat} (hb : b < n)
    (h : (t b).find? p = some a) :
    (entries n t).Perm (a :: entries n (Function.update t b ((t b).eraseP p))) :=
  entries_update_perm hb (perm_cons_eraseP h)

end Remove

/-- Rewriting entries in place. -/
theorem entries_map (f : α → α) (n : Nat) (t : Chains α) :
    entries n (fun b => (t b).map f) = (entries n t).map f := by
  simp only [entries, List.map_flatMap]

/-! ### Tables as finite maps -/

section Keyed

variable (key : α → κ) (hash : κ → Nat)

/-- Every entry is in the bucket its key hashes to. -/
def Placed (t : Chains α) : Prop := ∀ b, ∀ a ∈ t b, hash (key a) = b

variable [DecidableEq κ]

def lookup (t : Chains α) (k : κ) : Option α := (t (hash k)).find? fun a => key a = k

variable {key hash} {t : Chains α} {n : Nat}

theorem lookup_key {k : κ} {a : α} (h : lookup key hash t k = some a) : key a = k := by
  have hfound := List.find?_some h
  simpa using hfound

theorem mem_of_lookup (hlt : ∀ k, hash k < n) {k : κ} {a : α}
    (h : lookup key hash t k = some a) : a ∈ entries n t :=
  mem_entries_of_mem (hlt k) (List.mem_of_find?_eq_some h)

/-- In a placed table without repeated keys, looking an entry's key up gives the
entry. -/
theorem lookup_eq_some_iff (hplaced : Placed key hash t) (hlt : ∀ k, hash k < n)
    (hnodup : ((entries n t).map key).Nodup) {k : κ} {a : α} :
    lookup key hash t k = some a ↔ a ∈ entries n t ∧ key a = k := by
  constructor
  · exact fun h => ⟨mem_of_lookup hlt h, lookup_key h⟩
  · rintro ⟨hmem, rfl⟩
    obtain ⟨b, hb, ha⟩ := mem_entries.mp hmem
    obtain rfl : hash (key a) = b := hplaced b a ha
    cases hfound : lookup key hash t (key a) with
    | none =>
        have hnone := List.find?_eq_none.mp hfound a ha
        simp at hnone
    | some x =>
        have hx := mem_of_lookup hlt hfound
        rw [List.inj_on_of_nodup_map hnodup hx hmem (lookup_key hfound)]

theorem lookup_eq_none_iff (hplaced : Placed key hash t) (hlt : ∀ k, hash k < n) {k : κ} :
    lookup key hash t k = none ↔ ∀ a ∈ entries n t, key a ≠ k := by
  constructor
  · rintro h a hmem rfl
    obtain ⟨b, hb, ha⟩ := mem_entries.mp hmem
    obtain rfl : hash (key a) = b := hplaced b a ha
    have hnone := List.find?_eq_none.mp h a ha
    simp at hnone
  · intro h
    refine List.find?_eq_none.mpr fun a ha => ?_
    simpa using h a (mem_entries_of_mem (hlt k) ha)

end Keyed

end Chains

end R8000Plus.Effects
