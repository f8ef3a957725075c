import R8000Plus.Effects.FreeList
import R8000Plus.Effects.Interning
import R8000Plus.Vendor.FlowCache

/-!
The next-hop pool: `next_hop_t` beside the MACs that the rows of the next-hop
table decode to, for a list of flows that hold an index each. An index is taken
for a new MAC and shared for a known one, and goes back to the free list with
its last holder. Putting an index back while the list is empty breaks the list.
-/

namespace R8000Plus.Vendor

open Effects Fa

/-- Rows and reference counts are in order for these holders. -/
structure Booked (ref : Byte → BitVec 16) (macs : Byte → Mac) (holders : List (Byte × Mac)) :
    Prop where
  coherent : Coherent holders
  stored : ∀ a ∈ holders, a.1.toNat < CTF_MAX_NEXTHOP_TABLE_INDEX ∧ macs a.1 = a.2 ∧ a.2 ≠ 0
  clear : ∀ i : Byte, i.toNat < CTF_MAX_NEXTHOP_TABLE_INDEX → (∀ a ∈ holders, a.1 ≠ i) → macs i = 0
  ref : ∀ i : Byte, i.toNat < CTF_MAX_NEXTHOP_TABLE_INDEX →
    ref i = BitVec.ofNat 16 (held holders i)

/-- And so is the free list. -/
structure Interned (nhi : NextHop) (macs : Byte → Mac) (holders : List (Byte × Mac)) : Prop where
  booked : Booked nhi.ref macs holders
  free : ∃ free, Linked nhi.flist NHOP_FULL nhi.freeIdx free ∧
    ∀ i, i ∈ free ↔ i.toNat < CTF_MAX_NEXTHOP_TABLE_INDEX ∧ ∀ a ∈ holders, a.1 ≠ i

theorem lt_full {i : Byte} (h : i.toNat < CTF_MAX_NEXTHOP_TABLE_INDEX) : i ≠ NHOP_FULL := by
  rintro rfl
  exact absurd h (by decide)

/-! ### Rows and counts -/

namespace Booked

variable {nhi : NextHop} {macs : Byte → Mac} {holders : List (Byte × Mac)}

theorem perm {holders' : List (Byte × Mac)} (h : Booked nhi.ref macs holders)
    (hperm : holders'.Perm holders) : Booked nhi.ref macs holders' := by
  have hmem : ∀ a, a ∈ holders' ↔ a ∈ holders := fun a => hperm.mem_iff
  refine ⟨h.coherent.perm hperm, fun a ha => h.stored a ((hmem a).mp ha), fun i hi hno => ?_,
    fun i hi => ?_⟩
  · exact h.clear i hi fun a ha => hno a ((hmem a).mpr ha)
  · rw [held_perm i hperm]
    exact h.ref i hi

/-- An unknown MAC is in no row. -/
theorem macs_ne (h : Booked nhi.ref macs holders) {mac : Mac} (hne : mac ≠ 0)
    (hnew : ∀ a ∈ holders, a.2 ≠ mac) {i : Byte}
    (hi : i.toNat < CTF_MAX_NEXTHOP_TABLE_INDEX) : macs i ≠ mac := by
  intro heq
  by_cases hheld : ∃ a ∈ holders, a.1 = i
  · obtain ⟨a, ha, rfl⟩ := hheld
    exact hnew a ha ((h.stored a ha).2.1.symm.trans heq)
  · exact hne (heq.symm.trans (h.clear i hi fun a ha hi => hheld ⟨a, ha, hi⟩))

theorem held_lt (hlen : holders.length < 2 ^ 16) (i : Byte) : held holders i < 2 ^ 16 :=
  Nat.lt_of_le_of_lt (held_le_length holders i) hlen

theorem incRef_ref (h : Booked nhi.ref macs holders) {i : Byte} (mac : Mac)
    (j : Byte) (hj : j.toNat < CTF_MAX_NEXTHOP_TABLE_INDEX) :
    (nhi.incRef i).ref j = BitVec.ofNat 16 (held ((i, mac) :: holders) j) := by
  by_cases hji : j = i
  · subst hji
    simp only [NextHop.incRef, Function.update_self, held_cons_self, BitVec.ofNat_add, h.ref j hj]
    rfl
  · simp only [NextHop.incRef, Function.update_of_ne hji]
    rw [held_cons_of_ne holders j (Ne.symm hji)]
    exact h.ref j hj

theorem mem_share {i : Byte} {mac : Mac} (hmem : (i, mac) ∈ holders) (a : Byte × Mac) :
    a ∈ (i, mac) :: holders ↔ a ∈ holders := by
  rw [List.mem_cons]
  exact or_iff_right_of_imp fun heq => heq ▸ hmem

/-- Another flow to a known MAC. -/
theorem share (h : Booked nhi.ref macs holders) {i : Byte} {mac : Mac}
    (hmem : (i, mac) ∈ holders) : Booked (nhi.incRef i).ref macs ((i, mac) :: holders) := by
  have hin := mem_share hmem
  refine ⟨h.coherent.share hmem, fun a ha => h.stored a ((hin a).mp ha), fun j hj hno => ?_,
    h.incRef_ref mac⟩
  exact h.clear j hj fun a ha => hno a ((hin a).mpr ha)

/-- The first flow to a MAC, at an index nobody holds. -/
theorem intern (h : Booked nhi.ref macs holders) {i : Byte} {mac : Mac}
    (hlt : i.toNat < CTF_MAX_NEXTHOP_TABLE_INDEX) (hno : ∀ a ∈ holders, a.1 ≠ i)
    (hne : mac ≠ 0) (hnew : ∀ a ∈ holders, a.2 ≠ mac) :
    Booked (nhi.getNext.incRef i).ref (Function.update macs i mac) ((i, mac) :: holders) := by
  refine ⟨h.coherent.intern hno hnew, ?_, ?_, fun j hj => h.incRef_ref mac j hj⟩
  · intro a ha
    rcases List.mem_cons.mp ha with rfl | hold
    · exact ⟨hlt, Function.update_self .., hne⟩
    · rw [Function.update_of_ne (hno a hold)]
      exact h.stored a hold
  · intro j hj hfree
    have hne' : j ≠ i := fun heq => hfree (i, mac) (by simp) heq.symm
    rw [Function.update_of_ne hne']
    exact h.clear j hj fun a ha => hfree a (List.mem_cons_of_mem _ ha)

section Release

variable {i : Byte} {mac : Mac}

/-- The count of an index after one of its holders is gone. -/
theorem decRef_ref (h : Booked nhi.ref macs ((i, mac) :: holders)) (j : Byte)
    (hj : j.toNat < CTF_MAX_NEXTHOP_TABLE_INDEX) :
    (nhi.decRef i).ref j = BitVec.ofNat 16 (held holders j) := by
  have href := h.ref j hj
  by_cases hji : j = i
  · subst hji
    rw [held_cons_self, BitVec.ofNat_add] at href
    simp only [NextHop.decRef, Function.update_self, href]
    exact BitVec.add_sub_cancel _ _
  · rw [held_cons_of_ne holders j (Ne.symm hji)] at href
    simp only [NextHop.decRef, Function.update_of_ne hji, href]

theorem lt (h : Booked nhi.ref macs ((i, mac) :: holders)) :
    i.toNat < CTF_MAX_NEXTHOP_TABLE_INDEX :=
  (h.stored (i, mac) (by simp)).1

theorem ref_ne_zero (h : Booked nhi.ref macs ((i, mac) :: holders))
    (hlen : holders.length + 1 < 2 ^ 16) : nhi.ref i ≠ 0 := by
  have hlt : held ((i, mac) :: holders) i < 2 ^ 16 := held_lt (by simpa using hlen) i
  rw [h.ref i h.lt, held_cons_self]
  intro hzero
  have hnat := congrArg BitVec.toNat hzero
  rw [held_cons_self] at hlt
  rw [BitVec.toNat_ofNat, Nat.mod_eq_of_lt hlt] at hnat
  simp at hnat

/-- The count tells whether the index is still held. -/
theorem decRef_eq_zero_iff (h : Booked nhi.ref macs ((i, mac) :: holders))
    (hlen : holders.length < 2 ^ 16) :
    (nhi.decRef i).ref i = 0 ↔ ∀ a ∈ holders, a.1 ≠ i := by
  rw [h.decRef_ref i h.lt, ← held_eq_zero_iff]
  constructor
  · intro hzero
    have hnat := congrArg BitVec.toNat hzero
    rw [BitVec.toNat_ofNat, Nat.mod_eq_of_lt (held_lt hlen i)] at hnat
    simpa using hnat
  · intro hzero
    rw [hzero]
    rfl

theorem of_cons (h : Booked nhi.ref macs ((i, mac) :: holders)) : Coherent holders :=
  h.coherent.mono fun _ ha => List.mem_cons_of_mem _ ha

theorem unshare_holders (hheld : ∃ a ∈ holders, a.1 = i) (j : Byte) :
    (∀ a ∈ (i, mac) :: holders, a.1 ≠ j) ↔ ∀ a ∈ holders, a.1 ≠ j := by
  rw [List.forall_mem_cons]
  refine and_iff_right_of_imp fun hall hij => ?_
  obtain ⟨a, ha, heq⟩ := hheld
  exact hall a ha (heq.trans hij)

/-- A flow of several to its MAC goes. -/
theorem unshare (h : Booked nhi.ref macs ((i, mac) :: holders))
    (hheld : ∃ a ∈ holders, a.1 = i) : Booked (nhi.decRef i).ref macs holders := by
  refine ⟨h.of_cons, fun a ha => h.stored a (List.mem_cons_of_mem _ ha), fun j hj hfree => ?_,
    h.decRef_ref⟩
  exact h.clear j hj ((unshare_holders hheld j).mpr hfree)

/-- The last flow to its MAC goes. -/
theorem release (h : Booked nhi.ref macs ((i, mac) :: holders))
    (hlast : ∀ a ∈ holders, a.1 ≠ i) :
    Booked ((nhi.decRef i).putNext i).ref (Function.update macs i 0) holders := by
  refine ⟨h.of_cons, ?_, ?_, h.decRef_ref⟩
  · intro a ha
    rw [Function.update_of_ne (hlast a ha)]
    exact h.stored a (List.mem_cons_of_mem _ ha)
  · intro j hj hfree
    by_cases hji : j = i
    · subst hji
      exact Function.update_self ..
    · rw [Function.update_of_ne hji]
      exact h.clear j hj (List.forall_mem_cons.mpr ⟨Ne.symm hji, hfree⟩)

end Release

end Booked

/-! ### The free list -/

namespace Interned

variable {nhi : NextHop} {macs : Byte → Mac} {holders : List (Byte × Mac)}

theorem perm {holders' : List (Byte × Mac)} (h : Interned nhi macs holders)
    (hperm : holders'.Perm holders) : Interned nhi macs holders' := by
  refine ⟨h.booked.perm hperm, ?_⟩
  have hmem : ∀ a, a ∈ holders' ↔ a ∈ holders := fun a => hperm.mem_iff
  simpa only [hmem] using h.free

/-- Unless the list has run out, its head is an index nobody holds. -/
theorem head_free (h : Interned nhi macs holders) (hfull : nhi.freeIdx ≠ NHOP_FULL) :
    nhi.freeIdx.toNat < CTF_MAX_NEXTHOP_TABLE_INDEX ∧ ∀ a ∈ holders, a.1 ≠ nhi.freeIdx := by
  obtain ⟨free, hlinked, hmem⟩ := h.free
  cases free with
  | nil => exact absurd hlinked hfull
  | cons i rest =>
      rw [hlinked.1]
      exact (hmem i).mp (by simp)

/-- The list has run out exactly when every index is held. -/
theorem full_iff (h : Interned nhi macs holders) :
    nhi.freeIdx = NHOP_FULL ↔
      ∀ i : Byte, i.toNat < CTF_MAX_NEXTHOP_TABLE_INDEX → ∃ a ∈ holders, a.1 = i := by
  obtain ⟨free, hlinked, hmem⟩ := h.free
  rw [hlinked.head_eq_nil_iff]
  constructor
  · rintro rfl i hi
    by_contra hnone
    have hin := (hmem i).mpr ⟨hi, fun a ha heq => hnone ⟨a, ha, heq⟩⟩
    exact List.not_mem_nil hin
  · intro hall
    refine List.eq_nil_iff_forall_not_mem.mpr fun i hi => ?_
    obtain ⟨hlt, hno⟩ := (hmem i).mp hi
    obtain ⟨a, ha, heq⟩ := hall i hlt
    exact hno a ha heq

/-- So it has run out when as many MACs are held as there are indices. -/
theorem full_iff_card (h : Interned nhi macs holders) :
    nhi.freeIdx = NHOP_FULL ↔
      CTF_MAX_NEXTHOP_TABLE_INDEX ≤ (holders.map Prod.snd).toFinset.card := by
  let used := (holders.map Prod.fst).toFinset.image BitVec.toNat
  have hcard : used.card = (holders.map Prod.snd).toFinset.card := by
    rw [← h.booked.coherent.card_eq]
    exact Finset.card_image_of_injective _ fun _ _ => BitVec.eq_of_toNat_eq
  have hmem : ∀ n, n ∈ used ↔ ∃ a ∈ holders, a.1.toNat = n := by simp [used]
  have hsub : used ⊆ Finset.range CTF_MAX_NEXTHOP_TABLE_INDEX := by
    intro n hn
    obtain ⟨a, ha, rfl⟩ := (hmem n).mp hn
    exact Finset.mem_range.mpr (h.booked.stored a ha).1
  rw [h.full_iff, ← hcard]
  constructor
  · intro hall
    have hback : Finset.range CTF_MAX_NEXTHOP_TABLE_INDEX ⊆ used := by
      intro n hn
      have hlt : n < 128 := Finset.mem_range.mp hn
      have hnat : (BitVec.ofNat 8 n).toNat = n := by
        rw [BitVec.toNat_ofNat]
        exact Nat.mod_eq_of_lt (by omega)
      obtain ⟨a, ha, heq⟩ := hall (BitVec.ofNat 8 n) (by rw [hnat]; exact hlt)
      exact (hmem n).mpr ⟨a, ha, by rw [heq, hnat]⟩
    simpa using Finset.card_le_card hback
  · intro hle i hi
    have heq := Finset.eq_of_subset_of_card_le hsub (by simpa using hle)
    have hin : i.toNat ∈ used := by
      rw [heq]
      exact Finset.mem_range.mpr hi
    obtain ⟨a, ha, hai⟩ := (hmem _).mp hin
    exact ⟨a, ha, BitVec.eq_of_toNat_eq hai⟩

theorem share (h : Interned nhi macs holders) {i : Byte} {mac : Mac} (hmem : (i, mac) ∈ holders) :
    Interned (nhi.incRef i) macs ((i, mac) :: holders) := by
  refine ⟨h.booked.share hmem, ?_⟩
  obtain ⟨free, hlinked, hfree⟩ := h.free
  exact ⟨free, hlinked, fun j => by simp only [hfree, Booked.mem_share hmem]⟩

/-- The first flow to a MAC takes the head of the free list. -/
theorem intern (h : Interned nhi macs holders) {mac : Mac} (hfull : nhi.freeIdx ≠ NHOP_FULL)
    (hne : mac ≠ 0) (hnew : ∀ a ∈ holders, a.2 ≠ mac) :
    Interned (nhi.getNext.incRef nhi.freeIdx) (Function.update macs nhi.freeIdx mac)
      ((nhi.freeIdx, mac) :: holders) := by
  obtain ⟨hlt, hno⟩ := h.head_free hfull
  refine ⟨h.booked.intern hlt hno hne hnew, ?_⟩
  obtain ⟨free, hlinked, hmem⟩ := h.free
  cases free with
  | nil => exact absurd hlinked hfull
  | cons i rest =>
      have hi : nhi.freeIdx = i := hlinked.1
      have hnodup := List.nodup_cons.mp hlinked.nodup
      refine ⟨rest, ?_, fun j => ?_⟩
      · rw [hi] at hlinked ⊢
        simpa only [NextHop.incRef, NextHop.getNext, hi] using hlinked.pop 0
      · simp only [List.forall_mem_cons, hi]
        have hj := hmem j
        simp only [List.mem_cons] at hj
        constructor
        · intro hin
          have hrest := hj.mp (.inr hin)
          exact ⟨hrest.1, fun heq => hnodup.1 (heq ▸ hin), hrest.2⟩
        · rintro ⟨hjlt, hji, hjno⟩
          rcases hj.mpr ⟨hjlt, hjno⟩ with rfl | hin
          · exact absurd rfl hji
          · exact hin

theorem unshare {i : Byte} {mac : Mac} (h : Interned nhi macs ((i, mac) :: holders))
    (hheld : ∃ a ∈ holders, a.1 = i) : Interned (nhi.decRef i) macs holders := by
  refine ⟨h.booked.unshare hheld, ?_⟩
  obtain ⟨free, hlinked, hmem⟩ := h.free
  exact ⟨free, hlinked, fun j => by rw [hmem, Booked.unshare_holders hheld]⟩

/-- The last flow to its MAC goes, while the free list is not empty. -/
theorem release {i : Byte} {mac : Mac} (h : Interned nhi macs ((i, mac) :: holders))
    (hlast : ∀ a ∈ holders, a.1 ≠ i) (hfull : nhi.freeIdx ≠ NHOP_FULL) :
    Interned ((nhi.decRef i).putNext i) (Function.update macs i 0) holders := by
  refine ⟨h.booked.release hlast, ?_⟩
  obtain ⟨free, hlinked, hmem⟩ := h.free
  have hin : i ∉ free := fun hin => ((hmem i).mp hin).2 (i, mac) (by simp) rfl
  refine ⟨i :: free, ?_, fun j => ?_⟩
  · have hpush := hlinked.push hin (lt_full h.booked.lt)
    have hsome : (nhi.decRef i).freeIdx ≠ NHOP_FULL := hfull
    simp only [NextHop.putNext, if_neg hsome]
    exact hpush
  · rw [List.mem_cons, hmem, List.forall_mem_cons]
    constructor
    · rintro (rfl | ⟨hj, -, hno⟩)
      · exact ⟨h.booked.lt, hlast⟩
      · exact ⟨hj, hno⟩
    · rintro ⟨hj, hno⟩
      by_cases hji : j = i
      · exact .inl hji
      · exact .inr ⟨hj, Ne.symm hji, hno⟩

end Interned

/-- An index put back while the list is empty becomes its own successor, and the
list never ends. -/
theorem putNext_full (nhi : NextHop) {i : Byte} (hfull : nhi.freeIdx = NHOP_FULL)
    (hi : i ≠ NHOP_FULL) (free : List Byte) :
    ¬ Linked (nhi.putNext i).flist NHOP_FULL (nhi.putNext i).freeIdx free := by
  refine not_linked_of_self ?_ hi free
  simp [NextHop.putNext, hfull]

/-- The next index taken is that one, and so is the one after it. -/
theorem putNext_full_getNext (nhi : NextHop) (i : Byte) (hfull : nhi.freeIdx = NHOP_FULL) :
    (nhi.putNext i).peekNext = i ∧ (nhi.putNext i).getNext.peekNext = i := by
  simp [NextHop.putNext, NextHop.peekNext, NextHop.getNext, hfull]

/-- From any index on, the reset list counts up to its end. -/
theorem linked_reset (n k : Nat) (hk : k + n = CTF_MAX_NEXTHOP_TABLE_INDEX) :
    Linked NextHop.reset.flist NHOP_FULL (BitVec.ofNat 8 k)
      ((List.range' k n).map (BitVec.ofNat 8)) := by
  induction n generalizing k with
  | zero =>
      obtain rfl : k = CTF_MAX_NEXTHOP_TABLE_INDEX := hk
      rfl
  | succ n ih =>
      have hlt : k < 128 := by
        rw [CTF_MAX_NEXTHOP_TABLE_INDEX] at hk
        omega
      have hnext : NextHop.reset.flist (BitVec.ofNat 8 k) = BitVec.ofNat 8 (k + 1) := by
        simp [NextHop.reset, BitVec.ofNat_add]
      refine ⟨rfl, lt_full ?_, ?_⟩
      · rw [BitVec.toNat_ofNat, Nat.mod_eq_of_lt (by omega)]
        exact hlt
      · rw [hnext]
        exact ih (k + 1) (by omega)

theorem interned_reset : Interned NextHop.reset (fun _ => 0) [] := by
  refine ⟨⟨.nil, by simp, fun _ _ _ => rfl, fun _ _ => by simp [NextHop.reset, held]⟩, ?_⟩
  refine ⟨_, linked_reset CTF_MAX_NEXTHOP_TABLE_INDEX 0 rfl, fun i => ?_⟩
  simp only [List.mem_map, List.mem_range', List.not_mem_nil, false_implies, implies_true, and_true]
  constructor
  · rintro ⟨_, ⟨k, hk, rfl⟩, rfl⟩
    rw [BitVec.toNat_ofNat]
    exact Nat.lt_of_le_of_lt (Nat.mod_le _ _) (by omega)
  · exact fun hi => ⟨i.toNat, ⟨i.toNat, hi, by omega⟩, BitVec.ofNat_toNat 8 i⟩

end R8000Plus.Vendor
