import Narrowing.Proofs.Domain.Members

/-!
New domains are well-formed and have the members that they were asked to have.
-/

namespace Narrowing.Domain

theorem wellFormed_interval {lo hi : Int} (hle : lo ≤ hi) (hlo : Value.InRange lo)
    (hhi : Value.InRange hi) : (interval lo hi).WellFormed where
  lower_mem := (mem_members_of_interval rfl).2 ⟨le_refl lo, hle⟩
  upper_mem := (mem_members_of_interval rfl).2 ⟨hle, le_refl hi⟩
  size_eq := by
    have hmembers : (interval lo hi).members = Finset.Icc lo hi := by
      ext v
      rw [mem_members_of_interval rfl, Finset.mem_Icc]
      rfl
    rw [hmembers, Int.card_Icc]
    simp only [interval]
    congr 1
    omega
  least_le := hlo.1
  le_greatest := hhi.2
  isPresent_eq _ _ _ := rfl

/-- A domain with room for a bit per value between its bounds answers for all of them. -/
theorem isPresent_listed {lo hi : Int} {present : Array Bool} {n : Nat}
    (hsize : present.size = (hi - lo + 1).toNat) (v : Int) (hl : lo ≤ v) (hu : v ≤ hi) :
    isPresent ⟨.listed lo present, lo, hi, n⟩ v = .ok (bit ⟨.listed lo present, lo, hi, n⟩ v) := by
  have hi' : (v - lo).toNat < present.size := by omega
  simp only [isPresent, bit, if_neg (not_lt.2 hl), Array.getElem?_eq_getElem hi', hl, decide_true,
    Bool.true_and, Array.getD_eq_getD_getElem?, Option.getD_some]

theorem wellFormed_full {lo hi : Int} {d : Domain} (h : full lo hi = some d)
    (hlo : Value.InRange lo) (hhi : Value.InRange hi) : d.WellFormed := by
  unfold full at h
  simp only at h
  split at h
  · next hle =>
    obtain rfl := Option.some.inj h
    set d : Domain := ⟨.listed lo (Array.replicate (hi - lo + 1).toNat true), lo, hi,
      (hi - lo + 1).toNat⟩ with hd
    have hmem : ∀ v, v ∈ d.members ↔ lo ≤ v ∧ v ≤ hi := by
      intro v
      rw [mem_members]
      refine and_iff_left_of_imp fun hv => ?_
      have hindex : (v - lo).toNat < (hi - lo + 1).toNat := by
        have := hv.1
        have := hv.2
        simp only [hd] at *
        omega
      have hl : lo ≤ v := hv.1
      simp [bit, hd, hl, hindex]
    have hmembers : d.members = Finset.Icc lo hi := by
      ext v
      rw [hmem, Finset.mem_Icc]
    refine ⟨(hmem _).2 ⟨le_refl lo, hle⟩, (hmem _).2 ⟨hle, le_refl hi⟩, ?_, hlo.1, hhi.2,
      isPresent_listed Array.size_replicate⟩
    rw [hmembers, Int.card_Icc]
    simp only [hd]
    congr 1
    omega
  · exact nomatch h

/-- Setting bits leaves set those that were set. -/
theorem getD_foldl_set (lo : Int) (values : List Int) (bits : Array Bool) (i : Nat) :
    (values.foldl (fun bits v => bits.setIfInBounds (v - lo).toNat true) bits).getD i false = true ↔
      bits.getD i false = true ∨ (i < bits.size ∧ ∃ v ∈ values, (v - lo).toNat = i) := by
  induction values generalizing bits with
  | nil => simp
  | cons v values ih =>
      rw [List.foldl_cons, ih]
      simp only [Array.getD_eq_getD_getElem?, Array.size_setIfInBounds, List.mem_cons,
        exists_eq_or_imp, Array.getElem?_setIfInBounds]
      by_cases hv : (v - lo).toNat = i
      · subst hv
        by_cases hs : (v - lo).toNat < bits.size <;> simp [hs]
      · simp [hv]

theorem size_foldl_set (lo : Int) (values : List Int) (bits : Array Bool) :
    (values.foldl (fun bits v => bits.setIfInBounds (v - lo).toNat true) bits).size = bits.size := by
  induction values generalizing bits with
  | nil => rfl
  | cons v values ih =>
      rw [List.foldl_cons, ih]
      simp

theorem head?_le_of_pairwise {values : List Int} (hsorted : values.Pairwise (· < ·)) {lo v : Int}
    (hlo : values.head? = some lo) (hv : v ∈ values) : lo ≤ v := by
  cases values with
  | nil => exact nomatch hlo
  | cons w rest =>
      obtain rfl := Option.some.inj hlo
      rcases List.mem_cons.1 hv with rfl | hv
      · exact le_refl v
      · exact le_of_lt ((List.pairwise_cons.1 hsorted).1 v hv)

theorem le_getLast?_of_pairwise {values : List Int} (hsorted : values.Pairwise (· < ·)) {hi v : Int}
    (hhi : values.getLast? = some hi) (hv : v ∈ values) : v ≤ hi := by
  have hreverse : values.reverse.head? = some hi := by rw [List.head?_reverse, hhi]
  cases hr : values.reverse with
  | nil => simp [hr] at hreverse
  | cons w rest =>
      rw [hr] at hreverse
      obtain rfl := Option.some.inj hreverse
      have hs : values.reverse.Pairwise fun a b => b < a := List.pairwise_reverse.2 hsorted
      rw [hr] at hs
      rcases List.mem_cons.1 (hr ▸ List.mem_reverse.2 hv) with rfl | hv
      · exact le_refl v
      · exact le_of_lt ((List.pairwise_cons.1 hs).1 v hv)

theorem wellFormed_listed {values : List Int} {d : Domain} (h : listed values = some d)
    (hvalues : ∀ v ∈ values, Value.InRange v) : d.WellFormed := by
  unfold listed at h
  simp only at h
  split at h
  · next lo hi hlo hhi =>
    obtain rfl := Option.some.inj h
    have hsorted := Ascending.pairwise_ofList values
    set sorted := Ascending.ofList values with hs
    have hlo' : lo ∈ sorted := List.mem_of_mem_head? hlo
    have hhi' : hi ∈ sorted := List.mem_of_mem_getLast? hhi
    set d : Domain := ⟨.listed lo (sorted.foldl (fun bits v => bits.setIfInBounds (v - lo).toNat true)
      (Array.replicate (hi - lo + 1).toNat false)), lo, hi, sorted.length⟩ with hd
    have hmem : ∀ v, v ∈ d.members ↔ v ∈ sorted := by
      intro v
      rw [mem_members]
      simp only [hd, bit, Bool.and_eq_true, decide_eq_true_eq, getD_foldl_set, Array.size_replicate]
      constructor
      · rintro ⟨⟨hl, -⟩, -, hbit | ⟨-, u, hu, heq⟩⟩
        · simp only [Array.getD_eq_getD_getElem?, Array.getElem?_replicate] at hbit
          split at hbit <;> exact absurd hbit (by decide)
        · have := head?_le_of_pairwise hsorted hlo hu
          obtain rfl : u = v := by omega
          exact hu
      · intro hv
        have hl := head?_le_of_pairwise hsorted hlo hv
        have hu := le_getLast?_of_pairwise hsorted hhi hv
        exact ⟨⟨hl, hu⟩, hl, Or.inr ⟨by omega, v, hv, rfl⟩⟩
    refine ⟨(hmem _).2 hlo', (hmem _).2 hhi', ?_, (hvalues lo (Ascending.mem_ofList.1 hlo')).1,
      (hvalues hi (Ascending.mem_ofList.1 hhi')).2, isPresent_listed ?_⟩
    · have hset : sorted.toFinset = d.members := by
        ext v
        rw [List.mem_toFinset, hmem]
      rw [← hset, List.toFinset_card_of_nodup (hsorted.imp fun hlt => ne_of_lt hlt)]
    · rw [size_foldl_set, Array.size_replicate]
  · exact nomatch h

end Narrowing.Domain
