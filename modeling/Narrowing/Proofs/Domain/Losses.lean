import Narrowing.Proofs.Domain.History

/-!
What a domain has to say about the values it lost. Each change is looked at on its own, but with the
bits of today: what a bound cut off stays out of reach of later changes, so its bits are still what
they were, and a value removed between the bounds is told by its own record. So every value that was
lost is listed once, for the change that cost it.
-/

namespace Narrowing.Domain

variable {d : Domain} {c : Change}

/-- Questions about values within the bits are answered from the bits, also beyond the bounds. -/
theorem isPresent_setPresent {u : Int} (h : d.isPresent u = .ok (d.bit u)) (v : Int) (b : Bool)
    (n : Nat) : (d.setPresent v b n).isPresent u = .ok ((d.setPresent v b n).bit u) := by
  obtain ⟨shape, lower, upper, size⟩ := d
  cases shape with
  | interval => rfl
  | listed offset present =>
      simp only [isPresent, setPresent] at h ⊢
      split at h
      · cases h
      · next hle =>
        split at h
        · next hbit =>
          have hi := (Array.getElem?_eq_some_iff.1 hbit).1
          have hsize : (u - offset).toNat < (present.setIfInBounds (v - offset).toNat b).size := by
            simpa using hi
          simp only [if_neg hle, Array.getElem?_eq_getElem hsize, bit, not_lt.1 hle, decide_true,
            Bool.true_and, Array.getD_eq_getD_getElem?, Option.getD_some]
        · cases h

theorem isPresent_applyAll {u : Int} (h : d.isPresent u = .ok (d.bit u)) (cs : List Change) :
    (d.applyAll cs).isPresent u = .ok ((d.applyAll cs).bit u) := by
  induction cs generalizing d with
  | nil => exact h
  | cons c cs ih =>
      apply ih
      cases c with
      | narrowed => exact h
      | punctured v => exact isPresent_setPresent h v false _

/-- Changes do not touch the bits of values that are out of the bounds already. -/
theorem bit_applyAll (h : d.WellFormed) {cs : List Change} (hfit : d.FitAll cs) {v : Int}
    (hv : v < d.lower ∨ d.upper < v) : (d.applyAll cs).bit v = d.bit v := by
  induction cs generalizing d with
  | nil => rfl
  | cons c cs ih =>
      obtain ⟨hc, hfit⟩ := hfit
      have hwf := wellFormed_apply h hc
      cases c with
      | narrowed fromLower fromUpper toLower toUpper fromSize toSize =>
          refine ih hwf hfit ?_
          have := lower_le hc.2.1.1
          have := le_upper hc.2.1.2.1
          show v < toLower ∨ toUpper < v
          omega
      | punctured u =>
          obtain ⟨hlisted, -, hl, hu⟩ := hc
          obtain ⟨offset, present, hs⟩ := exists_listed hlisted
          obtain ⟨ho, hi⟩ := h.index_lt hs (le_of_lt hl) (le_of_lt hu)
          have hne : v ≠ u := by omega
          calc ((d.apply (.punctured u)).applyAll cs).bit v
              = (d.apply (.punctured u)).bit v := ih hwf hfit (by simpa [apply] using hv)
            _ = d.bit v := by rw [apply, bit_setPresent hs ho hi, if_neg hne]

/-- The values that the first one of some changes cost the domain are listed once each, whatever
changes came after it. -/
theorem lostTo_eq (h : d.WellFormed) (hc : c.Fits d) {cs : List Change}
    (hfit : (d.apply c).FitAll cs) :
    ∃ l : List Int, (∀ limit, ((d.apply c).applyAll cs).lostTo limit c = .ok (l.take limit)) ∧ l.Nodup ∧
      ∀ v, v ∈ l ↔ v ∈ d.members ∧ v ∉ (d.apply c).members := by
  set d' := (d.apply c).applyAll cs with hd'
  have hwf := wellFormed_apply h hc
  have hmembers := members_apply h hc
  have hbits : ∀ u, d.lower ≤ u → u ≤ d.upper → d'.isPresent u = .ok (d'.bit u) := fun u hl hu =>
    isPresent_applyAll (d := d) (h.isPresent_eq u hl hu) (c :: cs)
  cases c with
  | narrowed fromLower fromUpper toLower toUpper fromSize toSize =>
      obtain ⟨⟨rfl, rfl, -⟩, ⟨hlo, hhi, hle⟩, -⟩ := hc
      have hlo' := lower_le hlo
      have hlo'' := le_upper hlo
      have hhi' := lower_le hhi
      have hhi'' := le_upper hhi
      have hout : ∀ v, v < toLower ∨ toUpper < v → d'.bit v = d.bit v := fun v hv =>
        bit_applyAll hwf hfit hv
      refine ⟨d'.present (toLower - d.lower).toNat d.lower ++
        d'.present (d.upper - toUpper).toNat (toUpper + 1), fun limit => ?_, ?_, fun v => ?_⟩
      · have hbelow := listUp_eq_present (d := d') (toLower - d.lower).toNat limit d.lower
          fun u hl hu => hbits u hl (by omega)
        have habove := fun n => listUp_eq_present (d := d') (d.upper - toUpper).toNat n (toUpper + 1)
          fun u hl hu => hbits u (by omega) (by omega)
        simp only [lostTo, hbelow, habove, bind, Except.bind, pure, Except.pure, List.length_take]
        rw [List.take_append]
        congr 3
        omega
      · refine List.Nodup.append (nodup_present ..) (nodup_present ..) fun v hv hv' => ?_
        have := (mem_present.1 hv).1
        have := (mem_present.1 hv').1
        omega
      · rw [hmembers, List.mem_append, mem_present, mem_present, Finset.mem_filter, mem_members]
        simp only [Change.Keeps]
        by_cases hv : v < toLower ∨ toUpper < v
        · rw [hout v hv]
          constructor
          · rintro (⟨hv, hbit⟩ | ⟨hv, hbit⟩)
            · exact ⟨⟨⟨by omega, by omega⟩, hbit⟩, by omega⟩
            · exact ⟨⟨⟨by omega, by omega⟩, hbit⟩, by omega⟩
          · rintro ⟨⟨⟨hl, hu⟩, hbit⟩, -⟩
            rcases hv with hv | hv
            · exact Or.inl ⟨⟨by omega, by omega⟩, hbit⟩
            · exact Or.inr ⟨⟨by omega, by omega⟩, hbit⟩
        · constructor
          · rintro (⟨hv', -⟩ | ⟨hv', -⟩) <;> exact absurd (by omega) hv
          · rintro ⟨hm, hnot⟩
            exact absurd ⟨hm, by omega, by omega⟩ hnot
  | punctured u =>
      refine ⟨[u], fun limit => rfl, List.nodup_singleton u, fun v => ?_⟩
      rw [hmembers, Finset.mem_filter, List.mem_singleton]
      constructor
      · rintro rfl
        exact ⟨hc.2.1, fun hv => hv.2 rfl⟩
      · rintro ⟨hv, hnot⟩
        by_contra hne
        exact hnot ⟨hv, hne⟩

/-- A domain lists the values that a series of changes cost it, each of them once. -/
theorem lostToAll_eq (h : d.WellFormed) {cs : List Change} (hfit : d.FitAll cs) :
    ∃ l : List Int, (∀ limit, (d.applyAll cs).lostToAll limit cs = .ok (l.take limit)) ∧ l.Nodup ∧
      ∀ v, v ∈ l ↔ v ∈ d.members ∧ v ∉ (d.applyAll cs).members := by
  induction cs generalizing d with
  | nil => exact ⟨[], fun limit => by simp [lostToAll], List.nodup_nil, by simp⟩
  | cons c cs ih =>
      obtain ⟨hc, hfit⟩ := hfit
      have hwf := wellFormed_apply h hc
      obtain ⟨l, hl, hnodup, hmem⟩ := lostTo_eq h hc hfit
      obtain ⟨l', hl', hnodup', hmem'⟩ := ih hwf hfit
      have hsub : (d.apply c).members ⊆ d.members := by
        rw [members_apply h hc]
        exact Finset.filter_subset _ _
      have hsub' := members_applyAll_subset hwf hfit
      refine ⟨l ++ l', fun limit => ?_, hnodup.append hnodup' fun v hv hv' => ?_, fun v => ?_⟩
      · show (((d.apply c).applyAll cs).lostTo limit c >>= fun lost =>
          ((d.apply c).applyAll cs).lostToAll (limit - lost.length) cs >>= fun rest =>
            pure (lost ++ rest)) = _
        rw [hl limit]
        simp only [bind, Except.bind, hl', pure, Except.pure, List.length_take]
        rw [List.take_append]
        congr 3
        omega
      · exact ((hmem v).1 hv).2 ((hmem' v).1 hv').1
      · rw [List.mem_append, hmem, hmem']
        show _ ↔ v ∈ d.members ∧ v ∉ ((d.apply c).applyAll cs).members
        constructor
        · rintro (⟨hv, hnot⟩ | ⟨hv, hnot⟩)
          · exact ⟨hv, fun hv' => hnot (hsub' hv')⟩
          · exact ⟨hsub hv, hnot⟩
        · rintro ⟨hv, hnot⟩
          by_cases hv' : v ∈ (d.apply c).members
          · exact Or.inr ⟨hv', hnot⟩
          · exact Or.inl ⟨hv, hv'⟩

end Narrowing.Domain
