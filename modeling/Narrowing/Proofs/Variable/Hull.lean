import Narrowing.Variable.Hull
import Narrowing.Proofs.Variable.Answers

/-!
The hull of what remains of a variable. On the way inwards a bound passes values that have to go and
nothing else, and it stops only at a value that stays, so everything that is cut off has to go, and
what is left, if anything is, lies between values that stay.
-/

namespace Narrowing.Variable

variable {x : Variable} {s : Domains} {goes : Int → Bool}

theorem raise_eq_ok (hwf : s.table.WellFormed) {limit : Int} {n : Nat} {candidate : Option Int}
    {bound b : Int} (hfirst : FirstFrom (x.current s.table) bound candidate)
    (hpassed : ∀ u ∈ x.current s.table, u < bound → goes u = true)
    (h : x.raise s goes limit n candidate bound = .ok b) :
    (∀ u ∈ x.current s.table, u < b → goes u = true) ∧
      ∀ u ∈ x.current s.table, b ≤ u →
        ∃ v ∈ x.current s.table, v ≤ u ∧ (limit < v ∨ goes v = false) := by
  induction n generalizing candidate bound with
  | zero => exact nomatch h
  | succ n ih =>
      cases candidate with
      | none =>
          obtain rfl := Except.ok.inj h
          exact ⟨hpassed, fun u hu hle => absurd (hfirst u hu) (not_lt.2 hle)⟩
      | some v =>
          obtain ⟨hv, hbv, hleast⟩ := hfirst
          rw [raise] at h
          split at h
          · next hgo =>
            obtain ⟨bound', hbound', h⟩ := Checked.bind_eq_ok h
            obtain ⟨candidate', hnext, h⟩ := Checked.bind_eq_ok h
            obtain rfl := Value.eq_of_check hbound'
            refine ih ((describes_answer hwf x).next hnext) (fun u hu hlt => ?_) h
            by_cases hub : u < bound
            · exact hpassed u hu hub
            · have := hleast u hu (not_lt.1 hub)
              rw [show u = v by omega]
              exact hgo.2
          · next hstop =>
            obtain rfl := Except.ok.inj h
            refine ⟨hpassed, fun u hu hle => ⟨v, hv, hleast u hu hle, ?_⟩⟩
            by_cases hlimit : limit < v
            · exact Or.inl hlimit
            · exact Or.inr (by simpa [not_lt.1 hlimit] using hstop)

theorem sink_eq_ok (hwf : s.table.WellFormed) {limit : Int} {n : Nat} {candidate : Option Int}
    {bound b : Int} (hlast : LastUpTo (x.current s.table) bound candidate)
    (hpassed : ∀ u ∈ x.current s.table, bound < u → goes u = true)
    (h : x.sink s goes limit n candidate bound = .ok b) :
    b ≤ bound ∧ (∀ u ∈ x.current s.table, b < u → goes u = true) ∧
      ∀ u ∈ x.current s.table, u ≤ b →
        ∃ v ∈ x.current s.table, u ≤ v ∧ (v < limit ∨ goes v = false) := by
  induction n generalizing candidate bound with
  | zero => exact nomatch h
  | succ n ih =>
      cases candidate with
      | none =>
          obtain rfl := Except.ok.inj h
          exact ⟨le_refl _, hpassed, fun u hu hle => absurd (hlast u hu) (not_lt.2 hle)⟩
      | some v =>
          obtain ⟨hv, hvb, hgreatest⟩ := hlast
          rw [sink] at h
          split at h
          · next hgo =>
            obtain ⟨bound', hbound', h⟩ := Checked.bind_eq_ok h
            obtain ⟨candidate', hprevious, h⟩ := Checked.bind_eq_ok h
            obtain rfl := Value.eq_of_check hbound'
            refine (ih ((describes_answer hwf x).previous hprevious) (fun u hu hlt => ?_) h).imp_left
              fun hle => by omega
            by_cases hub : bound < u
            · exact hpassed u hu hub
            · have := hgreatest u hu (not_lt.1 hub)
              rw [show u = v by omega]
              exact hgo.2
          · next hstop =>
            obtain rfl := Except.ok.inj h
            refine ⟨le_refl _, hpassed, fun u hu hle => ⟨v, hv, hgreatest u hu hle, ?_⟩⟩
            by_cases hlimit : v < limit
            · exact Or.inl hlimit
            · exact Or.inr (by simpa [not_lt.1 hlimit] using hstop)

/-- What the hull cuts off has to go, and what is left lies between values that stay. Its upper bound
is not above all values. -/
theorem hull_eq_ok (hwf : s.table.WellFormed) {lo hi : Int} (h : x.hull s goes = .ok (lo, hi)) :
    (∀ u ∈ x.current s.table, u < lo ∨ hi < u → goes u = true) ∧
      (∀ u ∈ x.current s.table, lo ≤ u → ∃ v ∈ x.current s.table, v ≤ u ∧ goes v = false) ∧
      (∀ u ∈ x.current s.table, lo ≤ u → u ≤ hi →
        ∃ v ∈ x.current s.table, u ≤ v ∧ goes v = false) ∧
      ∃ u ∈ x.current s.table, hi ≤ u := by
  have hanswers := describes_answer hwf x
  obtain ⟨low, hlow, h⟩ := Checked.bind_eq_ok h
  obtain ⟨high, hhigh, h⟩ := Checked.bind_eq_ok h
  obtain ⟨lo', hlo', h⟩ := Checked.bind_eq_ok h
  obtain ⟨hi', hhi', h⟩ := Checked.bind_eq_ok h
  obtain ⟨rfl, rfl⟩ := Prod.mk.inj (Except.ok.inj h)
  obtain ⟨hlowmem, hleast⟩ := hanswers.lower hlow
  obtain ⟨hhighmem, hgreatest⟩ := hanswers.upper hhigh
  obtain ⟨hbelow, hfirst⟩ := raise_eq_ok hwf (firstFrom_self hlowmem)
    (fun u hu hlt => absurd (hleast u hu) (not_le.2 hlt)) hlo'
  obtain ⟨hle, habove, hlast⟩ := sink_eq_ok hwf (lastUpTo_self hhighmem)
    (fun u hu hlt => absurd (hgreatest u hu) (not_le.2 hlt)) hhi'
  refine ⟨fun u hu hout => hout.elim (hbelow u hu) (habove u hu), fun u hu hge => ?_,
    fun u hu hge hle => ?_, high, hhighmem, hle⟩
  · obtain ⟨v, hv, hvu, hlimit | hstays⟩ := hfirst u hu hge
    · exact absurd (hgreatest v hv) (not_le.2 hlimit)
    · exact ⟨v, hv, hvu, hstays⟩
  · obtain ⟨v, hv, huv, hlimit | hstays⟩ := hlast u hu hle
    · exact absurd (hge.trans huv) (not_le.2 hlimit)
    · exact ⟨v, hv, huv, hstays⟩

end Narrowing.Variable
