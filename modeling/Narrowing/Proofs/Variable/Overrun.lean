import Narrowing.Variable.Hull
import Narrowing.Proofs.Variable.Portrayal

/-!
Bounds that are moved inwards, up to the end. A bound moves over values only, so it gets along with
one step for each of them, and the lower bound never leaves the machine values but by the step up from
the greatest one. That step is made only if every value has to go and the greatest machine value is
one of them. The upper bound has no such step: it stops at a value that need not go, where the lower
bound has stopped before.
-/

namespace Narrowing.Variable

variable {x : Variable} {s : Domains} {V : Finset Int} {bound : Int} {candidate : Option Int} {n : Nat}

/-- All values have to go, and the greatest machine value is one of them. -/
structure Overruns (V : Finset Int) (goes : Int → Bool) : Prop where
  greatest_mem : Value.greatest ∈ V
  all_go : ∀ u ∈ V, goes u = true

section Hull

variable (h : Portrays (x.answer s) V) (hV : ∀ v ∈ V, Value.InRange v)
include h hV

/-- The lower bound comes to a stop, and not at a value that has to go, unless it is to move above the
greatest machine value. -/
theorem raise_or_overruns (goes : Int → Bool) (limit : Int) (hfirst : FirstFrom V bound candidate)
    (hbound : Value.InRange bound) (hpassed : ∀ u ∈ V, u < bound → goes u = true)
    (hn : (limit + 1 - bound).toNat < n) :
    (∃ b, x.raise s goes limit n candidate bound = .ok b ∧ bound ≤ b ∧
        Value.InRange b ∧ (b ∈ V → b ≤ limit → goes b = false)) ∨
      x.raise s goes limit n candidate bound = .error .overflow ∧ Overruns V goes := by
  induction n generalizing candidate bound with
  | zero => exact absurd hn (Nat.not_lt_zero _)
  | succ n ih =>
      cases candidate with
      | none =>
          exact Or.inl ⟨bound, rfl, le_refl _, hbound, fun hb => absurd (hfirst bound hb) (lt_irrefl _)⟩
      | some v =>
          obtain ⟨hv, hbv, hleast⟩ := hfirst
          rw [raise]
          split
          · next hgo =>
            obtain ⟨hvlimit, hvgoes⟩ := hgo
            have hpassed' : ∀ u ∈ V, u < v + 1 → goes u = true := by
              intro u hu hlt
              by_cases hub : u < bound
              · exact hpassed u hu hub
              · have := hleast u hu (not_lt.1 hub)
                rw [show u = v by omega]
                exact hvgoes
            have hrange := hV v hv
            by_cases hnext : Value.InRange (v + 1)
            · obtain ⟨candidate', hcandidate, hfirst'⟩ := h.next v hrange
              rw [Value.check_eq_ok hnext]
              simp only [bind, Except.bind, hcandidate]
              refine (ih hfirst' hnext hpassed' (by omega)).imp_left fun ⟨b, hb, hle, hin⟩ => ?_
              exact ⟨b, hb, by omega, hin⟩
            · obtain rfl : v = Value.greatest := by
                unfold Value.InRange at hrange hnext
                omega
              refine Or.inr ⟨?_, hv, fun u hu => hpassed' u hu ?_⟩
              · rw [Value.check_eq_overflow hnext]
                rfl
              · have := (hV u hu).2
                omega
          · next hstop =>
            refine Or.inl ⟨bound, rfl, le_refl _, hbound, fun hb hlimit => ?_⟩
            obtain rfl : bound = v := le_antisymm hbv (hleast bound hb (le_refl _))
            exact Bool.eq_false_iff.2 fun hgoes => hstop ⟨hlimit, hgoes⟩

/-- The upper bound comes to a stop, if a limit among the values need not go. -/
theorem exists_sink (goes : Int → Bool) {limit : Int} (hlast : LastUpTo V bound candidate)
    (hbound : Value.InRange bound) (hlimit : Value.InRange limit)
    (hstays : limit ∈ V → limit ≤ bound → goes limit = false)
    (hn : (bound + 1 - limit).toNat < n) :
    ∃ b, x.sink s goes limit n candidate bound = .ok b ∧ Value.InRange b := by
  induction n generalizing candidate bound with
  | zero => exact absurd hn (Nat.not_lt_zero _)
  | succ n ih =>
      cases candidate with
      | none => exact ⟨bound, rfl, hbound⟩
      | some v =>
          obtain ⟨hv, hvb, -⟩ := hlast
          rw [sink]
          split
          · next hgo =>
            obtain ⟨hvlimit, hvgoes⟩ := hgo
            have hrange := hV v hv
            have hne : limit ≠ v := by
              rintro rfl
              exact nomatch (hstays hv hvb).symm.trans hvgoes
            have hprevious : Value.InRange (v - 1) := by
              unfold Value.InRange at *
              omega
            obtain ⟨candidate', hcandidate, hlast'⟩ := h.previous v hrange
            rw [Value.check_eq_ok hprevious]
            simp only [bind, Except.bind, hcandidate]
            exact ih hlast' hprevious (fun hmem _ => hstays hmem (hvlimit.trans hvb)) (by omega)
          · exact ⟨bound, rfl, hbound⟩

/-- The hull of what remains is found, and its bounds are machine values, unless the lower bound is to
move above the greatest machine value. -/
theorem hull_or_overruns (goes : Int → Bool) :
    (∃ lo hi, x.hull s goes = .ok (lo, hi) ∧ Value.InRange lo ∧ Value.InRange hi) ∨
      x.hull s goes = .error .overflow ∧ Overruns V goes := by
  obtain ⟨lo, hlo, hloV, hleast⟩ := h.lower
  obtain ⟨hi, hhi, hhiV, hgreatest⟩ := h.upper
  have hle : lo ≤ hi := hleast hhiV
  have hfirst := firstFrom_self (V := V) (a := lo) hloV
  have hpassed : ∀ u ∈ V, u < lo → goes u = true := fun u hu hlt =>
    absurd (hleast hu) (not_le.2 hlt)
  rcases raise_or_overruns h hV goes hi (n := (hi - lo).toNat + 2) hfirst (hV lo hloV) hpassed
    (by omega) with ⟨b, hb, hlb, hbrange, hstays⟩ | ⟨hraise, hoverruns⟩
  · obtain ⟨b', hb', hb'range⟩ := exists_sink h hV goes (n := (hi - lo).toNat + 2)
      (lastUpTo_self hhiV) (hV hi hhiV) hbrange hstays (by omega)
    refine Or.inl ⟨b, b', ?_, hbrange, hb'range⟩
    simp only [hull, lower, upper, hlo, hhi, hb, hb', bind, Except.bind, pure, Except.pure]
  · refine Or.inr ⟨?_, hoverruns⟩
    simp only [hull, lower, upper, hlo, hhi, hraise, bind, Except.bind]

end Hull

end Narrowing.Variable
