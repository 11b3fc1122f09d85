import Narrowing.Proofs.Variable.Edits
import Narrowing.Proofs.Variable.Hull
import Narrowing.Proofs.Variable.Overrun

/-!
What is left between the bounds of a hull. On domains and on views of whatever nesting both bounds
come to a stop, and no value that stays lies outside of them. The first and the last value between
them are values that stay. If there is no such value, the bounds have crossed.
-/

namespace Narrowing

/-- `lo` and `hi` are bounds of what remains of the values `V`, of which some have to go. -/
structure Encloses (V : Finset Int) (goes : Int → Bool) (lo hi : Int) : Prop where
  within : ∀ u ∈ V, goes u = false → lo ≤ u ∧ u ≤ hi
  below : ∀ u ∈ V, u < lo → goes u = true
  above : ∀ u ∈ V, hi < u → goes u = true
  /-- If any value stays, the first and the last value between the bounds do. -/
  ends : (∃ u ∈ V, goes u = false) → ∃ a b,
    IsLeast ((V ∩ Finset.Icc lo hi : Finset Int) : Set Int) a ∧ goes a = false ∧
    IsGreatest ((V ∩ Finset.Icc lo hi : Finset Int) : Set Int) b ∧ goes b = false
  crossed_iff : hi < lo ↔ ∀ u ∈ V, goes u = true

section Ends

variable {V : Finset Int} {goes : Int → Bool} {lo hi : Int}
  (hwithin : ∀ u ∈ V, goes u = false → lo ≤ u ∧ u ≤ hi) (hsome : ∃ u ∈ V, goes u = false)
include hwithin hsome

theorem nonempty_of_within : (V ∩ Finset.Icc lo hi).Nonempty := by
  obtain ⟨u, hu, hstays⟩ := hsome
  exact ⟨u, Finset.mem_inter.2 ⟨hu, Finset.mem_Icc.2 (hwithin u hu hstays)⟩⟩

/-- If a value that stays is found on the way down from any value between the bounds, the first one
of them stays. -/
theorem exists_first_stays (hdown : ∀ u ∈ V, lo ≤ u → ∃ v ∈ V, v ≤ u ∧ goes v = false) :
    ∃ a, IsLeast ((V ∩ Finset.Icc lo hi : Finset Int) : Set Int) a ∧ goes a = false := by
  have hleast := Finset.isLeast_min' _ (nonempty_of_within hwithin hsome)
  refine ⟨_, hleast, ?_⟩
  obtain ⟨ha, hbetween⟩ := Finset.mem_inter.1 (Finset.mem_coe.1 hleast.1)
  obtain ⟨v, hv, hva, hstays⟩ := hdown _ ha (Finset.mem_Icc.1 hbetween).1
  have hav := hleast.2 (Finset.mem_coe.2
    (Finset.mem_inter.2 ⟨hv, Finset.mem_Icc.2 (hwithin v hv hstays)⟩))
  rwa [le_antisymm hav hva]

/-- The same upwards. -/
theorem exists_last_stays (hup : ∀ u ∈ V, lo ≤ u → u ≤ hi → ∃ v ∈ V, u ≤ v ∧ goes v = false) :
    ∃ b, IsGreatest ((V ∩ Finset.Icc lo hi : Finset Int) : Set Int) b ∧ goes b = false := by
  have hgreatest := Finset.isGreatest_max' _ (nonempty_of_within hwithin hsome)
  refine ⟨_, hgreatest, ?_⟩
  obtain ⟨hb, hbetween⟩ := Finset.mem_inter.1 (Finset.mem_coe.1 hgreatest.1)
  obtain ⟨hlo, hhi⟩ := Finset.mem_Icc.1 hbetween
  obtain ⟨v, hv, hbv, hstays⟩ := hup _ hb hlo hhi
  have hvb := hgreatest.2 (Finset.mem_coe.2
    (Finset.mem_inter.2 ⟨hv, Finset.mem_Icc.2 (hwithin v hv hstays)⟩))
  rwa [le_antisymm hbv hvb]

end Ends

namespace Variable

variable {x : Variable} {s : Domains} {goes : Int → Bool} {lo hi : Int}

/-- The hull has the bounds of what remains. -/
theorem encloses_of_hull (hwf : s.table.WellFormed) (h : x.hull s goes = .ok (lo, hi)) :
    Encloses (x.current s.table) goes lo hi := by
  obtain ⟨hcut, hdown, hup, top, htop, hle⟩ := hull_eq_ok hwf h
  have hwithin : ∀ u ∈ x.current s.table, goes u = false → lo ≤ u ∧ u ≤ hi := by
    intro u hu hstays
    by_contra hout
    exact Bool.false_ne_true (hstays.symm.trans (hcut u hu (by omega)))
  refine ⟨hwithin, fun u hu hlt => hcut u hu (Or.inl hlt), fun u hu hlt => hcut u hu (Or.inr hlt),
    fun hsome => ?_, fun hcrossed u hu => hcut u hu (by omega), fun hall => ?_⟩
  · obtain ⟨a, ha, hastays⟩ := exists_first_stays hwithin hsome hdown
    obtain ⟨b, hb, hbstays⟩ := exists_last_stays hwithin hsome hup
    exact ⟨a, b, ha, hastays, hb, hbstays⟩
  · by_contra hcrossed
    obtain ⟨v, hv, -, hstays⟩ := hdown top htop (by omega)
    exact Bool.false_ne_true (hstays.symm.trans (hall v hv))

/-- Where the greatest machine value is not among the values, both bounds come to a stop. -/
theorem exists_hull (hwf : s.table.WellFormed) {d : Domain} (hd : s.table.get? x.base = some d)
    (hleast : Value.least ∉ d.members) (hgreatest : Value.greatest ∉ x.current s.table)
    (goes : Int → Bool) :
    ∃ lo hi, x.hull s goes = .ok (lo, hi) ∧ Value.InRange lo ∧ Value.InRange hi := by
  have hportrays := portrays_answer hwf hd hleast
  have hinvertible := invertible_current hd (hwf _ d hd) hleast
  rcases hull_or_overruns hportrays (fun v hv => (hinvertible v hv).1) goes with hfound | ⟨-, hoverruns⟩
  · exact hfound
  · exact absurd hoverruns.greatest_mem hgreatest

/-- A variable has the greatest machine value only if its domain has that or its negation. -/
theorem greatest_notMem_image {V : Finset Int} (x : Variable)
    (hV : ∀ v ∈ V, -Value.greatest < v ∧ v < Value.greatest) : Value.greatest ∉ V.image x.image := by
  intro hmem
  obtain ⟨u, hu, himage⟩ := Finset.mem_image.1 hmem
  have hsize := natAbs_image x u
  have hrange := hV u hu
  rw [himage] at hsize
  unfold Value.greatest at *
  omega

end Variable

/-! ### States that a run leads to -/

namespace Domains.Reachable

variable {s : Domains} (hs : s.Reachable)
include hs

/-- Where no member is at the ends of the machine values, the hull of what remains of a domain, or of
a view of whatever nesting, is found, whatever values have to go. -/
theorem encloses_hull {x : Variable} {d : Domain} (hd : s.table.get? x.base = some d)
    (hrange : ∀ v ∈ d.members, -Value.greatest < v ∧ v < Value.greatest) (goes : Int → Bool) :
    ∃ lo hi, x.hull s goes = .ok (lo, hi) ∧ Value.InRange lo ∧ Value.InRange hi ∧
      Encloses (d.members.image x.image) goes lo hi := by
  have hwf := hs.traced.wellFormed
  have hleast : Value.least ∉ d.members := fun hmem => absurd (hrange _ hmem).1 (by decide)
  have hcurrent : x.current s.table = d.members.image x.image := by
    rw [Variable.current, Table.members_of_get? hd]
  have hgreatest := Variable.greatest_notMem_image x hrange
  rw [← hcurrent] at hgreatest ⊢
  obtain ⟨lo, hi, hhull, hlo, hhi⟩ := Variable.exists_hull hwf hd hleast hgreatest goes
  exact ⟨lo, hi, hhull, hlo, hhi, Variable.encloses_of_hull hwf hhull⟩

omit hs in
/-- The absolute values of the absolute values of `-2`, `0` and `4` are `0`, `2` and `4`. When all but
`2` have to go, both bounds stop at values that are not there. -/
theorem encloses_hull_scarred :
    scarred.Reachable ∧ scarred.table.get? ⟨0⟩ = some cropped ∧
      (∀ v ∈ cropped.members, -Value.greatest < v ∧ v < Value.greatest) ∧
      (Variable.abs (.abs (.domain ⟨0⟩))).hull scarred (fun v => v != 2) = .ok (1, 3) ∧
      Encloses (cropped.members.image (Variable.abs (.abs (.domain ⟨0⟩))).image)
        (fun v => v != 2) 1 3 := by
  have hbounds : (Variable.abs (.abs (.domain ⟨0⟩))).hull scarred (fun v => v != 2) = .ok (1, 3) := by
    decide
  obtain ⟨lo, hi, hhull, -, -, hencloses⟩ := encloses_hull reachable_scarred
    (x := .abs (.abs (.domain ⟨0⟩))) (d := cropped) (by decide) (by decide) fun v => v != 2
  obtain ⟨rfl, rfl⟩ := Prod.mk.inj (Except.ok.inj (hhull.symm.trans hbounds))
  exact ⟨reachable_scarred, by decide, by decide, hbounds, hencloses⟩

/-- When all of them have to go, the lower bound passes the last one, and the upper bound stays. -/
example : (Variable.abs (.abs (.domain ⟨0⟩))).hull scarred (fun _ => true) = .ok (5, 4) := by decide

end Domains.Reachable

end Narrowing
