import Narrowing.Proofs.Among.Confluence
import Narrowing.Proofs.Engine.Restore

/-!
Two runs that make the same moves, one in an engine whose propagators hear of their own changes and
one in an engine whose propagators do not. As long as the variables of each constraint are pairwise
distinct domains, nobody can tell the runs apart: propagation comes to an end in both, where both come
to a fixed point, it is the greatest one, and what is put down at a checkpoint is the same for both,
although the cells of the propagators and the passes they make differ.
-/

namespace Narrowing.AmongPropagator

open Narrowing.Engine

variable {e₁ e₂ e₁' e₂' : Engine AmongPropagator} {m m₁ m₂ : Moment AmongPropagator}
  {skipsOwn : Bool}

/-- A caller who adds, at the root, constraints over pairwise distinct domains that can be counted, and
opens checkpoints right after fixed points only. -/
def plainRules : Rules AmongPropagator := amongRules True fun _ c _ _ => c.Plain

/-- Every propagator is about pairwise distinct domains. -/
def AllPlain (e : Engine AmongPropagator) : Prop :=
  ∀ j p, e.propagators.get? j = some p → p.Plain

theorem allPlain_of_reached (h : Reached plainRules skipsOwn m) : AllPlain m.engine := by
  refine h.forall_propagators id ?_
  rintro e p integers sets ⟨-, scope, counter, tracked, back, rfl, -, hplain⟩
  exact hplain

/-- With pairwise distinct domains it does not matter who hears of what. -/
theorem steady_of_plain (h : Reached plainRules skipsOwn m) (hc : m.engine.contradiction = none) :
    Steady skipsOwn m where
  reached := settled_of_reached h
  clear j p hp := (allPlain_of_reached h j p hp).clear _
  apart _ j p hp _ hi := (allPlain_of_reached h j p hp).place_ne_counter hi
  contradiction_eq := hc

/-- With pairwise distinct domains propagation comes to an end. -/
theorem settle_ok_of_plain (h : Reached plainRules skipsOwn m)
    (htracked : AllTracksValues m.engine) : ∃ r e', settle m.engine = .ok r e' := by
  have hplain := allPlain_of_reached h
  refine settle_ok_of_clear (settled_of_reached h) (fun j p hp => (hplain j p hp).clear _) ?_
  exact fun j p hp => ⟨htracked j p hp, fun x hx => Or.inl ((hplain j p hp).plain x hx)⟩

/-! ### Engines that match -/

/-- Two engines have the same propagators, and domains with the same members, now unless they came to
a contradiction, and at every level that a restore can lead to. -/
structure Matched (e₁ e₂ : Engine AmongPropagator) : Prop where
  propagators_eq : e₁.propagators = e₂.propagators
  level_eq : e₁.level = e₂.level
  contradiction_iff : e₁.contradiction = none ↔ e₂.contradiction = none
  alike : e₁.contradiction = none → e₁.domains.table.Alike e₂.domains.table
  past : ∀ k < e₁.level, (e₁.domains.past k).Alike (e₂.domains.past k)

theorem matched_init : Matched (init false) (init true) :=
  ⟨rfl, rfl, Iff.rfl, fun _ => .refl _, fun k hk => absurd hk (Nat.not_lt_zero k)⟩

/-- Decisions in twins have the same answer and lead to twins. -/
theorem impose_twins {domains₁ domains₂ : Domains} (h : domains₁.Twins domains₂) (x : Variable)
    (r : Restriction) (h₁ : e₁.domains = domains₁) (h₂ : e₂.domains = domains₂) :
    answerOf (impose x r e₁) = answerOf (impose x r e₂) ∧
      ∀ {a₁ a₂} {e₁' e₂' : Engine AmongPropagator}, impose x r e₁ = .ok a₁ e₁' →
        impose x r e₂ = .ok a₂ e₂' → e₁'.domains.Twins e₂'.domains := by
  have hblind := x.blind_restrict .decision r h
  unfold impose
  rw [h₁, h₂]
  cases hr₁ : x.restrict .decision r domains₁ with
  | ok b₁ s₁ =>
      cases hr₂ : x.restrict .decision r domains₂ with
      | ok b₂ s₂ =>
          rw [hr₁, hr₂] at hblind
          obtain ⟨rfl, htwins⟩ := hblind
          refine ⟨rfl, fun hi₁ hi₂ => ?_⟩
          obtain ⟨-, rfl⟩ := EStateM.Result.ok.inj hi₁
          obtain ⟨-, rfl⟩ := EStateM.Result.ok.inj hi₂
          exact htwins
      | error refusal₂ s₂ =>
          rw [hr₁, hr₂] at hblind
          exact hblind.elim
  | error refusal₁ s₁ =>
      cases hr₂ : x.restrict .decision r domains₂ with
      | ok b₂ s₂ =>
          rw [hr₁, hr₂] at hblind
          exact hblind.elim
      | error refusal₂ s₂ =>
          rw [hr₁, hr₂] at hblind
          obtain ⟨rfl, htwins⟩ := hblind
          cases refusal₁ with
          | empty =>
              refine ⟨rfl, fun hi₁ hi₂ => ?_⟩
              obtain ⟨-, rfl⟩ := EStateM.Result.ok.inj hi₁
              obtain ⟨-, rfl⟩ := EStateM.Result.ok.inj hi₂
              exact htwins
          | fault f => exact ⟨rfl, fun hi₁ => nomatch hi₁⟩

namespace Matched

variable (h : Matched e₁ e₂)
include h

theorem grown (hc₁ : Consistent e₁) (hc₂ : Consistent e₂) (d : Domain) :
    Matched (e₁.grown d) (e₂.grown d) where
  propagators_eq := h.propagators_eq
  level_eq := h.level_eq
  contradiction_iff := h.contradiction_iff
  alike hc := (h.alike hc).push d
  past k hk := by
    change ((e₁.domains.push d).past k).Alike ((e₂.domains.push d).past k)
    rw [Domains.past_push _ hc₁.workspace.recorded, Domains.past_push _ hc₂.workspace.recorded]
    exact (h.past k hk).push d

theorem twins (hc₁ : Consistent e₁) (hc₂ : Consistent e₂) (hc : e₁.contradiction = none) :
    e₁.domains.Twins e₂.domains :=
  ⟨hc₁.workspace.table, hc₂.workspace.table, h.alike hc⟩

theorem joined (hf₁ : Frame Nobody e₁) (hf₂ : Frame Nobody e₂) {scope : List Variable}
    {counter : Variable} {tracked : List Int} {backPropagates : Bool} {notifier₁ notifier₂ : Notifier}
    {journal₁ journal₂ : Array (Message (Propagator.Note AmongPropagator))} :
    Matched (e₁.joined (posting scope counter tracked backPropagates) notifier₁ journal₁)
      (e₂.joined (posting scope counter tracked backPropagates) notifier₂ journal₂) where
  propagators_eq := by
    have hintegers : e₁.cells.integers.size = e₂.cells.integers.size := by
      rw [hf₁.size_eq.1, hf₂.size_eq.1, h.propagators_eq]
    have hsets : e₁.cells.sets.size = e₂.cells.sets.size := by
      rw [hf₁.size_eq.2, hf₂.size_eq.2, h.propagators_eq]
    unfold Engine.joined
    dsimp only
    rw [hintegers, hsets, h.propagators_eq]
  level_eq := h.level_eq
  contradiction_iff := h.contradiction_iff
  alike := h.alike
  past := h.past

theorem imposed (hc₁ : Consistent e₁) (hc₂ : Consistent e₂) {x : Variable} {r : Restriction}
    {a₁ a₂ : Option Bool} (hi₁ : impose x r e₁ = .ok a₁ e₁') (hi₂ : impose x r e₂ = .ok a₂ e₂') :
    Matched e₁' e₂' := by
  obtain ⟨domains₁, hn₁, rfl⟩ := (ends_impose x r hc₁.workspace.table).of_ok hi₁
  obtain ⟨domains₂, hn₂, rfl⟩ := (ends_impose x r hc₂.workspace.table).of_ok hi₂
  have hlevel₁ : domains₁.level = e₁.level := hn₁.trail_eq.1
  have hlevel₂ : domains₂.level = e₂.level := hn₂.trail_eq.1
  refine ⟨h.propagators_eq, hlevel₁.trans (h.level_eq.trans hlevel₂.symm), h.contradiction_iff,
    fun hc => ?_, fun k hk => ?_⟩
  · exact ((impose_twins (h.twins hc₁ hc₂ hc) x r rfl rfl).2 hi₁ hi₂).alike
  · have hk : k < e₁.level := hk.trans_eq hlevel₁
    change (domains₁.past k).Alike (domains₂.past k)
    rw [hn₁.past_eq hc₁.workspace.table hk,
      hn₂.past_eq hc₂.workspace.table (hk.trans_eq h.level_eq)]
    exact h.past k hk

theorem entered {journal₁ journal₂ : Array (Message (Propagator.Note AmongPropagator))}
    (hc : e₁.contradiction = none) : Matched (e₁.entered journal₁) (e₂.entered journal₂) := by
  have hlevel₁ : (e₁.entered journal₁).level = e₁.level + 1 := Domains.level_mark _
  have hlevel₂ : (e₂.entered journal₂).level = e₂.level + 1 := Domains.level_mark _
  refine ⟨h.propagators_eq, by rw [hlevel₁, hlevel₂, h.level_eq], h.contradiction_iff, h.alike,
    fun k hk => ?_⟩
  have hk : k ≤ e₁.level := Nat.le_of_lt_succ (hk.trans_eq hlevel₁)
  change (e₁.domains.mark.past k).Alike (e₂.domains.mark.past k)
  rw [Domains.past_mark _ hk, Domains.past_mark _ (hk.trans_eq h.level_eq)]
  rcases Nat.lt_or_eq_of_le hk with hlt | rfl
  · exact h.past k hlt
  · have hnow : e₂.domains.past e₁.level = e₂.domains.table := by
      rw [h.level_eq]
      exact Domains.past_level _
    rw [hnow]
    exact (Domains.past_level e₁.domains).symm ▸ h.alike hc

/-- A restore gives back domains that have the same members. -/
theorem rewound {k : Nat} {domains₁ domains₂ : Domains} {cells₁ cells₂ : Cells}
    {journal₁ journal₂ : Array (Message (Propagator.Note AmongPropagator))}
    (hd₁ : e₁.domains.rewind k = .ok domains₁) (hd₂ : e₂.domains.rewind k = .ok domains₂) :
    Matched (e₁.rewound domains₁ cells₁ journal₁) (e₂.rewound domains₂ cells₂ journal₂) := by
  obtain ⟨hk₁, htable₁, htrail₁, -⟩ := Domains.rewind_eq_ok hd₁
  obtain ⟨hk₂, htable₂, htrail₂, -⟩ := Domains.rewind_eq_ok hd₂
  have hlevel₁ : domains₁.level = k := by
    rw [Domains.level, htrail₁, Trail.level_below _ (Nat.le_of_lt hk₁)]
  have hlevel₂ : domains₂.level = k := by
    rw [Domains.level, htrail₂, Trail.level_below _ (Nat.le_of_lt hk₂)]
  refine ⟨h.propagators_eq, hlevel₁.trans hlevel₂.symm, Iff.rfl, fun _ => ?_, fun j hj => ?_⟩
  · change domains₁.table.Alike domains₂.table
    rw [htable₁, htable₂]
    exact h.past k hk₁
  · have hj : j < k := hj.trans_eq hlevel₁
    change (domains₁.past j).Alike (domains₂.past j)
    rw [Domains.past_of_rewind hd₁ (Nat.le_of_lt hj), Domains.past_of_rewind hd₂ (Nat.le_of_lt hj)]
    exact h.past j (hj.trans hk₁)

theorem restored {k : Nat} (hr₁ : restoreTo k e₁ = .ok () e₁') (hr₂ : restoreTo k e₂ = .ok () e₂') :
    Matched e₁' e₂' := by
  rcases (ends_restoreTo k).of_ok hr₁ with ⟨rfl, rfl⟩ | ⟨domains₁, cells₁, journal₁, hd₁, -, rfl⟩
  · rcases (ends_restoreTo _).of_ok hr₂ with ⟨-, rfl⟩ | ⟨domains₂, cells₂, journal₂, hd₂, -, rfl⟩
    · exact h
    · have hk : e₁'.level < e₂.level := (Domains.rewind_eq_ok hd₂).1
      exact absurd (hk.trans_eq h.level_eq.symm) (lt_irrefl _)
  · rcases (ends_restoreTo k).of_ok hr₂ with ⟨rfl, rfl⟩ | ⟨domains₂, cells₂, journal₂, hd₂, -, rfl⟩
    · have hk : e₂'.level < e₁.level := (Domains.rewind_eq_ok hd₁).1
      exact absurd (hk.trans_eq h.level_eq) (lt_irrefl _)
    · exact h.rewound hd₁ hd₂

end Matched

/-- Propagation comes to the same in both. -/
theorem Matched.settled (h : Matched m₁.engine m₂.engine) (h₁ : Reached plainRules false m₁)
    (h₂ : Reached plainRules true m₂) {r₁ r₂ : Except Contradiction Unit}
    (hs₁ : settle m₁.engine = .ok r₁ e₁') (hs₂ : settle m₂.engine = .ok r₂ e₂') :
    r₁.isOk = r₂.isOk ∧ Matched e₁' e₂' := by
  cases hc₁ : m₁.engine.contradiction with
  | some c₁ =>
      cases hc₂ : m₂.engine.contradiction with
      | none => exact nomatch hc₁.symm.trans (h.contradiction_iff.2 hc₂)
      | some c₂ =>
          rw [settle_of_contradiction hc₁] at hs₁
          rw [settle_of_contradiction hc₂] at hs₂
          obtain ⟨rfl, rfl⟩ := EStateM.Result.ok.inj hs₁
          obtain ⟨rfl, rfl⟩ := EStateM.Result.ok.inj hs₂
          exact ⟨rfl, h⟩
  | none =>
      have hsame : constraints m₁.engine = constraints m₂.engine := by
        rw [constraints, constraints, h.propagators_eq]
      obtain ⟨hok, halike⟩ := (steady_of_plain h₁ hc₁).settle_alike
        (steady_of_plain h₂ (h.contradiction_iff.1 hc₁)) hsame (h.alike hc₁) hs₁ hs₂
      have hinside₁ := Inside.of_settle h₁.trusted hs₁
      have hinside₂ := Inside.of_settle h₂.trusted hs₂
      refine ⟨hok, ?_, ?_, ?_, fun hc => halike ((contradiction_of_settle hs₁).2 hc), fun k hk => ?_⟩
      · rw [propagators_of_settle hs₁, propagators_of_settle hs₂, h.propagators_eq]
      · rw [hinside₁.level_eq, hinside₂.level_eq, h.level_eq]
      · rw [← contradiction_of_settle hs₁, ← contradiction_of_settle hs₂]
        exact settled_iff_of_isOk hok
      · have hk : k < m₁.engine.level := hk.trans_eq hinside₁.level_eq
        rw [hinside₁.past_eq k hk, hinside₂.past_eq k (hk.trans_eq h.level_eq)]
        exact h.past k hk

/-! ### Runs -/

/-- Two runs that make the same moves. In the second one propagators do not hear of their own
changes. -/
inductive Abreast : Moment AmongPropagator → Moment AmongPropagator → Prop
  | init : Abreast ⟨init false, false⟩ ⟨init true, false⟩
  | step {m₁ m₂ : Moment AmongPropagator} {move : Move AmongPropagator} {settled₁ settled₂ : Bool}
      {e₁ e₂ : Engine AmongPropagator} (h : Abreast m₁ m₂) (hrange : move.InRange)
      (hpermit₁ : plainRules.Permit m₁ move) (hpermit₂ : plainRules.Permit m₂ move)
      (hplay₁ : move.play m₁.engine = .ok settled₁ e₁)
      (hplay₂ : move.play m₂.engine = .ok settled₂ e₂) : Abreast ⟨e₁, settled₁⟩ ⟨e₂, settled₂⟩

namespace Abreast

theorem reached (h : Abreast m₁ m₂) : Reached plainRules false m₁ ∧ Reached plainRules true m₂ := by
  induction h with
  | init => exact ⟨.refl, .refl⟩
  | step _ hrange hpermit₁ hpermit₂ hplay₁ hplay₂ ih =>
      exact ⟨ih.1.step hrange hpermit₁ hplay₁, ih.2.step hrange hpermit₂ hplay₂⟩

section Step

variable (hm : Matched m₁.engine m₂.engine) (h₁ : Reached plainRules false m₁)
  (h₂ : Reached plainRules true m₂)
include hm h₁ h₂

theorem matched_add {p : Posting AmongPropagator} {id₁ id₂ : PropagatorId}
    (hpermit : plainRules.Permit m₁ (.add p)) (ha₁ : add p m₁.engine = .ok id₁ e₁')
    (ha₂ : add p m₂.engine = .ok id₂ e₂') : Matched e₁' e₂' := by
  obtain ⟨-, scope, counter, tracked, back, rfl, -⟩ := hpermit
  obtain ⟨notifier₁, journal₁, rfl, -⟩ := (ends_add _).of_ok ha₁
  obtain ⟨notifier₂, journal₂, rfl, -⟩ := (ends_add _).of_ok ha₂
  exact hm.joined (Reached.sane (settled_of_reached h₁)).toFrame
    (Reached.sane (settled_of_reached h₂)).toFrame

theorem matched_addConstraint {p : Posting AmongPropagator}
    {a₁ a₂ : Except AddError PropagatorId} (hpermit₁ : plainRules.Permit m₁ (.addConstraint p))
    (hpermit₂ : plainRules.Permit m₂ (.addConstraint p))
    (ha₁ : addConstraint p m₁.engine = .ok a₁ e₁') (ha₂ : addConstraint p m₂.engine = .ok a₂ e₂') :
    a₁.isOk = a₂.isOk ∧ Matched e₁' e₂' := by
  have hsame : (m₁.engine.level = 0 ∧ m₁.engine.contradiction = none) ↔
      (m₂.engine.level = 0 ∧ m₂.engine.contradiction = none) := by
    rw [hm.level_eq, hm.contradiction_iff]
  rcases (ends_addConstraint p).of_ok ha₁ with
    ⟨hnot, hr₁, rfl⟩ | ⟨hroot₁, hc₁, id₁, e₃, r₁, hadd₁, hs₁, hr₁⟩
  · rcases (ends_addConstraint p).of_ok ha₂ with ⟨-, hr₂, rfl⟩ | ⟨hroot₂, hc₂, -⟩
    · exact ⟨hr₁.trans hr₂.symm, hm⟩
    · exact absurd (hsame.2 ⟨hroot₂, hc₂⟩) hnot
  · rcases (ends_addConstraint p).of_ok ha₂ with
      ⟨hnot, -⟩ | ⟨hroot₂, hc₂, id₂, e₄, r₂, hadd₂, hs₂, hr₂⟩
    · exact absurd (hsame.1 ⟨hroot₁, hc₁⟩) hnot
    · have hadded := matched_add hm h₁ h₂ (hpermit₁ hroot₁) hadd₁ hadd₂
      have hplay₁ : Move.play (.add p) m₁.engine = .ok false e₃ := bind_of_ok hadd₁
      have hplay₂ : Move.play (.add p) m₂.engine = .ok false e₄ := bind_of_ok hadd₂
      have hrange : (Move.add p).InRange := trivial
      have hreached₁ := h₁.step hrange (hpermit₁ hroot₁) hplay₁
      have hreached₂ := h₂.step hrange (hpermit₂ hroot₂) hplay₂
      have hmatched : Matched (Moment.mk e₃ false).engine (Moment.mk e₄ false).engine := hadded
      rw [hr₁, hr₂]
      exact hmatched.settled hreached₁ hreached₂ hs₁ hs₂

/-- What one move makes of engines that match. -/
theorem matched_step {move : Move AmongPropagator} {settled₁ settled₂ : Bool}
    (hpermit₁ : plainRules.Permit m₁ move) (hpermit₂ : plainRules.Permit m₂ move)
    (hplay₁ : move.play m₁.engine = .ok settled₁ e₁')
    (hplay₂ : move.play m₂.engine = .ok settled₂ e₂') :
    settled₁ = settled₂ ∧ Matched e₁' e₂' := by
  have hc₁ := h₁.trusted.consistent
  have hc₂ := h₂.trusted.consistent
  have hplain : ∀ {α : Type} {step : Operation AmongPropagator α} {e e' : Engine AmongPropagator}
      {settled : Bool}, (do let _ ← step; return false : Operation AmongPropagator Bool) e =
        .ok settled e' → settled = false ∧ ∃ a, step e = .ok a e' := by
    intro α step e e' settled hplay
    exact (ends_self.bind fun a _ h => ends_pure ⟨rfl, a, h⟩ :
      Ends _ e (fun settled e' => settled = false ∧ ∃ a, step e = .ok a e') fun _ _ => True).of_ok
      hplay
  have hmakes : ∀ {made : Option Domain}, move.makes = some made →
      settled₁ = settled₂ ∧ Matched e₁' e₂' := by
    intro made hmade
    obtain ⟨rfl, d₁, hd₁, rfl⟩ := (ends_makes hmade).of_ok hplay₁
    obtain ⟨rfl, d₂, hd₂, rfl⟩ := (ends_makes hmade).of_ok hplay₂
    obtain rfl := Option.some.inj (hd₁.symm.trans hd₂)
    exact ⟨rfl, hm.grown hc₁ hc₂ d₁⟩
  cases move with
  | newInterval lo hi => exact hmakes rfl
  | newListed values => exact hmakes rfl
  | newEnumerated lo hi => exact hmakes rfl
  | add p =>
      obtain ⟨rfl, id₁, ha₁⟩ := hplain hplay₁
      obtain ⟨rfl, id₂, ha₂⟩ := hplain hplay₂
      exact ⟨rfl, matched_add hm h₁ h₂ hpermit₁ ha₁ ha₂⟩
  | addConstraint p =>
      have hends : ∀ e : Engine AmongPropagator, Ends (Move.play (.addConstraint p)) e
          (fun settled e' => ∃ a, addConstraint p e = .ok a e' ∧ settled = a.isOk)
          fun _ _ => True := fun e => ends_self.bind fun a _ h => ends_pure ⟨a, h, rfl⟩
      obtain ⟨a₁, ha₁, rfl⟩ := (hends _).of_ok hplay₁
      obtain ⟨a₂, ha₂, rfl⟩ := (hends _).of_ok hplay₂
      exact matched_addConstraint hm h₁ h₂ hpermit₁ hpermit₂ ha₁ ha₂
  | replace id p => exact hpermit₁.elim
  | impose x r =>
      obtain ⟨rfl, a₁, hi₁⟩ := hplain hplay₁
      obtain ⟨rfl, a₂, hi₂⟩ := hplain hplay₂
      exact ⟨rfl, hm.imposed hc₁ hc₂ hi₁ hi₂⟩
  | forceFull id =>
      have hends : ∀ e : Engine AmongPropagator, Ends (Move.play (.forceFull id)) e
          (fun settled e' => settled = false ∧ ∃ agenda, e' = { e with agenda })
          fun _ _ => True := fun e => ends_bind (ends_requestPass fun p _ => ends_pure ⟨rfl, _, rfl⟩)
      obtain ⟨rfl, agenda₁, rfl⟩ := (hends _).of_ok hplay₁
      obtain ⟨rfl, agenda₂, rfl⟩ := (hends _).of_ok hplay₂
      exact ⟨rfl, hm.propagators_eq, hm.level_eq, hm.contradiction_iff, hm.alike, hm.past⟩
  | settle =>
      have hends : ∀ e : Engine AmongPropagator, Ends (Move.play .settle) e
          (fun settled e' => ∃ r, settle e = .ok r e' ∧ settled = r.isOk)
          fun _ _ => True := fun e => ends_self.bind fun r _ h => ends_pure ⟨r, h, rfl⟩
      obtain ⟨r₁, hs₁, rfl⟩ := (hends _).of_ok hplay₁
      obtain ⟨r₂, hs₂, rfl⟩ := (hends _).of_ok hplay₂
      exact hm.settled h₁ h₂ hs₁ hs₂
  | newCheckpoint =>
      obtain ⟨rfl, _, hn₁⟩ := hplain hplay₁
      obtain ⟨rfl, _, hn₂⟩ := hplain hplay₂
      obtain ⟨-, -, hc, journal₁, rfl⟩ := ends_newCheckpoint.of_ok hn₁
      obtain ⟨-, -, -, journal₂, rfl⟩ := ends_newCheckpoint.of_ok hn₂
      exact ⟨rfl, hm.entered hc⟩
  | restoreTo k =>
      obtain ⟨rfl, _, hr₁⟩ := hplain hplay₁
      obtain ⟨rfl, _, hr₂⟩ := hplain hplay₂
      exact ⟨rfl, hm.restored hr₁ hr₂⟩
  | popCheckpoint =>
      obtain ⟨rfl, _, hp₁⟩ := hplain hplay₁
      obtain ⟨rfl, _, hp₂⟩ := hplain hplay₂
      have hr₁ := ends_popCheckpoint.of_ok hp₁
      have hr₂ := ends_popCheckpoint.of_ok hp₂
      rw [← hm.level_eq] at hr₂
      exact ⟨rfl, hm.restored hr₁ hr₂⟩

end Step

/-- A further move in both runs. -/
theorem after (h : Abreast m₁ m₂) (move : Move AmongPropagator) (hrange : move.InRange)
    (hpermit₁ : plainRules.Permit m₁ move) (hpermit₂ : plainRules.Permit m₂ move)
    (hplays₁ : m₁.plays move = true) (hplays₂ : m₂.plays move = true) :
    Abreast (m₁.after move) (m₂.after move) :=
  h.step hrange hpermit₁ hpermit₂ (Moment.play_eq_ok hplays₁) (Moment.play_eq_ok hplays₂)

theorem matched (h : Abreast m₁ m₂) : Matched m₁.engine m₂.engine ∧ m₁.settled = m₂.settled := by
  induction h with
  | init => exact ⟨matched_init, rfl⟩
  | step h _ hpermit₁ hpermit₂ hplay₁ hplay₂ ih =>
      obtain ⟨h₁, h₂⟩ := h.reached
      obtain ⟨hsettled, hmatched⟩ := matched_step ih.1 h₁ h₂ hpermit₁ hpermit₂ hplay₁ hplay₂
      exact ⟨hmatched, hsettled⟩

end Abreast

/-- Nobody can tell two runs abreast apart, over scopes that can be counted. Before a contradiction,
decisions have the same answer; propagation comes to a fixed point in both or in neither, with the same
members, and it comes to an end in both as long as machine values are tracked; and so a restore to a
level below gives back domains with the same members. -/
theorem abreast_indistinguishable (h : Abreast m₁ m₂) :
    (m₁.engine.contradiction = none ↔ m₂.engine.contradiction = none) ∧
    (m₁.engine.contradiction = none → ∀ x r,
      answerOf (impose x r m₁.engine) = answerOf (impose x r m₂.engine)) ∧
    (∀ r₁ r₂ e₁' e₂', settle m₁.engine = .ok r₁ e₁' → settle m₂.engine = .ok r₂ e₂' →
      (r₁ = .ok () ↔ r₂ = .ok ()) ∧
        (r₁ = .ok () → e₁'.domains.table.Alike e₂'.domains.table)) ∧
    (AllTracksValues m₁.engine →
      ∃ r₁ r₂ e₁' e₂', settle m₁.engine = .ok r₁ e₁' ∧ settle m₂.engine = .ok r₂ e₂') ∧
    m₁.engine.level = m₂.engine.level ∧
    ∀ k < m₁.engine.level, ∃ e₁' e₂', restoreTo k m₁.engine = .ok () e₁' ∧
      restoreTo k m₂.engine = .ok () e₂' ∧ e₁'.domains.table.Alike e₂'.domains.table := by
  obtain ⟨h₁, h₂⟩ := h.reached
  obtain ⟨hm, -⟩ := h.matched
  refine ⟨hm.contradiction_iff, fun hc x r => ?_, fun r₁ r₂ e₁' e₂' hs₁ hs₂ => ?_,
    fun htracked => ?_, hm.level_eq, fun k hk => ?_⟩
  · exact (impose_twins (hm.twins h₁.trusted.consistent h₂.trusted.consistent hc) x r rfl rfl).1
  · obtain ⟨hok, hmatched⟩ := hm.settled h₁ h₂ hs₁ hs₂
    refine ⟨settled_iff_of_isOk hok, fun hr => hmatched.alike ?_⟩
    exact (contradiction_of_settle hs₁).1 hr
  · obtain ⟨r₁, e₁', hs₁⟩ := settle_ok_of_plain h₁ htracked
    obtain ⟨r₂, e₂', hs₂⟩ :=
      settle_ok_of_plain h₂ fun j p hp => htracked j p (hm.propagators_eq ▸ hp)
    exact ⟨r₁, r₂, e₁', e₂', hs₁, hs₂⟩
  · obtain ⟨domains₁, cells₁, journal₁, -, -, hr₁⟩ := h₁.trusted.exists_restoreTo hk
    obtain ⟨domains₂, cells₂, journal₂, -, -, hr₂⟩ :=
      h₂.trusted.exists_restoreTo (hk.trans_eq hm.level_eq)
    exact ⟨_, _, hr₁, hr₂, (hm.restored hr₁ hr₂).alike rfl⟩

/-- A counter for two variables, an interval and a listed one, in an engine of either kind, after the
first fixed point and a decision about the counter. -/
def countedPair (skipsOwn : Bool) : Moment AmongPropagator :=
  (Moment.mk (init skipsOwn) false |>.after (.newInterval 0 3)).after (.newListed [0, 1, 4])
    |>.after (.newInterval 0 2)
    |>.after (.add (posting [.domain ⟨0⟩, .domain ⟨1⟩] (.domain ⟨2⟩) [1, 0] true))
    |>.after .settle |>.after .newCheckpoint |>.after (.impose (.domain ⟨2⟩) (.atLeast 2))

/-- After the decision that both variables count, they have the same values in both engines. -/
theorem abreast_indistinguishable_countedPair :
    Abreast (countedPair false) (countedPair true) ∧
      ((countedPair false).after .settle).engine.domains.table.members ⟨1⟩ = {0, 1} ∧
      ((countedPair false).after .settle).engine.domains.table.Alike
        ((countedPair true).after .settle).engine.domains.table := by
  have hfirst := Abreast.init.after (.newInterval 0 3) (by decide) trivial trivial
    (by decide +kernel) (by decide +kernel)
  have hsecond := hfirst.after (.newListed [0, 1, 4]) (by decide) trivial trivial
    (by decide +kernel) (by decide +kernel)
  have hvariables := hsecond.after (.newInterval 0 2) (by decide) trivial trivial
    (by decide +kernel) (by decide +kernel)
  have hadded := hvariables.after
    (.add (posting [.domain ⟨0⟩, .domain ⟨1⟩] (.domain ⟨2⟩) [1, 0] true)) trivial
    ⟨by decide +kernel, _, _, _, _, rfl, by decide, by decide⟩
    ⟨by decide +kernel, _, _, _, _, rfl, by decide, by decide⟩
    (by decide +kernel) (by decide +kernel)
  have hsettled := hadded.after .settle trivial trivial trivial (by decide +kernel)
    (by decide +kernel)
  have hmarked := hsettled.after .newCheckpoint trivial (fun _ => by decide +kernel)
    (fun _ => by decide +kernel) (by decide +kernel) (by decide +kernel)
  have h : Abreast (countedPair false) (countedPair true) :=
    hmarked.after (.impose (.domain ⟨2⟩) (.atLeast 2)) trivial trivial trivial (by decide +kernel)
      (by decide +kernel)
  have hs₁ := Moment.settle_eq_ok (m := countedPair false) (by decide +kernel) (by decide +kernel)
  have hs₂ := Moment.settle_eq_ok (m := countedPair true) (by decide +kernel) (by decide +kernel)
  obtain ⟨-, -, hsettles, -⟩ := abreast_indistinguishable h
  exact ⟨h, by decide +kernel, (hsettles _ _ _ _ hs₁ hs₂).2 rfl⟩

end Narrowing.AmongPropagator
