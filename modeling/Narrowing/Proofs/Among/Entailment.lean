import Narrowing.Proofs.Among.Tractable
import Narrowing.Proofs.Engine.Run
import Narrowing.Script

/-!
What an engine says about an Among constraint. The standings of the scope bound the count in every
assignment from both sides, and the bounds meet once all variables are fixed. So what is said of the
constraint is right, nothing is left open when all variables are fixed, and the cells of the
propagator have no part in it.
-/

namespace Narrowing

namespace Variable

variable {s : Domains} {x : Variable}

/-- A variable that is asked is told to be fixed exactly if it has one value. -/
theorem isFixed_of_responds (hwf : s.table.WellFormed) (h : Responds (x.answer s)) :
    x.isFixed s = .ok (decide ((x.current s.table).card = 1)) := by
  have hdescribes := x.describes_answer hwf
  obtain ⟨lo, hlo⟩ := h.lower
  obtain ⟨hi, hhi⟩ := h.upper
  obtain ⟨hloV, hleast⟩ := hdescribes.lower hlo
  obtain ⟨hhiV, hgreatest⟩ := hdescribes.upper hhi
  exact isFixed_of_bounds hlo hhi ⟨hloV, fun u hu => hleast u hu⟩ ⟨hhiV, fun u hu => hgreatest u hu⟩

end Variable

namespace Among

variable {c : Among} {t : Table DomainId Domain} {s : Domains} {σ : DomainId → Int}
  {l : List Variable} {least most : Int} {fixed : Bool}

/-! ### Counting standings -/

/-- How many of the listed variables are sure to count. -/
def sureCount (c : Among) (t : Table DomainId Domain) (l : List Variable) : Nat :=
  l.countP fun x => c.Sure t x

/-- How many of the listed variables are not ruled out. -/
def openCount (c : Among) (t : Table DomainId Domain) (l : List Variable) : Nat :=
  l.countP fun x => ¬ c.Never t x

theorem sureCount_cons (x : Variable) :
    c.sureCount t (x :: l) = c.sureCount t l + if c.Sure t x then 1 else 0 := by
  simp [sureCount, List.countP_cons]

theorem openCount_cons (x : Variable) :
    c.openCount t (x :: l) = c.openCount t l + if c.Never t x then 0 else 1 := by
  simp [openCount, List.countP_cons]

/-- Those that are sure count in every assignment. -/
theorem sureCount_le (hlt : ∀ x ∈ l, x.base.index < t.size) (hσ : t.Admits σ) :
    c.sureCount t l ≤ l.countP fun x => x.eval σ ∈ c.tracked := by
  refine List.countP_mono_left fun x hx hsure => ?_
  simp only [decide_eq_true_eq] at hsure ⊢
  exact hsure _ (eval_mem_current hσ (hlt x hx))

/-- Those that are ruled out count in none. -/
theorem le_openCount (hlt : ∀ x ∈ l, x.base.index < t.size) (hσ : t.Admits σ) :
    (l.countP fun x => x.eval σ ∈ c.tracked) ≤ c.openCount t l := by
  refine List.countP_mono_left fun x hx htracked => ?_
  simp only [decide_eq_true_eq] at htracked ⊢
  exact fun hnever => hnever _ (eval_mem_current hσ (hlt x hx)) htracked

/-- A variable with one value that is not ruled out is sure to count. -/
theorem openCount_le_sureCount (hfixed : ∀ x ∈ l, (x.current t).card = 1) :
    c.openCount t l ≤ c.sureCount t l := by
  refine List.countP_mono_left fun x hx hopen => ?_
  obtain ⟨v, hv⟩ := Finset.card_eq_one.1 (hfixed x hx)
  simp only [decide_eq_true_eq, Sure, Never, hv, Finset.mem_singleton, forall_eq, not_not] at hopen ⊢
  exact hopen

/-! ### The survey -/

/-- The standing of a variable that has values. -/
theorem standing_iff (hwf : s.table.WellFormed) (hsorted : c.tracked.Pairwise (· < ·)) {x : Variable}
    (hx : (x.current s.table).Nonempty) {st : Standing} (h : c.standing s x = .ok st) :
    (st = .sure ↔ c.Sure s.table x) ∧ (st = .impossible ↔ c.Never s.table x) := by
  rcases standing_eq_ok hwf hsorted h with ⟨rfl, hsure⟩ | ⟨rfl, hsure, hnever⟩ | ⟨rfl, hsure, hnever⟩
  · exact ⟨iff_of_true rfl hsure, iff_of_false (by decide) fun hnever => hnever.not_sure hx hsure⟩
  · exact ⟨iff_of_false (by decide) hsure, iff_of_false (by decide) hnever⟩
  · exact ⟨iff_of_false (by decide) hsure, iff_of_true rfl hnever⟩

theorem withOneMore_eq_ok {st : Standing} {least' most' : Int}
    (h : AmongPropagator.withOneMore least most st = .ok (least', most')) :
    least' = least + (if st = .sure then 1 else 0) ∧
      most' = most + (if st = .impossible then 0 else 1) := by
  cases st with
  | sure =>
      obtain ⟨l, hl, h⟩ := Checked.bind_eq_ok h
      obtain ⟨m, hm, h⟩ := Checked.bind_eq_ok h
      obtain ⟨rfl, rfl⟩ := Prod.mk.inj (Except.ok.inj h)
      exact ⟨Value.eq_of_check hl, Value.eq_of_check hm⟩
  | possible =>
      obtain ⟨m, hm, h⟩ := Checked.bind_eq_ok h
      obtain ⟨rfl, rfl⟩ := Prod.mk.inj (Except.ok.inj h)
      exact ⟨(Int.add_zero _).symm, Value.eq_of_check hm⟩
  | impossible =>
      obtain ⟨rfl, rfl⟩ := Prod.mk.inj (Except.ok.inj h)
      exact ⟨(Int.add_zero _).symm, (Int.add_zero _).symm⟩

/-- Counts that stay below the greatest machine value can be told. -/
theorem exists_withOneMore (h : 0 ≤ least) (hle : least ≤ most) (hmost : most + 1 ≤ Value.greatest)
    (st : Standing) : ∃ least' most', AmongPropagator.withOneMore least most st = .ok (least', most') ∧
      0 ≤ least' ∧ least' ≤ most' ∧ most' ≤ most + 1 := by
  have hcheck : ∀ v, 0 ≤ v → v ≤ Value.greatest → Value.check v = .ok v := fun v hv hv' =>
    Value.check_eq_ok ⟨(by decide : Value.least ≤ 0).trans hv, hv'⟩
  cases st with
  | sure =>
      refine ⟨least + 1, most + 1, ?_, by omega, by omega, le_refl _⟩
      rw [AmongPropagator.withOneMore, hcheck (least + 1) (by omega) (by omega),
        hcheck (most + 1) (by omega) hmost]
      rfl
  | possible =>
      refine ⟨least, most + 1, ?_, h, by omega, le_refl _⟩
      rw [AmongPropagator.withOneMore, hcheck (most + 1) (by omega) hmost]
      rfl
  | impossible => exact ⟨least, most, rfl, h, hle, by omega⟩

section Survey

variable (hwf : s.table.WellFormed) (hlt : ∀ x ∈ l, x.base.index < s.table.size)
  (hasks : ∀ x ∈ l, Responds (x.answer s))
include hwf hlt hasks

/-- A survey adds up the standings, and finds all variables fixed if each of them has one value. -/
theorem survey_eq_ok (hsorted : c.tracked.Pairwise (· < ·)) {least' most' : Int} {fixed' : Bool}
    (h : AmongPropagator.survey c s least most fixed l = .ok (least', most', fixed')) :
    least' = least + c.sureCount s.table l ∧ most' = most + c.openCount s.table l ∧
      (fixed' = true ↔ fixed = true ∧ ∀ x ∈ l, (x.current s.table).card = 1) := by
  induction l generalizing least most fixed with
  | nil =>
      obtain ⟨rfl, hrest⟩ := Prod.mk.inj (Except.ok.inj h)
      obtain ⟨rfl, rfl⟩ := Prod.mk.inj hrest
      simp [sureCount, openCount]
  | cons x rest ih =>
      obtain ⟨hx, hrest⟩ := List.forall_mem_cons.1 hasks
      obtain ⟨hltx, hltrest⟩ := List.forall_mem_cons.1 hlt
      rw [AmongPropagator.survey] at h
      obtain ⟨st, hst, h⟩ := Checked.bind_eq_ok h
      obtain ⟨⟨l₁, m₁⟩, hcounted, h⟩ := Checked.bind_eq_ok h
      obtain ⟨fixed₁, hfixed, h⟩ := Checked.bind_eq_ok h
      obtain ⟨hl, hm⟩ := withOneMore_eq_ok hcounted
      obtain ⟨hl', hm', hf'⟩ := ih hltrest hrest h
      rw [Variable.isFixed_of_responds hwf hx, Except.ok.injEq] at hfixed
      obtain ⟨hsure, hopen⟩ := standing_iff hwf hsorted (current_nonempty hwf hltx) hst
      refine ⟨?_, ?_, ?_⟩
      · simp only [hl', hl, sureCount_cons, hsure]
        push_cast
        omega
      · simp only [hm', hm, openCount_cons, hopen]
        push_cast
        omega
      · rw [hf', ← hfixed, List.forall_mem_cons, Bool.and_eq_true, decide_eq_true_iff, and_assoc]

/-- A survey of no more variables than there are machine values to count them is carried through. -/
theorem exists_survey (htracked : ∀ v ∈ c.tracked, Value.InRange v) (hleast : 0 ≤ least)
    (hle : least ≤ most) (hmost : most + l.length ≤ Value.greatest) (fixed : Bool) :
    ∃ least' most' fixed',
      AmongPropagator.survey c s least most fixed l = .ok (least', most', fixed') := by
  induction l generalizing least most fixed with
  | nil => exact ⟨least, most, fixed, rfl⟩
  | cons x rest ih =>
      obtain ⟨hx, hrest⟩ := List.forall_mem_cons.1 hasks
      obtain ⟨hltx, hltrest⟩ := List.forall_mem_cons.1 hlt
      rw [List.length_cons] at hmost
      push_cast at hmost
      obtain ⟨st, hst⟩ := exists_standing hx htracked
      obtain ⟨l₁, m₁, hcounted, hl₁, hle₁, hm₁⟩ := exists_withOneMore hleast hle (by omega) st
      obtain ⟨l', m', f', hsurvey⟩ := ih hltrest hrest hl₁ hle₁ (by omega)
        (fixed && decide ((x.current s.table).card = 1))
      refine ⟨l', m', f', ?_⟩
      rw [AmongPropagator.survey, hst]
      change (AmongPropagator.withOneMore least most st >>= _) = _
      rw [hcounted]
      change (x.isFixed s >>= _) = _
      rw [Variable.isFixed_of_responds hwf hx]
      exact hsurvey

end Survey

/-! ### The answer -/

section Answer

variable (hwf : s.table.WellFormed) (hlt : ∀ x ∈ c.counter :: c.scope, x.base.index < s.table.size)
  (hasks : ∀ x ∈ c.counter :: c.scope, Responds (x.answer s))
include hwf hlt hasks

/-- What is said of a constraint is right, and it is decided when all variables have one value. -/
theorem entailment_eq_ok (hsorted : c.tracked.Pairwise (· < ·)) {answer : Entailment}
    (h : AmongPropagator.entailment c s = .ok answer) :
    (answer = .entailed → ∀ σ, s.table.Admits σ → c.Satisfied σ) ∧
      (answer = .refuted → ∀ σ, s.table.Admits σ → ¬ c.Satisfied σ) ∧
      ((∀ x ∈ c.counter :: c.scope, (x.current s.table).card = 1) → answer ≠ .undecided) := by
  obtain ⟨hltc, hlt⟩ := List.forall_mem_cons.1 hlt
  obtain ⟨hcounter, hscope⟩ := List.forall_mem_cons.1 hasks
  obtain ⟨counterFixed, hcounterFixed, h⟩ := Checked.bind_eq_ok h
  obtain ⟨⟨least, most, allFixed⟩, hsurvey, h⟩ := Checked.bind_eq_ok h
  obtain ⟨hi, hhi, h⟩ := Checked.bind_eq_ok h
  rw [Variable.isFixed_of_responds hwf hcounter, Except.ok.injEq] at hcounterFixed
  obtain ⟨hleast, hmost, hfixed⟩ := survey_eq_ok hwf hlt hscope hsorted hsurvey
  have hdescribes := c.counter.describes_answer hwf
  have hupper := (hdescribes.upper hhi).2
  rw [zero_add] at hleast hmost
  rw [← hcounterFixed, decide_eq_true_eq] at hfixed
  have hbetween : ∀ σ, s.table.Admits σ → c.Satisfied σ →
      least ≤ c.counter.eval σ ∧ c.counter.eval σ ≤ most := by
    intro σ hσ hsat
    rw [Satisfied] at hsat
    have hsure := sureCount_le (c := c) hlt hσ
    have hopen := le_openCount (c := c) hlt hσ
    omega
  split at h
  · next hbelow =>
    obtain rfl := Except.ok.inj h
    refine ⟨fun he => absurd he (by decide), fun _ σ hσ hsat => ?_, fun _ => by decide⟩
    have := hupper _ (eval_mem_current hσ hltc)
    have := (hbetween σ hσ hsat).1
    omega
  next hbelow =>
  obtain ⟨lo, hlo, h⟩ := Checked.bind_eq_ok h
  have hlower := (hdescribes.lower hlo).2
  split at h
  · next habove =>
    obtain rfl := Except.ok.inj h
    refine ⟨fun he => absurd he (by decide), fun _ σ hσ hsat => ?_, fun _ => by decide⟩
    have := hlower _ (eval_mem_current hσ hltc)
    have := (hbetween σ hσ hsat).2
    omega
  next habove =>
  split at h
  · next hall =>
    obtain rfl := Except.ok.inj h
    refine ⟨fun _ σ hσ => ?_, fun he => absurd he (by decide), fun _ => by decide⟩
    obtain ⟨hone, hones⟩ := hfixed.1 hall
    obtain ⟨v, hv⟩ := Finset.card_eq_one.1 hone
    have hsame := openCount_le_sureCount (c := c) hones
    have hsure := sureCount_le (c := c) hlt hσ
    have hopen := le_openCount (c := c) hlt hσ
    have hvalue := eval_mem_current hσ hltc
    have hhi' := (hdescribes.upper hhi).1
    have hlo' := (hdescribes.lower hlo).1
    rw [hv, Finset.mem_singleton] at hvalue hhi' hlo'
    rw [Satisfied]
    omega
  · next hall =>
    obtain rfl := Except.ok.inj h
    refine ⟨fun he => absurd he (by decide), fun he => absurd he (by decide), fun hones => ?_⟩
    exact absurd (hfixed.2 (List.forall_mem_cons.1 hones)) hall

/-- There is an answer as long as the scope can be counted. -/
theorem exists_entailment (htracked : ∀ v ∈ c.tracked, Value.InRange v)
    (hlength : (c.scope.length : Int) ≤ Value.greatest) :
    ∃ answer, AmongPropagator.entailment c s = .ok answer := by
  obtain ⟨hltc, hlt⟩ := List.forall_mem_cons.1 hlt
  obtain ⟨hcounter, hscope⟩ := List.forall_mem_cons.1 hasks
  obtain ⟨lo, hlo⟩ := hcounter.lower
  obtain ⟨hi, hhi⟩ := hcounter.upper
  have hcounterFixed := Variable.isFixed_of_responds hwf hcounter
  obtain ⟨least, most, allFixed, hsurvey⟩ := exists_survey hwf hlt hscope htracked (le_refl 0)
    (le_refl 0) (by omega) (decide ((c.counter.current s.table).card = 1))
  simp only [AmongPropagator.entailment, hcounterFixed, hsurvey, Variable.upper, hhi, Variable.lower,
    hlo, bind, Except.bind]
  split
  · exact ⟨_, rfl⟩
  split
  · exact ⟨_, rfl⟩
  split
  · exact ⟨_, rfl⟩
  · exact ⟨_, rfl⟩

end Answer

/-- It makes no difference in which order and how often the tracked values are listed. -/
theorem satisfied_ofList {scope : List Variable} {counter : Variable} {tracked : List Int} :
    (⟨scope, counter, Ascending.ofList tracked⟩ : Among).Satisfied σ ↔
      (⟨scope, counter, tracked⟩ : Among).Satisfied σ := by
  simp only [Satisfied, Ascending.mem_ofList]

end Among

namespace Engine

variable {Q : Type} [Propagator Q] {rules : Rules (AmongPropagator ⊕ Q)} {skipsOwn : Bool}
  {m : Moment (AmongPropagator ⊕ Q)} {id : PropagatorId} {p : AmongPropagator}

/-- An engine asks a propagator of a constraint about the domains only. -/
theorem entailment_of_get? {e : Engine (AmongPropagator ⊕ Q)}
    (hp : e.propagators.get? id = some (.inl p)) :
    entailment id e = checked (AmongPropagator.entailment p.toAmong e.domains) e := by
  have hpropagator : propagator id e = .ok (.inl p) e := by
    change checked (e.propagators.fetch id) e = _
    rw [(Table.fetch_eq_ok_iff _).2 hp]
    rfl
  rw [entailment, bind_of_ok hpropagator]
  rfl

theorem checked_eq_ok {α : Type} {c : Checked α} {a : α} {e e' : Engine (AmongPropagator ⊕ Q)}
    (h : checked c e = .ok a e') : c = .ok a ∧ e' = e := by
  cases c with
  | ok a' =>
      obtain ⟨rfl, rfl⟩ := EStateM.Result.ok.inj h
      exact ⟨rfl, rfl⟩
  | error f => exact nomatch h

/-- **Entailment.** What an engine says about an Among constraint over any variables that look at no
domain with the least machine value through a view is right: a constraint that is entailed is satisfied
by every assignment from the domains, and one that is refuted by none. Once the counter and the scope
are fixed it is one or the other. The tracked values may be listed in any order and repeatedly, and what
the cells of the propagator hold makes no difference. An answer is given for every scope that can be
counted. -/
theorem Reached.entailment_correct (h : Reached rules skipsOwn m) {scope : List Variable}
    {counter : Variable} {tracked : List Int} {backPropagates : Bool} {cell : Nat → CellId}
    {set : Nat → SetId}
    (hp : m.engine.propagators.get? id =
      some (.inl ((AmongPropagator.posting scope counter tracked backPropagates).build cell set)))
    (hlt : ∀ x ∈ counter :: scope, x.base.index < m.engine.domains.table.size)
    (hleast : ∀ x ∈ counter :: scope,
      x = .domain x.base ∨ Value.least ∉ m.engine.domains.table.members x.base)
    (htracked : ∀ v ∈ tracked, Value.InRange v) :
    ((scope.length : Int) ≤ Value.greatest → ∃ answer, entailment id m.engine = .ok answer m.engine) ∧
      ∀ answer e, entailment id m.engine = .ok answer e →
        (answer = .entailed → ∀ σ, m.engine.domains.table.Admits σ →
          (⟨scope, counter, tracked⟩ : Among).Satisfied σ) ∧
        (answer = .refuted → ∀ σ, m.engine.domains.table.Admits σ →
          ¬ (⟨scope, counter, tracked⟩ : Among).Satisfied σ) ∧
        ((∀ x ∈ counter :: scope, (x.current m.engine.domains.table).card = 1) →
          answer ≠ .undecided) ∧
        ∀ cells, entailment id { m.engine with cells } = .ok answer { m.engine with cells } := by
  have hwf := (h.consistent ⟨consistent_init skipsOwn, fun hs => nomatch hs⟩).1.workspace.table
  have hasks : ∀ x ∈ counter :: scope, Responds (x.answer m.engine.domains) := fun x hx =>
    Variable.responds_of_invertible hwf (hlt x hx) (hleast x hx)
  set c : Among := ⟨scope, counter, Ascending.ofList tracked⟩ with hc
  have htracked' : ∀ v ∈ c.tracked, Value.InRange v := fun v hv =>
    htracked v (Ascending.mem_ofList.1 hv)
  refine ⟨fun hlength => ?_, fun answer e hanswer => ?_⟩
  · obtain ⟨answer, hanswer⟩ := Among.exists_entailment (c := c) hwf hlt hasks htracked' hlength
    refine ⟨answer, ?_⟩
    rw [entailment_of_get? hp]
    exact congrArg (checked · m.engine) hanswer
  · rw [entailment_of_get? hp] at hanswer
    obtain ⟨hanswer, -⟩ := checked_eq_ok hanswer
    obtain ⟨hentailed, hrefuted, hdecided⟩ := Among.entailment_eq_ok (c := c) hwf hlt hasks
      (Ascending.pairwise_ofList tracked) hanswer
    refine ⟨fun he σ hσ => Among.satisfied_ofList.1 (hentailed he σ hσ),
      fun he σ hσ hsat => hrefuted he σ hσ (Among.satisfied_ofList.2 hsat), hdecided, fun cells => ?_⟩
    rw [entailment_of_get? (e := { m.engine with cells }) hp]
    exact congrArg (checked · { m.engine with cells }) hanswer

/-- Both views of the first domain have the one value `3`, and the counter is at most one. Nothing was
propagated, so the cells of the propagator have not been written yet. -/
def overcounted : Moment (AmongPropagator ⊕ Script) :=
  ((Moment.mk (init false) false |>.after (.newListed [-3, 3])).after (.newInterval 0 1)).after
    (.add (AmongPropagator.posting [.abs (.domain ⟨0⟩), .domain ⟨0⟩, .abs (.abs (.domain ⟨0⟩))]
      (.domain ⟨1⟩) [5, 3, 5] true).inl)

theorem reached_overcounted : Reached {} false overcounted := by
  have hstart : Reached {} false (⟨init false, false⟩ : Moment (AmongPropagator ⊕ Script)) := .refl
  have hlisted := hstart.after (.newListed [-3, 3]) (by decide) trivial (by decide +kernel)
  have hinterval := hlisted.after (.newInterval 0 1) (by decide) trivial (by decide +kernel)
  exact hinterval.after (.add (AmongPropagator.posting [.abs (.domain ⟨0⟩), .domain ⟨0⟩,
    .abs (.abs (.domain ⟨0⟩))] (.domain ⟨1⟩) [5, 3, 5] true).inl) trivial trivial (by decide +kernel)

/-- Two of three variables are sure to count, so the constraint is refuted. -/
theorem entailment_correct_overcounted : Reached {} false overcounted ∧
    entailment ⟨0⟩ overcounted.engine = .ok .refuted overcounted.engine ∧
    ∀ σ, overcounted.engine.domains.table.Admits σ →
      ¬ (⟨[.abs (.domain ⟨0⟩), .domain ⟨0⟩, .abs (.abs (.domain ⟨0⟩))], .domain ⟨1⟩, [5, 3, 5]⟩ :
        Among).Satisfied σ := by
  have hp : overcounted.engine.propagators.get? ⟨0⟩ = some (.inl
      ((AmongPropagator.posting [.abs (.domain ⟨0⟩), .domain ⟨0⟩, .abs (.abs (.domain ⟨0⟩))]
        (.domain ⟨1⟩) [5, 3, 5] true).build CellId.mk SetId.mk)) := by decide +kernel
  obtain ⟨hexists, hcorrect⟩ := reached_overcounted.entailment_correct hp (by decide +kernel)
    (by decide +kernel) (by decide)
  obtain ⟨answer, hanswer⟩ := hexists (by decide)
  have hrefuted : AmongPropagator.entailment
      ⟨[.abs (.domain ⟨0⟩), .domain ⟨0⟩, .abs (.abs (.domain ⟨0⟩))], .domain ⟨1⟩, [3, 5]⟩
      overcounted.engine.domains = .ok .refuted := by decide +kernel
  have hanswer' := hanswer
  rw [entailment_of_get? hp] at hanswer'
  obtain rfl : answer = .refuted :=
    Except.ok.inj ((checked_eq_ok hanswer').1.symm.trans hrefuted)
  exact ⟨reached_overcounted, hanswer, (hcorrect _ _ hanswer).2.1 rfl⟩

end Engine

end Narrowing
