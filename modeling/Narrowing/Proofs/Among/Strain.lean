import Narrowing.Proofs.Among.Spending
import Narrowing.Proofs.Propagator.Risk
import Narrowing.Proofs.Variable.Overrun

/-!
Calls of the Among propagator that are abandoned. As long as no domain has the least machine value,
every question is answered and every restriction is refused or carried out, the cells are there, and the
counts stay between nothing and the whole scope. What is left are the two places where the machine
values may not suffice: a scope of more places than can be counted, and an interval that is to lose all
its values, of which the greatest machine value is one. The second takes a place that is still in the
set although all its values are tracked, such as one over a domain that was narrowed for another place
in the same pass.
-/

namespace Narrowing

namespace Cells

variable {s s' : Cells} {c : CellId} {n : Int} {f : Fault}

/-- A number is added unless the sum is too wide. -/
theorem perform_add_eq_error (hc : c.index < s.integers.size) (h : s.perform (.add c n) = .error f) :
    f = .overflow ∧ ¬ Amount.InRange (s.contents.value c + n) := by
  have hnot : ¬ Amount.InRange (s.contents.value c + n) := by
    intro hrange
    obtain ⟨s', hs'⟩ := exists_add hc hrange
    change (s.add c n >>= fun s' => pure (false, s')) = _ at h
    rw [hs'] at h
    exact nomatch h
  refine ⟨?_, hnot⟩
  have hadd : s.add c n = .error .overflow := by
    rw [add, read_of_lt hc]
    change (Amount.check (s.contents.value c + n) >>= fun sum => s.assign c sum) = _
    rw [Amount.check, if_neg hnot]
    rfl
  change (s.add c n >>= fun s' => pure (false, s')) = _ at h
  rw [hadd] at h
  exact (Except.error.inj h).symm

end Cells

namespace AmongPropagator

open Narrowing.Action

/-- The propagator tracks machine values only, and it looks at no domain with the least one through a
view. -/
structure Tame (p : AmongPropagator) (t : Table DomainId Domain) : Prop where
  tracked : ∀ v ∈ p.tracked, Value.InRange v
  invertible : ∀ x ∈ p.counter :: p.scope, x = .domain x.base ∨ Value.least ∉ t.members x.base

theorem Tame.below {p : AmongPropagator} {t g : Table DomainId Domain} (h : p.Tame t) (hb : g.Below t) :
    p.Tame g :=
  ⟨h.tracked, fun x hx => (h.invertible x hx).imp_right fun hleast hmem => hleast (hb.subset _ hmem)⟩

/-- What a call of the propagator can rely on. Being `safe` means that the propagator is tame. -/
structure Able (p : AmongPropagator) (safe : Prop) (w : Workspace Remark) : Prop where
  wellFormed : w.WellFormed
  grounded : p.Grounded w.domains.table
  sorted : p.tracked.Pairwise (· < ·)
  furnished : p.Furnished w.cells
  capacity_eq : w.cells.capacity p.possible = p.scope.length
  tame : safe → p.Tame w.domains.table

/-- The machine values do not suffice for what the propagator has to do. -/
inductive Strained (p : AmongPropagator) (w : Workspace Remark) : Prop
  /-- There are more places than can be counted. -/
  | crowded (h : Value.greatest < p.scope.length)
  /-- A place that still belongs to those that may count has come down to tracked values, one of which
  is the greatest machine value, and its domain can lose values at its bounds only. -/
  | cornered {i : Nat} (back : p.backPropagates = true) (mem : i ∈ p.may w)
      (interval : w.domains.table.enumerated (p.place i).base = false)
      (sure : p.Sure w.domains.table (p.place i))
      (greatest : Value.greatest ∈ (p.place i).current w.domains.table)

/-- As long as all is safe, a call is abandoned for an overflow only, and only under strain. -/
def Hazard (p : AmongPropagator) (safe : Prop) (f : Fault) (w : Workspace Remark) : Prop :=
  safe → f = .overflow ∧ p.Strained w

/-- What cannot be told from a call that is abandoned: that all is safe, and that the scope can be
counted. -/
structure Covers (p : AmongPropagator) (safe : Prop) (hazard : Fault → Workspace Remark → Prop) :
    Prop where
  of_safe : ∀ {f w}, (safe → hazard f w) → hazard f w
  crowded : Value.greatest < p.scope.length → ∀ w, hazard .overflow w

/-- What is true `before` the filtering leads to what is true `during` the walk that makes places not
count, and that is enough for the walk to leave the `hazard` only, if it is abandoned. -/
structure Escorts (p : AmongPropagator) (me : PropagatorId) (safe : Prop)
    (before during : Workspace Remark → Prop) (hazard : Fault → Workspace Remark → Prop) : Prop
    extends Covers p safe hazard where
  starts : ∀ {w w'}, before w → p.Able safe w →
    Domains.Narrows (· = p.counter.base) (.propagator me) w.domains w'.domains →
    w'.cells = w.cells → p.Counts (p.may w') (p.surely w') →
    p.CounterIs w'.domains.table (p.surely w') → during w'
  congr : ∀ {w w'}, during w → w'.domains = w.domains → p.may w' ⊆ p.may w → during w'
  forceOut : ∀ {w i}, during w → p.Able safe w → i ∈ p.may w →
    w.domains.table.enumerated (p.place i).base = true →
    Yields me (forceOut (p.place i) p.tracked) w (fun _ w' => during w') fun _ => True
  forceInward : ∀ {w i}, during w → p.Able safe w → i ∈ p.may w →
    w.domains.table.enumerated (p.place i).base = false →
    Yields me (forceInward (p.place i) (p.tracked.contains ·)) w (fun _ w' => during w')
      fun _ => True
  overruns : ∀ {w i}, during w → p.backPropagates = true → i ∈ p.may w →
    w.domains.table.enumerated (p.place i).base = false →
    Variable.Overruns ((p.place i).current w.domains.table) (p.tracked.contains ·) →
    hazard .overflow w

variable {p : AmongPropagator} {me : PropagatorId} {safe : Prop} {w w' : Workspace Remark}
  {α β : Type} {x : Variable} {i : Nat} {smallest largest : Int}
  {hazard : Fault → Workspace Remark → Prop} {before during : Workspace Remark → Prop}

theorem covers_hazard (p : AmongPropagator) (safe : Prop) : p.Covers safe (p.Hazard safe) :=
  ⟨fun h hsafe => h hsafe hsafe, fun hlt _ _ => ⟨rfl, .crowded hlt⟩⟩

/-- If the hazard covers every overflow of the walk, nothing more has to be known. -/
theorem Covers.escorts (h : p.Covers safe hazard) (me : PropagatorId)
    (hoverruns : ∀ {w i}, p.backPropagates = true → i ∈ p.may w →
      w.domains.table.enumerated (p.place i).base = false →
      Variable.Overruns ((p.place i).current w.domains.table) (p.tracked.contains ·) →
      hazard .overflow w) :
    Escorts p me safe (fun _ => True) (fun _ => True) hazard where
  toCovers := h
  starts _ _ _ _ _ _ := trivial
  congr _ _ _ := trivial
  forceOut _ _ _ _ := .of_all (fun _ _ => trivial) fun _ => trivial
  forceInward _ _ _ _ := .of_all (fun _ _ => trivial) fun _ => trivial
  overruns _ := hoverruns

/-- Of any call it can be told that it is abandoned under strain only. -/
theorem escorts_hazard (p : AmongPropagator) (me : PropagatorId) (safe : Prop) :
    Escorts p me safe (fun _ => True) (fun _ => True) (p.Hazard safe) :=
  (covers_hazard p safe).escorts me fun hback hi hinterval hoverruns _ =>
    ⟨rfl, .cornered hback hi hinterval (fun v hv => List.contains_iff_mem.1 (hoverruns.all_go v hv))
      hoverruns.greatest_mem⟩

/-- What is carried through if all is safe is at risk only if it is not. -/
theorem Covers.risks_of_succeeds (h : p.Covers safe hazard) {m : Step α}
    {post : α → Workspace Remark → Prop} {stop : Workspace Remark → Prop}
    (hm : Yields me m w post stop) (hs : safe → Succeeds me m w fun _ _ => True) :
    Risks me m w post hazard := by
  unfold Risks Ends
  unfold Yields Ends at hm
  cases hr : m.run me w with
  | ok a w' =>
      rw [hr] at hm
      exact hm
  | error e w' =>
      refine fun f _ => h.of_safe fun hsafe => ?_
      obtain ⟨a, w'', hok, -⟩ := hs hsafe
      exact nomatch hr.symm.trans hok

/-- The places of a walk that are still to be treated: they are in the set, each of them once, and the
cells stand for counts that the scope allows for. -/
structure Ahead (p : AmongPropagator) (places : List Nat) (w : Workspace Remark) : Prop where
  mem : ∀ i ∈ places, i ∈ p.may w
  nodup : places.Nodup
  counts : p.Counts (p.may w) (p.surely w)

namespace Ahead

variable {places rest : List Nat}

theorem congr (h : p.Ahead places w) (hcells : w'.cells = w.cells) : p.Ahead places w' := by
  have hmay : p.may w' = p.may w := may_congr hcells
  have hsurely : p.surely w' = p.surely w := surely_congr hcells
  refine ⟨fun i hi => hmay ▸ h.mem i hi, h.nodup, ?_⟩
  rw [hmay, hsurely]
  exact h.counts

variable (h : p.Ahead (i :: rest) w)
include h

theorem first_mem : i ∈ p.may w := h.mem i List.mem_cons_self

/-- A place is left as it is. -/
theorem tail : p.Ahead rest w :=
  ⟨fun j hj => h.mem j (List.mem_cons_of_mem i hj), (List.nodup_cons.1 h.nodup).2, h.counts⟩

theorem mem_erase {j : Nat} (hj : j ∈ rest) : j ∈ (p.may w).erase i := by
  have hne : j ≠ i := fun he => (List.nodup_cons.1 h.nodup).1 (he ▸ hj)
  exact Finset.mem_erase.2 ⟨hne, h.tail.mem j hj⟩

/-- A place leaves the set. -/
theorem erased (hmay : p.may w' = (p.may w).erase i) (hsurely : p.surely w' = p.surely w) :
    p.Ahead rest w' := by
  refine ⟨fun j hj => hmay ▸ h.mem_erase hj, h.tail.nodup, ?_⟩
  rw [hmay, hsurely]
  exact h.counts.erase i

/-- A place moves to the number. -/
theorem settled (hmay : p.may w' = (p.may w).erase i) (hsurely : p.surely w' = p.surely w + 1) :
    p.Ahead rest w' := by
  refine ⟨fun j hj => hmay ▸ h.mem_erase hj, h.tail.nodup, ?_⟩
  rw [hmay, hsurely]
  exact h.counts.settle h.first_mem

end Ahead

/-! ### What a call can rely on -/

namespace Able

variable (h : p.Able safe w)
include h

theorem of_progress {cause : Cause} (hp : Workspace.Progress cause w w')
    (hcapacity : w'.cells.capacity = w.cells.capacity) : p.Able safe w' where
  wellFormed := hp.wellFormed h.wellFormed
  grounded := h.grounded.narrower hp.narrows
  sorted := h.sorted
  furnished := h.furnished.evolves hp.evolves
  capacity_eq := (congrFun hcapacity _).trans h.capacity_eq
  tame hsafe := (h.tame hsafe).below (hp.narrows.table_below h.wellFormed.table)

/-- Whatever is done, it can be relied on afterwards. -/
theorem ends (m : Step α) : Ends (m.run me) w (fun _ w' => p.Able safe w') fun _ w' =>
    p.Able safe w' := by
  have hprogress : Ends (m.run me) w (fun _ w' => Workspace.Progress (.propagator me) w w')
      fun _ w' => Workspace.Progress (.propagator me) w w' := m.progress h.wellFormed
  let kept (s : Cells) : Prop := s.WellFormed ∧ s.capacity = w.cells.capacity
  have hcapacity : Ends (m.run me) w (fun _ w' => kept w'.cells) fun _ w' => kept w'.cells := by
    refine m.writes_all.ends (fun _ hs hop => ?_) ⟨h.wellFormed.cells, rfl⟩
    exact ⟨(Cells.perform_eq_ok hs.1 hop).1.wellFormed,
      (Cells.keeps_perform hs.1 hop).capacity_eq.trans hs.2⟩
  exact (hprogress.and hcapacity).mono (fun _ _ hw => h.of_progress hw.1 hw.2.2) fun _ _ hw =>
    h.of_progress hw.1 hw.2.2

/-- Steps that are at risk, one after the other. -/
theorem bind {m : Step α} {f : α → Step β} {mid : α → Workspace Remark → Prop}
    {post : β → Workspace Remark → Prop}
    (hm : Risks me m w mid hazard)
    (hf : ∀ a w', p.Able safe w' → mid a w' → Risks me (f a) w' post hazard) :
    Risks me (m >>= f) w post hazard :=
  risks_bind (Ends.mono (Ends.and hm (h.ends m)) (fun a w' hw => hf a w' hw.2 hw.1)
    fun _ _ hw => hw.1)

theorem remark (content : Remark) : p.Able safe (w.noted content) :=
  ⟨⟨h.wellFormed.table, h.wellFormed.recorded, h.wellFormed.cells, h.wellFormed.level_eq⟩, h.grounded,
    h.sorted, h.furnished, h.capacity_eq, h.tame⟩

section Safe

variable (hsafe : safe) (hx : x ∈ p.counter :: p.scope)
include hsafe hx

/-- All questions about a variable are answered. -/
theorem portrays : Portrays (x.answer w.domains) (x.current w.domains.table) :=
  Variable.portrays_of_invertible h.wellFormed.table (h.grounded.lt_of_mem hx)
    ((h.tame hsafe).invertible x hx)

/-- The values of a variable are machine values. -/
theorem inRange : ∀ v ∈ x.current w.domains.table, Value.InRange v :=
  Variable.inRange_of_invertible h.wellFormed.table (h.grounded.lt_of_mem hx)
    ((h.tame hsafe).invertible x hx)

theorem exists_standing : ∃ st, p.standing w.domains x = .ok st :=
  Among.exists_standing (Variable.responds_of_invertible h.wellFormed.table
    (h.grounded.lt_of_mem hx) ((h.tame hsafe).invertible x hx)) (h.tame hsafe).tracked

end Safe

/-- A member of the set is a place of the scope. -/
theorem lt_of_mem (hi : i ∈ p.may w) : i < p.scope.length :=
  (Cells.lt_capacity_of_mem_places h.wellFormed.cells hi).trans_eq h.capacity_eq

theorem place_mem (hi : i ∈ p.may w) : p.place i ∈ p.counter :: p.scope :=
  List.mem_cons_of_mem _ (Among.place_mem (h.lt_of_mem hi))

/-! ### Restrictions -/

section Covered

variable (hcovers : p.Covers safe hazard)
include hcovers

/-- A restriction is refused or carried out. -/
theorem risks_force (hx : x ∈ p.counter :: p.scope) {r : Restriction} (hr : safe → r.InRange)
    {left : Int → Prop} (hleft : x.Leaves (.propagator me) left r w.domains) :
    Risks me (force x r) w (fun _ w' => w'.cells = w.cells ∧
      Domains.Narrows (· = x.base) (.propagator me) w.domains w'.domains ∧
      ∀ u ∈ w'.domains.table.members x.base, left u) hazard := by
  refine risks_bind (risks_narrow (fun b domains hb => ?_) fun f domains hf => ?_)
  · obtain ⟨hn, -, hall⟩ := Ends.of_ok hleft hb
    exact risks_pure ⟨rfl, hn, hall⟩
  · refine hcovers.of_safe fun hsafe => ?_
    obtain ⟨d, hd⟩ := w.domains.table.exists_get? (h.grounded.lt_of_mem hx)
    have hleast := (h.tame hsafe).invertible x hx
    rw [Table.members_of_get? hd] at hleast
    rcases Variable.refused_or_ok h.wellFormed.table hd hleast (hr hsafe) (.propagator me) with
      hrun | ⟨b, s', hrun⟩
    · rw [hf] at hrun
      exact nomatch hrun
    · rw [hf] at hrun
      exact nomatch hrun

theorem risks_force_any (hx : x ∈ p.counter :: p.scope) {r : Restriction} (hr : safe → r.InRange) :
    Risks me (force x r) w (fun _ w' => w'.cells = w.cells ∧
      Domains.Narrows (· = x.base) (.propagator me) w.domains w'.domains) hazard :=
  (h.risks_force hcovers hx hr (Variable.leaves_true h.wellFormed.table r)).imp
    fun _ _ hw => ⟨hw.1, hw.2.1⟩

/-- The values of a variable are taken out one by one. -/
theorem risks_forceOut (hx : x ∈ p.counter :: p.scope) {l : List Int}
    (hl : safe → ∀ v ∈ l, Value.InRange v) :
    Risks me (forceOut x l) w (fun _ w' => w'.cells = w.cells) hazard := by
  induction l generalizing w with
  | nil => exact risks_pure rfl
  | cons v rest ih =>
      have hv : safe → (Restriction.without v).InRange := fun hsafe => hl hsafe v List.mem_cons_self
      refine h.bind (h.risks_force_any hcovers hx hv) fun _ w₁ h₁ hw₁ => ?_
      refine (ih h₁ fun hsafe u hu => hl hsafe u (List.mem_cons_of_mem v hu)).imp fun _ w₂ hcells₂ => ?_
      exact hcells₂.trans hw₁.1

/-- The bounds of a variable are moved inwards, unless the lower one is to move above the greatest
machine value. -/
theorem risks_forceInward (hx : x ∈ p.counter :: p.scope) (goes : Int → Bool)
    (hgoes : Variable.Overruns (x.current w.domains.table) goes → hazard .overflow w) :
    Risks me (forceInward x goes) w (fun _ w' => w'.cells = w.cells) hazard := by
  have hhull := fun hsafe : safe =>
    Variable.hull_or_overruns (h.portrays hsafe hx) (h.inRange hsafe hx) goes
  refine risks_bind (risks_onDomains (fun bounds hbounds => ?_) fun f hf => ?_)
  · obtain ⟨lo, hi⟩ := bounds
    have hrange : safe → Value.InRange lo ∧ Value.InRange hi := by
      intro hsafe
      rcases hhull hsafe with ⟨a, b, hab, ha, hb⟩ | ⟨hoverflow, -⟩
      · obtain ⟨rfl, rfl⟩ := Prod.mk.inj (Except.ok.inj (hbounds.symm.trans hab))
        exact ⟨ha, hb⟩
      · exact nomatch hbounds.symm.trans hoverflow
    have hlow : safe → (Restriction.atLeast lo).InRange := fun hsafe => (hrange hsafe).1
    have hhigh : safe → (Restriction.atMost hi).InRange := fun hsafe => (hrange hsafe).2
    refine h.bind (h.risks_force_any hcovers hx hlow) fun _ w₁ h₁ hw₁ => ?_
    refine h₁.bind (h₁.risks_force_any hcovers hx hhigh) fun _ w₂ _ hw₂ => ?_
    exact risks_pure (hw₂.1.trans hw₁.1)
  · refine hcovers.of_safe fun hsafe => ?_
    rcases hhull hsafe with ⟨a, b, hab, -⟩ | ⟨hoverflow, hoverruns⟩
    · exact nomatch hf.symm.trans hab
    · obtain rfl := Except.error.inj (hf.symm.trans hoverflow)
      exact hgoes hoverruns

end Covered

/-! ### Cells -/

/-- A place leaves the set. -/
theorem risks_erase :
    Risks me (write (.erase p.possible i)) w (fun _ w' => w'.domains = w.domains ∧
      p.may w' = (p.may w).erase i ∧ p.surely w' = p.surely w) hazard := by
  refine risks_bind (risks_set (fun b cells hop => ?_) fun f hf => ?_)
  · obtain ⟨-, hvalue, hplaces⟩ := Cells.perform_eq_ok h.wellFormed.cells hop
    refine risks_pure ⟨rfl, ?_, congrFun hvalue _⟩
    rw [may, hplaces, Function.update_self]
    rfl
  · obtain ⟨b, cells, hop⟩ := Cells.exists_erase h.wellFormed.cells h.furnished.possible_lt i
    cases hf.symm.trans hop

section Counted

variable (hcovers : p.Covers safe hazard) (hcounts : p.Counts (p.may w) (p.surely w))
include hcovers hcounts

/-- A place moves from the set to the number, unless that is too great to be counted. -/
theorem risks_settlePlace (hi : i ∈ p.may w) :
    Risks me (p.settlePlace i) w
      (fun _ w' => p.may w' = (p.may w).erase i ∧ p.surely w' = p.surely w + 1) hazard := by
  refine h.bind h.risks_erase fun _ w₁ h₁ hw₁ => ?_
  obtain ⟨-, hmay, hsurely⟩ := hw₁
  refine risks_bind (risks_set (fun b cells hop => ?_) fun f hf => ?_)
  · obtain ⟨-, hvalue, hplaces⟩ := Cells.perform_eq_ok h₁.wellFormed.cells hop
    refine risks_pure ⟨(congrFun hplaces _).trans hmay, ?_⟩
    rw [surely, hvalue, Function.update_self, ← hsurely]
    rfl
  · obtain ⟨rfl, hwide⟩ := Cells.perform_add_eq_error h₁.furnished.sure_lt hf
    refine hcovers.crowded ?_ w₁
    have hsum : w₁.cells.contents.value p.sure + 1 = p.surely w + 1 := congrArg (· + 1) hsurely
    have hle := hcounts.next_le hi
    have hnonneg := hcounts.nonneg
    rw [hsum] at hwide
    unfold Amount.InRange at hwide
    unfold Value.greatest
    omega

/-- The bounds of the count are told as values. They are those that the cells stand for, unless there
are more places than can be counted. -/
theorem risks_countBounds :
    Risks me (onCells p.countBounds) w (fun bounds w' => w' = w ∧ Value.InRange bounds.1 ∧
      Value.InRange bounds.2 ∧
        (p.Countable → bounds = (p.surely w, p.surely w + (p.may w).card))) hazard := by
  refine risks_onCells (fun bounds hok => ?_) fun f hf => ?_
  · obtain ⟨least, most⟩ := bounds
    obtain ⟨rfl, hmost⟩ := exists_of_countBounds h.wellFormed.cells hok
    refine ⟨rfl, Value.inRange_truncate _, Value.inRange_of_check hmost, fun hcountable => ?_⟩
    obtain ⟨hleast', rfl⟩ := countBounds_eq_ok h.wellFormed.cells hcounts hcountable hok
    rw [hleast']
  · have hbounds := countBounds_eq_bind h.furnished h.wellFormed.cells
    by_cases hrange : Value.InRange (Value.truncate (p.surely w) + Value.truncate (p.may w).card)
    · rw [Value.check_eq_ok hrange] at hbounds
      exact nomatch hf.symm.trans hbounds
    · rw [Value.check_eq_overflow hrange] at hbounds
      obtain rfl := Except.error.inj (hf.symm.trans hbounds)
      refine hcovers.crowded (not_le.1 fun hcountable => ?_) w
      obtain ⟨hsure, hcard, hsum⟩ := hcounts.inRange hcountable
      rw [Value.truncate_eq hsure, Value.truncate_eq hcard] at hrange
      exact hrange hsum

end Counted

/-! ### Questions -/

omit h in
/-- A question that is answered if all is safe. -/
theorem risks_asks (hcovers : p.Covers safe hazard) {f : Domains → Checked α}
    {post : α → Workspace Remark → Prop} (hf : safe → ∃ a, f w.domains = .ok a)
    (hpost : ∀ a, f w.domains = .ok a → post a w) :
    Risks me (Action.onDomains f) w post hazard := by
  refine risks_onDomains hpost fun e he => hcovers.of_safe fun hsafe => ?_
  obtain ⟨a, ha⟩ := hf hsafe
  exact nomatch he.symm.trans ha

/-- All values of a variable are listed. -/
theorem exists_values (hsafe : safe) (hx : x ∈ p.counter :: p.scope) :
    ∃ l, x.values w.domains = .ok l ∧ ∀ v ∈ l, Value.InRange v := by
  have hvalues := h.inRange hsafe hx
  obtain ⟨l, hl, -, hmem⟩ :=
    (h.portrays hsafe hx).ascending Value.count (Value.card_le_count hvalues)
  exact ⟨l, hl, fun v hv => hvalues v ((hmem v).1 hv)⟩

omit h in
theorem risks_subject (hi : i < p.scope.length) {post : Variable → Workspace Remark → Prop}
    (hpost : post (p.place i) w) :
    Risks me (p.subject i) w post hazard :=
  (succeeds_subject hi hpost).risks

/-! ### Walks -/

/-- Between tracked values there is no untracked greatest machine value, so not all values have to go
for being untracked. -/
theorem not_overruns (hsafe : safe) (hlargest : largest ∈ p.tracked)
    (hle : ∀ u ∈ w.domains.table.members x.base, x.image u ≤ largest)
    (hoverruns : Variable.Overruns (x.current w.domains.table) (!p.tracked.contains ·)) : False := by
  obtain ⟨u, hu, hgreatest⟩ := Variable.mem_current.1 hoverruns.greatest_mem
  have hle : Value.greatest ≤ largest := hgreatest ▸ hle u hu
  have hsame : largest = Value.greatest := le_antisymm ((h.tame hsafe).tracked _ hlargest).2 hle
  have hgoes := hoverruns.all_go _ hoverruns.greatest_mem
  rw [← hsame] at hgoes
  simp [hlargest] at hgoes

/-- The walk that makes places not count. -/
theorem risks_excludeEach {places : List Nat} (hescorts : Escorts p me safe before during hazard)
    (hback : p.backPropagates = true) (hduring : during w) (hahead : p.Ahead places w) :
    Risks me (p.excludeEach smallest largest places) w
      (fun _ w' => p.Counts (p.may w') (p.surely w')) hazard := by
  have hcovers := hescorts.toCovers
  induction places generalizing w with
  | nil => exact risks_pure hahead.counts
  | cons i rest ih =>
      have hmem := hahead.first_mem
      have hx := h.place_mem hmem
      have herased : ∀ w₁, p.Able safe w₁ → during w₁ → w₁.cells = w.cells →
          Risks me (write (.erase p.possible i) >>= fun _ => p.excludeEach smallest largest rest) w₁
            (fun _ w' => p.Counts (p.may w') (p.surely w')) hazard := by
        intro w₁ h₁ hduring₁ hcells
        refine h₁.bind h₁.risks_erase fun _ w₂ h₂ hw₂ => ?_
        obtain ⟨hdomains, hmay, hsurely⟩ := hw₂
        have hduring₂ := hescorts.congr hduring₁ hdomains (hmay.le.trans (Finset.erase_subset _ _))
        exact ih h₂ hduring₂ ((hahead.congr hcells).erased hmay hsurely)
      refine risks_bind (risks_subject (h.lt_of_mem hmem) (risks_bind (risks_remark ?_)))
      have hnoted := h.remark (.excluded (p.place i) p.tracked)
      have hduring : during (w.noted (.excluded (p.place i) p.tracked)) :=
        hescorts.congr hduring rfl (Finset.Subset.refl _)
      have hlt := hnoted.grounded.lt_of_mem hx
      refine risks_bind (risks_asks hcovers (fun _ => ⟨_, Variable.answer_enumerated hlt⟩)
        fun kind hkind => ?_)
      have hkind := (p.place i).enumerated_eq_ok hkind
      dsimp only at hkind ⊢
      split
      · next he =>
        have henumerated := hkind.symm.trans he
        refine hnoted.bind ((hnoted.risks_forceOut hcovers hx fun hsafe => (h.tame hsafe).tracked).and
          (hescorts.forceOut hduring hnoted hmem henumerated)) fun _ w₁ h₁ hw₁ => ?_
        exact herased w₁ h₁ hw₁.2 hw₁.1
      · next he =>
        have hinterval := hkind.symm.trans (Bool.eq_false_iff.2 he)
        refine hnoted.bind ((hnoted.risks_forceInward hcovers hx (p.tracked.contains ·)
          (hescorts.overruns hduring hback hmem hinterval)).and
          (hescorts.forceInward hduring hnoted hmem hinterval)) fun bounds w₁ h₁ hw₁ => ?_
        obtain ⟨hcells, hduring₁⟩ := hw₁
        split
        · exact herased w₁ h₁ hduring₁ hcells
        · exact ih h₁ hduring₁ (hahead.congr hcells).tail

/-- The walk that makes places count. The bounds of an interval are between tracked values before they
are moved inwards, so there is no step up from the greatest machine value. -/
theorem risks_includeEach {places : List Nat} (hcovers : p.Covers safe hazard)
    (hsmallest : smallest ∈ p.tracked) (hlargest : largest ∈ p.tracked)
    (hahead : p.Ahead places w) :
    Risks me (p.includeEach smallest largest places) w
      (fun _ w' => p.Counts (p.may w') (p.surely w')) hazard := by
  induction places generalizing w with
  | nil => exact risks_pure hahead.counts
  | cons i rest ih =>
      have hmem := hahead.first_mem
      have hx := h.place_mem hmem
      have hsettled : ∀ w₁, p.Able safe w₁ → w₁.cells = w.cells →
          Risks me (p.settlePlace i >>= fun _ => p.includeEach smallest largest rest) w₁
            (fun _ w' => p.Counts (p.may w') (p.surely w')) hazard := by
        intro w₁ h₁ hcells
        have hahead₁ := hahead.congr hcells
        exact h₁.bind (h₁.risks_settlePlace hcovers hahead₁.counts hahead₁.first_mem)
          fun _ w₂ h₂ hw₂ => ih h₂ (hahead₁.settled hw₂.1 hw₂.2)
      refine risks_bind (risks_subject (h.lt_of_mem hmem) (risks_bind (risks_remark ?_)))
      have hnoted := h.remark (.included (p.place i) p.tracked)
      have hlt := hnoted.grounded.lt_of_mem hx
      refine risks_bind (risks_asks hcovers (fun _ => ⟨_, Variable.answer_enumerated hlt⟩)
        fun kind hkind => ?_)
      dsimp only
      split
      · refine risks_bind (risks_asks hcovers (fun hsafe => ?_) fun values hvalues => ?_)
        · obtain ⟨l, hl, -⟩ := h.exists_values hsafe hx
          exact ⟨l, hl⟩
        · have hrange : safe → ∀ v ∈ values.filter (!p.tracked.contains ·), Value.InRange v := by
            intro hsafe v hv
            obtain ⟨l, hl, hrange⟩ := h.exists_values hsafe hx
            obtain rfl := Except.ok.inj (hvalues.symm.trans hl)
            exact hrange v (List.mem_filter.1 hv).1
          exact hnoted.bind (hnoted.risks_forceOut hcovers hx hrange) fun _ w₁ h₁ hcells =>
            hsettled w₁ h₁ hcells
      · refine hnoted.bind (hnoted.risks_force_any (r := .atLeast smallest) hcovers hx
          fun hsafe => (h.tame hsafe).tracked _ hsmallest) fun _ w₁ h₁ hw₁ => ?_
        refine h₁.bind (h₁.risks_force (r := .atMost largest) hcovers hx
          (fun hsafe => (h.tame hsafe).tracked _ hlargest)
          (Variable.leaves_atMost h₁.wellFormed.table _ _)) fun _ w₂ h₂ hw₂ => ?_
        obtain ⟨hcells₂, -, hle⟩ := hw₂
        refine h₂.bind (h₂.risks_forceInward hcovers hx (!p.tracked.contains ·) fun hoverruns =>
          hcovers.of_safe fun hsafe => (h₂.not_overruns hsafe hlargest hle hoverruns).elim)
          fun _ w₃ h₃ hcells₃ => ?_
        have hcells : w₃.cells = w.cells := hcells₃.trans (hcells₂.trans hw₁.1)
        refine risks_bind (risks_asks hcovers (fun hsafe => ?_) fun fixed _ => ?_)
        · exact ⟨_, Variable.isFixed_eq (h₃.portrays hsafe hx)⟩
        · split
          · exact hsettled w₃ h₃ hcells
          · exact ih h₃ (hahead.congr hcells).tail

/-! ### Calls -/

theorem risks_eachPossible {treat : Int → Int → List Nat → Step Unit}
    (hcounts : p.Counts (p.may w) (p.surely w))
    (htreat : ∀ smallest largest places, smallest ∈ p.tracked → largest ∈ p.tracked →
      p.Ahead places w → Risks me (treat smallest largest places) w
        (fun _ w' => p.Counts (p.may w') (p.surely w')) hazard) :
    Risks me (p.eachPossible treat) w (fun _ w' => p.Counts (p.may w') (p.surely w')) hazard := by
  unfold eachPossible
  split
  · next smallest largest hsmallest hlargest =>
    obtain ⟨places, hplaces⟩ := Cells.exists_members h.furnished.possible_lt
    obtain ⟨hnodup, hmem⟩ := Cells.members_eq_ok hplaces h.wellFormed.cells
    apply risks_bind
    apply (succeeds_onCells hplaces _).risks
    apply htreat _ _ _ (List.mem_of_head? hsmallest) (List.mem_of_getLast? hlargest)
    exact ⟨fun i hi => (hmem i).1 hi, hnodup, hcounts⟩
  · exact risks_pure hcounts

section Passes

variable (hescorts : Escorts p me safe before during hazard)
include hescorts

/-- The filtering. -/
theorem risks_filter (hcounts : p.Counts (p.may w) (p.surely w)) (hbefore : before w) :
    Risks me (p.filter me) w (fun _ w' => p.Counts (p.may w') (p.surely w')) hazard := by
  have hcovers := hescorts.toCovers
  have hcounter : p.counter ∈ p.counter :: p.scope := List.mem_cons_self
  have hlower : ∀ {w' : Workspace Remark}, p.Able safe w' → safe →
      ∃ lo, p.counter.lower w'.domains = .ok lo := by
    intro w' h' hsafe
    obtain ⟨lo, hlo, -⟩ := (h'.portrays hsafe hcounter).lower
    exact ⟨lo, hlo⟩
  unfold filter
  refine h.bind (h.risks_countBounds hcovers hcounts) fun bounds w₀ _ hw₀ => ?_
  obtain ⟨rfl, hleast, hmost, hcounted⟩ := hw₀
  refine risks_bind (risks_asks hcovers (fun hsafe => ?_) fun hi _ => ?_)
  · obtain ⟨hi, hhi, -⟩ := (h.portrays hsafe hcounter).upper
    exact ⟨hi, hhi⟩
  split
  · exact risks_contradict
  refine risks_bind (risks_asks hcovers (hlower h) fun lo _ => ?_)
  split
  · exact risks_contradict
  refine h.bind (h.risks_force_any (r := .atLeast _) hcovers hcounter fun _ => hleast)
    fun _ w₁ h₁ hw₁ => ?_
  refine h₁.bind (h₁.risks_force_any (r := .atMost _) hcovers hcounter fun _ => hmost)
    fun _ w₂ h₂ hw₂ => ?_
  have hcells := hw₂.1.trans hw₁.1
  have hcounts₂ : p.Counts (p.may w₂) (p.surely w₂) := by
    rwa [may_congr hcells, surely_congr hcells]
  split
  · exact risks_pure hcounts₂
  next hback =>
  have hback : p.backPropagates = true := by simpa using hback
  refine risks_bind (risks_asks hcovers (fun hsafe => ?_) fun fixed hfixed => ?_)
  · exact ⟨_, Variable.isFixed_eq (h₂.portrays hsafe hcounter)⟩
  split
  · exact risks_pure hcounts₂
  next hyes =>
  obtain rfl : fixed = true := by simpa using hyes
  split
  · exact risks_pure hcounts₂
  refine risks_bind (risks_asks hcovers (hlower h₂) fun count hcount => ?_)
  split
  · next hleast =>
    refine h₂.risks_eachPossible hcounts₂ fun smallest largest places _ _ hahead => ?_
    by_cases hcountable : p.Countable
    · have hmem := ((p.counter.describes_answer h₂.wellFormed.table).lower hcount).1
      have hcount : count = p.surely w₂ := by
        rw [hleast, hcounted hcountable, surely_congr hcells]
      have hcounter : p.CounterIs w₂.domains.table (p.surely w₂) := fun v hv =>
        hcount ▸ Variable.isFixed_eq_ok h₂.wellFormed.table hfixed hv hmem
      have hduring := hescorts.starts hbefore h (hw₁.2.trans hw₂.2) hcells hcounts₂ hcounter
      exact h₂.risks_excludeEach hescorts hback hduring hahead
    · have hcrowded := hcovers.escorts me fun _ _ _ _ => hcovers.crowded (not_le.1 hcountable) _
      exact h₂.risks_excludeEach hcrowded hback trivial hahead
  split
  · exact h₂.risks_eachPossible hcounts₂ fun smallest largest places hsmallest hlargest hahead =>
      h₂.risks_includeEach hcovers hsmallest hlargest hahead
  · exact risks_pure hcounts₂

/-- A pass, from scratch or not. -/
theorem risks_pass {passes : Passes} (hcounts : p.Counts (p.may w) (p.surely w))
    (hbefore : passes.full = false → before w) (hrecounted : ∀ w', Recounted p w w' → before w') :
    Risks me (p.pass me passes) w (fun _ w' => p.Counts (p.may w') (p.surely w')) hazard := by
  unfold pass
  split
  · have hrecounts : Yields me p.initialise w (fun _ w' => Recounted p w w') fun _ => True :=
      yields_initialise_recounts h.wellFormed h.sorted
    have hsucceeds : safe → Succeeds me p.initialise w fun _ _ => True := by
      intro hsafe
      refine (succeeds_initialise_of h.wellFormed h.sorted h.furnished (fun x hx => ?_)
        fun i hi => ?_).imp fun _ _ _ => trivial
      · exact h.exists_standing hsafe (List.mem_cons_of_mem _ hx)
      · rw [h.capacity_eq]
        exact Finset.mem_range.1 (Finset.mem_filter.1 hi).1
    exact h.bind (hescorts.risks_of_succeeds hrecounts hsucceeds) fun _ w₁ h₁ hw₁ =>
      h₁.risks_filter hescorts hw₁.tracks.counts (hrecounted w₁ hw₁)
  · next hfull => exact h.risks_filter hescorts hcounts (hbefore (Bool.eq_false_iff.2 hfull))

end Passes

section Notified

variable (hcovers : p.Covers safe hazard) (hcounts : p.Counts (p.may w) (p.surely w))
include hcovers hcounts

/-- The counter follows the cells. -/
theorem risks_follow (content : Int → Int → Remark) {r : Int → Int → Restriction}
    (hr : ∀ {least most : Int}, Value.InRange least → Value.InRange most → (r least most).InRange) :
    Risks me (do
        let bounds ← onCells p.countBounds
        Action.remark (content bounds.1 bounds.2)
        force p.counter (r bounds.1 bounds.2)) w
      (fun _ w' => p.Counts (p.may w') (p.surely w')) hazard := by
  refine h.bind (h.risks_countBounds hcovers hcounts) fun bounds w₁ _ hw₁ => ?_
  obtain ⟨rfl, hleast, hmost, -⟩ := hw₁
  refine risks_bind (risks_remark ?_)
  have hnoted := h.remark (content bounds.1 bounds.2)
  refine (hnoted.risks_force_any hcovers List.mem_cons_self fun _ => hr hleast hmost).imp
    fun _ w₂ hw₂ => ?_
  rw [may_congr hw₂.1, surely_congr hw₂.1]
  exact hcounts

/-- A place that changed is looked at. -/
theorem risks_reconsider (hi : i < p.scope.length) : Risks me (p.reconsider i (p.place i)) w
    (fun _ w' => p.Counts (p.may w') (p.surely w')) hazard := by
  obtain ⟨set, hset⟩ := Cells.exists_set h.furnished.possible_lt
  obtain ⟨hset', hplaces⟩ := Cells.set_eq_ok hset h.wellFormed.cells
  have hx : p.place i ∈ p.counter :: p.scope := List.mem_cons_of_mem _ (Among.place_mem hi)
  unfold reconsider
  refine risks_bind (Succeeds.risks (succeeds_onCells (a := set.contains i) ?_ ?_))
  · change (w.cells.set p.possible >>= fun set => pure (set.contains i)) = _
    rw [hset]
    rfl
  split
  · next hin =>
    have hin : i ∈ p.may w := by
      rw [SwapSet.contains_iff hset', hplaces] at hin
      exact hin
    refine risks_bind (risks_asks hcovers (fun hsafe => h.exists_standing hsafe hx) fun st _ => ?_)
    cases st with
    | sure =>
        refine h.bind (h.risks_settlePlace hcovers hcounts hin) fun _ w₁ h₁ hw₁ => ?_
        have hcounts₁ : p.Counts (p.may w₁) (p.surely w₁) := by
          rw [hw₁.1, hw₁.2]
          exact hcounts.settle hin
        exact h₁.risks_follow hcovers hcounts₁ (fun least _ => .surely (p.place i) p.toAmong least)
          (r := fun least _ => .atLeast least) fun hleast _ => hleast
    | possible => exact risks_pure hcounts
    | impossible =>
        refine h.bind h.risks_erase fun _ w₁ h₁ hw₁ => ?_
        have hcounts₁ : p.Counts (p.may w₁) (p.surely w₁) := by
          rw [hw₁.2.1, hw₁.2.2]
          exact hcounts.erase i
        exact h₁.risks_follow hcovers hcounts₁ (fun _ most => .never (p.place i) p.toAmong most)
          (r := fun _ most => .atMost most) fun _ hmost => hmost
  · exact risks_pure hcounts

/-- Events of the counter or of a place. -/
theorem risks_notified {events : EventSet} (hi : i ≤ p.scope.length) :
    Risks me (p.notified i events) w (fun _ w' => p.Counts (p.may w') (p.surely w')) hazard := by
  unfold notified
  split
  · exact risks_pure hcounts
  · next hne =>
    have hlt : i < p.scope.length := lt_of_le_of_ne hi hne
    refine risks_bind (risks_subject hlt ?_)
    split
    · exact risks_pure hcounts
    · refine risks_bind ((h.risks_reconsider hcovers hcounts hlt).imp fun _ w' hw => ?_)
      exact risks_pure hw

end Notified

end Able

end AmongPropagator

end Narrowing
