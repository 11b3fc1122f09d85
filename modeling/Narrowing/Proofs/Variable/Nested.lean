import Narrowing.Proofs.Variable.Alike
import Narrowing.Proofs.Variable.Idempotence
import Narrowing.Proofs.Variable.Runs

/-!
The absolute value of an absolute view. It answers as the view does, and it obeys as the view does, so
it is that view, with two exceptions. Both its listings of runs go through the view's listings in both
directions, so they meet every fault that the view's listing upwards meets. And the view hands the
values around zero to what it looks at all at once, but its own view hands it those of one sign first;
an interval that loses none of the former may lose some of the latter.
-/

namespace Narrowing

/-! ### Listings -/

namespace Absolute

variable {ask ask' : Oracle} {V : Finset Int} {m n p limit : Nat} {q q' : Option Int} {l lost : List Int}

/-- A shorter listing is the beginning of a longer one. -/
theorem climb_take (h : climb ask m q q' = .ok l) (hn : n ≤ m) :
    climb ask n q q' = .ok (l.take n) := by
  induction n generalizing m q q' l with
  | zero => rfl
  | succ n ih =>
      obtain ⟨m, rfl⟩ := Nat.exists_eq_add_one_of_ne_zero (Nat.ne_zero_of_lt hn)
      rw [climb_succ] at h ⊢
      obtain ⟨opposite, hopposite, h⟩ := Checked.bind_eq_ok h
      simp only [hopposite, bind, Except.bind]
      cases hv : pick min q opposite with
      | none =>
          simp only [hv] at h
          obtain rfl := Except.ok.inj h
          rfl
      | some v =>
          simp only [hv] at h
          obtain ⟨q₁, hq₁, h⟩ := Checked.bind_eq_ok h
          obtain ⟨q₁', hq₁', h⟩ := Checked.bind_eq_ok h
          obtain ⟨tail, htail, h⟩ := Checked.bind_eq_ok h
          obtain rfl := Except.ok.inj h
          simp only [hq₁, hq₁', ih htail (Nat.le_of_succ_le_succ hn)]
          rfl

theorem descend_take (h : descend ask m q q' = .ok l) (hn : n ≤ m) :
    descend ask n q q' = .ok (l.take n) := by
  induction n generalizing m q q' l with
  | zero => rfl
  | succ n ih =>
      obtain ⟨m, rfl⟩ := Nat.exists_eq_add_one_of_ne_zero (Nat.ne_zero_of_lt hn)
      rw [descend_succ] at h ⊢
      obtain ⟨opposite, hopposite, h⟩ := Checked.bind_eq_ok h
      simp only [hopposite, bind, Except.bind]
      cases hv : pick max q opposite with
      | none =>
          simp only [hv] at h
          obtain rfl := Except.ok.inj h
          rfl
      | some v =>
          simp only [hv] at h
          obtain ⟨q₁, hq₁, h⟩ := Checked.bind_eq_ok h
          obtain ⟨q₁', hq₁', h⟩ := Checked.bind_eq_ok h
          obtain ⟨tail, htail, h⟩ := Checked.bind_eq_ok h
          obtain rfl := Except.ok.inj h
          simp only [hq₁, hq₁', ih htail (Nat.le_of_succ_le_succ hn)]
          rfl

theorem ascending_take (h : answer ask _ (.ascending m) = .ok l) (hn : n ≤ m) :
    answer ask _ (.ascending n) = .ok (l.take n) := by
  obtain ⟨zero, hzero, h⟩ := Checked.bind_eq_ok h
  cases zero with
  | true =>
      obtain ⟨q, hq, h⟩ := Checked.bind_eq_ok h
      obtain ⟨q', hq', h⟩ := Checked.bind_eq_ok h
      simp only [answer, ascending, hzero, hq', bind, Except.bind]
      obtain rfl := Except.ok.inj hq
      exact climb_take h hn
  | false =>
      obtain ⟨q, hq, h⟩ := Checked.bind_eq_ok h
      obtain ⟨q', hq', h⟩ := Checked.bind_eq_ok h
      simp only [answer, ascending, hzero, hq, hq', bind, Except.bind]
      exact climb_take h hn

theorem descending_take (h : answer ask _ (.descending m) = .ok l) (hn : n ≤ m) :
    answer ask _ (.descending n) = .ok (l.take n) := by
  obtain ⟨hi, hhi, h⟩ := Checked.bind_eq_ok h
  obtain ⟨lo, hlo, h⟩ := Checked.bind_eq_ok h
  simp only [answer, descending, hhi, hlo, bind, Except.bind]
  exact descend_take h hn

/-- Views of the same values list them in the same way. -/
theorem ascending_congr (h : Portrays (answer ask) V) (h' : Portrays (answer ask') V) :
    answer ask _ (.ascending limit) = answer ask' _ (.ascending limit) := by
  obtain ⟨l, hl, hsorted, hmem⟩ := h.ascending (max limit V.card) (le_max_right _ _)
  obtain ⟨l', hl', hsorted', hmem'⟩ := h'.ascending (max limit V.card) (le_max_right _ _)
  obtain rfl : l = l' := hsorted.eq_of_mem_iff hsorted' fun v => (hmem v).trans (hmem' v).symm
  rw [ascending_take hl (le_max_left _ _), ascending_take hl' (le_max_left _ _)]

theorem descending_congr (h : Portrays (answer ask) V) (h' : Portrays (answer ask') V) :
    answer ask _ (.descending limit) = answer ask' _ (.descending limit) := by
  obtain ⟨l, hl, hsorted, hmem⟩ := h.descending (max limit V.card) (le_max_right _ _)
  obtain ⟨l', hl', hsorted', hmem'⟩ := h'.descending (max limit V.card) (le_max_right _ _)
  obtain rfl : l = l' := hsorted.eq_of_mem_iff hsorted' fun v => (hmem v).trans (hmem' v).symm
  rw [descending_take hl (le_max_left _ _), descending_take hl' (le_max_left _ _)]

/-! ### Losses -/

/-- A value that can be reported as lost by a view. -/
def Gone (ask : Oracle) (w : Int) : Prop :=
  0 ≤ w ∧ Value.InRange w ∧ contains ask w = .ok false

theorem gone_of_absent (h : absent ask lost = .ok l) : ∀ w ∈ l, Gone ask w := by
  induction lost generalizing l with
  | nil =>
      obtain rfl := Except.ok.inj h
      exact List.forall_mem_nil _
  | cons v rest ih =>
      obtain ⟨size, hsize, h⟩ := Checked.bind_eq_ok h
      obtain ⟨here, hhere, h⟩ := Checked.bind_eq_ok h
      obtain ⟨others, hothers, h⟩ := Checked.bind_eq_ok h
      obtain rfl := Except.ok.inj h
      cases here with
      | true => exact ih hothers
      | false =>
          refine List.forall_mem_cons.2 ⟨⟨?_, Value.inRange_of_check hsize, hhere⟩, ih hothers⟩
          rw [Value.eq_of_check hsize]
          exact Int.natCast_nonneg _

/-- It is gone for the view of the view as well. -/
theorem Gone.answer {w : Int} (h : Gone ask w) : Gone (Absolute.answer ask) w := by
  obtain ⟨h0, hr, hw⟩ := h
  have hneg : contains ask (-w) = .ok false := by
    rcases Int.lt_or_eq_of_le h0 with hpos | rfl
    · rw [contains, if_pos (by omega)]
    · exact hw
  refine ⟨h0, hr, ?_⟩
  have hw' : Absolute.answer ask _ (.contains w) = .ok false := hw
  have hneg' : Absolute.answer ask _ (.contains (-w)) = .ok false := hneg
  rw [contains, if_neg (not_lt.2 h0)]
  simp only [hw', negate_of_inRange (inRange_neg h0 hr), hneg', bind, Except.bind]
  rfl

theorem absent_of_gone (h : ∀ w ∈ l, Gone ask w) : absent ask l = .ok l := by
  induction l with
  | nil => rfl
  | cons w rest ih =>
      obtain ⟨⟨h0, hr, hw⟩, hrest⟩ := List.forall_mem_cons.1 h
      have habs : (w.natAbs : Int) = w := Int.natAbs_of_nonneg h0
      rw [absent, habs, Value.check_eq_ok hr]
      simp only [bind, Except.bind, hw, ih hrest]
      rfl

/-- There are no more values to be gone than machine values. -/
theorem length_ofList_le (h : ∀ w ∈ l, Gone ask w) : (Ascending.ofList l).length ≤ Value.count := by
  have hnodup : (Ascending.ofList l).Nodup := (Ascending.pairwise_ofList l).imp fun hlt => ne_of_lt hlt
  rw [← List.toFinset_card_of_nodup hnodup]
  refine Value.card_le_count fun w hw => ?_
  rw [List.mem_toFinset, Ascending.mem_ofList] at hw
  exact (h w hw).2.1

/-- The view of a view reports the same losses, whatever lies below. -/
theorem removedSince_answer (ask : Oracle) (p limit : Nat) :
    answer (answer ask) _ (.removedSince p limit) = answer ask _ (.removedSince p limit) := by
  simp only [answer, removedSince]
  cases ask _ (.removedSince p Value.count) with
  | error f => rfl
  | ok lost =>
      simp only [bind, Except.bind]
      cases hgone : absent ask lost with
      | error f => rfl
      | ok gone =>
          have hall := gone_of_absent hgone
          have hsame : Ascending.ofList (Ascending.ofList gone) = Ascending.ofList gone :=
            (Ascending.pairwise_ofList _).eq_of_mem_iff (Ascending.pairwise_ofList _) fun w =>
              Ascending.mem_ofList
          have habsent : absent (answer ask) (Ascending.ofList gone) = .ok (Ascending.ofList gone) :=
            absent_of_gone fun w hw => (hall w (Ascending.mem_ofList.1 hw)).answer
          simp only [pure, Except.pure, List.take_of_length_le (length_ofList_le hall), habsent, hsame]

end Absolute

/-! ### Answers -/

/-- The least value that a restriction allows, if there is one. -/
def Restriction.least? : Restriction → Option Int
  | .atLeast v => some v
  | .exactly v => some v
  | _ => none

theorem Restriction.transparent_of_least? {r : Restriction} (h : r.least? = none) : r.Transparent := by
  cases r with
  | atLeast v => exact nomatch h
  | exactly v => exact nomatch h
  | _ => trivial

/-- From a lopsided interval the bound below zero has to go, and the least value may stay. -/
theorem Domain.Lopsided.of_least? {d : Domain} {r : Restriction} {v : Int}
    (hl : d.Lopsided (v - 1)) (hv : v ∈ r.least?) :
    v ∈ d.members ∧ r.Allows (v.natAbs : Int) ∧ ¬ r.Allows d.lower := by
  obtain ⟨hkind, hneg, hfar, hlt⟩ := hl
  refine ⟨(mem_members_of_interval hkind).2 ⟨by omega, by omega⟩, ?_⟩
  cases r with
  | atLeast z =>
      obtain rfl := Option.some.inj hv
      simp only [Restriction.Allows]
      omega
  | exactly z =>
      obtain rfl := Option.some.inj hv
      simp only [Restriction.Allows]
      omega
  | _ => cases hv

/-- A question about machine values that is not for the runs. -/
def Query.Plain : {α : Type} → Query α → Prop
  | _, .contains v => Value.InRange v
  | _, .next v => Value.InRange v
  | _, .previous v => Value.InRange v
  | _, .runs => False
  | _, .runsDown => False
  | _, _ => True

namespace Domain.Cut

variable {d d₀ d₁ d₂ : Domain} {k : Int} (h : d.Cut d₁ (-k) k) (h₀ : d.Cut d₀ 0 k)
  (h₂ : d₀.Cut d₂ (-k) 0) (hk : 0 ≤ k)
include h h₀ h₂ hk

/-- Cut at once or in two steps, an interval comes to the same bounds, unless its lower bound is taken
by the second step only. -/
theorem lower_eq (hfar : d.lower < -k ∨ 0 ≤ d.lower) : d₁.lower = d₂.lower := by
  obtain ⟨-, -, hmem, hnotMem, -, -⟩ := h
  obtain ⟨-, -, hmem₀, hnotMem₀, -, -⟩ := h₀
  obtain ⟨-, -, hmem₂, hnotMem₂, -, -⟩ := h₂
  omega

theorem upper_eq : d₁.upper = d₂.upper := by
  obtain ⟨-, -, -, -, hmem, hnotMem⟩ := h
  obtain ⟨-, -, -, -, hmem₀, hnotMem₀⟩ := h₀
  obtain ⟨-, -, -, -, hmem₂, hnotMem₂⟩ := h₂
  omega

end Domain.Cut

namespace Variable

open Domains

variable {x y : Variable} {cause : Cause} {s s₁ s₂ : Domains} {d : Domain} {r : Restriction}
  {u v k : Int} {b b₁ b₂ : Bool}

/-- Whoever asks `x` learns what he would learn from `y`, as long as `y` lists its runs upwards to their
end. -/
structure AnswersAs (x y : Variable) (s : Domains) : Prop where
  answer : ∀ {α : Type} (q : Query α), q.Plain → x.answer s α q = y.answer s α q
  /-- The listing of runs upwards comes to its end for both or for neither. -/
  runs : ∃ up up', y.answer s _ .runs = .ok up ∧ x.answer s _ .runs = .ok up' ∧
    (up'.Complete ↔ up.Complete) ∧ (up.Complete → up' = up)
  /-- Downwards, `x` comes to the end of its runs exactly if `y` comes to the end of its runs upwards. -/
  runsDown : ∃ up down down', y.answer s _ .runs = .ok up ∧ y.answer s _ .runsDown = .ok down ∧
    x.answer s _ .runsDown = .ok down' ∧ (down'.Complete ↔ up.Complete) ∧
    (up.Complete → down' = down)
  isFixed : x.isFixed s = y.isFixed s
  fixedValue? : x.fixedValue? s = y.fixedValue? s
  fixedValue : ∀ v, x.fixedValue s = .ok v ↔ y.fixedValue s = .ok v
  watched : ∀ events, x.watched events = y.watched events
  perceived : ∀ events, x.perceived events = y.perceived events

theorem current_abs_abs (y : Variable) (t : Table DomainId Domain) :
    (abs (abs y)).current t = (abs y).current t := by
  refine Finset.image_congr fun u _ => ?_
  simp only [image_abs, Int.natAbs_natCast]

/-- The view of a view gives the answers of the view. -/
theorem answer_abs_abs (h : y.Holds s u) {α : Type} (q : Query α) (hq : q.Plain) :
    (abs (abs y)).answer s α q = (abs y).answer s α q := by
  have hinner := h.abs.portrays
  have houter := h.abs.abs.portrays
  rw [current_abs_abs] at houter
  cases q with
  | lower =>
      obtain ⟨a, ha, hleast⟩ := houter.lower
      obtain ⟨a', ha', hleast'⟩ := hinner.lower
      rw [ha, ha', hleast.unique hleast']
  | upper =>
      obtain ⟨a, ha, hgreatest⟩ := houter.upper
      obtain ⟨a', ha', hgreatest'⟩ := hinner.upper
      rw [ha, ha', hgreatest.unique hgreatest']
  | size => rw [houter.size, hinner.size]
  | enumerated => rfl
  | contains v => rw [houter.contains v hq, hinner.contains v hq]
  | next v =>
      obtain ⟨o, ho, hfirst⟩ := houter.next v hq
      obtain ⟨o', ho', hfirst'⟩ := hinner.next v hq
      rw [ho, ho', hfirst.unique hfirst']
  | previous v =>
      obtain ⟨o, ho, hlast⟩ := houter.previous v hq
      obtain ⟨o', ho', hlast'⟩ := hinner.previous v hq
      rw [ho, ho', hlast.unique hlast']
  | ascending limit => exact Absolute.ascending_congr houter hinner
  | descending limit => exact Absolute.descending_congr houter hinner
  | runs => exact hq.elim
  | runsDown => exact hq.elim
  | removedSince p limit => exact Absolute.removedSince_answer (y.answer s) p limit

/-- Where the runs of a view are listed upwards to their end, they are the runs of its view. Elsewhere
neither listing of its view comes to its end. -/
theorem runs_abs_abs (hwf : s.table.WellFormed) (hd : s.table.get? y.base = some d)
    (hleast : Value.least ∉ d.members) : ∃ up down up' down',
      (abs y).answer s _ .runs = .ok up ∧ (abs y).answer s _ .runsDown = .ok down ∧
      (abs (abs y)).answer s _ .runs = .ok up' ∧ (abs (abs y)).answer s _ .runsDown = .ok down' ∧
      (up'.Complete ↔ up.Complete) ∧ (down'.Complete ↔ up.Complete) ∧
      (up.Complete → up' = up ∧ down' = down) := by
  obtain ⟨up, down, hup, hdown, hjoin, -⟩ := complete_iff hwf hd hleast
  obtain ⟨up', down', hup', hdown', hjoin', hjoinDown'⟩ := complete_iff (y := abs y) hwf hd hleast
  refine ⟨up, down, up', down', hup, hdown, hup', hdown', hjoin'.trans hjoin.symm,
    hjoinDown'.trans hjoin.symm, fun hcomplete => ?_⟩
  obtain ⟨l, hl, hdownl, hspaced, hV⟩ := listsRuns_answer hwf hd hleast (hjoin.1 hcomplete)
  obtain ⟨l', hl', hdownl', hspaced', hV'⟩ :=
    listsRuns_answer (y := abs y) hwf hd hleast (hjoin.1 hcomplete)
  obtain rfl := hspaced.eq hspaced' hV hV'
  exact ⟨Except.ok.inj (hup'.symm.trans (hl'.trans (hl.symm.trans hup))),
    Except.ok.inj (hdown'.symm.trans (hdownl'.trans (hdownl.symm.trans hdown)))⟩

/-- Variables with the same bounds are fixed at the same time and have the same value then. -/
theorem fixedValue_iff (hlower : x.answer s _ .lower = y.answer s _ .lower)
    (hupper : x.answer s _ .upper = y.answer s _ .upper) :
    x.fixedValue s = .ok v ↔ y.fixedValue s = .ok v := by
  have hfixed : x.isFixed s = y.isFixed s := by
    simp only [Variable.isFixed, lower, upper, hlower, hupper]
  unfold Variable.fixedValue lower
  rw [hfixed, hlower]
  cases y.isFixed s with
  | error f => exact Iff.rfl
  | ok fixed => cases fixed with
    | false => refine iff_of_false (fun h => ?_) (fun h => ?_) <;> cases h
    | true => exact Iff.rfl

theorem watched_abs_abs (y : Variable) (events : EventSet) :
    (abs (abs y)).watched events = (abs y).watched events := by
  cases h : events.isEmpty <;> simp only [Variable.watched, h] <;> rfl

theorem perceived_abs_abs (y : Variable) (events : EventSet) :
    (abs (abs y)).perceived events = (abs y).perceived events := by
  cases h : (y.perceived events).isEmpty <;> simp only [Variable.perceived, h] <;> rfl

theorem answersAs_abs_abs (hwf : s.table.WellFormed) (hd : s.table.get? y.base = some d)
    (hleast : Value.least ∉ d.members) : (abs (abs y)).AnswersAs (abs y) s := by
  have hmembers := Table.members_of_get? hd
  have h : y.Holds s d.lower := ⟨hwf, hmembers ▸ (hwf _ d hd).lower_mem, hmembers ▸ hleast⟩
  have hlower := answer_abs_abs h .lower trivial
  have hupper := answer_abs_abs h .upper trivial
  obtain ⟨up, down, up', down', hup, hdown, hup', hdown', hiff, hiff', heq⟩ :=
    runs_abs_abs hwf hd hleast
  refine ⟨answer_abs_abs h, ⟨up, up', hup, hup', hiff, fun hcomplete => (heq hcomplete).1⟩,
    ⟨up, down, down', hup, hdown, hdown', hiff', fun hcomplete => (heq hcomplete).2⟩, ?_, ?_,
    fun v => fixedValue_iff hlower hupper, watched_abs_abs y, perceived_abs_abs y⟩
  · simp only [Variable.isFixed, lower, upper, hlower, hupper]
  · simp only [Variable.fixedValue?, Variable.isFixed, lower, upper, hlower, hupper]

/-! ### Taking out the values around zero, at once or sign by sign -/

/-- What is left of a domain that can have holes is what may stay. -/
theorem mem_members_of_enumerated (hwf : s.table.WellFormed) (hd : s.table.get? x.base = some d)
    (hkind : d.enumerated = true) (hrun : x.restrict cause r s = .ok b s₁) (w : Int) :
    w ∈ s₁.table.members x.base ↔ w ∈ s.table.members x.base ∧ x.Permits r w := by
  obtain ⟨hn, hstays, hleft⟩ := Ends.of_ok (x.confined cause r s hwf) hrun
  refine ⟨fun hw => ⟨hn.members_subset hwf _ hw, hleft w hw ?_⟩, fun hw => hstays w hw.1 hw.2⟩
  exact (Table.enumerated_of_get? hd).trans hkind

/-- An upper bound is obeyed by all that is left of any domain. -/
theorem mem_members_of_atMost (hwf : s.table.WellFormed)
    (hrun : x.restrict cause (.atMost v) s = .ok b s₁) (w : Int) :
    w ∈ s₁.table.members x.base ↔ w ∈ s.table.members x.base ∧ x.Permits (.atMost v) w := by
  obtain ⟨hn, hstays, -⟩ := Ends.of_ok (x.confined cause _ s hwf) hrun
  obtain ⟨-, -, hleft⟩ := Ends.of_ok (leaves_atMost hwf x v) hrun
  exact ⟨fun hw => ⟨hn.members_subset hwf _ hw, hleft w hw⟩, fun hw => hstays w hw.1 hw.2⟩

section Around

variable {id : DomainId} (h : (domain id).Holds s u) (hd : s.table.get? id = some d) (hk : 0 ≤ k)
  (hr : (Restriction.outside (-k) k).InRange) (hu : (abs (domain id)).Permits (.outside (-k) k) u)
  (hrun₁ : (domain id).restrict cause (.outside (-k) k) s = .ok b₁ s₁)
  (hrun₂ : (abs (domain id)).restrict cause (.outside (-k) k) s = .ok b₂ s₂)
include h hd hk hr hu hrun₁ hrun₂

/-- What an interval comes to either way. -/
theorem exists_both_cuts (hkind : d.enumerated = false) : ∃ d₁ d₀ d₂,
    s₁.table.get? id = some d₁ ∧ s₂.table.get? id = some d₂ ∧ d.Cut d₁ (-k) k ∧ d.Cut d₀ 0 k ∧
      d₀.Cut d₂ (-k) 0 := by
  obtain ⟨d₁, hd₁, hcut₁⟩ := exists_cut h.wellFormed hd hkind (fun _ => Iff.rfl) hrun₁
  obtain ⟨d₀, d₂, hd₂, hcut₀, hcut₂⟩ :=
    exists_cuts h hd hkind hr hu (Int.neg_nonpos_of_nonneg hk) hk hrun₂
  exact ⟨d₁, d₀, d₂, hd₁, hd₂, hcut₁, hcut₀, hcut₂⟩

/-- Unless the domain is a lopsided interval, it makes no difference. -/
theorem members_around_eq (hlopsided : ¬ d.Lopsided k) :
    s₁.table.members id = s₂.table.members id := by
  by_cases hkind : d.enumerated = true
  · ext w
    refine (mem_members_of_enumerated (x := domain id) h.wellFormed hd hkind hrun₁ w).trans ?_
    refine Iff.trans ?_ (mem_members_of_enumerated (x := abs (domain id)) h.wellFormed hd hkind
      hrun₂ w).symm
    refine and_congr_right fun _ => ?_
    show ¬ (-k ≤ w ∧ w ≤ k) ↔ ¬ (-k ≤ (w.natAbs : Int) ∧ (w.natAbs : Int) ≤ k)
    omega
  · have hinterval : d.enumerated = false := by simpa using hkind
    obtain ⟨d₁, d₀, d₂, hd₁, hd₂, hcut₁, hcut₀, hcut₂⟩ :=
      exists_both_cuts h hd hk hr hu hrun₁ hrun₂ hinterval
    have hmem := h.mem
    rw [show (domain id).base = id from rfl, Table.members_of_get? hd,
      Domain.mem_members_of_interval hinterval] at hmem
    have houtside : ¬ (-k ≤ (u.natAbs : Int) ∧ (u.natAbs : Int) ≤ k) := hu
    have hnot : ¬ (d.lower < 0 ∧ -k ≤ d.lower ∧ k < d.upper) := fun hl => hlopsided ⟨hinterval, hl⟩
    have hfar : d.lower < -k ∨ 0 ≤ d.lower := by omega
    rw [Table.members_of_get? hd₁, Table.members_of_get? hd₂, Domain.members_eq_Icc hcut₁.kind,
      Domain.members_eq_Icc hcut₂.kind, hcut₁.lower_eq hcut₀ hcut₂ hk hfar,
      hcut₁.upper_eq hcut₀ hcut₂ hk]

/-- From a lopsided interval everything up to `k` is taken, or only what is not above zero. -/
theorem mem_around_of_lopsided (hl : d.Lopsided k) (w : Int) :
    (w ∈ s₁.table.members id ↔ w ∈ d.members ∧ k < w) ∧
      (w ∈ s₂.table.members id ↔ w ∈ d.members ∧ 0 < w) := by
  obtain ⟨hinterval, hneg, hfar, hlt⟩ := hl
  obtain ⟨d₁, d₀, d₂, hd₁, hd₂, ⟨hwf₁, hkind₁, hl₁, hl₁', hu₁, hu₁'⟩, ⟨-, -, hl₀, hl₀', hu₀, hu₀'⟩,
    ⟨hwf₂, hkind₂, hl₂, hl₂', hu₂, hu₂'⟩⟩ := exists_both_cuts h hd hk hr hu hrun₁ hrun₂ hinterval
  have hlower : d₁.lower = k + 1 ∧ d₁.upper = d.upper := by omega
  have hlower' : d₂.lower = 1 ∧ d₂.upper = d.upper := by omega
  rw [Table.members_of_get? hd₁, Table.members_of_get? hd₂, Domain.mem_members_of_interval hkind₁,
    Domain.mem_members_of_interval hkind₂, Domain.mem_members_of_interval hinterval]
  omega

end Around

/-! ### Lower bounds and the choice of a value -/

section Least

variable {id : DomainId} (h : (domain id).Holds s u) (hd : s.table.get? id = some d) (hv : 0 < v)
  (hr : Value.InRange v)
include h hd hv hr

theorem members_atLeast (hu : (abs (domain id)).Permits (.atLeast v) u)
    (hrun₁ : (abs (domain id)).restrict cause (.atLeast v) s = .ok b₁ s₁)
    (hrun₂ : (abs (abs (domain id))).restrict cause (.atLeast v) s = .ok b₂ s₂) :
    (¬ d.Lopsided (v - 1) → s₁.table.members id = s₂.table.members id) ∧
      (d.Lopsided (v - 1) → ∀ w, (w ∈ s₁.table.members id ↔ w ∈ d.members ∧ v ≤ w) ∧
        (w ∈ s₂.table.members id ↔ w ∈ d.members ∧ 0 < w)) := by
  obtain ⟨hout, hallowed⟩ := permits_around hv hr (permits_abs_abs.2 hu)
  have hk := Int.sub_nonneg_of_le hv
  rw [restrict_abs_atLeast_of_pos h hv hr hu] at hrun₁
  rw [restrict_abs_atLeast_of_pos h.abs hv hr (permits_abs_abs.2 hu)] at hrun₂
  rw [← sub_neg_eq_add, ← neg_sub'] at hout hallowed hrun₁ hrun₂
  refine ⟨members_around_eq h hd hk hout hallowed hrun₁ hrun₂, fun hl w => ?_⟩
  obtain ⟨hmem₁, hmem₂⟩ := mem_around_of_lopsided h hd hk hout hallowed hrun₁ hrun₂ hl w
  exact ⟨hmem₁.trans (and_congr_right fun _ => Int.sub_one_lt_iff), hmem₂⟩

theorem members_exactly (hu : (abs (domain id)).Permits (.exactly v) u)
    (hrun₁ : (abs (domain id)).restrict cause (.exactly v) s = .ok b₁ s₁)
    (hrun₂ : (abs (abs (domain id))).restrict cause (.exactly v) s = .ok b₂ s₂) :
    (¬ d.Lopsided (v - 1) → s₁.table.members id = s₂.table.members id) ∧
      (d.Lopsided (v - 1) → ∀ w, (w ∈ s₁.table.members id ↔ w ∈ d.members ∧ w = v) ∧
        (w ∈ s₂.table.members id ↔ w ∈ d.members ∧ 0 < w ∧ w ≤ v)) := by
  have hleast : (abs (domain id)).Permits (.atLeast v) u := ge_of_eq hu
  obtain ⟨hout, hallowed⟩ := permits_around hv hr (permits_abs_abs.2 hleast)
  have hk := Int.sub_nonneg_of_le hv
  obtain ⟨b₀, s₀, _, _, hmost, hgap, hrun⟩ := restrict_exactly_eq h hv hr hu cause
  obtain ⟨_, _, _, _, hmost', hgap', hrun'⟩ :=
    restrict_exactly_eq h.abs hv hr (permits_abs_abs.2 hu) cause
  rw [restrict_abs_abs (r := .atMost v) cause h hr trivial] at hmost'
  obtain ⟨rfl, rfl⟩ := EStateM.Result.ok.inj (hmost.symm.trans hmost')
  obtain ⟨rfl, rfl⟩ := EStateM.Result.ok.inj (hrun₁.symm.trans hrun)
  obtain ⟨rfl, rfl⟩ := EStateM.Result.ok.inj (hrun₂.symm.trans hrun')
  rw [← sub_neg_eq_add, ← neg_sub'] at hout hallowed hgap hgap'
  have h₀ := (h.abs.after hmost (le_of_eq hu)).of_abs
  obtain ⟨d₀, hd₀, hiff⟩ := lopsided_iff_of_atMost (y := domain id) h.wellFormed hd
    (Int.sub_one_lt_of_le (le_refl v)) hk hmost
  refine ⟨fun hl => members_around_eq h₀ hd₀ hk hout hallowed hgap hgap' (mt hiff.1 hl), fun hl w => ?_⟩
  obtain ⟨hmem₁, hmem₂⟩ :=
    mem_around_of_lopsided h₀ hd₀ hk hout hallowed hgap hgap' (hiff.2 hl) w
  have hmem : w ∈ s₀.table.members id ↔ w ∈ s.table.members id ∧ (w.natAbs : Int) ≤ v :=
    mem_members_of_atMost h.wellFormed hmost w
  rw [Table.members_of_get? hd, show s₀.table.members id = d₀.members from
    Table.members_of_get? hd₀] at hmem
  rw [hmem₁, hmem₂, hmem, and_assoc, and_assoc]
  refine ⟨and_congr_right fun _ => ?_, and_congr_right fun _ => ?_⟩ <;> omega

omit hv hr in
/-- Lower bounds and choices of values leave the same members either way, unless the values closer to
zero have to go from a lopsided interval. -/
theorem members_of_least (hleast : v ∈ r.least?) (hr : r.InRange)
    (hu : (abs (domain id)).Permits r u)
    (hrun₁ : (abs (domain id)).restrict cause r s = .ok b₁ s₁)
    (hrun₂ : (abs (abs (domain id))).restrict cause r s = .ok b₂ s₂) :
    (¬ d.Lopsided (v - 1) → s₁.table.members id = s₂.table.members id) ∧
      (d.Lopsided (v - 1) → ∀ w, (w ∈ s₁.table.members id ↔ w ∈ d.members ∧ r.Allows w) ∧
        (w ∈ s₂.table.members id ↔ w ∈ d.members ∧ 0 < w ∧ ∃ z, r.Allows z ∧ w ≤ z)) := by
  by_cases ht : r.Transparent
  · rw [restrict_abs_abs cause h hr ht, hrun₁] at hrun₂
    obtain ⟨-, rfl⟩ := EStateM.Result.ok.inj hrun₂
    refine ⟨fun _ => rfl, fun hl => absurd hl.2 ?_⟩
    cases r with
    | atLeast z =>
        obtain rfl := Option.some.inj hleast
        have hz : z ≤ 0 := ht
        omega
    | exactly z =>
        obtain rfl := Option.some.inj hleast
        have hz : z = 0 := ht
        omega
    | _ => exact nomatch hleast
  · cases r with
    | atLeast z =>
        obtain rfl := Option.some.inj hleast
        obtain ⟨hsame, hlop⟩ := members_atLeast h hd (not_le.1 ht) hr hu hrun₁ hrun₂
        refine ⟨hsame, fun hl w => ⟨(hlop hl w).1, (hlop hl w).2.trans (and_congr_right fun _ => ?_)⟩⟩
        exact (and_iff_left ⟨max z w, le_max_left z w, le_max_right z w⟩).symm
    | exactly z =>
        obtain rfl := Option.some.inj hleast
        have hpos : 0 ≤ z := (show (abs (domain id)).image u = z from hu) ▸ image_nonneg _ u
        have hv : 0 < z := lt_of_le_of_ne hpos fun he => ht he.symm
        obtain ⟨hsame, hlop⟩ := members_exactly h hd hv hr hu hrun₁ hrun₂
        refine ⟨hsame, fun hl w => ⟨(hlop hl w).1, (hlop hl w).2.trans ?_⟩⟩
        exact and_congr_right fun _ => and_congr_right fun _ => exists_eq_left.symm
    | _ => exact nomatch hleast

end Least

end Variable

namespace Domains

variable {s s₁ s₂ : Domains} {id : DomainId} {d : Domain} {cause : Cause} {b₁ b₂ : Bool}

/-- Steps that leave one domain the same members and touch no other one end alike. -/
theorem sameEnd_of_told (hwf : s.table.WellFormed) (hn₁ : Narrows (· = id) cause s s₁)
    (hn₂ : Narrows (· = id) cause s s₂) (ht₁ : Told id s s₁ b₁) (ht₂ : Told id s s₂ b₂)
    (hmembers : s₁.table.members id = s₂.table.members id) :
    SameEnd (EStateM.Result.ok b₁ s₁) (.ok b₂ s₂) := by
  refine ⟨Bool.eq_iff_iff.2 (by rw [ht₁.iff_members, ht₂.iff_members, hmembers]),
    hn₁.wellFormed hwf, hn₂.wellFormed hwf, hn₁.size_eq.trans hn₂.size_eq.symm, fun j => ?_,
    fun j => ?_⟩
  · rw [hn₁.enumerated_eq hwf, hn₂.enumerated_eq hwf]
  · by_cases hj : j = id
    · rw [hj, hmembers]
    · rw [Table.members, Table.members, hn₁.get?_eq_of_not hj, hn₂.get?_eq_of_not hj]

namespace Reachable

/-- The absolute value of the absolute value of a domain answers as the latter does; only its two listings
of runs do not come to their end where the latter's listing upwards does not. It obeys as the latter
does, with the same verdict and with the same members left to every domain; only where the values
closer to zero than a least one have to go from a lopsided interval, it does not take all of them, but
those that are not above zero. -/
theorem view_of_view (hs : s.Reachable) (hd : s.table.get? id = some d)
    (hleast : Value.least ∉ d.members) :
    (Variable.abs (.abs (.domain id))).AnswersAs (.abs (.domain id)) s ∧
      ∀ (r : Restriction) (cause : Cause), r.InRange →
        ((∀ v ∈ r.least?, ¬ d.Lopsided (v - 1)) →
          SameEnd ((Variable.abs (.domain id)).restrict cause r s)
            ((Variable.abs (.abs (.domain id))).restrict cause r s)) ∧
        ∀ v ∈ r.least?, d.Lopsided (v - 1) → ∃ s₁ s₂,
          (Variable.abs (.domain id)).restrict cause r s = .ok true s₁ ∧
          (Variable.abs (.abs (.domain id))).restrict cause r s = .ok true s₂ ∧
          (∀ w, w ∈ s₁.table.members id ↔ w ∈ d.members ∧ r.Allows w) ∧
          ∀ w, w ∈ s₂.table.members id ↔ w ∈ d.members ∧ 0 < w ∧ ∃ z, r.Allows z ∧ w ≤ z := by
  have hwf := hs.traced.wellFormed
  have hmembers := Table.members_of_get? hd
  have hholds : ∀ u ∈ d.members, (Variable.domain id).Holds s u := fun u hu =>
    ⟨hwf, hmembers ▸ hu, hmembers ▸ hleast⟩
  refine ⟨Variable.answersAs_abs_abs (y := .domain id) hwf hd hleast, fun r cause hr => ?_⟩
  rcases Variable.refused_or_performed (y := .domain id) hwf hd hleast hr cause with
    ⟨hnone, hrun₁⟩ | ⟨⟨u, hu, hallowed⟩, b₁, s₁, hrun₁, ht₁⟩
  · rcases Variable.refused_or_performed (y := .abs (.domain id)) hwf hd hleast hr cause with
      ⟨-, hrun₂⟩ | ⟨⟨u, hu, hallowed⟩, -⟩
    · rw [hrun₁, hrun₂]
      exact ⟨fun _ => ⟨rfl, hwf, hwf, .refl _⟩, fun v hv hl =>
        absurd (hl.of_least? hv).2.1 (hnone v (hl.of_least? hv).1)⟩
    · exact absurd hallowed (hnone u hu)
  · obtain ⟨b₂, s₂, hrun₂, ht₂⟩ :=
      (Variable.abs (.abs (.domain id))).performs cause hr (hholds u hu).abs.abs hallowed
    have hn₁ := (Ends.of_ok ((Variable.abs (.domain id)).confined cause r s hwf) hrun₁).1
    have hn₂ := (Ends.of_ok ((Variable.abs (.abs (.domain id))).confined cause r s hwf) hrun₂).1
    rw [hrun₁, hrun₂]
    refine ⟨fun hl => sameEnd_of_told hwf hn₁ hn₂ ht₁ ht₂ ?_, fun v hv hl => ?_⟩
    · cases hv : r.least? with
      | none =>
          rw [Variable.restrict_abs_abs cause (hholds u hu) hr (Restriction.transparent_of_least? hv),
            hrun₁] at hrun₂
          rw [(EStateM.Result.ok.inj hrun₂).2]
      | some v => exact (Variable.members_of_least (hholds u hu) hd hv hr hallowed hrun₁ hrun₂).1 (hl v hv)
    · have hleft := (Variable.members_of_least (hholds u hu) hd hv hr hallowed hrun₁ hrun₂).2 hl
      obtain ⟨-, -, hlower⟩ := hl.of_least? hv
      have hmem := (hwf id d hd).lower_mem
      have hb₁ : b₁ = true := ht₁.iff_members.2 fun he => hlower
        ((hleft d.lower).1.1 ((he.trans hmembers).symm ▸ hmem)).2
      have hb₂ : b₂ = true := ht₂.iff_members.2 fun he => absurd hl.2.1
        (lt_asymm ((hleft d.lower).2.1 ((he.trans hmembers).symm ▸ hmem)).2.1)
      exact ⟨s₁, s₂, by rw [hb₁], by rw [hb₂], fun w => (hleft w).1, fun w => (hleft w).2⟩

theorem view_of_view_scarred : scarred.Reachable ∧
    scarred.table.get? ⟨1⟩ = some (.interval (-5) 9) ∧ Value.least ∉ (Domain.interval (-5) 9).members ∧
    (Variable.abs (.abs (.domain ⟨1⟩))).AnswersAs (.abs (.domain ⟨1⟩)) scarred ∧
    ∀ (r : Restriction) (cause : Cause), r.InRange →
      ((∀ v ∈ r.least?, ¬ (Domain.interval (-5) 9).Lopsided (v - 1)) →
        SameEnd ((Variable.abs (.domain ⟨1⟩)).restrict cause r scarred)
          ((Variable.abs (.abs (.domain ⟨1⟩))).restrict cause r scarred)) ∧
      ∀ v ∈ r.least?, (Domain.interval (-5) 9).Lopsided (v - 1) → ∃ s₁ s₂,
        (Variable.abs (.domain ⟨1⟩)).restrict cause r scarred = .ok true s₁ ∧
        (Variable.abs (.abs (.domain ⟨1⟩))).restrict cause r scarred = .ok true s₂ ∧
        (∀ w, w ∈ s₁.table.members ⟨1⟩ ↔ w ∈ (Domain.interval (-5) 9).members ∧ r.Allows w) ∧
        ∀ w, w ∈ s₂.table.members ⟨1⟩ ↔
          w ∈ (Domain.interval (-5) 9).members ∧ 0 < w ∧ ∃ z, r.Allows z ∧ w ≤ z :=
  ⟨reachable_scarred, by decide, by decide,
    view_of_view reachable_scarred (d := .interval (-5) 9) (by decide) (by decide)⟩

/-- A domain whose greatest value has no value behind it. -/
def brimming : Domains where
  table := ⟨#[.interval (-1) Value.greatest]⟩

theorem reachable_brimming : brimming.Reachable :=
  Reachable.start.step (e := .push (.interval (-1) Value.greatest))
    (.interval (by decide) (by decide) (by decide)) rfl

/-- Of the interval from `-2` to `5`, the absolute value that is at least `3` leaves the values from `3`
on, and the absolute value of it those from `1` on. Of the interval from `-1` to the greatest machine
value, the absolute value lists its runs downwards, and the absolute value of it meets a fault. -/
theorem exists_left_otherwise : (crossing.Reachable ∧ ∃ s₁ s₂,
      (Variable.abs (.domain ⟨0⟩)).restrict .decision (.atLeast 3) crossing = .ok true s₁ ∧
      s₁.table.get? ⟨0⟩ = some ⟨.interval, 3, 5, 3⟩ ∧
      (Variable.abs (.abs (.domain ⟨0⟩))).restrict .decision (.atLeast 3) crossing = .ok true s₂ ∧
      s₂.table.get? ⟨0⟩ = some ⟨.interval, 1, 5, 5⟩ ∧
      ¬ s₂.table.members ⟨0⟩ = s₁.table.members ⟨0⟩) ∧
    brimming.Reachable ∧
      (Variable.abs (.domain ⟨0⟩)).answer brimming _ .runsDown =
        .ok (.item ⟨0, Value.greatest⟩ .done) ∧
      (Variable.abs (.abs (.domain ⟨0⟩))).answer brimming _ .runsDown = .ok (.fault .overflow) :=
  ⟨⟨reachable_crossing, _, _, rfl, rfl, rfl, rfl, by decide⟩, reachable_brimming, by decide, by decide⟩

end Reachable

end Domains

end Narrowing
