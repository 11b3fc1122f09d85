import Narrowing.Proofs.Among.Tractable
import Narrowing.Proofs.Propagator.Success

/-!
Passes that do nothing. An Among propagator is spent when no restriction that its filtering comes to
has an effect, whatever the kinds of its variables. Over domains at which it is spent a pass from
scratch is not abandoned, restricts nothing and leaves its cells with a recount.
-/

namespace Narrowing

namespace Variable

variable {x : Variable} {s : Domains} {t t' : Table DomainId Domain} {goes : Int → Bool} {lo hi : Int}

/-- The bounds of the variable are where they come to be moved, past the values that have to go. -/
structure Hulled (x : Variable) (t : Table DomainId Domain) (goes : Int → Bool) (lo hi : Int) :
    Prop where
  hull_eq : ∀ s : Domains, s.table.get? x.base = t.get? x.base → x.hull s goes = .ok (lo, hi)
  atLeast : x.Spent t (.atLeast lo)
  atMost : x.Spent t (.atMost hi)

theorem Hulled.of_get? (h : x.Hulled t goes lo hi) (hsame : t'.get? x.base = t.get? x.base) :
    x.Hulled t' goes lo hi :=
  ⟨fun s hs => h.hull_eq s (hs.trans hsame), h.atLeast.of_get? hsame, h.atMost.of_get? hsame⟩

section Stay

variable (hlo : x.lower s = .ok lo) (hhi : x.upper s = .ok hi) (hfirst : goes lo = false)
  (hlast : goes hi = false)
include hlo hhi hfirst hlast

/-- Bounds that need not go are not moved. -/
theorem hull_of_stay : x.hull s goes = .ok (lo, hi) := by
  have hraise : ∀ n, x.raise s goes hi (n + 1) (some lo) lo = .ok lo := fun n =>
    if_neg fun h => by simp [hfirst] at h
  have hsink : ∀ n, x.sink s goes lo (n + 1) (some hi) hi = .ok hi := fun n =>
    if_neg fun h => by simp [hlast] at h
  unfold hull
  rw [hlo, hhi]
  simp only [bind, Except.bind, hraise, hsink]
  rfl

theorem Hulled.of_stay (hwf : s.table.WellFormed) : x.Hulled s.table goes lo hi where
  hull_eq _ hsame := (hull_of_get? hsame).trans (hull_of_stay hlo hhi hfirst hlast)
  atLeast := spent_atLeast hwf hlo ((x.describes_answer hwf).lower hlo).2
  atMost := spent_atMost hwf hlo hhi ((x.describes_answer hwf).upper hhi).2

end Stay

theorem Hulled.exists_bounds (h : x.Hulled s.table goes lo hi) :
    ∃ a b, x.lower s = .ok a ∧ x.upper s = .ok b := by
  obtain ⟨a, ha, hrest⟩ := Checked.bind_eq_ok (h.hull_eq s rfl)
  obtain ⟨b, hb, -⟩ := Checked.bind_eq_ok hrest
  exact ⟨a, b, ha, hb⟩

end Variable

namespace AmongPropagator

open Narrowing.Action

variable {p : AmongPropagator} {me : PropagatorId} {t t' : Table DomainId Domain} {P : Finset Nat}
  {n : Int} {x : Variable} {i : Nat} {w w' : Workspace Remark} {goes : Int → Bool} {lo hi : Int}
  {smallest largest : Int} {places : List Nat}

/-- There is nothing to do to make `x` take values that are not tracked, and it may still count. -/
structure Excluded (p : AmongPropagator) (t : Table DomainId Domain) (x : Variable) : Prop where
  interval : t.enumerated x.base = false
  hulled : ∃ lo hi, x.Hulled t (p.tracked.contains ·) lo hi ∧ (∃ v ∈ p.tracked, lo ≤ v) ∧
    ∃ v ∈ p.tracked, v ≤ hi

/-- There is nothing to do to make `x` take tracked values. -/
structure Included (p : AmongPropagator) (t : Table DomainId Domain) (x : Variable) : Prop where
  interval : t.enumerated x.base = false
  smallest : ∀ v, p.tracked.head? = some v → x.Spent t (.atLeast v)
  largest : ∀ v, p.tracked.getLast? = some v → x.Spent t (.atMost v)
  hulled : ∃ lo hi, x.Hulled t (!p.tracked.contains ·) lo hi

/-- The filtering of the propagator, with `P` and `n` in its cells, has nothing to do. -/
structure Spent (p : AmongPropagator) (t : Table DomainId Domain) (P : Finset Nat) (n : Int) :
    Prop where
  least : p.counter.Spent t (.atLeast n)
  most : p.counter.Spent t (.atMost (n + P.card))
  excluded : p.backPropagates = true → p.tracked ≠ [] → p.CounterIs t n →
    ∀ i ∈ P, i < p.scope.length ∧ p.Excluded t (p.place i)
  included : p.backPropagates = true → p.tracked ≠ [] → p.CounterIs t (n + P.card) →
    ∀ i ∈ P, i < p.scope.length ∧ p.Included t (p.place i)

/-! ### Steps that do nothing -/

theorem succeeds_force {r : Restriction} {post : Unit → Workspace Remark → Prop}
    (hx : x.Spent w.domains.table r) (h : post () w) : Succeeds me (force x r) w post :=
  succeeds_bind (succeeds_narrow hx fun _ => succeeds_pure h)

theorem succeeds_forceInward {post : Int × Int → Workspace Remark → Prop}
    (hx : x.Hulled w.domains.table goes lo hi) (h : post (lo, hi) w) :
    Succeeds me (forceInward x goes) w post := by
  refine succeeds_bind (succeeds_onDomains (hx.hull_eq w.domains rfl) ?_)
  refine succeeds_bind (succeeds_force hx.atLeast ?_)
  exact succeeds_bind (succeeds_force hx.atMost (succeeds_pure h))

theorem succeeds_subject {post : Variable → Workspace Remark → Prop} (hi : i < p.scope.length)
    (h : post (p.place i) w) : Succeeds me (p.subject i) w post := by
  unfold subject
  rw [List.getElem?_eq_getElem hi]
  refine succeeds_pure ?_
  rwa [Among.place_eq_getElem hi] at h

/-- The step leaves domains and cells alone. -/
def Idles (me : PropagatorId) (m : Step Unit) (w : Workspace Remark) : Prop :=
  Succeeds me m w fun _ w' => w'.domains = w.domains ∧ w'.cells = w.cells

theorem Idles.after {m : Step Unit} (h : Idles me m w) {w₀ : Workspace Remark}
    (hdomains : w.domains = w₀.domains) (hcells : w.cells = w₀.cells) :
    Succeeds me m w fun _ w' => w'.domains = w₀.domains ∧ w'.cells = w₀.cells :=
  Succeeds.imp h fun _ _ hw => ⟨hw.1.trans hdomains, hw.2.trans hcells⟩

theorem idles_excludeEach (hspan : p.Spans smallest largest) (hg : p.Grounded w.domains.table)
    (hplaces : ∀ i ∈ places, i < p.scope.length ∧ p.Excluded w.domains.table (p.place i)) :
    Idles me (p.excludeEach smallest largest places) w := by
  induction places generalizing w with
  | nil => exact succeeds_pure ⟨rfl, rfl⟩
  | cons i rest ih =>
      obtain ⟨hlt, hinterval, lo, hi, hhulled, ⟨a, ha, hla⟩, b, hb, hbh⟩ :=
        hplaces i List.mem_cons_self
      have hkind := Variable.answer_enumerated (s := w.domains) (hg.place_lt i hlt)
      refine succeeds_bind (succeeds_subject hlt (succeeds_bind (succeeds_remark ?_)))
      refine succeeds_bind (succeeds_onDomains hkind ?_)
      rw [if_neg (Bool.eq_false_iff.1 hinterval)]
      refine succeeds_bind (succeeds_forceInward hhulled ?_)
      have hla' := (hspan a ha).2
      have hbs := (hspan b hb).1
      dsimp only
      rw [if_neg (by omega)]
      refine Idles.after (ih ?_ ?_) rfl rfl
      · exact hg
      · exact fun j hj => hplaces j (List.mem_cons_of_mem _ hj)

theorem idles_includeEach (hsmallest : p.tracked.head? = some smallest)
    (hlargest : p.tracked.getLast? = some largest) (hg : p.Grounded w.domains.table)
    (hplaces : ∀ i ∈ places, i < p.scope.length ∧ p.Included w.domains.table (p.place i) ∧
      (p.place i).isFixed w.domains = .ok false) :
    Idles me (p.includeEach smallest largest places) w := by
  induction places generalizing w with
  | nil => exact succeeds_pure ⟨rfl, rfl⟩
  | cons i rest ih =>
      obtain ⟨hlt, hincluded, hfixed⟩ := hplaces i List.mem_cons_self
      obtain ⟨lo, hi, hhulled⟩ := hincluded.hulled
      have hkind := Variable.answer_enumerated (s := w.domains) (hg.place_lt i hlt)
      refine succeeds_bind (succeeds_subject hlt (succeeds_bind (succeeds_remark ?_)))
      refine succeeds_bind (succeeds_onDomains hkind ?_)
      rw [if_neg (Bool.eq_false_iff.1 hincluded.interval)]
      refine succeeds_bind (succeeds_force (hincluded.smallest smallest hsmallest) ?_)
      refine succeeds_bind (succeeds_force (hincluded.largest largest hlargest) ?_)
      refine succeeds_bind (succeeds_forceInward hhulled ?_)
      refine succeeds_bind (succeeds_onDomains hfixed ?_)
      rw [if_neg Bool.false_ne_true]
      refine Idles.after (ih ?_ ?_) rfl rfl
      · exact hg
      · exact fun j hj => hplaces j (List.mem_cons_of_mem _ hj)

/-! ### The filtering -/

/-- The cells of the propagator are there. -/
structure Furnished (p : AmongPropagator) (s : Cells) : Prop where
  sure_lt : Key.index p.sure < s.integers.size
  possible_lt : Key.index p.possible < s.sets.size

theorem Furnished.evolves {s s' : Cells} (h : p.Furnished s) (he : Cells.Evolves s s') :
    p.Furnished s' :=
  ⟨h.sure_lt.trans_eq he.size_eq.1.symm, h.possible_lt.trans_eq he.size_eq.2.symm⟩

/-- What the cells hold is cut down to values, and the greatest count is worked out, as far as it is
one. -/
theorem countBounds_eq_bind (hf : p.Furnished w.cells) (hwf : w.cells.WellFormed) :
    p.countBounds w.cells =
      Value.check (Value.truncate (p.surely w) + Value.truncate (p.may w).card) >>= fun most =>
        pure (Value.truncate (p.surely w), most) := by
  obtain ⟨set, hset⟩ := Cells.exists_set hf.possible_lt
  obtain ⟨hset', hplaces⟩ := Cells.set_eq_ok hset hwf
  have hsize : set.size = (p.may w).card := by
    rw [may, ← hplaces, SwapSet.card_toFinset hset']
  unfold countBounds
  rw [Cells.read_of_lt hf.sure_lt, hset, ← hsize]
  rfl

theorem countBounds_eq (hf : p.Furnished w.cells) (hwf : w.cells.WellFormed)
    (hcounts : p.Counts (p.may w) (p.surely w)) (hcountable : p.Countable) :
    p.countBounds w.cells = .ok (p.surely w, p.surely w + (p.may w).card) := by
  obtain ⟨hsure, hcard, hsum⟩ := hcounts.inRange hcountable
  rw [countBounds_eq_bind hf hwf, Value.truncate_eq hsure, Value.truncate_eq hcard,
    Value.check_eq_ok hsum]
  rfl

/-- A walk that does nothing on any places of the set does nothing on the places that may count. -/
theorem idles_eachPossible (hf : p.Furnished w.cells) (hwf : w.cells.WellFormed)
    {treat : Int → Int → List Nat → Step Unit}
    (h : ∀ smallest largest places, p.tracked.head? = some smallest →
      p.tracked.getLast? = some largest → (∀ i ∈ places, i ∈ p.may w) →
      Idles me (treat smallest largest places) w) : Idles me (p.eachPossible treat) w := by
  unfold eachPossible
  split
  · next smallest largest hsmallest hlargest =>
    obtain ⟨places, hplaces⟩ := Cells.exists_members hf.possible_lt
    refine succeeds_bind (succeeds_onCells hplaces (h _ _ _ hsmallest hlargest fun i hi => ?_))
    exact ((Cells.members_eq_ok hplaces hwf).2 i).1 hi
  · exact succeeds_pure ⟨rfl, rfl⟩

/-- An undecided variable is not fixed. -/
theorem isFixed_of_undecided {s : Domains} (hwf : s.table.WellFormed)
    (hx : ¬ p.Decided s.table x) (hlo : x.lower s = .ok lo) (hhi : x.upper s = .ok hi) :
    x.isFixed s = .ok false := by
  have hfixed : x.isFixed s = .ok (decide (lo = hi)) := by
    unfold Variable.isFixed
    rw [hlo, hhi]
    rfl
  rw [hfixed, decide_eq_false]
  rintro rfl
  rw [decide_eq_true rfl] at hfixed
  have hmem := ((x.describes_answer hwf).lower hlo).1
  refine hx ?_
  by_cases hin : lo ∈ p.tracked
  · exact Or.inl fun v hv => Variable.isFixed_eq_ok hwf hfixed hv hmem ▸ hin
  · exact Or.inr fun v hv => Variable.isFixed_eq_ok hwf hfixed hv hmem ▸ hin

/-- The filtering of a spent propagator does nothing. -/
theorem idles_filter (hready : Ready p False w) (hf : p.Furnished w.cells)
    (hspent : p.Spent w.domains.table (p.may w) (p.surely w))
    (hcounts : p.Counts (p.may w) (p.surely w))
    (hundecided : ∀ i ∈ p.may w, ¬ p.Decided w.domains.table (p.place i)) :
    Idles me (p.filter me) w := by
  have hwf := hready.wellFormed.table
  obtain ⟨lo, hi, hlo, hhi⟩ := hspent.most.exists_bounds
  have hspans : ∀ {smallest largest}, p.tracked.head? = some smallest →
      p.tracked.getLast? = some largest → p.Spans smallest largest := fun hs hl v hv =>
    ⟨Domain.head?_le_of_pairwise hready.sorted hs hv,
      Domain.le_getLast?_of_pairwise hready.sorted hl hv⟩
  have htracked : ∀ {smallest}, p.tracked.head? = some smallest → p.tracked ≠ [] := by
    intro smallest hs hnil
    rw [hnil] at hs
    exact nomatch hs
  unfold filter
  refine succeeds_bind (succeeds_onCells
    (countBounds_eq hf hready.wellFormed.cells hcounts hready.countable) ?_)
  refine succeeds_bind (succeeds_onDomains hhi ?_)
  rw [if_neg (not_lt.2 (hspent.least.le_upper hwf hlo hhi))]
  refine succeeds_bind (succeeds_onDomains hlo ?_)
  rw [if_neg (not_lt.2 (hspent.most.lower_le hwf hlo hhi))]
  refine succeeds_bind (succeeds_force hspent.least ?_)
  refine succeeds_bind (succeeds_force hspent.most ?_)
  have hdone : Idles me (pure ()) w := succeeds_pure ⟨rfl, rfl⟩
  split
  · exact hdone
  next hback =>
  have hback : p.backPropagates = true := by simpa using hback
  have hfixed : p.counter.isFixed w.domains = .ok (decide (lo = hi)) := by
    unfold Variable.isFixed
    rw [hlo, hhi]
    rfl
  refine succeeds_bind (succeeds_onDomains hfixed ?_)
  split
  · exact hdone
  next hsame =>
  obtain rfl : lo = hi := by simpa using hsame
  have hcounter : p.CounterIs w.domains.table lo := fun v hv =>
    Variable.isFixed_eq_ok hwf (by rw [hfixed, decide_eq_true rfl]) hv
      ((p.counter.describes_answer hwf).lower hlo).1
  split
  · exact hdone
  refine succeeds_bind (succeeds_onDomains hlo ?_)
  split
  · next hleast =>
    refine idles_eachPossible hf hready.wellFormed.cells fun smallest largest places hs hl hmem => ?_
    refine idles_excludeEach (hspans hs hl) hready.grounded fun i hi => ?_
    exact hspent.excluded hback (htracked hs) (hleast ▸ hcounter) i (hmem i hi)
  split
  · next hmost =>
    refine idles_eachPossible hf hready.wellFormed.cells fun smallest largest places hs hl hmem => ?_
    refine idles_includeEach hs hl hready.grounded fun i hi => ?_
    obtain ⟨hlt, hincluded⟩ := hspent.included hback (htracked hs) (hmost ▸ hcounter) i (hmem i hi)
    obtain ⟨_, _, hulled⟩ := hincluded.hulled
    obtain ⟨_, _, hlo', hhi'⟩ := hulled.exists_bounds
    exact ⟨hlt, hincluded, isFixed_of_undecided hwf (hundecided i (hmem i hi)) hlo' hhi'⟩
  · exact hdone

/-! ### Propagators at rest -/

section Trimmed

variable {s : Domains} {T : Int → Prop} (hwf : s.table.WellFormed) (hresponds : Responds (x.answer s))
include hwf hresponds

/-- A trimmed variable with values outside is an interval, of which the bounds are not outside. -/
theorem exists_bounds_of_trimmed (htrimmed : x.Trimmed s.table T)
    (hnot : ¬ ∀ v ∈ x.current s.table, T v) :
    s.table.enumerated x.base = false ∧
      ∃ a b, x.lower s = .ok a ∧ x.upper s = .ok b ∧ T a ∧ T b := by
  have hanswers := x.describes_answer hwf
  obtain ⟨a, ha⟩ := hresponds.lower
  obtain ⟨b, hb⟩ := hresponds.upper
  refine ⟨Bool.eq_false_iff.2 fun hkind => hnot (htrimmed.all hkind), a, b, ha, hb, ?_, ?_⟩
  · exact htrimmed.of_least (hanswers.lower ha).1 (hanswers.lower ha).2
  · exact htrimmed.of_greatest (hanswers.upper hb).1 (hanswers.upper hb).2

theorem Excluded.of_trimmed (htrimmed : x.Trimmed s.table (· ∉ p.tracked))
    (hundecided : ¬ p.Decided s.table x) : p.Excluded s.table x := by
  obtain ⟨v, hv, htracked⟩ : ∃ v ∈ x.current s.table, v ∈ p.tracked := by
    by_contra hnone
    push Not at hnone
    exact hundecided (Or.inr hnone)
  obtain ⟨hkind, a, b, ha, hb, hfirst, hlast⟩ := exists_bounds_of_trimmed hwf hresponds htrimmed
    fun hall => hundecided (Or.inr hall)
  have hanswers := x.describes_answer hwf
  have hulled : x.Hulled s.table (p.tracked.contains ·) a b :=
    .of_stay ha hb (by simpa using hfirst) (by simpa using hlast) hwf
  exact ⟨hkind, a, b, hulled, ⟨v, htracked, (hanswers.lower ha).2 v hv⟩,
    v, htracked, (hanswers.upper hb).2 v hv⟩

theorem Included.of_trimmed (hsorted : p.tracked.Pairwise (· < ·))
    (htrimmed : x.Trimmed s.table (· ∈ p.tracked)) (hundecided : ¬ p.Decided s.table x) :
    p.Included s.table x := by
  obtain ⟨hkind, a, b, ha, hb, hfirst, hlast⟩ := exists_bounds_of_trimmed hwf hresponds htrimmed
    fun hall => hundecided (Or.inl hall)
  have hulled : x.Hulled s.table (!p.tracked.contains ·) a b :=
    .of_stay ha hb (by simpa using hfirst) (by simpa using hlast) hwf
  refine ⟨hkind, fun v hv => ?_, fun v hv => ?_, a, b, hulled⟩
  · have hfloor : ∀ u ∈ x.current s.table, u ∈ p.tracked → v ≤ u := fun _ _ hu =>
      Domain.head?_le_of_pairwise hsorted hv hu
    exact Variable.spent_atLeast hwf ha fun u hu => htrimmed.le hfloor hu
  · have hceiling : ∀ u ∈ x.current s.table, u ∈ p.tracked → u ≤ v := fun _ _ hu =>
      Domain.le_getLast?_of_pairwise hsorted hv hu
    exact Variable.spent_atMost hwf ha hb fun u hu => htrimmed.ge hceiling hu

end Trimmed

/-- A propagator at rest is spent after a recount: the variables that are undecided then are
intervals, and their bounds stay. -/
theorem AtRest.spent {s : Domains} (h : p.AtRest s.table) (ht : p.Tractable s.table)
    (hg : p.Grounded s.table) (hwf : s.table.WellFormed) (hsorted : p.tracked.Pairwise (· < ·)) :
    p.Spent s.table (p.undecided s.table) (p.sures s.table) := by
  obtain ⟨lo, hlo⟩ := (ht.responds_counter hwf hg).lower
  obtain ⟨hi, hhi⟩ := (ht.responds_counter hwf hg).upper
  have hplace : ∀ i ∈ p.undecided s.table, i < p.scope.length ∧
      ¬ p.Decided s.table (p.place i) := fun i hi =>
    (Finset.mem_filter.1 hi).imp_left Finset.mem_range.1
  refine ⟨Variable.spent_atLeast hwf hlo fun u hu => (h.inBounds u hu).1,
    Variable.spent_atMost hwf hlo hhi fun u hu => (h.inBounds u hu).2, fun hb _ hc i hi => ?_,
    fun hb _ hc i hi => ?_⟩
  · obtain ⟨hlt, hundecided⟩ := hplace i hi
    have hresponds := ht.responds_place hwf hg hlt
    exact ⟨hlt, .of_trimmed hwf hresponds (h.excluded hb hc i hi) hundecided⟩
  · obtain ⟨hlt, hundecided⟩ := hplace i hi
    have hresponds := ht.responds_place hwf hg hlt
    exact ⟨hlt, .of_trimmed hwf hresponds hsorted (h.included hb hc i hi) hundecided⟩

/-! ### A recount -/

/-- Steps that leave the domains alone and the cells with the room they have. -/
structure Retains (w w' : Workspace Remark) : Prop where
  domains_eq : w'.domains = w.domains
  evolves : Cells.Evolves w.cells w'.cells
  capacity_eq : w'.cells.capacity = w.cells.capacity

theorem Retains.trans {w'' : Workspace Remark} (h : Retains w w') (h' : Retains w' w'') :
    Retains w w'' :=
  ⟨h'.domains_eq.trans h.domains_eq, h.evolves.trans h'.evolves, h'.capacity_eq.trans h.capacity_eq⟩

/-- A change of a cell that goes through. -/
theorem succeeds_write {op : CellOp} (hwf : w.cells.WellFormed)
    (hop : ∃ b cells, w.cells.perform op = .ok (b, cells)) :
    Succeeds me (write op) w fun _ w' => Retains w w' :=
  succeeds_bind (succeeds_set hwf hop fun _ _ hevolves _ hcapacity =>
    succeeds_pure ⟨rfl, hevolves, hcapacity⟩)

theorem succeeds_enlist {n : Int} {rest : List Variable} (hwf : w.cells.WellFormed)
    (htells : ∀ x ∈ rest, ∃ st, p.standing w.domains x = .ok st)
    (hroom : ∀ k x, rest[k]? = some x → p.standing w.domains x = .ok .possible →
      i + k < w.cells.capacity p.possible) :
    Succeeds me (p.enlist i n rest) w fun _ w' => Retains w w' := by
  induction rest generalizing i n w with
  | nil => exact succeeds_pure ⟨rfl, .refl hwf, rfl⟩
  | cons x rest ih =>
      obtain ⟨st, hst⟩ := htells x List.mem_cons_self
      have htells' := fun y hy => htells y (List.mem_cons_of_mem x hy)
      have hroom' : ∀ k y, rest[k]? = some y → p.standing w.domains y = .ok .possible →
          i + 1 + k < w.cells.capacity p.possible := by
        intro k y hy hpossible
        have := hroom (k + 1) y hy hpossible
        omega
      refine succeeds_bind (succeeds_onDomains hst ?_)
      cases st with
      | sure => exact ih hwf htells' hroom'
      | impossible => exact ih hwf htells' hroom'
      | possible =>
          have hinsert : ∃ b cells, w.cells.perform (.insert p.possible i) = .ok (b, cells) :=
            Cells.exists_insert hwf (hroom 0 x rfl hst)
          refine (succeeds_write hwf hinsert).bind fun _ w' hw' => ?_
          refine (ih hw'.evolves.wellFormed ?_ ?_).imp fun _ _ => hw'.trans
          · exact hw'.domains_eq ▸ htells'
          · rw [hw'.domains_eq, hw'.capacity_eq]
            exact hroom'

/-- What a recount needs to go well. -/
structure Recountable (p : AmongPropagator) (w : Workspace Remark) : Prop where
  furnished : p.Furnished w.cells
  tractable : p.Tractable w.domains.table
  tracked : ∀ v ∈ p.tracked, Value.InRange v
  room : ∀ i ∈ p.undecided w.domains.table, i < w.cells.capacity p.possible

theorem Recountable.retains (h : Recountable p w) (hr : Retains w w') : Recountable p w' := by
  refine ⟨h.furnished.evolves hr.evolves, hr.domains_eq ▸ h.tractable, h.tracked, ?_⟩
  rw [hr.domains_eq, hr.capacity_eq]
  exact h.room

/-- A recount goes through if all standings are told and the set has room for the undecided places. -/
theorem succeeds_initialise_of (hwf : w.WellFormed) (hsorted : p.tracked.Pairwise (· < ·))
    (hf : p.Furnished w.cells)
    (htells : ∀ x ∈ p.scope, ∃ st, p.standing w.domains x = .ok st)
    (hroom : ∀ i ∈ p.undecided w.domains.table, i < w.cells.capacity p.possible) :
    Succeeds me p.initialise w fun _ w' => Retains w w' := by
  have hclear := Cells.exists_perform_clear hwf.cells hf.possible_lt
  refine (succeeds_write hwf.cells hclear).bind fun _ w₁ hw₁ => ?_
  have hroom : ∀ k x, p.scope[k]? = some x → p.standing w.domains x = .ok .possible →
      0 + k < w.cells.capacity p.possible := by
    intro k x hx hpossible
    obtain ⟨hk, rfl⟩ := List.getElem?_eq_some_iff.1 hx
    rw [Nat.zero_add]
    refine hroom k (Finset.mem_filter.2 ⟨Finset.mem_range.2 hk, ?_⟩)
    rw [Among.place_eq_getElem hk]
    rcases Among.standing_eq_ok hwf.table hsorted hpossible with
      ⟨hst, -⟩ | ⟨-, hnotsure, hnotnever⟩ | ⟨hst, -⟩
    · cases hst
    · exact fun hd => hd.elim hnotsure hnotnever
    · cases hst
  refine (succeeds_enlist hw₁.evolves.wellFormed (hw₁.domains_eq ▸ htells) ?_).bind fun n w₂ hw₂ => ?_
  · rw [hw₁.domains_eq, hw₁.capacity_eq]
    exact hroom
  have hretains := hw₁.trans hw₂
  have hassign := Cells.exists_perform_assign (hf.evolves hretains.evolves).sure_lt n
  exact (succeeds_write hretains.evolves.wellFormed hassign).imp fun _ _ => hretains.trans

theorem succeeds_initialise (hready : Ready p False w) (h : Recountable p w) :
    Succeeds me p.initialise w fun _ w' => Retains w w' := by
  refine succeeds_initialise_of hready.wellFormed hready.sorted h.furnished (fun x hx => ?_) h.room
  obtain ⟨i, hi, rfl⟩ := List.getElem_of_mem hx
  have hresponds := h.tractable.responds_place hready.wellFormed.table hready.grounded hi
  rw [Among.place_eq_getElem hi] at hresponds
  exact Among.exists_standing hresponds h.tracked

/-- A pass from scratch of a propagator that is spent after a recount does nothing but recount. -/
theorem succeeds_pass_again {passes : Passes} (hready : Ready p False w) (h : Recountable p w)
    (hspent : p.Spent w.domains.table (p.undecided w.domains.table) (p.sures w.domains.table))
    (hfull : passes.full = true) :
    Succeeds me (p.pass me passes) w fun _ w' => Retains w w' ∧ Recounted p w w' := by
  have hrecounts : Yields me p.initialise w (fun _ w' => Recounted p w w') fun _ => True :=
    yields_initialise_recounts hready.wellFormed hready.sorted
  unfold pass
  rw [if_pos hfull]
  refine ((succeeds_initialise hready h).and_yields hrecounts).bind fun _ w₁ hw₁ => ?_
  obtain ⟨hretains, hrecounted⟩ := hw₁
  obtain ⟨hmay, hsurely⟩ := hrecounted.tracks.exact
  have hprogress : Workspace.Progress (.propagator me) w w₁ :=
    ⟨hretains.domains_eq ▸ .refl, hretains.evolves⟩
  have hready₁ : Ready p False w₁ := ⟨hprogress.wellFormed hready.wellFormed,
    hretains.domains_eq ▸ hready.grounded, hready.sorted, hready.countable, fun hf => hf.elim⟩
  have hidles : Idles me (p.filter me) w₁ := by
    refine idles_filter hready₁ (h.furnished.evolves hretains.evolves) ?_ hrecounted.tracks.counts
      fun i hi => ?_
    · rw [hretains.domains_eq, hmay, hsurely]
      exact hspent
    · rw [hmay] at hi
      exact hretains.domains_eq ▸ (Finset.mem_filter.1 hi).2
  refine Succeeds.imp hidles fun _ w₂ hw₂ => ?_
  obtain ⟨domains, cells, journal⟩ := w₂
  obtain ⟨rfl, rfl⟩ := hw₂
  exact ⟨⟨hretains.domains_eq, hretains.evolves, hretains.capacity_eq⟩, hrecounted.domains_eq,
    hrecounted.evolves, hrecounted.value_eq, hrecounted.places_eq, hrecounted.tracks⟩

end AmongPropagator

end Narrowing
