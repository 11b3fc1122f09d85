import Narrowing.Proofs.Among.Rest
import Narrowing.Proofs.Among.Steps
import Narrowing.Proofs.Domain.Creation

/-!
A pass of the Among propagator. From scratch, it recounts; then it keeps the counter between the
least and the greatest count, and where a counter fixed to one of these decides about the places that
may count, it takes the values that are ruled out. In the walks over these places the counter stays
at the extreme it is at, and that is why nothing is taken that occurs in a solution.
-/

namespace Narrowing

namespace Variable

variable {s : Domains}

theorem enumerated_eq_ok (x : Variable) {b : Bool} (h : x.answer s _ .enumerated = .ok b) :
    b = s.table.enumerated x.base := by
  induction x with
  | domain id =>
      obtain ⟨d, hd, hb⟩ := Checked.bind_eq_ok h
      rw [← Except.ok.inj hb]
      exact (Table.enumerated_of_get? ((Table.fetch_eq_ok_iff _).1 hd)).symm
  | abs x ih => exact ih h

/-- A variable with one value is fixed. -/
theorem isFixed_of_forall (hwf : s.table.WellFormed) {x : Variable} {fixed : Bool}
    (h : x.isFixed s = .ok fixed) {v : Int} (hall : ∀ u ∈ x.current s.table, u = v) :
    fixed = true := by
  obtain ⟨lo, hlo, h⟩ := Checked.bind_eq_ok h
  obtain ⟨hi, hhi, h⟩ := Checked.bind_eq_ok h
  have hlower := hall _ ((x.describes_answer hwf).lower hlo).1
  have hupper := hall _ ((x.describes_answer hwf).upper hhi).1
  rw [← Except.ok.inj h, hlower, hupper, decide_eq_true rfl]

/-- A variable that is fixed has one value. -/
theorem isFixed_eq_ok (hwf : s.table.WellFormed) {x : Variable} (h : x.isFixed s = .ok true) {v w : Int}
    (hv : v ∈ x.current s.table) (hw : w ∈ x.current s.table) : v = w := by
  obtain ⟨lo, hlo, h⟩ := Checked.bind_eq_ok h
  obtain ⟨hi, hhi, h⟩ := Checked.bind_eq_ok h
  have hsame : lo = hi := by simpa using Except.ok.inj h
  have hlo := ((x.describes_answer hwf).lower hlo).2
  have hhi := ((x.describes_answer hwf).upper hhi).2
  have := hlo v hv
  have := hhi v hv
  have := hlo w hw
  have := hhi w hw
  omega

end Variable

namespace AmongPropagator

open Narrowing.Action

variable {p : AmongPropagator} {me : PropagatorId} {exact : Prop} {A : Nat → Prop}
  {w₀ w w' : Workspace Remark} {smallest largest : Int}

/-- Where a list of values lies. -/
def Spans (p : AmongPropagator) (smallest largest : Int) : Prop :=
  ∀ v ∈ p.tracked, smallest ≤ v ∧ v ≤ largest

/-! ### The filtering, step by step -/

/-- The bounds of the count are worked out from what the cells hold, cut down to values. -/
theorem exists_of_countBounds (hwf : w.cells.WellFormed) {least most : Int}
    (hb : p.countBounds w.cells = .ok (least, most)) :
    least = Value.truncate (p.surely w) ∧
      Value.check (least + Value.truncate (p.may w).card) = .ok most := by
  obtain ⟨sure, hsure, hb⟩ := Checked.bind_eq_ok hb
  obtain ⟨set, hset, hb⟩ := Checked.bind_eq_ok hb
  obtain ⟨most', hmost, hb⟩ := Checked.bind_eq_ok hb
  obtain ⟨rfl, rfl⟩ := Prod.mk.inj (Except.ok.inj hb)
  obtain ⟨hset', hplaces⟩ := Cells.set_eq_ok hset hwf
  obtain rfl := Cells.read_eq_ok hsure
  have hsize : (p.may w).card = set.size := by
    rw [may, ← hplaces, SwapSet.card_toFinset hset']
  rw [hsize]
  exact ⟨rfl, hmost⟩

/-- The bounds of the count are those that the cells stand for, if the scope can be counted. -/
theorem countBounds_eq_ok (hwf : w.cells.WellFormed) (hcounts : p.Counts (p.may w) (p.surely w))
    (hcountable : p.Countable) {least most : Int}
    (hb : p.countBounds w.cells = .ok (least, most)) :
    least = p.surely w ∧ most = p.surely w + (p.may w).card := by
  obtain ⟨hleast, hmost⟩ := exists_of_countBounds hwf hb
  obtain ⟨hsure, hcard, -⟩ := hcounts.inRange hcountable
  rw [Value.truncate_eq hsure] at hleast
  rw [Value.truncate_eq hcard] at hmost
  subst hleast
  exact ⟨rfl, Value.eq_of_check hmost⟩

/-- A walk over the places that may count at the call. -/
theorem yields_eachPossible (hwf : w.cells.WellFormed) (hsorted : p.tracked.Pairwise (· < ·))
    {treat : Int → Int → List Nat → Step Unit} {post : Unit → Workspace Remark → Prop}
    {stop : Workspace Remark → Prop} (hpost : p.tracked = [] → post () w)
    (htreat : ∀ smallest largest places, p.tracked.head? = some smallest →
      p.tracked.getLast? = some largest → p.Spans smallest largest → places.Nodup →
      (∀ i, i ∈ places ↔ i ∈ p.may w) → Yields me (treat smallest largest places) w post stop) :
    Yields me (p.eachPossible treat) w post stop := by
  unfold eachPossible
  split
  · next smallest largest hsmallest hlargest =>
    refine yields_bind (yields_onCells fun places hplaces => ?_)
    obtain ⟨hnodup, hmem⟩ := Cells.members_eq_ok hplaces hwf
    refine htreat _ _ places hsmallest hlargest (fun v hv => ⟨?_, ?_⟩) hnodup hmem
    · exact Domain.head?_le_of_pairwise hsorted hsmallest hv
    · exact Domain.le_getLast?_of_pairwise hsorted hlargest hv
  · next hnot =>
    refine yields_pure (hpost ?_)
    cases htracked : p.tracked with
    | nil => rfl
    | cons v rest =>
        rw [htracked] at hnot
        exact absurd List.getLast?_cons (hnot v _ rfl)

/-- The counter decides about no place. -/
def Indecisive (p : AmongPropagator) (w : Workspace Remark) : Prop :=
  p.may w = ∅ ∨ (p.backPropagates = true → p.tracked ≠ [] →
    ¬ p.CounterIs w.domains.table (p.surely w) ∧
      ¬ p.CounterIs w.domains.table (p.surely w + (p.may w).card))

/-- The counter is fixed to `m`, and that is to decide about the listed places, all that may count. -/
structure Decision (p : AmongPropagator) (m smallest largest : Int) (places : List Nat)
    (w : Workspace Remark) : Prop where
  back : p.backPropagates = true
  fixed : p.counter.isFixed w.domains = .ok true
  counter : p.CounterIs w.domains.table m
  head_eq : p.tracked.head? = some smallest
  last_eq : p.tracked.getLast? = some largest
  span : p.Spans smallest largest
  nodup : places.Nodup
  mem_iff : ∀ i, i ∈ places ↔ i ∈ p.may w

/-- From `w'`, where the counter has been restricted, the rest of the filtering of `w` leads to
`post`, or to `stop` if it gives up. -/
structure Continues (p : AmongPropagator) (me : PropagatorId) (post stop : Workspace Remark → Prop)
    (w w' : Workspace Remark) : Prop where
  wellFormed : w'.WellFormed
  may_eq : p.may w' = p.may w
  surely_eq : p.surely w' = p.surely w
  done : p.Indecisive w' → post w'
  excludes : ∀ smallest largest places, p.Decision (p.surely w') smallest largest places w' →
    Yields me (p.excludeEach smallest largest places) w' (fun _ w'' => post w'') stop
  includes : ∀ smallest largest places,
    p.Decision (p.surely w' + (p.may w').card) smallest largest places w' →
      Yields me (p.includeEach smallest largest places) w' (fun _ w'' => post w'') stop

/-- A filtering gives up on a counter outside of the bounds of the count. Otherwise it restricts the
counter to them, and one that is fixed to one of them then decides about the places. -/
theorem yields_filter_of {post stop : Workspace Remark → Prop} (hwf : w.WellFormed)
    (hsorted : p.tracked.Pairwise (· < ·)) (hcounts : p.Counts (p.may w) (p.surely w))
    (hcountable : p.Countable)
    (hstop : (∀ v ∈ p.counter.current w.domains.table,
      ¬ (p.surely w ≤ v ∧ v ≤ p.surely w + (p.may w).card)) → stop w)
    (hforce : ∀ lo hi, p.counter.lower w.domains = .ok lo → p.counter.upper w.domains = .ok hi →
      p.surely w ≤ hi → Yields me (force p.counter (.atLeast (p.surely w))) w (fun _ w₁ =>
        Yields me (force p.counter (.atMost (p.surely w + (p.may w).card))) w₁
          (fun _ w₂ => Continues p me post stop w w₂) stop) stop) :
    Yields me (p.filter me) w (fun _ w' => post w') stop := by
  have hanswers := p.counter.describes_answer hwf.table
  unfold filter
  refine yields_bind (yields_onCells fun bounds hbounds => ?_)
  obtain ⟨least, most⟩ := bounds
  obtain ⟨rfl, rfl⟩ := countBounds_eq_ok hwf.cells hcounts hcountable hbounds
  refine yields_bind (yields_onDomains fun hi hhi => ?_)
  split
  · next hlt =>
    refine yields_contradict (hstop fun v hv hin => ?_)
    have := (hanswers.upper hhi).2 v hv
    omega
  next hreach =>
  refine yields_bind (yields_onDomains fun lo hlo => ?_)
  split
  · next hlt =>
    refine yields_contradict (hstop fun v hv hin => ?_)
    have := (hanswers.lower hlo).2 v hv
    omega
  refine (hforce lo hi hlo hhi (not_lt.1 hreach)).bind fun _ w₁ hw₁ => hw₁.bind fun _ w₂ hw₂ => ?_
  obtain ⟨hwf₂, hmay, hsurely, hdone, hexcludes, hincludes⟩ := hw₂
  split
  · next hback => exact yields_pure (hdone (Or.inr fun hb => by simp [hb] at hback))
  next hback =>
  refine yields_bind (yields_onDomains fun fixed hfixed => ?_)
  split
  · next hnot =>
    refine yields_pure (hdone (Or.inr fun _ _ => ⟨fun hc => ?_, fun hc => ?_⟩))
    · simp [Variable.isFixed_of_forall hwf₂.table hfixed hc] at hnot
    · simp [Variable.isFixed_of_forall hwf₂.table hfixed hc] at hnot
  next hf =>
  obtain rfl : fixed = true := by simpa using hf
  split
  · next hsame =>
    refine yields_pure (hdone (Or.inl (Finset.card_eq_zero.1 ?_)))
    rw [hmay]
    omega
  refine yields_bind (yields_onDomains fun count hcount => ?_)
  obtain ⟨hcountmem, -⟩ := (p.counter.describes_answer hwf₂.table).lower hcount
  have hcounter : p.CounterIs w₂.domains.table count := fun v hv =>
    Variable.isFixed_eq_ok hwf₂.table hfixed hv hcountmem
  have hnil : p.tracked = [] → post w₂ := fun hnil => hdone (Or.inr fun _ ht => absurd hnil ht)
  rw [← hsurely, ← hmay]
  split
  · next hleast =>
    subst hleast
    exact yields_eachPossible hwf₂.cells hsorted hnil
      fun smallest largest places hsmallest hlargest hspan hnodup hplaces =>
        hexcludes smallest largest places
          ⟨by simpa using hback, hfixed, hcounter, hsmallest, hlargest, hspan, hnodup, hplaces⟩
  next hleast =>
  split
  · next hmost =>
    subst hmost
    exact yields_eachPossible hwf₂.cells hsorted hnil
      fun smallest largest places hsmallest hlargest hspan hnodup hplaces =>
        hincludes smallest largest places
          ⟨by simpa using hback, hfixed, hcounter, hsmallest, hlargest, hspan, hnodup, hplaces⟩
  · next hmost =>
    refine yields_pure (hdone (Or.inr fun _ _ => ⟨fun hc => ?_, fun hc => ?_⟩))
    · exact hleast (hc count hcountmem)
    · exact hmost (hc count hcountmem)

/-! ### The walks, place by place -/

section Cons

variable {post : Unit → Workspace Remark → Prop} {stop : Workspace Remark → Prop} {i : Nat}
  {rest : List Nat}

/-- The walk that makes places not count, at one of them: a variable that lists its values loses those
that are tracked, and the bounds of an interval are moved past them. -/
theorem yields_excludeEach_cons
    (hlisted : i < p.scope.length → w.domains.table.enumerated (p.place i).base = true →
      Yields me (forceOut (p.place i) p.tracked) (w.noted (.excluded (p.place i) p.tracked))
        (fun _ w₁ => Yields me (write (.erase p.possible i)) w₁ (fun _ w₂ =>
          Yields me (p.excludeEach smallest largest rest) w₂ post stop) stop) stop)
    (hinterval : i < p.scope.length → w.domains.table.enumerated (p.place i).base = false →
      Yields me (forceInward (p.place i) (p.tracked.contains ·))
        (w.noted (.excluded (p.place i) p.tracked)) (fun bounds w₁ =>
          (largest < bounds.1 ∨ bounds.2 < smallest → Yields me (write (.erase p.possible i)) w₁
            (fun _ w₂ => Yields me (p.excludeEach smallest largest rest) w₂ post stop) stop) ∧
          (¬ (largest < bounds.1 ∨ bounds.2 < smallest) →
            Yields me (p.excludeEach smallest largest rest) w₁ post stop)) stop) :
    Yields me (p.excludeEach smallest largest (i :: rest)) w post stop := by
  refine yields_bind (yields_subject fun hlt => yields_bind (yields_remark ?_))
  refine yields_bind (yields_onDomains fun kind hkind => ?_)
  have hkind := (p.place i).enumerated_eq_ok hkind
  dsimp only at hkind ⊢
  split
  · next he => exact yields_bind ((hlisted hlt (hkind.symm.trans he)).imp fun _ _ => yields_bind)
  · next he =>
    have he := hkind.symm.trans (Bool.eq_false_iff.2 he)
    refine yields_bind ((hinterval hlt he).imp fun bounds w₁ hw₁ => ?_)
    obtain ⟨hgone, hstays⟩ := hw₁
    split
    · next hout => exact yields_bind (hgone hout)
    · next hin => exact hstays hin

/-- The walk that makes places count, at one of them: a variable that lists its values loses those
that are not tracked, and the bounds of an interval are moved to tracked values. -/
theorem yields_includeEach_cons
    (hlisted : i < p.scope.length → w.domains.table.enumerated (p.place i).base = true →
      ∀ values, (p.place i).values w.domains = .ok values →
      Yields me (forceOut (p.place i) (values.filter (!p.tracked.contains ·)))
        (w.noted (.included (p.place i) p.tracked)) (fun _ w₁ =>
          Yields me (p.settlePlace i) w₁ (fun _ w₂ =>
            Yields me (p.includeEach smallest largest rest) w₂ post stop) stop) stop)
    (hinterval : i < p.scope.length → w.domains.table.enumerated (p.place i).base = false →
      Yields me (force (p.place i) (.atLeast smallest)) (w.noted (.included (p.place i) p.tracked))
        (fun _ w₁ => Yields me (force (p.place i) (.atMost largest)) w₁ (fun _ w₂ =>
          Yields me (forceInward (p.place i) (!p.tracked.contains ·)) w₂ (fun _ w₃ =>
            ((p.place i).isFixed w₃.domains = .ok true → Yields me (p.settlePlace i) w₃ (fun _ w₄ =>
              Yields me (p.includeEach smallest largest rest) w₄ post stop) stop) ∧
            Yields me (p.includeEach smallest largest rest) w₃ post stop) stop) stop) stop) :
    Yields me (p.includeEach smallest largest (i :: rest)) w post stop := by
  refine yields_bind (yields_subject fun hlt => yields_bind (yields_remark ?_))
  refine yields_bind (yields_onDomains fun kind hkind => ?_)
  have hkind := (p.place i).enumerated_eq_ok hkind
  dsimp only at hkind ⊢
  split
  · next he =>
    refine yields_bind (yields_onDomains fun values hvalues => ?_)
    exact yields_bind ((hlisted hlt (hkind.symm.trans he) values hvalues).imp fun _ _ => yields_bind)
  · next he =>
    have he := hkind.symm.trans (Bool.eq_false_iff.2 he)
    refine yields_bind ((hinterval hlt he).imp fun _ w₁ hw₁ => ?_)
    refine yields_bind (hw₁.imp fun _ w₂ hw₂ => ?_)
    refine yields_bind (hw₂.imp fun _ w₃ hw₃ => yields_bind (yields_onDomains fun fixed hfixed => ?_))
    obtain ⟨hsettled, hstays⟩ := hw₃
    split
    · next hf => exact yields_bind (hsettled (hf ▸ hfixed))
    · exact hstays

end Cons

section Pass

variable (hready : Ready p exact w₀)
include hready

/-- With the counter at the least count, no place of the set counts in a solution. -/
theorem notMem_tracked_of_least (h : Upheld p me exact A w₀ w)
    (hcount : ∀ v ∈ p.counter.current w.domains.table, v = p.surely w) {i : Nat} (hi : i ∈ p.may w)
    {σ : DomainId → Int} (hσ : w.domains.table.Admits σ) (hsat : p.Satisfied σ) :
    (p.place i).eval σ ∉ p.tracked := by
  have hg := (h.toSound.ready hready).grounded
  have hsum := h.accounts σ hσ hsat
  rw [hcount _ (Among.eval_mem_current hσ hg.counter_lt)] at hsum
  have hempty : p.tally σ (p.may w) = ∅ := Finset.card_eq_zero.1 (by omega)
  intro hmem
  have hin : i ∈ p.tally σ (p.may w) := Finset.mem_filter.2 ⟨hi, hmem⟩
  rw [hempty] at hin
  exact absurd hin (Finset.notMem_empty i)

/-- With the counter at the greatest count, every place of the set counts in every solution. -/
theorem mem_tracked_of_greatest (h : Upheld p me exact A w₀ w)
    (hcount : ∀ v ∈ p.counter.current w.domains.table, v = p.surely w + (p.may w).card) {i : Nat}
    (hi : i ∈ p.may w) {σ : DomainId → Int} (hσ : w.domains.table.Admits σ)
    (hsat : p.Satisfied σ) : (p.place i).eval σ ∈ p.tracked := by
  have hg := (h.toSound.ready hready).grounded
  have hsum := h.accounts σ hσ hsat
  rw [hcount _ (Among.eval_mem_current hσ hg.counter_lt)] at hsum
  have hall : p.tally σ (p.may w) = p.may w :=
    Finset.eq_of_subset_of_card_le (Finset.filter_subset _ _) (by omega)
  rw [← hall] at hi
  exact (Finset.mem_filter.1 hi).2

/-- An interval whose bounds are past the tracked values on one side has none of them left. -/
theorem never_of_bounds (h : Upheld p me exact A w₀ w) (hexact : exact)
    (hback : p.backPropagates = true) (hspan : p.Spans smallest largest) {i : Nat}
    (hi : i < p.scope.length) (hkind : w.domains.table.enumerated (p.place i).base = false)
    {lo hi' : Int} (hout : largest < lo ∨ hi' < smallest)
    (hupper : ∀ u ∈ w'.domains.table.members (p.place i).base, (p.place i).image u ≤ hi')
    (hbelow : ∀ u ∈ w.domains.table.members (p.place i).base, (p.place i).image u < lo →
      p.tracked.contains ((p.place i).image u) = true)
    (hlower : (∀ d, w.domains.table.get? (p.place i).base = some d → 0 < lo →
        ¬ (p.place i).KeepsGap d (lo - 1)) →
      ∀ u ∈ w'.domains.table.members (p.place i).base, lo ≤ (p.place i).image u) :
    p.Never w'.domains.table (p.place i) := by
  intro v hv htracked
  obtain ⟨u, hu, rfl⟩ := Variable.mem_current.1 hv
  have hin := hspan _ htracked
  rcases hout with hlo | hhi
  · have hge := hlower (fun d hd hpos hgap => ?_) u hu
    · omega
    · refine (h.toSound.ready hready).unblocked hexact hback (p.place i) (Among.place_mem hi) d hd
        (lo - 1) (by omega) hgap fun v hv0 => ⟨fun hv => ?_, fun hle => ?_⟩
      · have := (hspan v hv).2
        omega
      · have hd' : d.enumerated = false := by rw [← Table.enumerated_of_get? hd, hkind]
        have hmem : v ∈ w.domains.table.members (p.place i).base ∧ (p.place i).image v = v := by
          rw [Table.members_of_get? hd, Domain.mem_members_of_interval hd']
          have hneg := hgap.lower_neg (by omega)
          have hge := hgap.lt_upper
          rw [hgap.image_eq]
          exact ⟨⟨by omega, by omega⟩, by omega⟩
        have := hbelow v hmem.1 (by omega)
        rw [hmem.2] at this
        simpa using this
  · have := hupper u hu
    omega

/-- A walk with the counter fixed to `m` that has the listed places left. -/
structure Sweep (p : AmongPropagator) (me : PropagatorId) (exact : Prop) (A : Nat → Prop)
    (w₀ : Workspace Remark) (m : Int) (places : List Nat) (w : Workspace Remark) : Prop where
  upheld : Upheld p me exact A w₀ w
  count : p.CounterIs w.domains.table m
  nodup : places.Nodup
  subset : ∀ i ∈ places, i ∈ p.may w

omit hready in
theorem Sweep.remark {m : Int} {places : List Nat} (h : Sweep p me exact A w₀ m places w)
    (content : Remark) : Sweep p me exact A w₀ m places (w.noted content) :=
  ⟨h.upheld.remark content, h.count, h.nodup, h.subset⟩

section Treated

variable {m : Int} {i : Nat} {rest : List Nat} {w₁ : Workspace Remark}
  (h : Sweep p me exact A w₀ m (i :: rest) w) (hreduces : Reduces p me exact A w₀ w w₁)
include h hreduces

/-- A place is treated, and may have left the set. -/
theorem Sweep.next (hupheld : Upheld p me exact A w₀ w') (hdomains : w'.domains = w₁.domains)
    (hmay : (p.may w).erase i ⊆ p.may w') : Sweep p me exact A w₀ m rest w' := by
  obtain ⟨hnotin, hnodup⟩ := List.nodup_cons.1 h.nodup
  have hwf := (h.upheld.toSound.ready hready).wellFormed.table
  refine ⟨hupheld, hdomains ▸ h.count.below (hreduces.narrows.table_below hwf), hnodup,
    fun j hj => hmay (Finset.mem_erase.2 ⟨?_, h.subset j (List.mem_cons_of_mem _ hj)⟩)⟩
  rintro rfl
  exact hnotin hj

/-- A place stays in the set. -/
theorem Sweep.kept : Sweep p me exact A w₀ m rest w₁ :=
  h.next hready hreduces hreduces.upheld rfl
    ((Finset.erase_subset _ _).trans (may_congr hreduces.cells_eq).ge)

/-- A place that counts in no solution leaves the set. -/
theorem Sweep.yields_erase (hlt : i < p.scope.length)
    (hout : ∀ σ, w.domains.table.Admits σ → p.Satisfied σ → (p.place i).eval σ ∉ p.tracked)
    (hnever : exact → p.Never w₁.domains.table (p.place i)) :
    Yields me (write (.erase p.possible i)) w₁
      (fun _ w' => Sweep p me exact A w₀ m rest w' ∧ p.surely w' = p.surely w) (Refuted p me w₀) := by
  have hwf := (h.upheld.toSound.ready hready).wellFormed.table
  refine Yields.imp (AmongPropagator.yields_erase hready hreduces.upheld hlt (fun σ hσ =>
    hout σ (hreduces.narrows.admits hwf hσ)) hnever) fun _ w' hw' => ?_
  obtain ⟨hupheld, hdomains, hmay, hsurely⟩ := hw'
  rw [may_congr hreduces.cells_eq] at hmay
  rw [surely_congr hreduces.cells_eq] at hsurely
  exact ⟨h.next hready hreduces hupheld hdomains hmay.ge, hsurely⟩

/-- A place that is sure to count moves from the set to the number. -/
theorem Sweep.yields_settlePlace (hlt : i < p.scope.length)
    (hsure : p.Sure w₁.domains.table (p.place i)) :
    Yields me (p.settlePlace i) w₁ (fun _ w' => Sweep p me exact A w₀ m rest w' ∧
      p.surely w' + (p.may w').card = p.surely w + (p.may w).card) (Refuted p me w₀) := by
  have hi := h.subset i List.mem_cons_self
  have hmay₁ := may_congr (p := p) hreduces.cells_eq
  refine Yields.imp (AmongPropagator.yields_settlePlace hready hreduces.upheld (hmay₁ ▸ hi) hlt hsure)
    fun _ w' hw' => ?_
  obtain ⟨hupheld, hdomains, hmay, hsurely⟩ := hw'
  rw [hmay₁] at hmay
  rw [surely_congr hreduces.cells_eq] at hsurely
  have hcard := Finset.card_erase_add_one hi
  refine ⟨h.next hready hreduces hupheld hdomains hmay.ge, ?_⟩
  rw [hmay, hsurely]
  omega

end Treated

/-- The walk that makes places not count. -/
theorem yields_excludeEach (hback : p.backPropagates = true) (hspan : p.Spans smallest largest)
    {m : Int} {places : List Nat} (h : Sweep p me exact A w₀ m places w) (hm : p.surely w = m) :
    Yields me (p.excludeEach smallest largest places) w
      (fun _ w' => Sweep p me exact A w₀ m [] w' ∧ p.surely w' = m) (Refuted p me w₀) := by
  induction places generalizing w with
  | nil => exact yields_pure ⟨h, hm⟩
  | cons i rest ih =>
      have hrest : ∀ w', Sweep p me exact A w₀ m rest w' ∧ p.surely w' = p.surely w →
          Yields me (p.excludeEach smallest largest rest) w'
            (fun _ w' => Sweep p me exact A w₀ m [] w' ∧ p.surely w' = m) (Refuted p me w₀) :=
        fun w' hw' => ih hw'.1 (hw'.2.trans hm)
      have h := h.remark (.excluded (p.place i) p.tracked)
      have hr := h.upheld.toSound.ready hready
      have hout : ∀ σ, w.domains.table.Admits σ → p.Satisfied σ → (p.place i).eval σ ∉ p.tracked :=
        fun σ hσ => notMem_tracked_of_least hready h.upheld (fun v hv => (h.count v hv).trans hm.symm)
          (h.subset i List.mem_cons_self) hσ
      refine yields_excludeEach_cons (fun hlt he => ?_) fun hlt he => ?_
      · refine Yields.imp (yields_forceOut hready h.upheld (hr.grounded.place_lt i hlt) he hout)
          fun _ w₁ hw₁ => ?_
        obtain ⟨hreduces, hgone⟩ := hw₁
        have hnever : p.Never w₁.domains.table (p.place i) := by
          intro v hv
          obtain ⟨u, hu, rfl⟩ := Variable.mem_current.1 hv
          exact hgone u hu
        exact (h.yields_erase hready hreduces hlt hout fun _ => hnever).imp fun _ => hrest
      · refine Yields.imp (yields_forceInward hready h.upheld (hr.grounded.place_lt i hlt)
          (p.tracked.contains ·) fun σ hσ hsat => by simpa using hout σ hσ hsat) fun bounds w₁ hw₁ => ?_
        obtain ⟨hreduces, hupper, hbelow, hlower⟩ := hw₁
        refine ⟨fun hbeyond => ?_, fun _ => ?_⟩
        · have hnever : exact → p.Never w₁.domains.table (p.place i) := fun hex =>
            never_of_bounds hready h.upheld hex hback hspan hlt he hbeyond hupper hbelow hlower
          exact (h.yields_erase hready hreduces hlt hout hnever).imp fun _ => hrest
        · exact hrest w₁ ⟨h.kept hready hreduces, surely_congr hreduces.cells_eq⟩

/-- An interval is moved into the span of the tracked values and keeps one of them. -/
theorem yields_forceSpan (h : Upheld p me exact A w₀ w) {x : Variable}
    (hx : x.base.index < w.domains.table.size) (hspan : p.Spans smallest largest)
    (htracked : ∀ σ, w.domains.table.Admits σ → p.Satisfied σ → x.eval σ ∈ p.tracked) :
    Yields me (force x (.atLeast smallest)) w (fun _ w₁ =>
      Yields me (force x (.atMost largest)) w₁ (fun _ w₂ =>
        Yields me (forceInward x (!p.tracked.contains ·)) w₂ (fun _ w₃ =>
          Reduces p me exact A w₀ w w₃ ∧ ∃ v ∈ x.current w₃.domains.table, v ∈ p.tracked)
          (Refuted p me w₀)) (Refuted p me w₀)) (Refuted p me w₀) := by
  have hwf := (h.toSound.ready hready).wellFormed.table
  refine Yields.imp (yields_force_of hready h hx fun σ hσ hsat =>
    (hspan _ (htracked σ hσ hsat)).1) fun _ w₁ hreduces₁ => ?_
  have hn₁ := hreduces₁.narrows
  refine Yields.imp (yields_force_of hready hreduces₁.upheld (hx.trans_eq hn₁.size_eq.symm)
    fun σ hσ hsat => (hspan _ (htracked σ (hn₁.admits hwf hσ) hsat)).2) fun _ w₂ hw₂ => ?_
  have hreduces₂ := hreduces₁.trans hw₂
  have hn₂ := hreduces₂.narrows
  have hx₂ := hx.trans_eq hn₂.size_eq.symm
  refine Yields.mono ((yields_forceInward hready hreduces₂.upheld hx₂ (!p.tracked.contains ·)
    fun σ hσ hsat => by simpa using htracked σ (hn₂.admits hwf hσ) hsat).and
    (yields_forceInward_leaves (hn₂.wellFormed hwf) hx₂ (!p.tracked.contains ·)))
    (fun _ w₃ hw₃ => ?_) fun _ hw => hw.1
  obtain ⟨⟨hreduces₃, -⟩, -, -, v, hv, hstays⟩ := hw₃
  exact ⟨hreduces₂.trans hreduces₃, v, hv, by simpa using hstays⟩

/-- The walk that makes places count. -/
theorem yields_includeEach (hspan : p.Spans smallest largest) {m : Int} {places : List Nat}
    (h : Sweep p me exact A w₀ m places w) (hm : p.surely w + (p.may w).card = m) :
    Yields me (p.includeEach smallest largest places) w
      (fun _ w' => Sweep p me exact A w₀ m [] w' ∧ p.surely w' + (p.may w').card = m)
      (Refuted p me w₀) := by
  induction places generalizing w with
  | nil => exact yields_pure ⟨h, hm⟩
  | cons i rest ih =>
      have hrest : ∀ w', Sweep p me exact A w₀ m rest w' ∧
            p.surely w' + (p.may w').card = p.surely w + (p.may w).card →
          Yields me (p.includeEach smallest largest rest) w'
            (fun _ w' => Sweep p me exact A w₀ m [] w' ∧ p.surely w' + (p.may w').card = m)
            (Refuted p me w₀) :=
        fun w' hw' => ih hw'.1 (hw'.2.trans hm)
      have h := h.remark (.included (p.place i) p.tracked)
      have hr := h.upheld.toSound.ready hready
      have hwf := hr.wellFormed.table
      have hin : ∀ σ, w.domains.table.Admits σ → p.Satisfied σ → (p.place i).eval σ ∈ p.tracked :=
        fun σ hσ => mem_tracked_of_greatest hready h.upheld
          (fun v hv => (h.count v hv).trans hm.symm) (h.subset i List.mem_cons_self) hσ
      refine yields_includeEach_cons (fun hlt he values hvalues => ?_) fun hlt he => ?_
      · have hanswers := (p.place i).describes_answer hwf
        obtain ⟨-, hlisted⟩ := hanswers.ascending hanswers.few hvalues
        refine Yields.imp (yields_forceOut hready h.upheld (hr.grounded.place_lt i hlt) he
          fun σ hσ hsat hmem => ?_) fun _ w₁ hw₁ => ?_
        · have hout := (List.mem_filter.1 hmem).2
          simp [hin σ hσ hsat] at hout
        · obtain ⟨hreduces, hgone⟩ := hw₁
          have hsure : p.Sure w₁.domains.table (p.place i) := by
            intro v hv
            obtain ⟨u, hu, rfl⟩ := Variable.mem_current.1 hv
            have hold := hreduces.narrows.members_subset hwf _ hu
            by_contra hnot
            refine hgone u hu (List.mem_filter.2 ⟨?_, by simpa using hnot⟩)
            exact (hlisted _).2 (Variable.image_mem_current hold)
          exact (h.yields_settlePlace hready hreduces hlt hsure).imp fun _ => hrest
      · refine Yields.imp (yields_forceSpan hready h.upheld (hr.grounded.place_lt i hlt) hspan hin)
          fun _ w₁ hw₁ => hw₁.imp fun _ w₂ hw₂ => hw₂.imp fun _ w₃ hw₃ => ?_
        obtain ⟨hreduces, u, hu, htracked⟩ := hw₃
        refine ⟨fun hfixed => ?_, hrest w₃ ⟨h.kept hready hreduces, ?_⟩⟩
        · have hsure : p.Sure w₃.domains.table (p.place i) := by
            intro v hv
            rwa [Variable.isFixed_eq_ok (hreduces.narrows.wellFormed hwf) hfixed hv hu]
          exact (h.yields_settlePlace hready hreduces hlt hsure).imp fun _ => hrest
        · rw [surely_congr hreduces.cells_eq, may_congr hreduces.cells_eq]
          rfl

/-- Moving the bounds of the counter to the counts that the cells allow for. -/
theorem inBounds_of_forced (h : Upheld p me exact A w₀ w) {w₁ w₂ : Workspace Remark}
    (h₁ : Reduces p me exact A w₀ w w₁) (h₂ : Reduces p me exact A w₀ w₁ w₂)
    (hreach : ∃ m ∈ p.counter.current w.domains.table, p.surely w ≤ m)
    (hstay₁ : ∀ u ∈ w.domains.table.members p.counter.base,
      p.counter.Permits (.atLeast (p.surely w)) u → u ∈ w₁.domains.table.members p.counter.base)
    (hleft₁ : Among.Faithful w.domains.table p.counter →
      ∀ u ∈ w₁.domains.table.members p.counter.base, p.surely w ≤ p.counter.image u)
    (hstay₂ : ∀ u ∈ w₁.domains.table.members p.counter.base,
      p.counter.Permits (.atMost (p.surely w + (p.may w).card)) u →
      u ∈ w₂.domains.table.members p.counter.base)
    (hleft₂ : ∀ u ∈ w₂.domains.table.members p.counter.base,
      p.counter.image u ≤ p.surely w + (p.may w).card) :
    p.InBounds w₂.domains.table (p.may w₂) (p.surely w₂) := by
  have hwf := (h.toSound.ready hready).wellFormed.table
  have hwf₁ := h₁.narrows.wellFormed hwf
  have hcells := h₂.cells_eq.trans h₁.cells_eq
  rw [may_congr hcells, surely_congr hcells]
  intro v hv hor
  obtain ⟨u, hu, rfl⟩ := Variable.mem_current.1 hv
  have hu₁ := h₂.narrows.members_subset hwf₁ _ hu
  refine ⟨?_, hleft₂ u hu⟩
  by_cases hf : Among.Faithful w.domains.table p.counter
  · exact hleft₁ hf u hu₁
  · have hsingle : p.counter.current w₂.domains.table = {p.counter.image u} := by
      refine hor.resolve_left fun hf' => hf (hf'.imp id fun he => ?_)
      rw [← h₁.narrows.enumerated_eq hwf, ← h₂.narrows.enumerated_eq hwf₁, he]
    have hview : ∃ x, p.counter = .abs x := by
      cases hc : p.counter with
      | domain id => exact absurd (Or.inl (by rw [hc]; rfl)) hf
      | abs x => exact ⟨x, rfl⟩
    obtain ⟨x, hx⟩ := hview
    rw [hx] at hsingle hreach hstay₁ hstay₂ hu hu₁ hf ⊢
    by_contra hlt
    obtain ⟨m, hm, hle⟩ := hreach
    obtain ⟨um, hum, rfl⟩ := Variable.mem_current.1 hm
    have hgrounded := (h.toSound.ready hready).grounded.counter_lt
    cases hd : w₁.domains.table.get? x.base with
    | none =>
        rw [hx, ← h₁.narrows.size_eq] at hgrounded
        exact absurd ((Table.get?_eq_none_iff _ _).1 hd) (not_le.2 hgrounded)
    | some d =>
        have hkind : d.enumerated = false := by
          rw [← Table.enumerated_of_get? hd, h₁.narrows.enumerated_eq hwf]
          exact Bool.eq_false_iff.2 fun he => hf (Or.inr he)
        have hleast := Variable.mem_current_of_between hd hkind (v := p.surely w)
          (Variable.image_mem_current (x := .abs x) hu₁)
          (Variable.image_mem_current (x := .abs x) (hstay₁ um hum hle)) (by omega) hle
        obtain ⟨u', hu', heq⟩ := Variable.mem_current.1 hleast
        have hstays := hstay₂ u' hu' (by
          change (Variable.abs x).image u' ≤ _
          omega)
        have hin := Variable.image_mem_current (x := .abs x) hstays
        rw [hsingle, heq, Finset.mem_singleton] at hin
        omega

omit hready in
/-- A lower bound takes effect on a counter whose bounds can be moved to any value. -/
theorem leaves_atLeast_of_faithful {s : Domains} (hwf : s.table.WellFormed) (x : Variable)
    {cause : Cause} (v : Int) :
    x.Leaves cause (fun u => Among.Faithful s.table x → v ≤ x.image u) (.atLeast v) s := by
  by_cases hf : Among.Faithful s.table x
  · rcases hf with he | he
    · rw [he]
      exact Domains.Confines.mono hwf (Variable.leaves_atLeast_domain hwf _ v) (fun _ _ hf => hf)
        fun _ _ hl _ => hl
    · exact (x.confined cause (.atLeast v) s hwf).mono hwf (fun _ _ hf => hf.elim)
        fun _ _ hl _ => hl he
  · exact (x.confined cause (.atLeast v) s hwf).mono hwf (fun _ _ hf => hf.elim)
      fun _ _ _ hf' => absurd hf' hf

/-- The filtering of a pass. -/
theorem yields_filter (h : Upheld p me exact A w₀ w) :
    Yields me (p.filter me) w
      (fun _ w' => Upheld p me exact A w₀ w' ∧
        p.InBounds w'.domains.table (p.may w') (p.surely w')) (Refuted p me w₀) := by
  have hr := h.toSound.ready hready
  have hwf := hr.wellFormed.table
  have hcounter := hr.grounded.counter_lt
  have hsum : ∀ σ, w.domains.table.Admits σ → p.Satisfied σ →
      p.surely w ≤ p.counter.eval σ ∧ p.counter.eval σ ≤ p.surely w + (p.may w).card := by
    intro σ hσ hsat
    have hcard := Finset.card_le_card (Finset.filter_subset (fun i =>
      (p.place i).eval σ ∈ p.tracked) (p.may w))
    have haccounts := h.accounts σ hσ hsat
    unfold Among.tally at haccounts
    omega
  refine yields_filter_of hr.wellFormed hr.sorted h.counts hr.countable (fun hout => ?_)
    fun lo hi _ hhi hreach => ?_
  · refine ⟨h.progress, fun σ hσ hsat => ?_⟩
    have hadmits := h.kept σ hσ hsat
    exact hout _ (Among.eval_mem_current hadmits hcounter) (hsum σ hadmits hsat)
  obtain ⟨hhimem, -⟩ := (p.counter.describes_answer hwf).upper hhi
  refine Yields.imp (yields_narrow_of hready h hcounter (fun σ hσ hsat => (hsum σ hσ hsat).1)
    (leaves_atLeast_of_faithful hwf p.counter _)) fun _ w₁ hw₁ => ?_
  obtain ⟨hreduces₁, hstay₁, hleft₁⟩ := hw₁
  have hn₁ := hreduces₁.narrows
  have hwf₁ := hn₁.wellFormed hwf
  refine Yields.imp (yields_narrow_of hready hreduces₁.upheld
    (hcounter.trans_eq hn₁.size_eq.symm) (fun σ hσ hsat => (hsum σ (hn₁.admits hwf hσ) hsat).2)
    (Variable.leaves_atMost hwf₁ p.counter _)) fun _ w₂ hw₂ => ?_
  obtain ⟨hreduces₂, hstay₂, hleft₂⟩ := hw₂
  have hupheld := hreduces₂.upheld
  have hin := inBounds_of_forced hready h hreduces₁ hreduces₂ ⟨hi, hhimem, hreach⟩
    hstay₁ (fun hf u hu => hleft₁ u hu hf) hstay₂ hleft₂
  have hcells := hreduces₂.cells_eq.trans hreduces₁.cells_eq
  have hsweep : ∀ {m smallest largest : Int} {places : List Nat},
      p.Decision m smallest largest places w₂ → Sweep p me exact A w₀ m places w₂ := fun hd =>
    ⟨hupheld, hd.counter, hd.nodup, fun i => (hd.mem_iff i).1⟩
  refine ⟨(hupheld.toSound.ready hready).wellFormed, may_congr hcells, surely_congr hcells,
    fun _ => ⟨hupheld, hin⟩, fun smallest largest places hd => ?_,
    fun smallest largest places hd => ?_⟩
  · refine Yields.imp (yields_excludeEach hready hd.back hd.span (hsweep hd) rfl) fun _ w₃ hw₃ =>
      ⟨hw₃.1.upheld, fun v hv _ => ?_⟩
    obtain ⟨hsweep₃, hsurely₃⟩ := hw₃
    have := hsweep₃.count v hv
    omega
  · refine Yields.imp (yields_includeEach hready hd.span (hsweep hd) rfl) fun _ w₃ hw₃ =>
      ⟨hw₃.1.upheld, fun v hv _ => ?_⟩
    obtain ⟨hsweep₃, hsum₃⟩ := hw₃
    have := hsweep₃.count v hv
    omega

end Pass

/-! ### Recounting -/

/-- The first `i` places of the scope are counted: `n` of them are sure, and the undecided ones are
in the set. -/
structure Recount (p : AmongPropagator) (w₀ w : Workspace Remark) (i : Nat) (n : Int) : Prop where
  domains_eq : w.domains = w₀.domains
  evolves : Cells.Evolves w₀.cells w.cells
  value_eq : w.cells.contents.value = w₀.cells.contents.value
  places_eq : ∀ k ≠ p.possible, w.cells.contents.places k = w₀.cells.contents.places k
  may_eq : p.may w =
    (Finset.range i).filter fun j => ¬ p.Decided w₀.domains.table (p.place j)
  count_eq : n = (((Finset.range i).filter fun j => p.Sure w₀.domains.table (p.place j)).card : Nat)

section Recounting

variable (hwf : w₀.WellFormed) (hsorted : p.tracked.Pairwise (· < ·))
include hwf hsorted

theorem yields_enlist {i : Nat} {n : Int} {rest : List Variable} {stop : Workspace Remark → Prop}
    (h : Recount p w₀ w i n) (hi : i ≤ p.scope.length) (hrest : p.scope.drop i = rest) :
    Yields me (p.enlist i n rest) w (fun n w' => Recount p w₀ w' p.scope.length n) stop := by
  induction rest generalizing i n w with
  | nil =>
      have hlength := List.drop_eq_nil_iff.1 hrest
      rw [show i = p.scope.length by omega] at h
      exact yields_pure h
  | cons x rest ih =>
      have hlt : i < p.scope.length := by
        by_contra hge
        rw [List.drop_eq_nil_iff.2 (not_lt.1 hge)] at hrest
        exact nomatch hrest
      rw [List.drop_eq_getElem_cons hlt] at hrest
      obtain ⟨hx, hrest⟩ := List.cons.inj hrest
      have hplace : p.place i = x := by
        rw [Among.place_eq_getElem hlt, hx]
      refine yields_bind (yields_onDomains fun st hst => ?_)
      rw [h.domains_eq] at hst
      rcases Among.standing_eq_ok hwf.table hsorted hst with
        ⟨rfl, hsure⟩ | ⟨rfl, hnotsure, hnotnever⟩ | ⟨rfl, hnotsure, hnever⟩
      · refine ih ⟨h.domains_eq, h.evolves, h.value_eq, h.places_eq, ?_, ?_⟩ hlt hrest
        · rw [h.may_eq, Finset.range_add_one, Finset.filter_insert, if_neg]
          exact not_not_intro (hplace ▸ Or.inl hsure)
        · rw [h.count_eq, Finset.range_add_one, Finset.filter_insert, if_pos (hplace ▸ hsure),
            Finset.card_insert_of_notMem (by simp)]
          push_cast
          rfl
      · refine yields_bind (yields_bind (yields_set h.evolves.wellFormed
          fun b cells' hevolves hturns => yields_pure ?_))
        obtain ⟨hvalue, hplaces⟩ := hturns
        refine ih ⟨h.domains_eq, h.evolves.trans hevolves, hvalue.trans h.value_eq, fun k hk => ?_,
          ?_, ?_⟩ hlt hrest
        · rw [hplaces, Function.update_of_ne hk]
          exact h.places_eq k hk
        · rw [may, hplaces, Function.update_self, Finset.range_add_one, Finset.filter_insert,
            if_pos]
          · rw [← h.may_eq]
            rfl
          · rw [hplace]
            exact fun hd => hd.elim hnotsure hnotnever
        · rw [h.count_eq, Finset.range_add_one, Finset.filter_insert, if_neg (hplace ▸ hnotsure)]
      · refine ih ⟨h.domains_eq, h.evolves, h.value_eq, h.places_eq, ?_, ?_⟩ hlt hrest
        · rw [h.may_eq, Finset.range_add_one, Finset.filter_insert, if_neg]
          exact not_not_intro (hplace ▸ Or.inr hnever)
        · rw [h.count_eq, Finset.range_add_one, Finset.filter_insert, if_neg (hplace ▸ hnotsure)]

/-- A recount of all places leaves the domains and foreign cells alone, and its cells lag behind
nowhere. -/
structure Recounted (p : AmongPropagator) (w₀ w : Workspace Remark) : Prop where
  domains_eq : w.domains = w₀.domains
  evolves : Cells.Evolves w₀.cells w.cells
  value_eq : ∀ c ≠ p.sure, w.cells.contents.value c = w₀.cells.contents.value c
  places_eq : ∀ k ≠ p.possible, w.cells.contents.places k = w₀.cells.contents.places k
  tracks : p.Tracks w₀.domains.table (p.may w) (p.surely w) fun _ => False

theorem yields_initialise_recounts {stop : Workspace Remark → Prop} :
    Yields me p.initialise w₀ (fun _ w' => Recounted p w₀ w') stop := by
  refine yields_bind (yields_bind (yields_set hwf.cells
    fun b cells' hevolves hturns => yields_pure ?_))
  obtain ⟨hvalue, hplaces⟩ := hturns
  have hstart : Recount p w₀ { w₀ with cells := cells' } 0 0 := by
    refine ⟨rfl, hevolves, hvalue, fun k hk => ?_, ?_, rfl⟩
    · rw [hplaces, Function.update_of_ne hk]
    · rw [may, hplaces, Function.update_self]
      rfl
  refine yields_bind (Yields.mono (yields_enlist hwf hsorted hstart (Nat.zero_le _) List.drop_zero)
    (fun n w hw => ?_) fun _ hw => hw)
  refine yields_bind (yields_set hw.evolves.wellFormed fun b cells'' hevolves' hturns' => ?_)
  obtain ⟨hvalue', hplaces'⟩ := hturns'
  have hmay : p.may { w with cells := cells'' } = (Finset.range p.scope.length).filter
      fun j => ¬ p.Decided w₀.domains.table (p.place j) := by
    rw [may, hplaces', ← hw.may_eq]
    rfl
  have hsurely : p.surely { w with cells := cells'' } = n := by
    rw [surely, hvalue', Function.update_self]
  refine yields_pure ⟨hw.domains_eq, hw.evolves.trans hevolves', fun c hc => ?_, fun k hk => ?_, ?_⟩
  · rw [hvalue', Function.update_of_ne hc, hw.value_eq]
  · rw [hplaces']
    exact hw.places_eq k hk
  · rw [hmay, hsurely]
    refine ⟨Finset.filter_subset _ _, ?_, fun i hi hP => ?_, fun i hi hd => ?_⟩
    · rw [hw.count_eq]
      congr 2
      refine Finset.filter_congr fun i hi => ⟨fun hs => ⟨fun hmem => ?_, hs⟩, fun hs => hs.2⟩
      exact (Finset.mem_filter.1 hmem).2 (Or.inl hs)
    · by_contra hnot
      exact hP (Finset.mem_filter.2 ⟨Finset.mem_range.2 hi, hnot⟩)
    · exact absurd hd (Finset.mem_filter.1 hi).2

end Recounting

variable (hready : Ready p exact w₀)
include hready

/-- A recount of all places gives what the propagator has to know, and leaves the domains alone. -/
theorem yields_initialise {stop : Workspace Remark → Prop} :
    Yields me p.initialise w₀ (fun _ w' => Upheld p me exact A w₀ w' ∧ w'.domains = w₀.domains)
      stop := by
  refine (yields_initialise_recounts hready.wellFormed hready.sorted).imp fun _ w hw => ?_
  have htracks : p.Tracks w.domains.table (p.may w) (p.surely w) fun _ => False :=
    hw.domains_eq ▸ hw.tracks
  have hgrounded : p.Grounded w.domains.table := hw.domains_eq ▸ hready.grounded
  refine ⟨⟨⟨⟨?_, hw.evolves⟩, hw.value_eq, hw.places_eq, fun σ hσ _ => ?_⟩,
    htracks.accounts hgrounded, htracks.counts, fun _ => htracks.mono fun _ _ hf => hf.elim⟩,
    hw.domains_eq⟩
  · rw [hw.domains_eq]
    exact .refl
  · rwa [hw.domains_eq]

/-- A pass, from scratch or not. -/
theorem yields_pass {passes : Passes} (h : passes.full = true ∨ Knows p exact A w₀) :
    Yields me (p.pass me passes) w₀
      (fun _ w' => Upheld p me exact A w₀ w' ∧
        p.InBounds w'.domains.table (p.may w') (p.surely w')) (Refuted p me w₀) := by
  unfold pass
  split
  · refine yields_bind (Yields.mono (yields_initialise (A := A) hready) (fun _ w hw => ?_)
      fun _ hw => hw)
    exact yields_filter hready hw.1
  · next hnot =>
    have hknows := h.resolve_left hnot
    exact yields_filter hready ⟨Sound.refl hready.wellFormed, hknows⟩

end AmongPropagator

end Narrowing
