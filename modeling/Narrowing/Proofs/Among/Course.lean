import Narrowing.Proofs.Among.Knowledge

/-!
Runs with Among propagators. Whatever the caller does, an engine without a contradiction keeps all
propagators fresh or informed, and one with a contradiction has no solution left. Opening a
checkpoint puts down what the propagators know, so that a restore gives it back.
-/

namespace Narrowing.AmongPropagator

open Narrowing.Action Narrowing.Engine

/-- Which Among constraints may be added, under which name and to which domains. -/
abbrev Admission := PropagatorId → Among → Bool → Table DomainId Domain → Prop

/-- The caller adds Among propagators at the root only, and only such as `accepts` agrees to, of which
no scope has more places than a value can count, and never replaces one. If `settled`, checkpoints are
opened right after a fixed point only. -/
def amongRules (settled : Prop) (accepts : Admission) : Rules AmongPropagator where
  adds e p := e.level = 0 ∧ ∃ scope counter tracked backPropagates,
    p = posting scope counter tracked backPropagates ∧
    Among.Countable ⟨scope, counter, Ascending.ofList tracked⟩ ∧
    accepts e.propagators.nextKey ⟨scope, counter, Ascending.ofList tracked⟩ backPropagates
      e.domains.table
  marks m := settled → m.settled = true
  replaces := False

variable (exact : PropagatorId → Prop)

/-- The propagators are fresh or informed, or nothing is left to be known. -/
structure Sane (e : Engine AmongPropagator) : Prop extends Frame exact e where
  current : e.contradiction = none → ∀ j p, e.propagators.get? j = some p →
    Fresh e j p ∨ Informed exact e j p
  unsolvable : e.contradiction ≠ none → ∀ σ, ¬ Solves e σ

variable {exact} {e e' : Engine AmongPropagator} {j : PropagatorId} {p : AmongPropagator}

theorem Live.sane (h : Live exact e) : Sane exact e :=
  ⟨h.toFrame, fun _ => h.current, fun hc => absurd h.contradiction_eq hc⟩

theorem Sane.live (h : Sane exact e) (hc : e.contradiction = none) :
    Live exact e := ⟨h.toFrame, hc, h.current hc⟩

/-- A domain is added. -/
theorem Sane.grown (h : Sane exact e) {d : Domain} (hd : d.WellFormed) :
    Sane exact (e.grown d) := by
  have hext : ∀ id : DomainId, id.index < e.domains.table.size →
      (e.domains.table.push d).get? id = e.domains.table.get? id :=
    fun _ hid => Table.get?_push_of_lt _ _ hid
  refine ⟨h.toFrame.grown hd, fun hc i q hq => ?_, fun hc σ hσ => ?_⟩
  · have hg := (h.placed i q hq).grounded
    refine (h.current hc i q hq).imp (fun hf => ⟨hf.asks, hf.may_eq⟩) fun hi => ?_
    exact ⟨⟨hi.accounts.further hext, hi.counts, fun he => (hi.tracks he).further hg hext⟩,
      fun he => (hi.bounded he).imp_left fun hin => hin.further hg hext⟩
  · exact h.unsolvable hc σ ⟨Among.admits_of_further hext hσ.1, hσ.2⟩

/-- A decision is taken. -/
theorem Sane.narrowed (h : Sane exact e) {B : DomainId → Prop} {cause : Cause}
    {domains : Domains} (hn : Domains.Narrows B cause e.domains domains) :
    Sane exact { e with domains } := by
  have hn := hn.mono fun _ _ => trivial
  refine ⟨h.toFrame.worked (w := ⟨domains, e.cells, e.journal⟩)
    ⟨hn, .refl h.consistent.workspace.cells⟩, fun hc i q hq => ?_, fun hc σ hσ => ?_⟩
  · refine (h.current hc i q hq).imp (fun hf => ⟨hf.asks, hf.may_eq⟩) fun hi => ?_
    exact hi.worked (w := ⟨domains, e.cells, e.journal⟩) h.consistent (h.placed i q hq) hn rfl rfl
  · exact h.unsolvable hc σ ⟨hn.admits h.consistent.workspace.table hσ.1, hσ.2⟩

theorem Sane.requested (h : Sane exact e) (id : PropagatorId) (priority : Priority)
    (passes : Passes) :
    Sane exact { e with agenda := e.agenda.request id priority passes } :=
  ⟨h.toFrame.requested id priority passes, fun hc i q hq => (h.current hc i q hq).imp
    (fun hf => hf.requested id priority passes) fun hi => hi.requested id priority passes,
    h.unsolvable⟩

/-! ### Propagators that join -/

theorem watched_eq (x : Variable) {events : EventSet} (h : events ≠ ∅) :
    x.watched events = some (x.base, if x = .domain x.base then events else .all) := by
  induction x generalizing events with
  | domain id => simp [Variable.watched, Variable.base]
  | abs x ih =>
      have hnot : ¬ events.isEmpty = true := fun he => h (EventSet.isEmpty_iff.1 he)
      rw [Variable.watched, if_neg hnot, ih (by decide)]
      simp [Variable.base]

theorem all_ne_empty : EventSet.all ≠ ∅ := by decide

theorem bounds_ne_empty : EventSet.assignAndBounds ≠ ∅ := by decide

/-- A watched scope and counter are heard of. -/
theorem hears_of_watched {n n' : Notifier} {id : PropagatorId} {scope : List Variable}
    {counter : Variable} {tracked : List Int} {backPropagates : Bool}
    (h : Watched n n' id (posting scope counter tracked backPropagates).interests) :
    (∀ i < scope.length, n'.Hears ⟨id, i⟩ (scope.getD i counter).base .all) ∧
      counter.base.index < n'.watches.size ∧
      (counter ≠ .domain counter.base → n'.Hears ⟨id, scope.length⟩ counter.base .all) := by
  refine ⟨fun i hi => ?_, ?_, fun hview => ?_⟩
  · have hmem : (⟨scope.getD i counter, .all, i⟩ : Interest) ∈
        (posting scope counter tracked backPropagates).interests := by
      refine List.mem_append_left _ (List.mem_map.2 ⟨(scope[i], i), ?_, ?_⟩)
      · exact List.mem_zipIdx_iff_getElem?.2 (List.getElem?_eq_getElem hi)
      · rw [List.getD_eq_getElem _ _ hi]
    refine h.listens _ hmem _ _ ((watched_eq _ all_ne_empty).trans ?_)
    rw [ite_self]
  · have hcounter := h.listens ⟨counter, .assignAndBounds, scope.length⟩
      (List.mem_append_right _ (List.mem_singleton_self _)) _ _ (watched_eq _ bounds_ne_empty)
    exact hcounter.lt_size
  · have hcounter := h.listens ⟨counter, .assignAndBounds, scope.length⟩
      (List.mem_append_right _ (List.mem_singleton_self _)) _ _ (watched_eq _ bounds_ne_empty)
    rwa [if_neg hview] at hcounter

/-- The cells of a propagator that joins hold nothing, and no other cell changes. -/
theorem contents_joined (e : Engine AmongPropagator) (n : Nat) :
    ((e.cells.newInteger 0).newSet n).contents.value = e.cells.contents.value ∧
      ((e.cells.newInteger 0).newSet n).contents.places = e.cells.contents.places ∧
      e.cells.contents.places ⟨e.cells.sets.size⟩ = ∅ := by
  refine ⟨?_, ?_, ?_⟩
  · rw [Cells.contents_newSet]
    exact Contents.value_push_zero e.cells.contents none
  · rw [Cells.contents_newSet]
    rfl
  · change (e.cells.sets.get? _).elim ∅ SwapSet.toFinset = ∅
    rw [(Table.get?_eq_none_iff _ _).2 (Nat.le_refl _)]
    rfl

/-- A propagator that joins is in its place. -/
theorem placed_joined (h : Consistent e) (hsize : e.cells.integers.size = e.propagators.size ∧
      e.cells.sets.size = e.propagators.size) {scope : List Variable} {counter : Variable}
    {tracked : List Int} {backPropagates : Bool} {notifier : Notifier}
    {journal : Array (Message (Propagator.Note AmongPropagator))}
    (hwatched : Watched e.notifier notifier e.propagators.nextKey
      (posting scope counter tracked backPropagates).interests)
    (hunblocked : exact e.propagators.nextKey → backPropagates = true →
      Among.Unblocked ⟨scope, counter, Ascending.ofList tracked⟩ e.domains.table) :
    Placed exact
      (e.joined (posting scope counter tracked backPropagates) notifier journal)
      e.propagators.nextKey ⟨⟨scope, counter, Ascending.ofList tracked⟩, ⟨e.cells.sets.size⟩,
        ⟨e.cells.integers.size⟩, backPropagates⟩ := by
  obtain ⟨hplaces, hcounter, hview⟩ := hears_of_watched hwatched
  have hwatches := hwatched.size_eq.trans h.watches_size
  refine ⟨congrArg CellId.mk hsize.1, congrArg SetId.mk hsize.2, Ascending.pairwise_ofList tracked,
    ⟨fun n hn => ?_, ?_⟩, hunblocked, fun _ => hplaces, fun _ => hview⟩
  · exact (hplaces n hn).lt_size.trans_eq hwatches
  · exact hcounter.trans_eq hwatches

theorem Sane.joined (h : Sane exact e) {scope : List Variable} {counter : Variable}
    {tracked : List Int} {backPropagates : Bool} {notifier : Notifier}
    {journal : Array (Message (Propagator.Note AmongPropagator))} (hroot : e.level = 0)
    (hwatched : Watched e.notifier notifier e.propagators.nextKey
      (posting scope counter tracked backPropagates).interests)
    (hcountable : Among.Countable ⟨scope, counter, Ascending.ofList tracked⟩)
    (hunblocked : exact e.propagators.nextKey → backPropagates = true →
      Among.Unblocked ⟨scope, counter, Ascending.ofList tracked⟩ e.domains.table) :
    Sane exact (e.joined (posting scope counter tracked backPropagates) notifier journal) := by
  set e' := e.joined (posting scope counter tracked backPropagates) notifier journal with he'
  set made : AmongPropagator := ⟨⟨scope, counter, Ascending.ofList tracked⟩,
    ⟨e.cells.sets.size⟩, ⟨e.cells.integers.size⟩, backPropagates⟩ with hmade
  obtain ⟨hvalue, hmay, hempty⟩ := contents_joined e scope.length
  have hget : ∀ i q, e'.propagators.get? i = some q →
      e.propagators.get? i = some q ∨ (i = e.propagators.nextKey ∧ q = made) := fun i q hq =>
    (Table.eq_or_of_get?_push hq).imp_left And.right
  have hframe : Frame exact e' := by
    refine ⟨h.consistent.joined hwatched, fun i q hq => ?_, fun i q hq => ?_, ⟨?_, ?_⟩,
      fun he => hwatched.skipsOwn_eq.trans (h.delivers he), ?_, h.unreported_ne,
      fun k hk => absurd (hk.trans_eq hroot) (Nat.not_lt_zero k)⟩
    · rcases hget i q hq with hold | ⟨rfl, rfl⟩
      · exact (h.placed i q hold).further (f := e') (fun _ _ => rfl) (Nat.le_refl _) hwatched.hears
      · exact placed_joined h.consistent h.size_eq hwatched hunblocked
    · rcases hget i q hq with hold | ⟨rfl, rfl⟩
      · exact h.countable i q hold
      · exact hcountable
    · change (e.cells.integers.push _).size = (e.propagators.push _).size
      rw [Table.size_push, Table.size_push, h.size_eq.1]
    · change (e.cells.sets.push _).size = (e.propagators.push _).size
      rw [Table.size_push, Table.size_push, h.size_eq.2]
    · intro x hx
      change x ∈ notifier.pending.entries at hx
      rw [hwatched.pending_eq] at hx
      exact h.pending_ne x hx
  refine ⟨hframe, fun hc i q hq => ?_, fun hc σ hσ => ?_⟩
  · rcases hget i q hq with hold | ⟨rfl, rfl⟩
    · have hmay' : q.may e'.toWorkspace = q.may e.toWorkspace := congrFun hmay _
      have hsurely' : q.surely e'.toWorkspace = q.surely e.toWorkspace := congrFun hvalue _
      refine (h.current hc i q hold).imp (fun hf => ?_) fun hi => ?_
      · exact ⟨hf.asks.request _ _ _, hmay'.trans hf.may_eq⟩
      · refine hi.carried rfl hmay' hsurely' (fun k hk => ?_) fun hasks => hasks.request _ _ _
        unfold Pends
        change _ ∈ notifier.pending.keys
        rw [hwatched.pending_eq]
        exact hk
    · exact Or.inl ⟨Agenda.asks_request _ _ _ _, (congrFun hmay _).trans hempty⟩
  · refine h.unsolvable hc σ ⟨hσ.1, fun i q hq => hσ.2 i q ?_⟩
    exact (Table.get?_push_of_lt _ _ (Table.lt_size_of_get? hq)).trans hq

/-! ### Propagation -/

theorem Sane.settle (h : Sane exact e) {r : Except Contradiction Unit}
    (hs : Engine.settle e = .ok r e') : Sane exact e' := by
  cases hc : e.contradiction with
  | some c =>
      rw [settle_of_contradiction hc] at hs
      obtain ⟨-, rfl⟩ := EStateM.Result.ok.inj hs
      exact h
  | none =>
      have hstart : Since exact e e := ⟨h.live hc, rfl, fun σ hσ => hσ.1⟩
      rcases (closed_since e).settle_eq_ok hstart hc hs with ⟨-, h', -⟩ | ⟨c, broken, -, rfl, h'⟩
      · exact h'.toLive.sane
      · exact ⟨h'.toFrame.failed c, fun hc' => (nomatch hc'), fun _ σ hσ => h'.unsolvable σ hσ⟩

/-! ### Checkpoints -/

/-- What is put down when a checkpoint is opened. -/
theorem Informed.held (h : Informed exact e j p) (hplaced : Placed exact e j p)
    (hrequests : e.agenda.requests = []) (hidle : exact j → e.Idle) :
    Held (exact j) e.domains.table e.cells.contents p where
  unblocked := hplaced.unblocked
  accounts := h.accounts
  counts := h.counts
  tracks he := (h.tracks he).mono fun i _ haw => by
    rcases haw with hpends | ⟨o, ho, -⟩
    · unfold Pends Backlog.keys at hpends
      rw [(hidle he).pending] at hpends
      exact nomatch hpends
    · rw [(hidle he).unreported] at ho
      exact nomatch ho
  inBounds he := by
    refine (h.bounded he).resolve_right ?_
    rintro (hasks | ⟨-, hpends | ⟨o, ho, -⟩⟩)
    · exact hasks.of_empty hrequests
    · unfold Pends Backlog.keys at hpends
      rw [(hidle he).pending] at hpends
      exact nomatch hpends
    · rw [(hidle he).unreported] at ho
      exact nomatch ho

theorem Sane.entered (h : Sane exact e) (hrequests : e.agenda.requests = [])
    (hc : e.contradiction = none) (hidle : ∀ {j}, exact j → e.Idle)
    (journal : Array (Message (Propagator.Note AmongPropagator))) :
    Sane exact (e.entered journal) := by
  have hinformed : ∀ i q, e.propagators.get? i = some q → Informed exact e i q := fun i q hq =>
    (h.current hc i q hq).resolve_left fun hf => hf.asks.of_empty hrequests
  have hframe : Frame exact (e.entered journal) := by
    refine ⟨h.consistent.marked journal, fun i q hq => ?_, h.countable, h.size_eq, h.delivers,
      h.pending_ne, h.unreported_ne, fun k hk i q hq => ?_⟩
    · exact (h.placed i q hq).further (f := e.entered journal) (fun _ _ => rfl) (Nat.le_refl _)
        fun _ _ _ hl => hl
    · have hk : k ≤ e.domains.level := Nat.le_of_lt_succ (hk.trans_eq (Domains.level_mark _))
      have hk' : k ≤ e.cells.level := hk.trans_eq h.consistent.workspace.level_eq.symm
      change Held (exact i) (e.domains.mark.past k) (e.cells.mark.past k) q
      rw [Domains.past_mark _ hk, Cells.past_mark _ hk']
      rcases Nat.lt_or_eq_of_le hk with hlt | rfl
      · exact h.held k hlt i q hq
      · have hcells : e.cells.past e.domains.level = e.cells.contents := by
          rw [← h.consistent.workspace.level_eq, Cells.past_level]
        rw [Domains.past_level, hcells]
        exact (hinformed i q hq).held (h.placed i q hq) hrequests hidle
  refine Live.sane ⟨hframe, hc, fun i q hq => Or.inr ?_⟩
  have hi := hinformed i q hq
  exact ⟨⟨hi.accounts, hi.counts, hi.tracks⟩, hi.bounded⟩

/-- A restore leaves a propagator in its place. -/
theorem Placed.rewound (h : Placed exact e j p) {k : Nat} {domains : Domains}
    {cells : Cells} {journal : Array (Message (Propagator.Note AmongPropagator))}
    (hdomains : e.domains.rewind k = .ok domains)
    (hunblocked : exact j → p.backPropagates = true → p.Unblocked domains.table) :
    Placed exact (e.rewound domains cells journal) j p := by
  obtain ⟨-, htable, -, -⟩ := Domains.rewind_eq_ok hdomains
  have hsize : domains.table.size = e.domains.table.size := by
    rw [htable, Domains.size_past]
  exact ⟨h.sure_eq, h.possible_eq, h.sorted,
    ⟨fun n hn => (h.grounded.place_lt n hn).trans_eq hsize.symm,
      h.grounded.counter_lt.trans_eq hsize.symm⟩,
    hunblocked, h.hears_place, h.hears_counter⟩

/-- A restore gives back what was put down. -/
theorem Sane.rewound (h : Sane exact e) {k : Nat} {domains : Domains} {cells : Cells}
    {journal : Array (Message (Propagator.Note AmongPropagator))}
    (hdomains : e.domains.rewind k = .ok domains) (hcells : e.cells.rewind k = .ok cells) :
    Sane exact (e.rewound domains cells journal) := by
  obtain ⟨hk, htable, htrail, hunreported⟩ := Domains.rewind_eq_ok hdomains
  obtain ⟨-, -, -, hcontents, hsizes, hpasts⟩ :=
    Cells.rewind_eq_ok h.consistent.workspace.cells hcells
  have hheld : ∀ i q, e.propagators.get? i = some q →
      Held (exact i) domains.table cells.contents q := by
    intro i q hq
    rw [htable, hcontents]
    exact h.held k hk i q hq
  have hframe : Frame exact (e.rewound domains cells journal) := by
    refine ⟨h.consistent.rewound hdomains hcells, fun i q hq => ?_, h.countable,
      ⟨hsizes.1.trans h.size_eq.1, hsizes.2.trans h.size_eq.2⟩, h.delivers, fun _ hx => (nomatch hx),
      fun o ho => ?_, fun n hn i q hq => ?_⟩
    · exact (h.placed i q hq).rewound hdomains (hheld i q hq).unblocked
    · have ho : o ∈ domains.unreported.toList := ho
      rw [hunreported] at ho
      exact nomatch ho
    · have hlevel : domains.level = k := by
        rw [Domains.level, htrail, Trail.level_below _ (Nat.le_of_lt hk)]
      have hn : n < k := hn.trans_eq hlevel
      change Held (exact i) (domains.past n) (cells.past n) q
      rw [Domains.past_of_rewind hdomains (Nat.le_of_lt hn), hpasts n (Nat.le_of_lt hn)]
      exact h.held n (hn.trans hk) i q hq
  refine Live.sane ⟨hframe, rfl, fun i q hq => Or.inr ?_⟩
  have hi := hheld i q hq
  exact ⟨⟨hi.accounts, hi.counts, fun he => (hi.tracks he).mono fun _ _ hf => hf.elim⟩,
    fun he => Or.inl (hi.inBounds he)⟩

/-! ### Runs -/

theorem sane_init {skipsOwn : Bool} (hdelivers : ∀ {j}, exact j → skipsOwn = false) :
    Sane exact (init skipsOwn) := by
  have hnone : ∀ j p, (init skipsOwn : Engine AmongPropagator).propagators.get? j = some p → False :=
    fun j p hp => Nat.not_lt_zero _ (Table.lt_size_of_get? hp)
  refine ⟨⟨consistent_init skipsOwn, fun j p hp => (hnone j p hp).elim,
    fun j p hp => (hnone j p hp).elim, ⟨rfl, rfl⟩, hdelivers,
    fun _ hx => (nomatch hx), fun _ ho => (nomatch ho), fun k hk => absurd hk (Nat.not_lt_zero k)⟩,
    fun _ j p hp => (hnone j p hp).elim, fun hc => absurd rfl hc⟩

/-- What the rules have to see to: below no propagator in `exact` an interval keeps a gap. -/
def Admissible (exact : PropagatorId → Prop) (accepts : Admission) : Prop :=
  ∀ j c backPropagates t, accepts j c backPropagates t → exact j → backPropagates = true →
    c.Unblocked t

/-- Whatever the caller does, the propagators know what they have to. -/
theorem sane_of_reached {settled : Prop} {accepts : Admission} {skipsOwn : Bool}
    (haccepts : Admissible exact accepts) (hdelivers : ∀ {j}, exact j → skipsOwn = false)
    (hsettled : ∀ {j}, exact j → settled) {m : Moment AmongPropagator}
    (h : Reached (amongRules settled accepts) skipsOwn m) : Sane exact m.engine := by
  induction h with
  | refl => exact sane_init hdelivers
  | @step m' move settled e' hleads hrange hpermit hplay ih =>
      have hidle := (hleads.consistent ⟨consistent_init skipsOwn, fun hs => (nomatch hs)⟩).2
      have ho := outcome_of_play ih.consistent.workspace.table hplay
      cases ho with
      | unchanged => exact ih
      | grown hd => exact ih.grown (hd hrange)
      | joined hwatched =>
          obtain ⟨hroot, scope, counter, tracked, back, rfl, hcountable, haccept⟩ := hpermit
          exact ih.joined hroot hwatched hcountable (haccepts _ _ _ _ haccept)
      | constrained hroot hwatched hsettle =>
          obtain ⟨-, scope, counter, tracked, back, rfl, hcountable, haccept⟩ := hpermit hroot
          exact (ih.joined hroot hwatched hcountable (haccepts _ _ _ _ haccept)).settle hsettle
      | replaced => exact hpermit.elim
      | narrowed hn => exact ih.narrowed hn
      | forced _ => exact ih.requested _ _ _
      | settled hsettle => exact ih.settle hsettle
      | marked hrequests _ hc =>
          exact ih.entered (requests_eq_nil ih.consistent hrequests) hc
            (fun he => hidle (hpermit (hsettled he))) _
      | rewound hdomains hcells => exact ih.rewound hdomains hcells

/-! ### A small run -/

/-- A variable from `-1` to `2` and a counter from `0` to `2`. -/
def twoVariables : Moment AmongPropagator :=
  (Moment.mk (init false) false |>.after (.newEnumerated (-1) 2)).after (.newInterval 0 2)

/-- The counter counts how often the variable and its absolute value are `1`; after a fixed point and
a checkpoint, the caller decides that this is so twice. -/
def countedTwice : Moment AmongPropagator :=
  (twoVariables.after
    (.add (posting [.domain ⟨0⟩, .abs (.domain ⟨0⟩)] (.domain ⟨1⟩) [1] true))).after .settle
    |>.after .newCheckpoint |>.after (.impose (.domain ⟨1⟩) (.atLeast 2))

theorem reached_countedTwice {settled : Prop} {accepts : Admission}
    (h : accepts ⟨0⟩ ⟨[.domain ⟨0⟩, .abs (.domain ⟨0⟩)], .domain ⟨1⟩, Ascending.ofList [1]⟩ true
      twoVariables.engine.domains.table) :
    Reached (amongRules settled accepts) false countedTwice := by
  have hstart : Reached (amongRules settled accepts) false ⟨init false, false⟩ := .refl
  have hfirst := hstart.after (.newEnumerated (-1) 2) (by decide) trivial (by decide +kernel)
  have hvariables : Reached (amongRules settled accepts) false twoVariables :=
    hfirst.after (.newInterval 0 2) (by decide) trivial (by decide +kernel)
  have hadded := hvariables.after
    (.add (posting [.domain ⟨0⟩, .abs (.domain ⟨0⟩)] (.domain ⟨1⟩) [1] true)) trivial
    ⟨by decide +kernel, _, _, _, _, rfl, by decide, h⟩ (by decide +kernel)
  have hsettled := hadded.after .settle trivial trivial (by decide +kernel)
  have hentered := hsettled.after .newCheckpoint trivial (fun _ => by decide +kernel)
    (by decide +kernel)
  exact hentered.after (.impose (.domain ⟨1⟩) (.atLeast 2)) trivial trivial (by decide +kernel)

theorem settle_countedTwice :
    settle countedTwice.engine = .ok (.ok ()) (countedTwice.after .settle).engine :=
  Moment.settle_eq_ok (by decide +kernel) (by decide +kernel)

end Narrowing.AmongPropagator
