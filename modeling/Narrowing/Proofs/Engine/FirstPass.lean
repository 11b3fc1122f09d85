import Narrowing.Among.Propagator
import Narrowing.Proofs.Engine.Termination

/-!
First passes. A propagator is added together with a request of a pass from scratch, and what it
reads later are the cells that this pass wrote. A restore drops requests and undoes writes, and
leaves the propagator where it is. The annals of a run keep the requests and the passes from scratch
that no restore has undone: such a request was met at the level at which it was made, or waits to be
met there, as long as there is no contradiction. A propagator therefore takes up changes only on
cells that a pass from scratch has written, unless the level at which it was added was left by a
restore; the root is never left.
-/

namespace Narrowing.Engine

variable {P : Type} [Propagator P] {e e' : Engine P} {j : PropagatorId} {task : Task}
  {tasks : List Task}

/-! ### What rounds carry out -/

/-- The propagator of which the task is a pass from scratch. -/
def Task.fullPass? : Task → Option PropagatorId
  | .notify _ _ => none
  | .pass r => if r.passes.full then some r.propagator else none

/-- The tasks that rounds carry out, in their order; at most `n` of them. -/
def carriedOut : Nat → Engine P → List Task
  | 0, _ => []
  | n + 1, e =>
    match Engine.round e, e.upcoming with
    | .ok true e', some (task, _) => task :: carriedOut n e'
    | _, _ => []

/-- The tasks that propagation carries out. -/
def settleTasks (e : Engine P) : List Task :=
  if e.contradiction.isSome then [] else carriedOut e.roundBound e

/-- What rounds carry out is a course of them, and where they come to an end it cannot go on. -/
theorem proceeds_carriedOut (n : Nat) (e : Engine P) : ∃ e₁, Proceeds e (carriedOut n e) e₁ ∧
    ∀ u e', rounds n e = .ok u e' → Engine.round e₁ = .ok false e' := by
  induction n generalizing e with
  | zero =>
      refine ⟨e, .refl, fun u e' h => ?_⟩
      cases h
  | succ n ih =>
      rw [rounds, carriedOut]
      cases hround : Engine.round e with
      | error stop e₂ =>
          refine ⟨e, .refl, fun u e' h => ?_⟩
          rw [bind_of_error hround] at h
          cases h
      | ok more e₂ =>
          rw [bind_of_ok hround]
          cases more with
          | false =>
              refine ⟨e, .refl, fun u e' h => ?_⟩
              cases h
              exact hround
          | true =>
              obtain ⟨task, taken, htask⟩ := exists_upcoming hround
              obtain ⟨e₁, hproceeds, hlast⟩ := ih e₂
              rw [htask]
              exact ⟨e₁, hproceeds.head htask hround, hlast⟩

theorem carriedOut_eq_cons {n : Nat} (h : carriedOut (n + 1) e = task :: tasks) :
    ∃ taken e₁, e.upcoming = some (task, taken) ∧ Engine.round e = .ok true e₁ ∧
      carriedOut n e₁ = tasks := by
  rw [carriedOut] at h
  split at h
  · next e₁ task' taken hround htask =>
    obtain ⟨rfl, htasks⟩ := List.cons.inj h
    exact ⟨taken, e₁, htask, hround, htasks⟩
  · exact nomatch h

/-- A pass from scratch that is requested stays so until a round makes it. -/
theorem ends_round_asks (h : Consistent e) (hasks : e.agenda.Asks j .fromScratch) :
    Ends round e (fun more e' => more = true ∧
      ((∃ task taken, e.upcoming = some (task, taken) ∧ task.fullPass? = some j) ∨
        e'.agenda.Asks j .fromScratch)) (Stopped fun _ => True) := by
  refine ends_round_of fun e₁ notices hn he₁ => ⟨fun l events rest p _ _ => ?_,
    fun r rest p hpending hrequests _ => ?_, fun _ hrequests => ?_⟩
  all_goals have hasks₁ : e₁.agenda.Asks j .fromScratch := he₁ ▸ hasks
  · refine .of_all (fun response w => ⟨rfl, Or.inr ?_⟩) fun _ => trivial
    cases response with
    | skip => exact hasks₁
    | enqueue => exact hasks₁.request _ _ _
  · refine .of_all (fun _ w => ⟨rfl, ?_⟩) fun _ => trivial
    by_cases hr : r.propagator = j
    · refine Or.inl ⟨.pass r, e₁.met rest, ?_, ?_⟩
      · rw [upcoming_of_told hn, ← he₁]
        exact due_of_requests hpending hrequests
      · have hnodup : (e₁.agenda.requests.map Request.propagator).Nodup := he₁ ▸ h.nodup
        rw [Task.fullPass?, if_pos (Agenda.full_of_covers (hasks₁.met hnodup hrequests hr)), hr]
    · exact Or.inr (hasks₁.remains hrequests hr _)
  · exact absurd hrequests hasks₁.of_empty

theorem Proceeds.asks (hp : Proceeds e tasks e') (h : Consistent e)
    (hasks : e.agenda.Asks j .fromScratch) :
    (∃ task ∈ tasks, task.fullPass? = some j) ∨ e'.agenda.Asks j .fromScratch := by
  induction hp with
  | refl => exact Or.inr hasks
  | round hp htask hround ih =>
      rcases ih with ⟨task, hmem, hfull⟩ | hasks₁
      · exact Or.inl ⟨task, List.mem_append_left _ hmem, hfull⟩
      · have hconsistent := (hp.length_add_effort_le h).1
        rcases ((ends_round_asks hconsistent hasks₁).of_ok hround).2 with
          ⟨task', taken', htask', hfull⟩ | hasks₂
        · rw [htask] at htask'
          obtain ⟨rfl, -⟩ := Prod.mk.inj (Option.some.inj htask')
          exact Or.inl ⟨_, List.mem_append_right _ List.mem_cons_self, hfull⟩
        · exact Or.inr hasks₂

/-- Propagation makes every pass from scratch that is requested, or comes to a contradiction. -/
theorem settle_asks (h : Consistent e) (hasks : e.agenda.Asks j .fromScratch)
    {r : Except Contradiction Unit} (hs : settle e = .ok r e') :
    (∃ task ∈ e.settleTasks, task.fullPass? = some j) ∨ e'.contradiction ≠ none := by
  cases hc : e.contradiction with
  | some c =>
      rw [settle_of_contradiction hc] at hs
      obtain ⟨-, rfl⟩ := EStateM.Result.ok.inj hs
      exact Or.inr fun hnone => nomatch hc.symm.trans hnone
  | none =>
      obtain ⟨e₁, hproceeds, hlast⟩ := proceeds_carriedOut e.roundBound e
      have htasks : e.settleTasks = carriedOut e.roundBound e := by
        rw [settleTasks, hc]
        rfl
      unfold settle at hs
      rw [hc] at hs
      dsimp only at hs
      cases hr : rounds e.roundBound e with
      | ok u e₂ =>
          rcases hproceeds.asks h hasks with hmade | hasks₁
          · exact Or.inl (htasks ▸ hmade)
          · have hconsistent := (hproceeds.length_add_effort_le h).1
            exact nomatch ((ends_round_asks hconsistent hasks₁).of_ok (hlast u e₂ hr)).1
      | error stop e₂ =>
          rw [hr] at hs
          cases stop with
          | contradiction c =>
              obtain ⟨-, rfl⟩ := EStateM.Result.ok.inj hs
              exact Or.inr fun hnone => nomatch hnone
          | fault f => exact nomatch hs

/-- `e` came from `e₀` by propagation. -/
structure Stays (e₀ e : Engine P) : Prop where
  consistent : Consistent e
  level_eq : e.level = e₀.level
  propagators_eq : e.propagators = e₀.propagators

theorem Stays.worked {e₀ : Engine P} (h : Stays e₀ e) {cause : Cause}
    {w : Workspace (Propagator.Note P)} (hp : Workspace.Progress cause e.toWorkspace w) :
    Stays e₀ (e.worked w) :=
  ⟨h.consistent.worked hp, (congrArg List.length hp.narrows.trail_eq.2).trans h.level_eq,
    h.propagators_eq⟩

theorem closed_stays (e₀ : Engine P) : Closed (Stays e₀) (Stays e₀) := by
  refine ⟨fun h _ => ⟨h.consistent.told _, h.level_eq, h.propagators_eq⟩, ?_, ?_⟩
  · intro e l events rest p h _ _ _
    have hd : Stays e₀ (e.delivered rest) :=
      ⟨h.consistent.delivered rest, h.level_eq, h.propagators_eq⟩
    refine (Action.progress _ h.consistent.workspace).mono (fun response w hp => ?_)
      fun _ w hp _ _ => hd.worked hp
    have hw := hd.worked hp
    cases response with
    | skip => exact hw
    | enqueue => exact ⟨hw.consistent.requested _ _ _, hw.level_eq, hw.propagators_eq⟩
  · intro e r rest p h _ hr _
    have hm : Stays e₀ (e.met rest) := ⟨h.consistent.met hr, h.level_eq, h.propagators_eq⟩
    exact (Action.progress _ h.consistent.workspace).mono (fun _ w hp => hm.worked hp)
      fun _ w hp _ _ => hm.worked hp

theorem Stays.of_settle (h : Consistent e) {r : Except Contradiction Unit}
    (hs : settle e = .ok r e') : Stays e e' :=
  (closed_stays e).settle (fun c h => ⟨h.consistent.failed c, h.level_eq, h.propagators_eq⟩)
    ⟨h, rfl, rfl⟩ hs

/-! ### The annals of a run -/

/-- The requests of passes from scratch, and the passes from scratch that were made, each with the
level at which it happened. -/
structure Annals where
  requested : List (PropagatorId × Nat) := []
  made : List (PropagatorId × Nat) := []

namespace Annals

/-- What happened at level `k` or below; a restore to that level undoes the rest. -/
def upTo (a : Annals) (k : Nat) : Annals where
  requested := a.requested.filter (·.2 ≤ k)
  made := a.made.filter (·.2 ≤ k)

/-- Take down what happens at a level. -/
def enter (a : Annals) (level : Nat) (requests : List PropagatorId) (tasks : List Task) :
    Annals where
  requested := requests.map (·, level) ++ a.requested
  made := (tasks.filterMap Task.fullPass?).map (·, level) ++ a.made

variable {a : Annals} {l level k : Nat} {requests : List PropagatorId}

theorem mem_requested_enter : (j, l) ∈ (a.enter level requests tasks).requested ↔
    (j ∈ requests ∧ l = level) ∨ (j, l) ∈ a.requested := by
  simp [enter, eq_comm]

theorem mem_made_enter : (j, l) ∈ (a.enter level requests tasks).made ↔
    ((∃ task ∈ tasks, task.fullPass? = some j) ∧ l = level) ∨ (j, l) ∈ a.made := by
  simp [enter, eq_comm]

theorem mem_requested_upTo : (j, l) ∈ (a.upTo k).requested ↔ (j, l) ∈ a.requested ∧ l ≤ k := by
  simp [upTo]

theorem mem_made_upTo : (j, l) ∈ (a.upTo k).made ↔ (j, l) ∈ a.made ∧ l ≤ k := by
  simp [upTo]

end Annals

/-- The propagators of which a move requests a pass from scratch. -/
def Move.requests (e : Engine P) : Move P → List PropagatorId
  | .add _ => [e.propagators.nextKey]
  | .addConstraint _ =>
    if e.level = 0 ∧ e.contradiction.isNone then [e.propagators.nextKey] else []
  | .forceFull id => [id]
  | _ => []

/-- The tasks that a move carries out. -/
def Move.carriedOut (e : Engine P) : Move P → List Task
  | .addConstraint p =>
    match Engine.add p e with
    | .ok _ added => if e.level = 0 ∧ e.contradiction.isNone then added.settleTasks else []
    | .error _ _ => []
  | .settle => e.settleTasks
  | _ => []

/-- The annals of a run that keeps to the rules. -/
inductive Recorded (rules : Rules P) (skipsOwn : Bool) : Moment P → Annals → Prop
  | start : Recorded rules skipsOwn ⟨init skipsOwn, false⟩ {}
  | step {m : Moment P} {annals : Annals} {move : Move P} {settled : Bool} {e : Engine P}
      (h : Recorded rules skipsOwn m annals) (hrange : move.InRange)
      (hpermit : rules.Permit m move) (hplay : move.play m.engine = .ok settled e) :
      Recorded rules skipsOwn ⟨e, settled⟩
        ((annals.enter m.engine.level (move.requests m.engine)
          (move.carriedOut m.engine)).upTo e.level)

/-- Every run has its annals. -/
theorem Reached.exists_recorded {rules : Rules P} {skipsOwn : Bool} {m : Moment P}
    (h : Reached rules skipsOwn m) : ∃ annals, Recorded rules skipsOwn m annals := by
  induction h with
  | refl => exact ⟨{}, .start⟩
  | step _ hrange hpermit hplay ih =>
      obtain ⟨annals, hannals⟩ := ih
      exact ⟨_, hannals.step hrange hpermit hplay⟩

/-! ### Requests are met -/

/-- A pass from scratch of `j` waits to be made, or a contradiction keeps propagation from it. -/
def Due (e : Engine P) (j : PropagatorId) : Prop :=
  e.contradiction ≠ none ∨ e.agenda.Asks j .fromScratch

/-- No pass from scratch gets lost: it is made, or goes on to be due at the same level. Only a
restore to an earlier level drops it. -/
theorem due_of_outcome {move : Move P} {settled : Bool} (h : Consistent e)
    (hmove : ∀ p, move ≠ .addConstraint p) (ho : Outcome e move settled e') (hdue : e.Due j)
    (hlevel : e.level ≤ e'.level) :
    (∃ task ∈ move.carriedOut e, task.fullPass? = some j) ∨ (e'.level = e.level ∧ e'.Due j) := by
  cases ho with
  | unchanged => exact Or.inr ⟨rfl, hdue⟩
  | grown _ => exact Or.inr ⟨rfl, hdue⟩
  | joined _ => exact Or.inr ⟨rfl, hdue.imp_right fun hasks => hasks.request _ _ _⟩
  | constrained => exact absurd rfl (hmove _)
  | replaced => exact Or.inr ⟨rfl, hdue⟩
  | narrowed hn => exact Or.inr ⟨congrArg List.length hn.trail_eq.2, hdue⟩
  | forced _ => exact Or.inr ⟨rfl, hdue.imp_right fun hasks => hasks.request _ _ _⟩
  | settled hsettle =>
      have hstays := Stays.of_settle h hsettle
      rcases hdue with hc | hasks
      · obtain ⟨c, hc'⟩ := Option.ne_none_iff_exists'.1 hc
        rw [settle_of_contradiction hc'] at hsettle
        obtain ⟨-, rfl⟩ := EStateM.Result.ok.inj hsettle
        exact Or.inr ⟨rfl, Or.inl hc⟩
      · exact (settle_asks h hasks hsettle).imp_right fun hc => ⟨hstays.level_eq, Or.inl hc⟩
  | marked hrequests _ hc =>
      rcases hdue with hdue | hasks
      · exact absurd hc hdue
      · exact absurd (requests_eq_nil h hrequests) hasks.of_empty
  | rewound hdomains _ =>
      obtain ⟨hk, -, htrail, -⟩ := Domains.rewind_eq_ok hdomains
      have hlevel' := (congrArg Trail.level htrail).trans (Trail.level_below _ (Nat.le_of_lt hk))
      exact absurd (hlevel.trans_eq hlevel') (Nat.not_le_of_lt hk)

/-- Unless it is refused, a constraint is added at the root, and propagated. -/
theorem addConstraint_of_play {p : Posting P} {settled : Bool}
    (h : Move.play (.addConstraint p) e = .ok settled e') :
    (¬ (e.level = 0 ∧ e.contradiction.isNone) ∧ e' = e) ∨
      ((e.level = 0 ∧ e.contradiction.isNone) ∧ ∃ notifier journal id r,
        Watched e.notifier notifier e.propagators.nextKey p.interests ∧
        Engine.add p e = .ok id (e.joined p notifier journal) ∧
        settle (e.joined p notifier journal) = .ok r e') := by
  have hends : Ends (Move.play (.addConstraint p)) e
      (fun _ e' => ∃ r, Engine.addConstraint p e = .ok r e') fun _ _ => True :=
    ends_self.bind fun r _ hr => ends_pure ⟨r, hr⟩
  obtain ⟨r, hr⟩ := hends.of_ok h
  rcases (ends_addConstraint p).of_ok hr with ⟨hnot, -, rfl⟩ | ⟨hroot, hc, id, e₁, r', hadd, hs, -⟩
  · exact Or.inl ⟨by simpa using hnot, rfl⟩
  · obtain ⟨notifier, journal, rfl, hwatched⟩ := (ends_add p).of_ok hadd
    exact Or.inr ⟨⟨hroot, by simp [hc]⟩, notifier, journal, id, r', hwatched, hadd, hs⟩

/-- A pass from scratch that is due, or that the move requests, is made or due afterwards, unless
the move is a restore to an earlier level. -/
theorem due_of_play {move : Move P} {settled : Bool} (h : Consistent e) (hrange : move.InRange)
    (hplay : move.play e = .ok settled e') (hdue : e.Due j ∨ j ∈ move.requests e)
    (hlevel : e.level ≤ e'.level) :
    (∃ task ∈ move.carriedOut e, task.fullPass? = some j) ∨ (e'.level = e.level ∧ e'.Due j) := by
  have ho := outcome_of_play h.workspace.table hplay
  cases move with
  | add p =>
      rcases hdue with hdue | hj
      · exact due_of_outcome h (fun _ => nofun) ho hdue hlevel
      · have hends : Ends (Move.play (.add p)) e (fun _ e' => e'.level = e.level ∧
            e'.agenda.Asks e.propagators.nextKey .fromScratch) fun _ _ => True := by
          refine (ends_add p).bind fun id e₁ h₁ => ends_pure ?_
          obtain ⟨notifier, journal, rfl, -⟩ := h₁
          exact ⟨rfl, Agenda.asks_request _ _ _ _⟩
        obtain ⟨hsame, hasks⟩ := hends.of_ok hplay
        exact Or.inr ⟨hsame, Or.inr (List.mem_singleton.1 hj ▸ hasks)⟩
  | forceFull id =>
      rcases hdue with hdue | hj
      · exact due_of_outcome h (fun _ => nofun) ho hdue hlevel
      · have hends : Ends (Move.play (.forceFull id)) e (fun _ e' => e'.level = e.level ∧
            e'.agenda.Asks id .fromScratch) fun _ _ => True :=
          ends_bind (ends_requestPass fun p _ => ends_pure ⟨rfl, Agenda.asks_request _ _ _ _⟩)
        obtain ⟨hsame, hasks⟩ := hends.of_ok hplay
        exact Or.inr ⟨hsame, Or.inr (List.mem_singleton.1 hj ▸ hasks)⟩
  | addConstraint p =>
      rcases addConstraint_of_play hplay with
        ⟨hnot, rfl⟩ | ⟨hopen, notifier, journal, id, r, hwatched, hadd, hs⟩
      · rw [Move.requests, if_neg hnot] at hdue
        exact Or.inr ⟨rfl, hdue.resolve_right List.not_mem_nil⟩
      · rw [Move.requests, if_pos hopen, List.mem_singleton] at hdue
        rw [Move.carriedOut, hadd]
        simp only [if_pos hopen]
        have hjoined : Consistent (e.joined p notifier journal) := h.joined hwatched
        refine (settle_asks hjoined ?_ hs).imp_right fun hc =>
          ⟨(Stays.of_settle hjoined hs).level_eq, Or.inl hc⟩
        rcases hdue with (hc | hasks) | rfl
        · exact absurd (Option.isNone_iff_eq_none.1 hopen.2) hc
        · exact hasks.request _ _ _
        · exact Agenda.asks_request _ _ _ _
  | _ => exact due_of_outcome h (fun _ => nofun) ho (hdue.resolve_right List.not_mem_nil) hlevel

/-- The annals account for every request in them. -/
structure Accounted (annals : Annals) (e : Engine P) : Prop where
  consistent : Consistent e
  met_or_due : ∀ j l, (j, l) ∈ annals.requested → (j, l) ∈ annals.made ∨ (l = e.level ∧ e.Due j)

theorem Accounted.play {annals : Annals} (h : Accounted annals e) {move : Move P} {settled : Bool}
    (hrange : move.InRange) (hplay : move.play e = .ok settled e') :
    Accounted ((annals.enter e.level (move.requests e) (move.carriedOut e)).upTo e'.level) e' := by
  refine ⟨h.consistent.outcome hrange (outcome_of_play h.consistent.workspace.table hplay),
    fun j l hrequested => ?_⟩
  obtain ⟨hrequested, hl⟩ := Annals.mem_requested_upTo.1 hrequested
  rw [Annals.mem_requested_enter] at hrequested
  rw [Annals.mem_made_upTo, Annals.mem_made_enter]
  have hcases : (j, l) ∈ annals.made ∨ (l = e.level ∧ (e.Due j ∨ j ∈ move.requests e)) := by
    rcases hrequested with ⟨hj, rfl⟩ | hrequested
    · exact Or.inr ⟨rfl, Or.inr hj⟩
    · exact (h.met_or_due j l hrequested).imp_right fun hdue => ⟨hdue.1, Or.inl hdue.2⟩
  rcases hcases with hmade | ⟨rfl, hdue⟩
  · exact Or.inl ⟨Or.inr hmade, hl⟩
  · rcases due_of_play h.consistent hrange hplay hdue hl with htask | ⟨hlevel, hdue'⟩
    · exact Or.inl ⟨Or.inl ⟨htask, rfl⟩, hl⟩
    · exact Or.inr ⟨hlevel.symm, hdue'⟩

theorem Recorded.accounted {rules : Rules P} {skipsOwn : Bool} {m : Moment P} {annals : Annals}
    (h : Recorded rules skipsOwn m annals) : Accounted annals m.engine := by
  induction h with
  | start => exact ⟨consistent_init skipsOwn, fun j l hj => nomatch hj⟩
  | step _ hrange _ hplay ih => exact ih.play hrange hplay

/-- A pass that only takes up changes is not made while one from scratch is due. -/
theorem fullPass_before {m : Engine P} (h : Consistent m) (hasks : m.agenda.Asks j .fromScratch)
    (hproceeds : Proceeds m tasks e) {r : Request} {taken : Engine P}
    (hpass : e.upcoming = some (.pass r, taken)) (hr : r.propagator = j)
    (hfull : r.passes.full = false) : ∃ task ∈ tasks, task.fullPass? = some j := by
  refine (hproceeds.asks h hasks).resolve_right fun hasks' => ?_
  obtain ⟨notices, rest, -, hrequests, -⟩ := eq_met_of_pass hpass
  have hnodup := (hproceeds.length_add_effort_le h).1.nodup
  exact nomatch (Agenda.full_of_covers (hasks'.met hnodup hrequests hr)).symm.trans hfull

/-! ### Propagators of the root -/

/-- No propagator is added but by a move that adds one. -/
theorem size_propagators {move : Move P} {settled : Bool} (h : Consistent e)
    (ho : Outcome e move settled e') (hadd : ∀ p, move ≠ .add p)
    (hconstraint : ∀ p, move ≠ .addConstraint p) : e'.propagators.size = e.propagators.size := by
  cases ho with
  | joined => exact absurd rfl (hadd _)
  | constrained => exact absurd rfl (hconstraint _)
  | replaced => exact Table.size_put _ _ _
  | settled hsettle => rw [(Stays.of_settle h hsettle).propagators_eq]
  | _ => rfl

theorem requested_of_new {rules : Rules P} (hroot : ∀ e p, rules.adds e p → e.level = 0)
    {m : Moment P} (h : Consistent m.engine) {move : Move P} {settled : Bool}
    (hrange : move.InRange) (hpermit : rules.Permit m move)
    (hplay : move.play m.engine = .ok settled e') {id : PropagatorId} {p : P}
    (hold : m.engine.propagators.get? id = none) (hnew : e'.propagators.get? id = some p) :
    m.engine.level = 0 ∧ id ∈ move.requests m.engine := by
  have hnext : ∀ q, (m.engine.propagators.push q).get? id = some p →
      id = m.engine.propagators.nextKey := fun q hq =>
    ((Table.eq_or_of_get?_push hq).resolve_left fun hkept => nomatch hold.symm.trans hkept.2).1
  have ho := outcome_of_play h.workspace.table hplay
  cases move with
  | add p' =>
      have hends : Ends (Move.play (.add p')) m.engine (fun _ e' =>
          ∃ q, e'.propagators = m.engine.propagators.push q) fun _ _ => True := by
        refine (ends_add p').bind fun _ e₁ h₁ => ends_pure ?_
        obtain ⟨notifier, journal, rfl, -⟩ := h₁
        exact ⟨_, rfl⟩
      obtain ⟨q, hq⟩ := hends.of_ok hplay
      exact ⟨hroot _ _ hpermit, List.mem_singleton.2 (hnext q (hq ▸ hnew))⟩
  | addConstraint p' =>
      rcases addConstraint_of_play hplay with
        ⟨-, rfl⟩ | ⟨hopen, notifier, journal, _, r, hwatched, -, hs⟩
      · exact nomatch hold.symm.trans hnew
      · have hstays := Stays.of_settle (h.joined hwatched) hs
        rw [Move.requests, if_pos hopen]
        exact ⟨hopen.1, List.mem_singleton.2 (hnext _ (hstays.propagators_eq ▸ hnew))⟩
  | _ =>
      have hsize := size_propagators h ho (fun _ => nofun) fun _ => nofun
      have hlt := Table.lt_size_of_get? hnew
      exact absurd (hlt.trans_eq hsize) (Nat.not_lt_of_le ((Table.get?_eq_none_iff _ id).1 hold))

/-- At the root a request is never undone. -/
theorem Recorded.requested_of_root {rules : Rules P} (hroot : ∀ e p, rules.adds e p → e.level = 0)
    {skipsOwn : Bool} {m : Moment P} {annals : Annals} (h : Recorded rules skipsOwn m annals) :
    ∀ id p, m.engine.propagators.get? id = some p → (id, 0) ∈ annals.requested := by
  induction h with
  | start => exact fun id p hp => absurd (Table.lt_size_of_get? hp) (Nat.not_lt_zero _)
  | @step m annals move settled e h hrange hpermit hplay ih =>
      intro id p hp
      rw [Annals.mem_requested_upTo, Annals.mem_requested_enter]
      refine ⟨?_, Nat.zero_le _⟩
      cases hold : m.engine.propagators.get? id with
      | some q => exact Or.inr (ih id q hold)
      | none =>
          obtain ⟨hlevel, hj⟩ :=
            requested_of_new hroot h.accounted.consistent hrange hpermit hplay hold hp
          exact Or.inl ⟨hj, hlevel.symm⟩

/-- **No propagator takes up changes on cells that no pass from scratch has written**, as far as no
restore has undone its being added. In the annals of a run, of which there are some for every run,
each request of a pass from scratch was met at its level, or is due. Propagation makes a pass that
only takes up changes after one from scratch that is in force, which the annals have or which was
made just before. And if propagators are added at the root only, then the annals have a request for
each of them. -/
theorem fullPass_in_force {rules : Rules P} {skipsOwn : Bool} {m : Moment P}
    (h : Reached rules skipsOwn m) :
    (∃ annals, Recorded rules skipsOwn m annals) ∧
      ∀ annals, Recorded rules skipsOwn m annals →
        (∀ j l, (j, l) ∈ annals.requested → (j, l) ∈ annals.made ∨
          m.engine.contradiction ≠ none ∨ m.engine.agenda.Asks j .fromScratch) ∧
        (m.engine.contradiction = none → ∀ tasks e r taken l, Proceeds m.engine tasks e →
          e.upcoming = some (.pass r, taken) → r.passes.full = false →
          (r.propagator, l) ∈ annals.requested →
          (r.propagator, l) ∈ (annals.enter m.engine.level [] tasks).made) ∧
        ((∀ e p, rules.adds e p → e.level = 0) →
          ∀ id p, m.engine.propagators.get? id = some p → (id, 0) ∈ annals.requested) := by
  refine ⟨h.exists_recorded, fun annals hannals => ⟨fun j l hj => ?_, ?_, ?_⟩⟩
  · exact (hannals.accounted.met_or_due j l hj).imp_right And.right
  · intro hc tasks e r taken l hproceeds hpass hfull hrequested
    rw [Annals.mem_made_enter]
    rcases hannals.accounted.met_or_due _ l hrequested with hmade | ⟨hl, hdue⟩
    · exact Or.inr hmade
    · have hasks := hdue.resolve_left fun hnot => hnot hc
      exact Or.inl
        ⟨fullPass_before hannals.accounted.consistent hasks hproceeds hpass rfl hfull, hl⟩
  · exact fun hroot => hannals.requested_of_root hroot

/-- The caller adds propagators at the root only. -/
def rootOnly : Rules P where
  adds e _ := e.level = 0

/-- A propagator was added and propagated at the root, and a decision was made at the next level. -/
def decidedAbove : Moment AmongPropagator :=
  (posted.after .settle |>.after .newCheckpoint).after (.impose (.domain ⟨0⟩) (.exactly 1))

/-- After the decision the propagator is told of both variables and makes a pass that takes this up.
Its first pass, which was made at the root, is in force. -/
theorem fullPass_in_force_of_decidedAbove :
    ∃ annals, Recorded rootOnly false decidedAbove annals ∧ (⟨0⟩, 0) ∈ annals.made ∧
      ∃ tasks e r taken, Proceeds decidedAbove.engine tasks e ∧
        e.upcoming = some (.pass r, taken) ∧ r.passes = .takingUp ∧
        (r.propagator, 0) ∈ (annals.enter 1 [] tasks).made := by
  have hposted : Reached rootOnly false posted := reached_posted fun _ _ => id
  have hsettled := hposted.after .settle trivial trivial (by decide +kernel)
  have hentered := hsettled.after .newCheckpoint trivial trivial (by decide +kernel)
  have hreached : Reached rootOnly false decidedAbove :=
    hentered.after (.impose (.domain ⟨0⟩) (.exactly 1)) trivial trivial (by decide +kernel)
  have hc : decidedAbove.engine.contradiction = none := by decide +kernel
  obtain ⟨⟨annals, hannals⟩, hall⟩ := fullPass_in_force hreached
  obtain ⟨hmet, hincremental, hrequested⟩ := hall annals hannals
  obtain ⟨p, hp⟩ := Option.isSome_iff_exists.1
    (show (decidedAbove.engine.propagators.get? ⟨0⟩).isSome = true by decide +kernel)
  have hrequested : (⟨0⟩, 0) ∈ annals.requested := hrequested (fun _ _ => id) ⟨0⟩ p hp
  have hnothing : decidedAbove.engine.agenda.requests = [] := by decide +kernel
  have htasks : carriedOut 3 decidedAbove.engine =
      [.notify ⟨⟨0⟩, 0⟩ ⟨true, false, true, false⟩, .notify ⟨⟨0⟩, 1⟩ ⟨true, true, false, false⟩,
        .pass ⟨⟨0⟩, .low, .takingUp⟩] := by decide +kernel
  obtain ⟨taken₁, e₁, htask₁, hround₁, hrest⟩ := carriedOut_eq_cons htasks
  obtain ⟨taken₂, e₂, htask₂, hround₂, hrest⟩ := carriedOut_eq_cons hrest
  obtain ⟨taken₃, e₃, htask₃, -, -⟩ := carriedOut_eq_cons hrest
  have hproceeds := (Proceeds.refl.round htask₁ hround₁).round htask₂ hround₂
  refine ⟨annals, hannals, ?_, _, e₂, _, taken₃, hproceeds, htask₃, rfl, ?_⟩
  · rcases hmet ⟨0⟩ 0 hrequested with hmade | hcontradiction | hasks
    · exact hmade
    · exact absurd hc hcontradiction
    · exact absurd hnothing hasks.of_empty
  · exact hincremental hc _ e₂ _ taken₃ 0 hproceeds htask₃ rfl hrequested

/-- A restore below the level at which a propagator was added undoes its first pass. The propagator
goes on to take up changes, and comes to a contradiction where there is a solution. -/
example :
    let m := ((Moment.mk (init false) false |>.after (.newListed [1, 2])).after (.newInterval 0 1)
      |>.after .newCheckpoint).after
        (.add (AmongPropagator.posting [.domain ⟨0⟩] (.domain ⟨1⟩) [1] true)) |>.after .settle
      |>.after (.restoreTo 0) |>.after (.impose (.domain ⟨1⟩) (.atLeast 1))
    carriedOut 2 m.engine = [.notify ⟨⟨0⟩, 1⟩ ⟨true, true, false, false⟩] ∧
      m.engine.agenda.requests = [] ∧ (m.after .settle).engine.contradiction.isSome := by
  decide +kernel

end Narrowing.Engine
