import Narrowing.Among.Propagator
import Narrowing.Proofs.Engine.Run
import Mathlib.Algebra.BigOperators.Group.List.Basic

/-!
Propagation terminates. The values that are left and the changes that wait to be reported bound the
notifications to come, because every change costs a domain a value. A round delivers a notification,
which may bring one pass onto the agenda, or makes a pass; weighed accordingly, what is left to do
gets less in every round. So rounds come to an end by themselves, before the bound that `settle`
computes is used up.
-/

namespace Narrowing

namespace Table

/-- The sum of `f` over all entries. -/
def total {κ α : Type} (t : Table κ α) (f : α → Nat) : Nat := (t.toList.map f).sum

/-- Changing one entry changes one summand. -/
theorem total_update {κ α : Type} [Key κ] (t : Table κ α) (f : α → Nat) (g : α → α) {k : κ} {a : α}
    (h : t.get? k = some a) : (t.update k g).total f + f a = t.total f + f (g a) := by
  have hsum : ∀ (l : List α) (i : Nat), l[i]? = some a →
      ((l.modify i g).map f).sum + f a = (l.map f).sum + f (g a) := by
    intro l
    induction l with
    | nil => exact fun i hi => nomatch hi
    | cons b rest ih =>
        intro i hi
        cases i with
        | zero =>
            obtain rfl := Option.some.inj hi
            rw [List.modify_zero_cons, List.map_cons, List.map_cons, List.sum_cons, List.sum_cons]
            omega
        | succ i =>
            rw [List.modify_succ_cons, List.map_cons, List.map_cons, List.sum_cons, List.sum_cons]
            have hrest := ih i hi
            omega
  have hget : t.entries.toList[Key.index k]? = some a := Array.getElem?_toList.trans h
  rw [total, total, toList, toList, update, Array.toList_modify]
  exact hsum _ _ hget

end Table

namespace Domains

/-- How many values all domains have. -/
def values (s : Domains) : Nat := s.table.total Domain.size

variable {B : DomainId → Prop} {cause : Cause} {s s' : Domains}

/-- Every change that waits to be reported has cost a value. -/
theorem Narrows.unreported_add_values_le (h : Narrows B cause s s') (hwf : s.table.WellFormed) :
    s'.unreported.size + s'.values ≤ s.unreported.size + s.values := by
  induction h with
  | refl => exact Nat.le_refl _
  | @change s' i d c hn _ hd hc ih =>
      have hwf' := hn.wellFormed hwf i d hd
      have hcost : (d.apply c).size < d.size := by
        rw [hwf'.size_eq, (Domain.wellFormed_apply hwf' hc).size_eq]
        exact Domain.card_apply_lt hwf' hc
      have htotal := s'.table.total_update Domain.size (·.apply c) hd
      change (s'.unreported.push _).size + (s'.table.update i (·.apply c)).total Domain.size ≤ _
      rw [Array.size_push]
      unfold values at ih ⊢
      omega

end Domains

namespace Backlog

variable {κ ε : Type} [DecidableEq κ] [Union ε]

theorem length_addAll_le (b : Backlog κ ε) (arrivals : List (κ × ε)) :
    (b.addAll arrivals).entries.length ≤ b.entries.length + arrivals.length := by
  induction arrivals generalizing b with
  | nil => exact Nat.le_refl _
  | cons arrival rest ih =>
      have hadd : (b.add arrival.1 arrival.2).entries.length ≤ b.entries.length + 1 := by
        have hkeys := congrArg List.length (b.keys_add arrival.1 arrival.2)
        unfold keys at hkeys
        rw [List.length_map] at hkeys
        rw [hkeys]
        split <;> simp
      have hrest := ih (b.add arrival.1 arrival.2)
      rw [List.length_cons]
      exact Nat.le_trans hrest (by omega)

end Backlog

namespace Notifier

variable {n : Notifier} {notices : List Notice}

/-- A change gives rise to a notice for each watch at most. -/
theorem length_noticesOfAll_le {os : List Occurrence} (h : n.noticesOfAll os = .ok notices) :
    notices.length ≤ n.watchCount * os.length := by
  induction os generalizing notices with
  | nil =>
      obtain rfl := Except.ok.inj h
      exact Nat.zero_le _
  | cons o rest ih =>
      obtain ⟨here, hhere, h⟩ := Checked.bind_eq_ok h
      obtain ⟨others, hothers, h⟩ := Checked.bind_eq_ok h
      obtain rfl := Except.ok.inj h
      obtain ⟨ws, hws, hhere⟩ := Checked.bind_eq_ok hhere
      obtain rfl := Except.ok.inj hhere
      have hmem : ws ∈ n.watches.toList :=
        Array.mem_toList_iff.2 (Array.mem_of_getElem? ((Table.fetch_eq_ok_iff _).1 hws))
      have hws : ws.length ≤ n.watchCount := (List.sublist_flatten_of_mem hmem).length_le
      have hfirst : (ws.filterMap (n.notice? o)).length ≤ ws.length := List.length_filterMap_le _ _
      have hrest := ih hothers
      rw [List.length_append, List.length_cons, Nat.mul_succ]
      omega

end Notifier

namespace Engine

variable {P : Type} [Propagator P] {e e' : Engine P}

/-- What is left to do, at most. A notification counts twice, because it may lead to a pass. -/
def effort (e : Engine P) : Nat :=
  2 * (e.notifier.pending.entries.length +
    e.notifier.watchCount * (e.domains.unreported.size + e.domains.values)) + e.agenda.waiting

theorem roundBound_eq (e : Engine P) : e.roundBound = e.effort + 1 := by
  have hvalues : e.domains.table.toList.foldl (fun n d => n + d.size) 0 = e.domains.values := by
    rw [Domains.values, Table.total, List.sum_eq_foldl, List.foldl_map]
  rw [roundBound, hvalues]
  rfl

theorem effort_told_le {notices : List Notice}
    (h : e.notifier.noticesOfAll e.domains.unreported.toList = .ok notices) :
    (e.told notices).effort ≤ e.effort := by
  have hnotices : notices.length ≤ e.notifier.watchCount * e.domains.unreported.size :=
    Notifier.length_noticesOfAll_le h
  have hpending := Backlog.length_addAll_le e.notifier.pending
    (notices.map fun x => (x.listener, x.events))
  rw [List.length_map] at hpending
  have hsplit := Nat.mul_add e.notifier.watchCount e.domains.unreported.size e.domains.values
  change 2 * ((e.notifier.pending.addAll _).entries.length +
    e.notifier.watchCount * (0 + e.domains.values)) + e.agenda.waiting ≤ _
  unfold effort
  rw [Nat.zero_add]
  omega

theorem effort_worked_le (h : Consistent e) {cause : Cause} {w : Workspace (Propagator.Note P)}
    (hp : Workspace.Progress cause e.toWorkspace w) : (e.worked w).effort ≤ e.effort := by
  have hcost := hp.narrows.unreported_add_values_le h.workspace.table
  have hmul := Nat.mul_le_mul_left e.notifier.watchCount hcost
  change 2 * (e.notifier.pending.entries.length +
    e.notifier.watchCount * (w.domains.unreported.size + w.domains.values)) + e.agenda.waiting ≤ _
  unfold effort
  omega

theorem waiting_request_le (a : Agenda) (id : PropagatorId) (priority : Priority)
    (passes : Passes) : (a.request id priority passes).waiting ≤ a.waiting + 1 := by
  unfold Agenda.request
  split
  · exact Nat.le_succ _
  · exact Nat.le_refl _

theorem effort_answered_le (e : Engine P) (id : PropagatorId) (p : P) (response : Response) :
    (e.answered id p response).effort ≤ e.effort + 1 := by
  cases response with
  | skip => exact Nat.le_succ _
  | enqueue =>
      have hwaiting := waiting_request_le e.agenda id (Propagator.priority p) .takingUp
      exact Nat.add_le_add_left hwaiting _

theorem effort_delivered {first : Listener × EventSet} {rest : List (Listener × EventSet)}
    (h : e.notifier.pending.entries = first :: rest) :
    (e.delivered rest).effort + 2 = e.effort := by
  change 2 * (rest.length + e.notifier.watchCount *
    (e.domains.unreported.size + e.domains.values)) + e.agenda.waiting + 2 = _
  unfold effort
  rw [h, List.length_cons]
  omega

theorem effort_met (hconsistent : Consistent e) {r : Request} {rest : List Request}
    (h : e.agenda.requests = r :: rest) : (e.met rest).effort + 1 = e.effort := by
  have hwaiting := hconsistent.waiting_eq
  rw [h, List.length_cons] at hwaiting
  change 2 * _ + (e.agenda.waiting - 1) + 1 = 2 * _ + e.agenda.waiting
  rw [hwaiting]
  rfl

/-- A round that finds something to do leaves less to do. -/
theorem ends_round_effort (h : Consistent e) :
    Ends round e (fun more e' => Consistent e' ∧ (more = true → e'.effort < e.effort))
      (Stopped fun _ => True) := by
  refine ends_round_of fun e₁ notices hn he₁ => ?_
  have h₁ : Consistent e₁ := he₁ ▸ h.told notices
  have hle : e₁.effort ≤ e.effort := he₁ ▸ effort_told_le hn
  refine ⟨fun l events rest p hpending _ => ?_, fun r rest p _ hrequests _ => ?_, ?_⟩
  · refine (Action.progress _ (h₁.delivered rest).workspace).mono (fun response w hp => ?_)
      fun _ _ _ _ _ => trivial
    refine ⟨((h₁.delivered rest).worked hp).answered _ _ _, fun _ => ?_⟩
    calc (((e₁.delivered rest).worked w).answered l.propagator p response).effort
        ≤ ((e₁.delivered rest).worked w).effort + 1 := effort_answered_le _ _ _ _
      _ ≤ (e₁.delivered rest).effort + 1 :=
          Nat.succ_le_succ (effort_worked_le (h₁.delivered rest) hp)
      _ < e₁.effort := by
          rw [← effort_delivered hpending]
          exact Nat.lt_succ_self _
      _ ≤ e.effort := hle
  · refine (Action.progress _ (h₁.met hrequests).workspace).mono (fun _ w hp => ?_)
      fun _ _ _ _ _ => trivial
    refine ⟨(h₁.met hrequests).worked hp, fun _ => ?_⟩
    calc ((e₁.met rest).worked w).effort
        ≤ (e₁.met rest).effort := effort_worked_le (h₁.met hrequests) hp
      _ < e₁.effort := by
          rw [← effort_met h₁ hrequests]
          exact Nat.lt_succ_self _
      _ ≤ e.effort := hle
  · exact fun _ _ => ⟨h₁, fun hf => nomatch hf⟩

/-! ### Courses of rounds -/

/-- A round is its task, carried out in the engine in which nothing waits for it any more. -/
theorem round_of_upcoming {task : Task} {taken : Engine P}
    (h : e.upcoming = some (task, taken)) :
    round e = (do carryOut task; return true : EStateM Stop (Engine P) Bool) taken := by
  unfold upcoming at h
  cases hr : Engine.report e with
  | error stop e₁ =>
      rw [hr] at h
      exact nomatch h
  | ok u e₁ =>
      rw [hr] at h
      have hdue : e₁.due = some (task, taken) := h
      refine (bind_of_ok hr).trans ?_
      refine (bind_of_ok rfl).trans ?_
      rw [hdue]
      exact bind_of_ok rfl

theorem propagator_of_get? {id : PropagatorId} {p : P} (hp : e.propagators.get? id = some p) :
    (propagator id : Operation P P) e = .ok p e :=
  (bind_of_ok rfl).trans (checked_of_ok ((Table.fetch_eq_ok_iff _).2 hp))

theorem within_of_ok {α : Type} {m : Operation P α} {a : α} (h : m e = .ok a e') :
    within m e = .ok a e' := by
  rw [within, h]

/-- Whoever acts, the propagators stay the same. -/
theorem propagators_of_act {α : Type} {id : PropagatorId} {action : Action (Propagator.Note P) α}
    {a : α} (h : act id action e = .ok a e') : e'.propagators = e.propagators := by
  obtain ⟨workspace, notifier, agenda, propagators, contradiction⟩ := e
  unfold act at h
  cases hr : action.run id workspace with
  | ok a w =>
      simp only [hr] at h
      obtain ⟨-, rfl⟩ := EStateM.Result.ok.inj h
      rfl
  | error stop w =>
      simp only [hr] at h
      exact nomatch h

/-- To carry out a request is to have the propagator make its pass. -/
theorem carryOut_pass {r : Request} {p : P} (hp : e.propagators.get? r.propagator = some p) :
    carryOut (.pass r) e = act r.propagator (Propagator.pass p r.propagator r.passes) e :=
  bind_of_ok (within_of_ok (propagator_of_get? hp))

/-- To carry out a notification is to have the propagator take it up. The propagator gets onto the
agenda if it wants a pass. -/
theorem carryOut_notify {l : Listener} {events : EventSet} {p : P} {response : Response}
    (hp : e.propagators.get? l.propagator = some p)
    (hact : act l.propagator (Propagator.notified p l.propagator l.localId events) e =
      .ok response e') :
    carryOut (.notify l events) e = .ok () (e'.answered l.propagator p response) := by
  have hp' : e'.propagators.get? l.propagator = some p := by rw [propagators_of_act hact, hp]
  refine (bind_of_ok (within_of_ok (propagator_of_get? hp))).trans ((bind_of_ok hact).trans ?_)
  cases response with
  | skip => rfl
  | enqueue => exact within_of_ok (bind_of_ok (propagator_of_get? hp'))

/-- It is abandoned if the propagator stops. -/
theorem carryOut_notify_of_error {l : Listener} {events : EventSet} {p : P} {stop : Stop}
    (hp : e.propagators.get? l.propagator = some p)
    (hact : act l.propagator (Propagator.notified p l.propagator l.localId events) e =
      .error stop e') : carryOut (.notify l events) e = .error stop e' :=
  (bind_of_ok (within_of_ok (propagator_of_get? hp))).trans (bind_of_error hact)

/-- The pass that is made is the one due first, and nothing else waits by then. -/
theorem eq_met_of_pass {r : Request} {taken : Engine P} (h : e.upcoming = some (.pass r, taken)) :
    ∃ notices rest, (e.told notices).notifier.pending.entries = [] ∧ e.agenda.requests = r :: rest ∧
      taken = (e.told notices).met rest := by
  unfold upcoming Engine.report at h
  cases hn : e.notifier.noticesOfAll e.domains.unreported.toList with
  | error f =>
      rw [hn] at h
      exact nomatch h
  | ok notices =>
      rw [hn] at h
      have hdue : (e.told notices).due = some (.pass r, taken) := h
      cases hpending : (e.told notices).notifier.pending.entries with
      | cons first rest =>
          rw [due_of_pending hpending] at hdue
          exact nomatch (Prod.mk.inj (Option.some.inj hdue)).1
      | nil =>
          cases hrequests : (e.told notices).agenda.requests with
          | cons r' rest =>
              rw [due_of_requests hpending hrequests] at hdue
              obtain ⟨hr, rfl⟩ := Prod.mk.inj (Option.some.inj hdue)
              obtain rfl := Task.pass.inj hr
              exact ⟨notices, rest, hpending, hrequests, rfl⟩
          | nil =>
              rw [due_of_nothing hpending hrequests] at hdue
              exact nomatch hdue

/-- Rounds that found something to do lead from one engine to another; the tasks are those carried
out, in their order. -/
inductive Proceeds (e : Engine P) : List Task → Engine P → Prop
  | refl : Proceeds e [] e
  | round {tasks : List Task} {e₁ e₂ taken : Engine P} {task : Task} (h : Proceeds e tasks e₁)
      (htask : e₁.upcoming = some (task, taken)) (hround : Engine.round e₁ = .ok true e₂) :
      Proceeds e (tasks ++ [task]) e₂

theorem exists_upcoming (h : Engine.round e = .ok true e') : ∃ task taken,
    e.upcoming = some (task, taken) := by
  have hends : Ends Engine.round e
      (fun more _ => more = true → ∃ task taken, e.upcoming = some (task, taken))
      (Stopped fun _ => True) := by
    refine ends_round_of fun e₁ notices hn he₁ => ⟨fun l events rest p hpending _ => ?_,
      fun r rest p hpending hrequests _ => ?_, fun _ _ hf => nomatch hf⟩
    all_goals refine .of_all (fun _ _ _ => ?_) fun _ => trivial
    all_goals rw [upcoming_of_told hn, ← he₁]
    · exact ⟨_, _, due_of_pending hpending⟩
    · exact ⟨_, _, due_of_requests hpending hrequests⟩
  exact hends.of_ok h rfl

theorem Proceeds.head {tasks : List Task} {task : Task} {e₁ taken : Engine P}
    (htask : e.upcoming = some (task, taken)) (hround : Engine.round e = .ok true e₁)
    (h : Proceeds e₁ tasks e') : Proceeds e (task :: tasks) e' := by
  induction h with
  | refl => exact Proceeds.refl.round htask hround
  | round _ htask' hround' ih => exact ih.round htask' hround'

/-- Every round of a course costs effort. -/
theorem Proceeds.length_add_effort_le {tasks : List Task} (h : Proceeds e tasks e')
    (hconsistent : Consistent e) : Consistent e' ∧ tasks.length + e'.effort ≤ e.effort := by
  induction h with
  | refl => exact ⟨hconsistent, Nat.le_of_eq (Nat.zero_add _)⟩
  | round _ _ hround ih =>
      obtain ⟨hconsistent₁, hle⟩ := ih
      obtain ⟨hconsistent₂, hless⟩ := (ends_round_effort hconsistent₁).of_ok hround
      have hless := hless rfl
      rw [List.length_append, List.length_singleton]
      exact ⟨hconsistent₂, by omega⟩

/-- How a course of rounds comes to an end: the last round finds nothing to do, or stops. -/
inductive Concludes (e : Engine P) : EStateM.Result Stop (Engine P) Unit → Prop
  | idle {tasks : List Task} {e₁ e' : Engine P} (h : Proceeds e tasks e₁)
      (hround : Engine.round e₁ = .ok false e') : Concludes e (.ok () e')
  | stop {tasks : List Task} {e₁ e' : Engine P} {stop : Stop} (h : Proceeds e tasks e₁)
      (hround : Engine.round e₁ = .error stop e') : Concludes e (.error stop e')

/-- With more rounds allowed than there is effort to spend, the rounds come to an end of their own. -/
theorem concludes_rounds {n : Nat} (h : Consistent e) (hn : e.effort < n) :
    Concludes e (rounds n e) := by
  induction n generalizing e with
  | zero => exact absurd hn (Nat.not_lt_zero _)
  | succ n ih =>
      rw [rounds]
      cases hround : Engine.round e with
      | error stop e₁ =>
          rw [bind_of_error hround]
          exact .stop .refl hround
      | ok more e₁ =>
          rw [bind_of_ok hround]
          cases more with
          | false => exact .idle .refl hround
          | true =>
              obtain ⟨h₁, hless⟩ := (ends_round_effort h).of_ok hround
              obtain ⟨task, taken, htask⟩ := exists_upcoming hround
              have hrest := ih h₁ (Nat.lt_of_lt_of_le (hless rfl) (Nat.le_of_lt_succ hn))
              change Concludes e (rounds n e₁)
              generalize rounds n e₁ = result at hrest ⊢
              cases hrest with
              | idle hproceeds hlast => exact .idle (hproceeds.head htask hround) hlast
              | stop hproceeds hlast => exact .stop (hproceeds.head htask hround) hlast

/-- What propagation makes of the end of the rounds. -/
def outcomeOf : EStateM.Result Stop (Engine P) Unit →
    EStateM.Result Fault (Engine P) (Except Contradiction Unit)
  | .ok () e => .ok (.ok ()) e
  | .error (.contradiction c) e => .ok (.error c) (e.fail c)
  | .error (.fault f) e => .error f e

/-- The task `task` of a round is carried out in `taken`: a propagator of which a pass is requested
makes its pass, and a propagator that is notified takes up the events and gets onto the agenda if it
wants a pass. A propagator that stops ends the round. -/
structure Performed (task : Task) (taken : Engine P) : Prop where
  pass : ∀ r p, task = .pass r → taken.propagators.get? r.propagator = some p →
    carryOut task taken = act r.propagator (Propagator.pass p r.propagator r.passes) taken
  notify : ∀ l events p response e', task = .notify l events →
    taken.propagators.get? l.propagator = some p →
    act l.propagator (Propagator.notified p l.propagator l.localId events) taken = .ok response e' →
    carryOut task taken = .ok () (e'.answered l.propagator p response)
  stop : ∀ l events p stop e', task = .notify l events →
    taken.propagators.get? l.propagator = some p →
    act l.propagator (Propagator.notified p l.propagator l.localId events) taken = .error stop e' →
    carryOut task taken = .error stop e'

theorem performed (task : Task) (taken : Engine P) : Performed task taken where
  pass r p htask hp := by rw [htask, carryOut_pass hp]
  notify l events p response e' htask hp hact := by rw [htask, carryOut_notify hp hact]
  stop l events p stop e' htask hp hact := by rw [htask, carryOut_notify_of_error hp hact]

/-- **Propagation terminates.** From any engine of a run, whatever the propagators do, no course of
rounds is longer than the effort at the start. Every round carries out its task, a pass or a
notification of a propagator. Every pass is made with nothing to be reported and no notification
waiting. The rounds come to an end of their own, which is the end that `settle` makes known. At a fixed
point nothing is left waiting. -/
theorem settle_terminates {rules : Rules P} {skipsOwn : Bool} {m : Moment P}
    (h : Reached rules skipsOwn m) (hc : m.engine.contradiction = none) :
    (∀ tasks e, Proceeds m.engine tasks e → tasks.length ≤ m.engine.effort ∧
      (∀ task taken, e.upcoming = some (task, taken) →
        round e = (do carryOut task; return true : EStateM Stop (Engine P) Bool) taken ∧
          Performed task taken) ∧
      ∀ r taken, e.upcoming = some (.pass r, taken) →
        taken.domains.unreported = #[] ∧ taken.notifier.pending.entries = []) ∧
    (∃ result, Concludes m.engine result ∧ settle m.engine = outcomeOf result) ∧
    ∀ e, settle m.engine = .ok (.ok ()) e → e.Idle := by
  have hconsistent := (h.consistent ⟨consistent_init skipsOwn, fun hs => nomatch hs⟩).1
  refine ⟨fun tasks e hproceeds => ⟨?_, fun task taken htask => ?_, fun r taken hpass => ?_⟩, ?_,
    fun e hs => idle_of_settle hs⟩
  · have hle := (hproceeds.length_add_effort_le hconsistent).2
    omega
  · exact ⟨round_of_upcoming htask, performed task taken⟩
  · obtain ⟨notices, rest, hpending, -, rfl⟩ := eq_met_of_pass hpass
    exact ⟨rfl, hpending⟩
  · refine ⟨rounds m.engine.roundBound m.engine, concludes_rounds hconsistent ?_, ?_⟩
    · rw [roundBound_eq]
      exact Nat.lt_succ_self _
    · unfold settle
      rw [hc]
      dsimp only
      cases rounds m.engine.roundBound m.engine with
      | ok u e => rfl
      | error stop e => cases stop <;> rfl

/-- A propagator was added, and nothing is propagated yet. -/
def posted : Moment AmongPropagator :=
  ((Moment.mk (init false) false |>.after (.newListed [1, 2])).after (.newInterval 0 1)).after
    (.add (AmongPropagator.posting [.domain ⟨0⟩] (.domain ⟨1⟩) [1] true))

theorem reached_posted {rules : Rules AmongPropagator}
    (hroot : ∀ e p, e.level = 0 → rules.adds e p) : Reached rules false posted := by
  have hstart : Reached rules false ⟨init false, false⟩ := .refl
  have hlisted := hstart.after (.newListed [1, 2]) (by decide) trivial (by decide +kernel)
  have hinterval := hlisted.after (.newInterval 0 1) (by decide) trivial (by decide +kernel)
  exact hinterval.after (.add (AmongPropagator.posting [.domain ⟨0⟩] (.domain ⟨1⟩) [1] true)) trivial
    (hroot _ _ rfl) (by decide +kernel)

/-- The first thing to be done is the first pass. -/
theorem settle_terminates_of_posted :
    (∃ r taken, posted.engine.upcoming = some (.pass r, taken) ∧ r.passes = .fromScratch ∧
      Performed (.pass r) taken ∧ taken.domains.unreported = #[] ∧
      taken.notifier.pending.entries = []) ∧
    ∃ result, Concludes posted.engine result ∧ settle posted.engine = outcomeOf result := by
  have hposted : Reached {} false posted := reached_posted fun _ _ _ => trivial
  obtain ⟨hcourses, hends, -⟩ := settle_terminates hposted rfl
  obtain ⟨-, htasks, hpasses⟩ := hcourses [] posted.engine .refl
  obtain ⟨⟨task, taken⟩, hdue⟩ := Option.isSome_iff_exists.1
    (show posted.engine.upcoming.isSome = true by decide +kernel)
  have htask : posted.engine.upcoming.map Prod.fst =
      some (.pass ⟨⟨0⟩, .low, .fromScratch⟩) := by decide +kernel
  rw [hdue] at htask
  obtain rfl := Option.some.inj htask
  exact ⟨⟨_, taken, hdue, rfl, (htasks _ taken hdue).2, hpasses _ taken hdue⟩, hends⟩

end Engine

end Narrowing
