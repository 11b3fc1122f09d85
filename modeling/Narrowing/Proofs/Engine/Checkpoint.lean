import Narrowing.Among.Propagator
import Narrowing.Proofs.Engine.Run

/-!
What waits when a checkpoint is opened or left. Opening one insists on that no pass is due and no
notification waits, but not on that every change was reported. A caller who opens checkpoints only
when this is so too loses nothing by a restore: what is dropped is about changes that are undone.
-/

namespace Narrowing

namespace Trail

variable {α : Type}

/-- The newest records of the current frame are the first to be undone. -/
theorem undone_of_current (t : Trail α) {k : Nat} (hk : k < t.level) {new older : List α}
    (h : t.current = new ++ older) : ∃ older', t.undone k = new ++ older' := by
  obtain ⟨n, hn⟩ : ∃ n, t.level - k = n + 1 := ⟨t.level - k - 1, by omega⟩
  refine ⟨older ++ (t.earlier.take n).flatten, ?_⟩
  rw [undone, hn, frames, List.take_succ_cons, List.flatten_cons, h, List.append_assoc]

end Trail

namespace Engine

open Narrowing.Action

variable {P : Type} [Propagator P] {e e' : Engine P} {frames : List (List (DomainId × Change))}

/-- The occurrence is what was reported of the recorded change. -/
def Tells (o : Occurrence) (r : DomainId × Change) : Prop := o.domain = r.1 ∧ o.events = r.2.events

/-- What waits is about the records: the changes not yet reported are the newest ones, and every
event of a notification is one of a recorded change of a domain that the listener watches. -/
structure WaitsFor (e : Engine P) (records : List (DomainId × Change)) : Prop where
  unreported : ∃ new older, records = new ++ older ∧
    List.Forall₂ Tells e.domains.unreported.toList.reverse new
  pending : ∀ x ∈ e.notifier.pending.entries, ∀ event ∈ x.2,
    ∃ r ∈ records, event ∈ r.2.events ∧ e.notifier.Hears x.1 r.1 (.single event)

/-- Everything that waits is about changes of the current frame; `frames` lie below it. -/
structure Recent (frames : List (List (DomainId × Change))) (e : Engine P) : Prop where
  consistent : Consistent e
  earlier_eq : e.domains.trail.earlier = frames
  waits : e.WaitsFor e.domains.trail.current

theorem waitsFor_of_nothing (hunreported : e.domains.unreported = #[])
    (hpending : e.notifier.pending.entries = []) (records : List (DomainId × Change)) :
    e.WaitsFor records where
  unreported := by
    rw [hunreported]
    exact ⟨[], records, rfl, .nil⟩
  pending x hx := by
    rw [hpending] at hx
    exact nomatch hx

/-- Every new change comes with an occurrence that tells of it. -/
theorem narrows_tells {B : DomainId → Prop} {cause : Cause} {s s' : Domains}
    (hn : Domains.Narrows B cause s s') : ∃ new occurrences,
      s'.trail.current = new ++ s.trail.current ∧
      s'.unreported.toList.reverse = occurrences ++ s.unreported.toList.reverse ∧
      List.Forall₂ Tells occurrences new := by
  induction hn with
  | refl => exact ⟨[], [], rfl, rfl, .nil⟩
  | @change s' id d c _ _ _ _ ih =>
      obtain ⟨new, occurrences, htrail, hunreported, htells⟩ := ih
      refine ⟨(id, c) :: new, ⟨id, c.events, cause⟩ :: occurrences, ?_, ?_, .cons ⟨rfl, rfl⟩ htells⟩
      · change (id, c) :: s'.trail.current = _
        rw [htrail]
        rfl
      · change (s'.unreported.push ⟨id, c.events, cause⟩).toList.reverse = _
        rw [Array.toList_push, List.reverse_append, hunreported]
        rfl

theorem exists_tells {occurrences : List Occurrence} {records : List (DomainId × Change)}
    (h : List.Forall₂ Tells occurrences records) {o : Occurrence} (ho : o ∈ occurrences) :
    ∃ r ∈ records, Tells o r := by
  induction h with
  | nil => exact nomatch ho
  | cons hfirst _ ih =>
      rcases List.mem_cons.1 ho with rfl | ho
      · exact ⟨_, List.mem_cons_self, hfirst⟩
      · obtain ⟨r, hr, htells⟩ := ih ho
        exact ⟨r, List.mem_cons_of_mem _ hr, htells⟩

theorem hears_single {n : Notifier} {id : DomainId} {ws : List Watch}
    (hws : n.watches.get? id = some ws) {w : Watch} (hw : w ∈ ws) {event : Event}
    (he : event ∈ w.events) : n.Hears w.listener id (.single event) := by
  refine ⟨ws, hws, w, hw, rfl, fun event' he' => ?_⟩
  have : event' = event := by
    revert he'
    cases event <;> cases event' <;> decide
  exact this ▸ he

namespace Recent

variable (h : Recent frames e)
include h

theorem told {notices : List Notice}
    (hn : e.notifier.noticesOfAll e.domains.unreported.toList = .ok notices) :
    Recent frames (e.told notices) := by
  refine ⟨h.consistent.told notices, h.earlier_eq, ⟨[], _, rfl, .nil⟩, ?_⟩
  obtain ⟨new, older, hrecords, htells⟩ := h.waits.unreported
  refine Backlog.forall_addAll (Q := fun l events => ∀ event ∈ events, ∃ r ∈ e.domains.trail.current,
    event ∈ r.2.events ∧ e.notifier.Hears l r.1 (.single event)) ?_ h.waits.pending ?_
  · intro l events events' hevents hevents' event he
    rcases EventSet.mem_union.1 he with he | he
    · exact hevents event he
    · exact hevents' event he
  · intro x hx event he
    obtain ⟨notice, hnotice, rfl⟩ := List.mem_map.1 hx
    obtain ⟨o, ho, ws, hws, w, hw, hsome⟩ := Notifier.exists_of_mem_noticesOfAll hn hnotice
    obtain rfl := Notifier.notice?_eq_some hsome
    obtain ⟨r, hr, hdomain, hevents⟩ := exists_tells htells (List.mem_reverse.2 ho)
    have he := EventSet.mem_inter.1 he
    refine ⟨r, hrecords ▸ List.mem_append_left _ hr, hevents ▸ he.2, ?_⟩
    exact hdomain ▸ hears_single hws hw he.1

theorem delivered {first : Listener × EventSet} {rest : List (Listener × EventSet)}
    (hpending : e.notifier.pending.entries = first :: rest) : Recent frames (e.delivered rest) := by
  refine ⟨h.consistent.delivered rest, h.earlier_eq, h.waits.unreported, fun x hx event he => ?_⟩
  refine h.waits.pending x ?_ event he
  rw [hpending]
  exact List.mem_cons_of_mem _ hx

theorem met {r : Request} {rest : List Request} (hr : e.agenda.requests = r :: rest) :
    Recent frames (e.met rest) :=
  ⟨h.consistent.met hr, h.earlier_eq, h.waits.unreported, h.waits.pending⟩

theorem worked {cause : Cause} {w : Workspace (Propagator.Note P)}
    (hp : Workspace.Progress cause e.toWorkspace w) : Recent frames (e.worked w) := by
  obtain ⟨new, occurrences, htrail, hunreported, htells⟩ := narrows_tells hp.narrows
  obtain ⟨new', older, hrecords, htells'⟩ := h.waits.unreported
  refine ⟨h.consistent.worked hp, hp.narrows.trail_eq.2.trans h.earlier_eq, ?_,
    fun x hx event he => ?_⟩
  · refine ⟨new ++ new', older, ?_, ?_⟩
    · change w.domains.trail.current = _
      rw [htrail, hrecords, List.append_assoc]
    · change List.Forall₂ Tells w.domains.unreported.toList.reverse _
      rw [hunreported]
      exact List.rel_append htells htells'
  · obtain ⟨r, hr, hrest⟩ := h.waits.pending x hx event he
    refine ⟨r, ?_, hrest⟩
    change r ∈ w.domains.trail.current
    rw [htrail]
    exact List.mem_append_right _ hr

theorem requested (id : PropagatorId) (priority : Priority) (passes : Passes) :
    Recent frames { e with agenda := e.agenda.request id priority passes } :=
  ⟨h.consistent.requested id priority passes, h.earlier_eq, h.waits.unreported, h.waits.pending⟩

theorem failed (c : Contradiction) : Recent frames (e.fail c) :=
  ⟨h.consistent.failed c, h.earlier_eq, h.waits.unreported, fun _ hx => nomatch hx⟩

theorem grown {d : Domain} (hd : d.WellFormed) : Recent frames (e.grown d) := by
  refine ⟨h.consistent.grown hd, h.earlier_eq, h.waits.unreported, fun x hx event he => ?_⟩
  obtain ⟨r, hr, hevent, hears⟩ := h.waits.pending x hx event he
  exact ⟨r, hr, hevent, hears.grow⟩

theorem joined {p : Posting P} {notifier : Notifier} {journal : Array (Message (Propagator.Note P))}
    (hwatched : Watched e.notifier notifier e.propagators.nextKey p.interests) :
    Recent frames (e.joined p notifier journal) := by
  refine ⟨h.consistent.joined hwatched, h.earlier_eq, h.waits.unreported, fun x hx event he => ?_⟩
  change x ∈ notifier.pending.entries at hx
  rw [hwatched.pending_eq] at hx
  obtain ⟨r, hr, hevent, hears⟩ := h.waits.pending x hx event he
  exact ⟨r, hr, hevent, hwatched.hears _ _ _ hears⟩

end Recent

theorem closed_recent (frames : List (List (DomainId × Change))) :
    Closed (Recent (P := P) frames) (Recent frames) := by
  refine ⟨fun h hn => h.told hn, ?_, ?_⟩
  · intro e l events rest p h _ hpending _
    refine (Action.progress _ h.consistent.workspace).mono (fun response w hp => ?_)
      fun _ w hp _ _ => ?_
    · have hw := (h.delivered hpending).worked hp
      cases response with
      | skip => exact hw
      | enqueue => exact hw.requested _ _ _
    · exact (h.delivered hpending).worked hp
  · intro e r rest p h _ hr _
    refine (Action.progress _ h.consistent.workspace).mono (fun _ w hp => ?_) fun _ w hp _ _ => ?_
    · exact (h.met hr).worked hp
    · exact (h.met hr).worked hp

theorem Recent.settle (h : Recent frames e) {r : Except Contradiction Unit}
    (hs : Engine.settle e = .ok r e') : Recent frames e' :=
  (closed_recent frames).settle (fun c h => h.failed c) h hs

/-- The caller opens a checkpoint only when every change was reported. -/
def reporting : Rules P where
  marks m := m.engine.domains.unreported = #[]

theorem entries_eq_nil (hempty : e.notifier.hasPending = false) :
    e.notifier.pending.entries = [] := by
  unfold Notifier.hasPending Backlog.isEmpty at hempty
  rwa [Bool.not_eq_false', List.isEmpty_iff] at hempty

/-- What a move does to the frames of the trail, and that it keeps what waits recent. -/
theorem Recent.outcome (h : Recent frames e) {move : Move P} {settled : Bool} {m : Moment P}
    (hm : m.engine = e) (hrange : move.InRange) (hpermit : reporting.Permit m move)
    (ho : Outcome e move settled e') :
    Recent frames e' ∨
      (e'.domains.trail = e.domains.trail.mark ∧ e.Idle ∧ move = .newCheckpoint ∧
        Recent e.domains.trail.frames e') ∨
      ∃ j < e.level, e'.domains.trail = e.domains.trail.below j ∧
        Recent (e.domains.trail.below j).earlier e' := by
  cases ho with
  | unchanged => exact Or.inl h
  | grown hd => exact Or.inl (h.grown (hd hrange))
  | joined hwatched => exact Or.inl (h.joined hwatched)
  | constrained _ hwatched hsettle => exact Or.inl ((h.joined hwatched).settle hsettle)
  | replaced =>
      exact Or.inl ⟨h.consistent.outcome hrange .replaced, h.earlier_eq, h.waits.unreported,
        h.waits.pending⟩
  | narrowed hn =>
      exact Or.inl (h.worked (w := ⟨_, e.cells, e.journal⟩)
        ⟨hn.mono fun _ _ => trivial, .refl h.consistent.workspace.cells⟩)
  | forced _ => exact Or.inl (h.requested _ _ _)
  | settled hsettle => exact Or.inl (h.settle hsettle)
  | marked hrequests hpending _ =>
      have hpermit : e.domains.unreported = #[] := hm ▸ hpermit
      have hidle : e.Idle := ⟨hpermit, entries_eq_nil hpending, requests_eq_nil h.consistent hrequests⟩
      refine Or.inr (Or.inl ⟨rfl, hidle, rfl, h.consistent.marked _, rfl, ?_⟩)
      exact waitsFor_of_nothing (e := e.entered _) hpermit hidle.pending _
  | @rewound _ k domains cells journal hdomains hcells =>
      obtain ⟨hk, -, htrail, hunreported⟩ := Domains.rewind_eq_ok hdomains
      refine Or.inr (Or.inr ⟨k, hk, htrail, h.consistent.rewound hdomains hcells,
        congrArg Trail.earlier htrail, ?_⟩)
      exact waitsFor_of_nothing hunreported rfl _

/-- `m₀` is when level `k` was left for the next one: nothing was waiting then. -/
structure Milestone (skipsOwn : Bool) (m₀ m : Moment P) (k : Nat) : Prop where
  reached : Reached reporting skipsOwn m₀
  leads : Leads reporting m₀ m
  level_eq : m₀.engine.level = k
  idle : m₀.engine.Idle
  opens : ∃ e, newCheckpoint m₀.engine = .ok () e
  trail_eq : m.engine.domains.trail.below k = m₀.engine.domains.trail

theorem recent_init (skipsOwn : Bool) : Recent [] (init skipsOwn : Engine P) :=
  ⟨consistent_init skipsOwn, rfl, waitsFor_of_nothing rfl rfl _⟩

/-- In a run that keeps to the rule, what waits is recent, and every level below the current one was
left with nothing waiting. -/
theorem Reached.recent {skipsOwn : Bool} {m : Moment P} (h : Reached reporting skipsOwn m) :
    Recent m.engine.domains.trail.earlier m.engine ∧
      ∀ k < m.engine.level, ∃ m₀, Milestone skipsOwn m₀ m k := by
  induction h with
  | refl => exact ⟨recent_init skipsOwn, fun k hk => absurd hk (Nat.not_lt_zero k)⟩
  | @step m' move settled e' hleads hrange hpermit hplay ih =>
      obtain ⟨hrecent, hmilestones⟩ := ih
      have ho := outcome_of_play hrecent.consistent.workspace.table hplay
      have hnext : ∀ m₀, Leads reporting m₀ m' → Leads reporting m₀ ⟨e', settled⟩ := fun m₀ h₀ =>
        h₀.step hrange hpermit hplay
      have hkeep : ∀ k < m'.engine.level,
          e'.domains.trail.below k = m'.engine.domains.trail.below k →
          ∃ m₀, Milestone skipsOwn m₀ ⟨e', settled⟩ k := by
        intro k hk hbelow
        obtain ⟨m₀, h₀⟩ := hmilestones k hk
        exact ⟨m₀, h₀.reached, hnext m₀ h₀.leads, h₀.level_eq, h₀.idle, h₀.opens,
          hbelow.trans h₀.trail_eq⟩
      rcases hrecent.outcome rfl hrange hpermit ho with h' | ⟨htrail, hidle, rfl, h'⟩ |
        ⟨j, hj, htrail, h'⟩
      · refine ⟨⟨h'.consistent, rfl, h'.waits⟩, fun k hk => ?_⟩
        have hlevel : e'.level = m'.engine.level := congrArg List.length h'.earlier_eq
        exact hkeep k (hlevel ▸ hk) (Trail.below_eq_of_earlier h'.earlier_eq hk)
      · refine ⟨⟨h'.consistent, rfl, h'.waits⟩, fun k hk => ?_⟩
        have hk : k < m'.engine.level + 1 := by
          have hlevel := Trail.level_mark m'.engine.domains.trail
          rw [← htrail] at hlevel
          exact hk.trans_eq hlevel
        rcases Nat.lt_or_eq_of_le (Nat.le_of_lt_succ hk) with hk | rfl
        · refine hkeep k hk ?_
          rw [htrail, Trail.below_mark_of_le _ (Nat.le_of_lt hk)]
        · refine ⟨m', hleads, hnext m' .refl, rfl, hidle, ⟨e', newCheckpoint_of_play hplay⟩, ?_⟩
          change e'.domains.trail.below m'.engine.domains.trail.level = _
          rw [htrail, Trail.below_mark]
      · refine ⟨⟨h'.consistent, rfl, h'.waits⟩, fun k hk => ?_⟩
        have hk : k < j := by
          have hlevel := Trail.level_below m'.engine.domains.trail (Nat.le_of_lt hj)
          rw [← htrail] at hlevel
          exact hk.trans_eq hlevel
        refine hkeep k (hk.trans hj) ?_
        rw [htrail, Trail.below_below _ (Nat.le_of_lt hk) (Nat.le_of_lt hj)]

/-- What waits about changes of the current frame is about changes that a rewind undoes. -/
theorem Recent.waitsFor_undone (h : Recent frames e) {k : Nat} (hk : k < e.level) :
    e.WaitsFor (e.domains.trail.undone k) where
  unreported := by
    obtain ⟨new, older, hrecords, htells⟩ := h.waits.unreported
    obtain ⟨older', hundone⟩ := Trail.undone_of_current _ hk hrecords
    exact ⟨new, older', hundone, htells⟩
  pending x hx event he := by
    obtain ⟨r, hr, hrest⟩ := h.waits.pending x hx event he
    exact ⟨r, Trail.mem_undone_of_current _ hk hr, hrest⟩

/-- Opening a checkpoint leaves no pass and no notification waiting, and nothing at all exactly if
every change was reported before. When that is so at every checkpoint of a run, a restore drops
nothing about the changes that stay: what waits is about changes that are undone, and those that
stay are those on record when the level was left, with nothing waiting. -/
theorem checkpoints_lose_nothing {skipsOwn : Bool} {m : Moment P} :
    (∀ (rules : Rules P) (e' : Engine P), Reached rules skipsOwn m →
      newCheckpoint m.engine = .ok () e' →
      e'.notifier.pending.entries = [] ∧ e'.agenda.requests = [] ∧
        (e'.Idle ↔ m.engine.domains.unreported = #[])) ∧
    (∀ (k : Nat) (e' : Engine P), Reached reporting skipsOwn m →
      restoreTo k m.engine = .ok () e' →
      (k = m.engine.level ∧ e' = m.engine) ∨
        m.engine.WaitsFor (m.engine.domains.trail.undone k) ∧
          ∃ m₀, Milestone skipsOwn m₀ m k ∧ e'.domains.trail = m₀.engine.domains.trail) := by
  constructor
  · intro rules e' h hopen
    have hconsistent := (h.consistent ⟨consistent_init skipsOwn, fun hs => nomatch hs⟩).1
    obtain ⟨hrequests, hpending, -, journal, rfl⟩ := ends_newCheckpoint.of_ok hopen
    have hpending := entries_eq_nil hpending
    have hrequests := requests_eq_nil hconsistent hrequests
    exact ⟨hpending, hrequests, fun hidle => hidle.unreported,
      fun hreported => ⟨hreported, hpending, hrequests⟩⟩
  · intro k e' h hrestore
    obtain ⟨hrecent, hmilestones⟩ := h.recent
    rcases (ends_restoreTo k).of_ok hrestore with ⟨hk, rfl⟩ | ⟨domains, cells, journal, hdomains, -, rfl⟩
    · exact Or.inl ⟨hk, rfl⟩
    · obtain ⟨hk, -, htrail, -⟩ := Domains.rewind_eq_ok hdomains
      obtain ⟨m₀, h₀⟩ := hmilestones k hk
      exact Or.inr ⟨hrecent.waitsFor_undone hk, m₀, h₀, htrail.trans h₀.trail_eq⟩

/-- A variable, a checkpoint, and a decision that nobody was told about. -/
def decidedLately : Moment AmongPropagator :=
  (Moment.mk (init false) false |>.after (.newInterval 0 3)).after .newCheckpoint
    |>.after (.impose (.domain ⟨0⟩) (.atMost 1))

/-- The decision waits, and is undone. -/
theorem checkpoints_lose_nothing_of_decision :
    ∃ e', restoreTo 0 decidedLately.engine = .ok () e' ∧
      decidedLately.engine.domains.unreported.size = 1 ∧
      decidedLately.engine.WaitsFor (decidedLately.engine.domains.trail.undone 0) ∧
      ∃ m₀, Milestone false m₀ decidedLately 0 ∧
        e'.domains.trail = m₀.engine.domains.trail := by
  have hstart : Reached (P := AmongPropagator) reporting false ⟨init false, false⟩ := .refl
  have hgrown := hstart.after (.newInterval 0 3) (by decide) trivial (by decide +kernel)
  have hentered := hgrown.after .newCheckpoint trivial rfl (by decide +kernel)
  have hreached : Reached reporting false decidedLately :=
    hentered.after (.impose (.domain ⟨0⟩) (.atMost 1)) trivial trivial (by decide +kernel)
  have hplay : Move.play (.restoreTo 0) decidedLately.engine = _ :=
    Moment.play_eq_ok (show decidedLately.plays (.restoreTo 0) = true by decide +kernel)
  have hends : Ends (Move.play (.restoreTo 0)) decidedLately.engine
      (fun _ e' => restoreTo 0 decidedLately.engine = .ok () e') fun _ _ => True :=
    ends_self.bind fun _ _ h => ends_pure h
  have hrestore := hends.of_ok hplay
  rcases checkpoints_lose_nothing.2 0 _ hreached hrestore with ⟨hlevel, -⟩ | hlost
  · exact absurd hlevel (by decide +kernel)
  · exact ⟨_, hrestore, by decide +kernel, hlost⟩

/-- The rule is needed: a checkpoint can be opened although a decision was not reported. -/
example : ((Moment.mk (init false : Engine AmongPropagator) false |>.after (.newInterval 0 3)).after
    (.impose (.domain ⟨0⟩) (.atMost 1))).plays .newCheckpoint = true := by
  decide +kernel

end Engine

end Narrowing
