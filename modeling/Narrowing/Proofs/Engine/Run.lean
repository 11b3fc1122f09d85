import Narrowing.Proofs.Domain.Creation
import Narrowing.Proofs.Engine.Rounds
import Narrowing.Proofs.Engine.Waiting

/-!
Runs of an engine. A run is what a caller does with an engine, move by move, from an engine without
variables on; `Rules` say which moves the caller may make. Moves that only look are left out. What a
move can do is said once, in `Outcome`, and every engine that a run reaches is `Consistent`.
-/

namespace Narrowing.Engine

variable {P : Type} [Propagator P]

/-- A move of the caller. -/
inductive Move (P : Type) [Propagator P] where
  | newInterval (lo hi : Int)
  | newListed (values : List Int)
  | newEnumerated (lo hi : Int)
  | add (p : Posting P)
  | addConstraint (p : Posting P)
  | replace (id : PropagatorId) (p : P)
  | impose (x : Variable) (r : Restriction)
  | forceFull (id : PropagatorId)
  | settle
  | newCheckpoint
  | restoreTo (k : Nat)
  | popCheckpoint

/-- Make a move. The answer tells whether propagation has just come to a fixed point. -/
def Move.play : Move P → Operation P Bool
  | .newInterval lo hi => do let _ ← Engine.newInterval lo hi; return false
  | .newListed values => do let _ ← Engine.newListed values; return false
  | .newEnumerated lo hi => do let _ ← Engine.newEnumerated lo hi; return false
  | .add p => do let _ ← Engine.add p; return false
  | .addConstraint p => do return (← Engine.addConstraint p).isOk
  | .replace id p => do Engine.replace id p; return false
  | .impose x r => do let _ ← Engine.impose x r; return false
  | .forceFull id => do Engine.forceFull id; return false
  | .settle => do return (← Engine.settle).isOk
  | .newCheckpoint => do Engine.newCheckpoint; return false
  | .restoreTo k => do Engine.restoreTo k; return false
  | .popCheckpoint => do Engine.popCheckpoint; return false

/-- An engine in the course of a run. -/
structure Moment (P : Type) [Propagator P] where
  engine : Engine P
  /-- Whether the move just made was propagation that came to a fixed point. -/
  settled : Bool := false

/-- What a caller keeps to. -/
structure Rules (P : Type) [Propagator P] where
  /-- The propagators that may be added to an engine. -/
  adds : Engine P → Posting P → Prop := fun _ _ => True
  /-- When a checkpoint may be opened. -/
  marks : Moment P → Prop := fun _ => True
  /-- Whether propagators may be replaced. -/
  replaces : Prop := True

/-- New domains are made of values. -/
def Move.InRange : Move P → Prop
  | .newInterval lo hi => Value.InRange lo ∧ Value.InRange hi
  | .newListed values => ∀ v ∈ values, Value.InRange v
  | .newEnumerated lo hi => Value.InRange lo ∧ Value.InRange hi
  | _ => True

instance (move : Move P) : Decidable move.InRange := by
  unfold Move.InRange
  split <;> infer_instance

/-- What the rules have to say about a move. Off the root `addConstraint` is refused and does
nothing. -/
def Rules.Permit (rules : Rules P) (m : Moment P) : Move P → Prop
  | .add p => rules.adds m.engine p
  | .addConstraint p => m.engine.level = 0 → rules.adds m.engine p
  | .replace _ _ => rules.replaces
  | .newCheckpoint => rules.marks m
  | _ => True

/-- Moves allowed by the rules lead from one moment to another. -/
inductive Leads (rules : Rules P) (m : Moment P) : Moment P → Prop
  | refl : Leads rules m m
  | step {m' : Moment P} {move : Move P} {settled : Bool} {e : Engine P} (h : Leads rules m m')
      (hrange : move.InRange) (hpermit : rules.Permit m' move)
      (hplay : move.play m'.engine = .ok settled e) :
      Leads rules m ⟨e, settled⟩

/-- A moment of a run that keeps to the rules. -/
def Reached (rules : Rules P) (skipsOwn : Bool) (m : Moment P) : Prop :=
  Leads rules ⟨init skipsOwn, false⟩ m

/-- What keeps to some rules keeps to any that permit as much. -/
theorem Leads.weaken {rules rules' : Rules P} {m m' : Moment P} (h : Leads rules m m')
    (hadds : ∀ e p, rules.adds e p → rules'.adds e p) (hmarks : ∀ m, rules.marks m → rules'.marks m)
    (hreplaces : rules.replaces → rules'.replaces) : Leads rules' m m' := by
  have hpermit : ∀ {m move}, rules.Permit m move → rules'.Permit m move := by
    intro m move hpermit
    cases move with
    | add p => exact hadds _ p hpermit
    | addConstraint p => exact fun hroot => hadds _ p (hpermit hroot)
    | replace id p => exact hreplaces hpermit
    | newCheckpoint => exact hmarks m hpermit
    | _ => exact trivial
  induction h with
  | refl => exact .refl
  | step _ hrange hpermitted hplay ih => exact ih.step hrange (hpermit hpermitted) hplay

/-- The moment after a move, as far as the move can be made. -/
def Moment.after (m : Moment P) (move : Move P) : Moment P :=
  match move.play m.engine with
  | .ok settled e => ⟨e, settled⟩
  | .error _ e => ⟨e, false⟩

/-- Whether a move can be made. -/
def Moment.plays (m : Moment P) (move : Move P) : Bool :=
  match move.play m.engine with
  | .ok _ _ => true
  | .error _ _ => false

theorem Moment.play_eq_ok {m : Moment P} {move : Move P} (h : m.plays move = true) :
    move.play m.engine = .ok (m.after move).settled (m.after move).engine := by
  unfold plays at h
  unfold after
  cases hp : move.play m.engine with
  | ok settled e => rfl
  | error f e =>
      rw [hp] at h
      exact nomatch h

theorem Leads.after {rules : Rules P} {m m' : Moment P} (h : Leads rules m m') (move : Move P)
    (hrange : move.InRange) (hpermit : rules.Permit m' move) (hplays : m'.plays move = true) :
    Leads rules m (m'.after move) :=
  h.step hrange hpermit (Moment.play_eq_ok hplays)

theorem Moment.settle_eq_ok {m : Moment P} (hplays : m.plays .settle = true)
    (hsettled : (m.after .settle).settled = true) :
    Engine.settle m.engine = .ok (.ok ()) (m.after .settle).engine := by
  have h := play_eq_ok hplays
  rw [hsettled] at h
  have hends : Ends (Move.play .settle) m.engine (fun settled e' => settled = true →
      Engine.settle m.engine = .ok (.ok ()) e') fun _ _ => True := by
    refine ends_self.bind fun r e' hr => ends_pure fun hok => ?_
    cases r with
    | ok u => exact hr
    | error c => exact nomatch hok
  exact hends.of_ok h rfl

/-! ### What a move can do -/

/-- The engine with one domain more. -/
def grown (e : Engine P) (d : Domain) : Engine P :=
  { e with domains := e.domains.push d, notifier := e.notifier.grow }

/-- The engine with a propagator more, that has the next name. -/
def joined (e : Engine P) (p : Posting P) (notifier : Notifier)
    (journal : Array (Message (Propagator.Note P))) : Engine P :=
  let made := p.build (fun i => ⟨e.cells.integers.size + i⟩) (fun i => ⟨e.cells.sets.size + i⟩)
  { e with
    journal
    notifier
    cells := p.sets.foldl Cells.newSet (p.integers.foldl Cells.newInteger e.cells)
    propagators := e.propagators.push made
    agenda := e.agenda.request e.propagators.nextKey (Propagator.priority made) .fromScratch }

/-- The engine at a new checkpoint. -/
def entered (e : Engine P) (journal : Array (Message (Propagator.Note P))) : Engine P :=
  { e with domains := e.domains.mark, cells := e.cells.mark, journal }

/-- The engine back at an earlier checkpoint, with nothing pending. -/
def rewound (e : Engine P) (domains : Domains) (cells : Cells)
    (journal : Array (Message (Propagator.Note P))) : Engine P :=
  ⟨⟨domains, cells, journal⟩, e.notifier.clear, {}, e.propagators, none⟩

/-- The watches of a propagator are there, besides those that were. -/
structure Watched (n n' : Notifier) (id : PropagatorId) (interests : List Interest) : Prop
    extends n.Extends n' where
  listens : ∀ i ∈ interests, ∀ d events, i.subject.watched i.events = some (d, events) →
    n'.Hears ⟨id, i.localId⟩ d events

/-- What a move makes of an engine. -/
inductive Outcome (e : Engine P) : Move P → Bool → Engine P → Prop
  | unchanged {move : Move P} : Outcome e move false e
  | grown {move : Move P} {d : Domain} (hd : move.InRange → d.WellFormed) :
      Outcome e move false (e.grown d)
  | joined {p : Posting P} {notifier : Notifier} {journal : Array (Message (Propagator.Note P))}
      (hwatched : Watched e.notifier notifier e.propagators.nextKey p.interests) :
      Outcome e (.add p) false (e.joined p notifier journal)
  | constrained {p : Posting P} {notifier : Notifier}
      {journal : Array (Message (Propagator.Note P))} {r : Except Contradiction Unit} {e' : Engine P}
      (hroot : e.level = 0)
      (hwatched : Watched e.notifier notifier e.propagators.nextKey p.interests)
      (hsettle : Engine.settle (e.joined p notifier journal) = .ok r e') :
      Outcome e (.addConstraint p) r.isOk e'
  | replaced {id : PropagatorId} {p : P} :
      Outcome e (.replace id p) false { e with propagators := e.propagators.put id p }
  | narrowed {x : Variable} {r : Restriction} {domains : Domains}
      (hn : Domains.Narrows (· = x.base) .decision e.domains domains) :
      Outcome e (.impose x r) false { e with domains }
  | forced {id : PropagatorId} {p : P} (hp : e.propagators.get? id = some p) :
      Outcome e (.forceFull id) false
        { e with agenda := e.agenda.request id (Propagator.priority p) .fromScratch }
  | settled {r : Except Contradiction Unit} {e' : Engine P} (hsettle : Engine.settle e = .ok r e') :
      Outcome e .settle r.isOk e'
  | marked {journal : Array (Message (Propagator.Note P))} (hrequests : e.agenda.isEmpty = true)
      (hpending : e.notifier.hasPending = false) (hc : e.contradiction = none) :
      Outcome e .newCheckpoint false (e.entered journal)
  | rewound {move : Move P} {k : Nat} {domains : Domains} {cells : Cells}
      {journal : Array (Message (Propagator.Note P))} (hdomains : e.domains.rewind k = .ok domains)
      (hcells : e.cells.rewind k = .ok cells) :
      Outcome e move false (e.rewound domains cells journal)

section Outcome

variable {e : Engine P}

theorem ends_addIfAny (d : Option Domain) :
    Ends (addIfAny d) e (fun _ e' => ∃ d', d = some d' ∧ e' = e.grown d') fun _ _ => True := by
  cases d with
  | some d => exact ⟨d, rfl, rfl⟩
  | none => exact trivial

theorem ends_watchAll (id : PropagatorId) (interests : List Interest) :
    Ends (watchAll id interests) e
      (fun _ e' => ∃ notifier, e' = { e with notifier } ∧
        Watched e.notifier notifier id interests) fun _ _ => True := by
  induction interests generalizing e with
  | nil => exact ⟨e.notifier, rfl, .refl, fun i hi => nomatch hi⟩
  | cons i rest ih =>
      have hrest : ∀ n, e.notifier.Extends n →
          (∀ d events, i.subject.watched i.events = some (d, events) →
            n.Hears ⟨id, i.localId⟩ d events) →
          Ends (watchAll id rest) { e with notifier := n }
            (fun _ e' => ∃ notifier, e' = { e with notifier } ∧
              Watched e.notifier notifier id (i :: rest)) fun _ _ => True := by
        intro n₁ hextends₁ hlistens₁
        refine (ih (e := { e with notifier := n₁ })).imp fun _ e₂ h₂ => ?_
        obtain ⟨n₂, rfl, hextends₂, hlistens₂⟩ := h₂
        refine ⟨n₂, rfl, hextends₁.trans hextends₂, fun j hj d events hd => ?_⟩
        rcases List.mem_cons.1 hj with rfl | hj
        · exact hextends₂.hears _ _ _ (hlistens₁ d events hd)
        · exact hlistens₂ j hj d events hd
      rw [watchAll]
      cases hw : i.subject.watched i.events with
      | none =>
          exact ends_bind (ends_pure (hrest e.notifier .refl fun d events hd => by simp [hw] at hd))
      | some watched =>
          obtain ⟨d, events⟩ := watched
          refine ends_bind (ends_get (ends_bind (ends_checked (fun n hn => ?_) fun _ => trivial)))
          obtain ⟨hextends, hears⟩ := Notifier.watch_eq_ok hn
          refine ends_bind (ends_modify (hrest n hextends fun d' events' hd => by
            rw [hw] at hd
            obtain ⟨rfl, rfl⟩ := Prod.mk.inj (Option.some.inj hd)
            exact hears))

/-- What is done to add a propagator. -/
theorem ends_add (p : Posting P) :
    Ends (add p) e (fun _ e' => ∃ notifier journal, e' = e.joined p notifier journal ∧
      Watched e.notifier notifier e.propagators.nextKey p.interests) fun _ _ => True := by
  refine ends_bind (ends_get ((ends_watchAll _ _).bind fun _ e₁ h₁ => ?_))
  obtain ⟨notifier, rfl, hwatched⟩ := h₁
  refine ends_bind (ends_bind (ends_get (ends_checked (fun notes _ => ?_) fun _ => trivial)))
  refine ends_bind (ends_get (ends_bind (ends_modify (ends_bind (ends_modify ?_)))))
  refine ends_bind (ends_requestPass fun q hq => ?_)
  have hmade := (Table.get?_push_nextKey _ _).symm.trans hq
  obtain rfl := Option.some.inj hmade
  exact ends_pure ⟨notifier, _, rfl, hwatched⟩

theorem ends_impose (x : Variable) (r : Restriction) (hwf : e.domains.table.WellFormed) :
    Ends (impose x r) e (fun _ e' => ∃ domains,
      Domains.Narrows (· = x.base) .decision e.domains domains ∧ e' = { e with domains })
      fun _ _ => True := by
  have hc := x.confined .decision r e.domains hwf
  unfold Ends impose
  unfold Domains.Confines Ends at hc
  cases hr : x.restrict .decision r e.domains with
  | ok changed domains =>
      simp only [hr] at hc
      exact ⟨domains, hc.1, rfl⟩
  | error refusal domains =>
      simp only [hr] at hc
      cases refusal with
      | empty => exact ⟨domains, hc.1, rfl⟩
      | fault f => exact trivial

theorem ends_replace (id : PropagatorId) (p : P) :
    Ends (replace id p) e (fun _ e' => e' = { e with propagators := e.propagators.put id p })
      fun _ _ => True := by
  refine ends_bind (ends_get (ends_bind (ends_checked (fun propagators hp => ?_) fun _ => trivial)))
  refine ends_modify ?_
  unfold Table.store at hp
  split at hp
  · obtain rfl := Except.ok.inj hp
    rfl
  · exact nomatch hp

theorem ends_newCheckpoint :
    Ends newCheckpoint e (fun _ e' => e.agenda.isEmpty = true ∧ e.notifier.hasPending = false ∧
      e.contradiction = none ∧
      ∃ journal, e' = e.entered journal) fun _ _ => True := by
  refine ends_bind (ends_get (ends_bind (ends_checked (fun _ hwaits => ?_) fun _ => trivial)))
  refine ends_bind (ends_checked (fun _ hc => ?_) fun _ => trivial)
  refine ends_bind (ends_modify (ends_bind (ends_get (ends_modify ?_))))
  have hwaits := demand_eq_ok hwaits
  rw [Bool.and_eq_true, Bool.not_eq_true'] at hwaits
  exact ⟨hwaits.1, hwaits.2, Option.isNone_iff_eq_none.1 (demand_eq_ok hc), _, rfl⟩

theorem newCheckpoint_of_play {e' : Engine P} {settled : Bool}
    (h : Move.play .newCheckpoint e = .ok settled e') : newCheckpoint e = .ok () e' := by
  have hends : Ends (Move.play .newCheckpoint) e (fun _ e' => newCheckpoint e = .ok () e')
      fun _ _ => True := ends_self.bind fun _ _ h => ends_pure h
  exact hends.of_ok h

theorem ends_restoreTo (k : Nat) :
    Ends (restoreTo k) e (fun _ e' => (k = e.level ∧ e' = e) ∨ ∃ domains cells journal,
      e.domains.rewind k = .ok domains ∧ e.cells.rewind k = .ok cells ∧
      e' = e.rewound domains cells journal) fun _ _ => True := by
  refine ends_bind (ends_get (ends_bind (ends_checked (fun _ _ => ?_) fun _ => trivial)))
  split
  · next hk => exact Or.inl ⟨hk, rfl⟩
  · refine ends_bind (ends_checked (fun _ _ => ?_) fun _ => trivial)
    refine ends_bind (ends_checked (fun domains hdomains => ?_) fun _ => trivial)
    refine ends_bind (ends_checked (fun cells hcells => ?_) fun _ => trivial)
    refine ends_bind (ends_set (ends_modify (Or.inr ⟨domains, cells, _, hdomains, hcells, rfl⟩)))

theorem ends_newInterval (lo hi : Int) :
    Ends (newInterval lo hi) e (fun _ e' => lo ≤ hi ∧ e' = e.grown (.interval lo hi))
      fun _ _ => True := by
  refine ends_bind (ends_checked (fun _ hle => ?_) fun _ => trivial)
  exact ⟨of_decide_eq_true (demand_eq_ok hle), rfl⟩

theorem ends_addConstraint (p : Posting P) :
    Ends (addConstraint p) e (fun r e' =>
      (¬ (e.level = 0 ∧ e.contradiction = none) ∧ r.isOk = false ∧ e' = e) ∨
      (e.level = 0 ∧ e.contradiction = none ∧ ∃ id e₁ settled, add p e = .ok id e₁ ∧
        settle e₁ = .ok settled e' ∧ r.isOk = settled.isOk))
      fun _ _ => True := by
  refine ends_bind (ends_get (ends_ite (fun hroot => ?_) fun hroot => ?_))
  · exact Or.inl ⟨fun h => hroot h.1, rfl, rfl⟩
  refine ends_ite (fun hc => ?_) fun hc => ?_
  · exact Or.inl ⟨fun h => absurd hc (by simp [h.2]), rfl, rfl⟩
  refine ends_self.bind fun id e₁ hadd => ends_bind ?_
  have hroot : e.level = 0 := not_not.1 hroot
  have hc : e.contradiction = none := Option.not_isSome_iff_eq_none.1 hc
  unfold Ends
  cases hs : settle e₁ with
  | error f e₂ => exact trivial
  | ok settled e₂ => cases settled <;> exact Or.inr ⟨hroot, hc, id, e₁, _, hadd, hs, rfl⟩

theorem ends_popCheckpoint :
    Ends popCheckpoint e (fun _ e' => restoreTo (e.level - 1) e = .ok () e') fun _ _ => True := by
  refine ends_bind (ends_get (ends_bind (ends_checked (fun _ _ => ?_) fun _ => trivial)))
  exact ends_self

/-- The domain that a move makes, if it makes one. -/
def Move.makes : Move P → Option (Option Domain)
  | .newInterval lo hi => some (some (.interval lo hi))
  | .newListed values => some (Domain.listed values)
  | .newEnumerated lo hi => some (Domain.full lo hi)
  | _ => none

theorem ends_makes {move : Move P} {made : Option Domain} (hmakes : move.makes = some made) :
    Ends move.play e (fun settled e' => settled = false ∧ ∃ d, made = some d ∧ e' = e.grown d)
      fun _ _ => True := by
  cases move with
  | newInterval lo hi =>
      obtain rfl := Option.some.inj hmakes
      exact (ends_newInterval lo hi).bind fun _ _ h => ends_pure ⟨rfl, _, rfl, h.2⟩
  | newListed values =>
      obtain rfl := Option.some.inj hmakes
      exact (ends_addIfAny _).bind fun _ _ h => ends_pure ⟨rfl, h⟩
  | newEnumerated lo hi =>
      obtain rfl := Option.some.inj hmakes
      exact (ends_addIfAny _).bind fun _ _ h => ends_pure ⟨rfl, h⟩
  | _ => exact nomatch hmakes

/-- Every move that can be made has one of the outcomes. -/
theorem outcome_of_play {move : Move P} {settled : Bool} {e' : Engine P}
    (hwf : e.domains.table.WellFormed) (h : move.play e = .ok settled e') :
    Outcome e move settled e' := by
  suffices hends : Ends move.play e (fun settled e' => Outcome e move settled e') fun _ _ => True from
    hends.of_ok h
  cases move with
  | newInterval lo hi =>
      refine (ends_newInterval lo hi).bind fun _ e₁ h₁ => ?_
      obtain ⟨hle, rfl⟩ := h₁
      exact ends_pure (.grown fun hr => Domain.wellFormed_interval hle hr.1 hr.2)
  | newListed values =>
      refine (ends_addIfAny _).bind fun _ e₁ h₁ => ?_
      obtain ⟨d, hd, rfl⟩ := h₁
      exact ends_pure (.grown fun hr => Domain.wellFormed_listed hd hr)
  | newEnumerated lo hi =>
      refine (ends_addIfAny _).bind fun _ e₁ h₁ => ?_
      obtain ⟨d, hd, rfl⟩ := h₁
      exact ends_pure (.grown fun hr => Domain.wellFormed_full hd hr.1 hr.2)
  | add p =>
      refine (ends_add p).bind fun _ e₁ h₁ => ?_
      obtain ⟨notifier, journal, rfl, hwatched⟩ := h₁
      exact ends_pure (.joined hwatched)
  | addConstraint p =>
      refine (ends_addConstraint p).bind fun r e₁ h₁ => ?_
      rcases h₁ with ⟨-, hr, rfl⟩ | ⟨hroot, -, id, e₂, settled, hadd, hs, hr⟩
      · refine ends_pure ?_
        rw [hr]
        exact .unchanged
      · refine ends_pure ?_
        obtain ⟨notifier, journal, rfl, hwatched⟩ := (ends_add p).of_ok hadd
        rw [hr]
        exact .constrained hroot hwatched hs
  | replace id p =>
      refine (ends_replace id p).bind fun _ e₁ h₁ => ?_
      rw [h₁]
      exact ends_pure .replaced
  | impose x r =>
      refine (ends_impose x r hwf).bind fun _ e₁ h₁ => ?_
      obtain ⟨domains, hn, rfl⟩ := h₁
      exact ends_pure (.narrowed hn)
  | forceFull id =>
      refine ends_bind (ends_requestPass fun p hp => ?_)
      exact ends_pure (.forced hp)
  | settle => exact ends_self.bind fun r e₁ hs => ends_pure (.settled hs)
  | newCheckpoint =>
      refine ends_newCheckpoint.bind fun _ e₁ h₁ => ?_
      obtain ⟨hrequests, hpending, hc, journal, rfl⟩ := h₁
      exact ends_pure (.marked hrequests hpending hc)
  | restoreTo k =>
      refine (ends_restoreTo k).bind fun _ e₁ h₁ => ?_
      rcases h₁ with ⟨-, rfl⟩ | ⟨domains, cells, journal, hdomains, hcells, rfl⟩
      · exact ends_pure .unchanged
      · exact ends_pure (.rewound hdomains hcells)
  | popCheckpoint =>
      refine ends_bind (ends_bind (ends_get (ends_bind (ends_checked (fun _ _ => ?_)
        fun _ => trivial))))
      refine (ends_restoreTo _).imp fun _ e₁ h₁ => ?_
      rcases h₁ with ⟨-, rfl⟩ | ⟨domains, cells, journal, hdomains, hcells, rfl⟩
      · exact ends_pure .unchanged
      · exact ends_pure (.rewound hdomains hcells)

end Outcome

/-! ### Consistency -/

/-- Domains and cells can be trusted, now and after a rewind, and the watches and the agenda fit
them. -/
structure Consistent (e : Engine P) : Prop where
  workspace : e.toWorkspace.WellFormed
  pasts : ∀ k < e.level, (e.domains.past k).WellFormed
  watches_size : e.notifier.watches.size = e.domains.table.size
  waiting_eq : e.agenda.waiting = e.agenda.requests.length
  nodup : (e.agenda.requests.map Request.propagator).Nodup

theorem wellFormed_newCells {cells : Cells} (h : cells.WellFormed) (integers : List Int)
    (sets : List Nat) :
    (sets.foldl Cells.newSet (integers.foldl Cells.newInteger cells)).WellFormed ∧
      (sets.foldl Cells.newSet (integers.foldl Cells.newInteger cells)).level = cells.level := by
  induction integers generalizing cells with
  | cons v rest ih => exact ih (Cells.wellFormed_newInteger h v)
  | nil =>
      change (sets.foldl Cells.newSet cells).WellFormed ∧ (sets.foldl Cells.newSet cells).level = _
      induction sets generalizing cells with
      | nil => exact ⟨h, rfl⟩
      | cons n rest ih => exact ih (Cells.wellFormed_newSet h n)

theorem wellFormed_pushed {t : Table DomainId Domain} (h : t.WellFormed) {d : Domain}
    (hd : d.WellFormed) : (t.push d).WellFormed := by
  intro id d' hd'
  rw [Table.get?_push] at hd'
  split at hd'
  · exact Option.some.inj hd' ▸ hd
  · exact h id d' hd'

namespace Consistent

variable {e : Engine P} (h : Consistent e)
include h

theorem told (notices : List Notice) : Consistent (e.told notices) where
  workspace := ⟨h.workspace.table, h.workspace.recorded, h.workspace.cells, h.workspace.level_eq⟩
  pasts := h.pasts
  watches_size := h.watches_size
  waiting_eq := h.waiting_eq
  nodup := h.nodup

theorem delivered (rest : List (Listener × EventSet)) : Consistent (e.delivered rest) :=
  ⟨h.workspace, h.pasts, h.watches_size, h.waiting_eq, h.nodup⟩

theorem met {r : Request} {rest : List Request} (hr : e.agenda.requests = r :: rest) :
    Consistent (e.met rest) where
  workspace := h.workspace
  pasts := h.pasts
  watches_size := h.watches_size
  waiting_eq := by
    change e.agenda.waiting - 1 = rest.length
    rw [h.waiting_eq, hr]
    rfl
  nodup := by
    have hnodup := h.nodup
    rw [hr] at hnodup
    exact (List.nodup_cons.1 hnodup).2

theorem worked {cause : Cause} {w : Workspace (Propagator.Note P)}
    (hp : Workspace.Progress cause e.toWorkspace w) : Consistent (e.worked w) where
  workspace := hp.wellFormed h.workspace
  pasts k hk := by
    have hk : k < e.domains.level := hk.trans_eq hp.narrows.trail_eq.1
    change (w.domains.past k).WellFormed
    rw [hp.narrows.past_eq h.workspace.table hk]
    exact h.pasts k hk
  watches_size := h.watches_size.trans hp.narrows.size_eq.symm
  waiting_eq := h.waiting_eq
  nodup := h.nodup

theorem narrowed {B : DomainId → Prop} {cause : Cause} {domains : Domains}
    (hn : Domains.Narrows B cause e.domains domains) : Consistent { e with domains } :=
  h.worked (w := ⟨domains, e.cells, e.journal⟩)
    ⟨hn.mono fun _ _ => trivial, .refl h.workspace.cells⟩

theorem requested (id : PropagatorId) (priority : Priority) (passes : Passes) :
    Consistent { e with agenda := e.agenda.request id priority passes } :=
  ⟨h.workspace, h.pasts, h.watches_size, Agenda.waiting_request h.waiting_eq id priority passes,
    Agenda.nodup_request h.nodup⟩

theorem answered (id : PropagatorId) (p : P) (response : Response) :
    Consistent (e.answered id p response) := by
  cases response with
  | enqueue => exact h.requested id _ _
  | skip => exact h

theorem failed (c : Contradiction) : Consistent (e.fail c) :=
  ⟨⟨h.workspace.table, h.workspace.recorded, h.workspace.cells, h.workspace.level_eq⟩, h.pasts,
    h.watches_size, rfl, List.nodup_nil⟩

theorem grown {d : Domain} (hd : d.WellFormed) : Consistent (e.grown d) where
  workspace := by
    refine ⟨wellFormed_pushed h.workspace.table hd, fun r hr => ?_, h.workspace.cells,
      h.workspace.level_eq⟩
    change r.1.index < (e.domains.table.push d).size
    rw [Table.size_push]
    exact Nat.lt_succ_of_lt (h.workspace.recorded r hr)
  pasts k hk := by
    change ((e.domains.push d).past k).WellFormed
    rw [Domains.past_push _ h.workspace.recorded]
    exact wellFormed_pushed (h.pasts k hk) hd
  watches_size := by
    change (e.notifier.watches.push []).size = (e.domains.table.push d).size
    rw [Table.size_push, Table.size_push, h.watches_size]
  waiting_eq := h.waiting_eq
  nodup := h.nodup

theorem joined {p : Posting P} {notifier : Notifier} {journal : Array (Message (Propagator.Note P))}
    (hwatched : Watched e.notifier notifier e.propagators.nextKey p.interests) :
    Consistent (e.joined p notifier journal) := by
  obtain ⟨hcells, hlevel⟩ := wellFormed_newCells h.workspace.cells p.integers p.sets
  exact ⟨⟨h.workspace.table, h.workspace.recorded, hcells, hlevel.trans h.workspace.level_eq⟩,
    h.pasts, hwatched.size_eq.trans h.watches_size, Agenda.waiting_request h.waiting_eq _ _ _,
    Agenda.nodup_request h.nodup⟩

theorem marked (journal : Array (Message (Propagator.Note P))) :
    Consistent (e.entered journal) where
  workspace := by
    refine ⟨h.workspace.table, fun r hr => ?_, Cells.wellFormed_mark h.workspace.cells, ?_⟩
    · exact h.workspace.recorded r ((Trail.mem_frames_mark _).1 hr)
    · change e.cells.mark.level = e.domains.mark.level
      rw [Cells.level_mark, Domains.level_mark, h.workspace.level_eq]
  pasts k hk := by
    have hk : k ≤ e.domains.level := Nat.le_of_lt_succ (hk.trans_eq (Domains.level_mark _))
    change (e.domains.mark.past k).WellFormed
    rw [Domains.past_mark _ hk]
    rcases Nat.lt_or_eq_of_le hk with hk | rfl
    · exact h.pasts k hk
    · rw [Domains.past_level]
      exact h.workspace.table
  watches_size := h.watches_size
  waiting_eq := h.waiting_eq
  nodup := h.nodup

theorem rewound {k : Nat} {domains : Domains} {cells : Cells}
    {journal : Array (Message (Propagator.Note P))} (hdomains : e.domains.rewind k = .ok domains)
    (hcells : e.cells.rewind k = .ok cells) : Consistent (e.rewound domains cells journal) := by
  obtain ⟨hk, htable, htrail, -⟩ := Domains.rewind_eq_ok hdomains
  obtain ⟨-, hwf, hlevel, -⟩ := Cells.rewind_eq_ok h.workspace.cells hcells
  have hlevel' : domains.level = k := by
    rw [Domains.level, htrail, Trail.level_below _ (Nat.le_of_lt hk)]
  refine ⟨⟨htable ▸ h.pasts k hk, h.workspace.recorded.rewind hdomains, hwf,
    hlevel.trans hlevel'.symm⟩, fun j hj => ?_, ?_, rfl, List.nodup_nil⟩
  · have hj : j < k := hj.trans_eq hlevel'
    change (domains.past j).WellFormed
    rw [Domains.past_of_rewind hdomains (Nat.le_of_lt hj)]
    exact h.pasts j (hj.trans hk)
  · change e.notifier.watches.size = domains.table.size
    rw [htable, Domains.size_past, h.watches_size]

end Consistent

theorem closed_consistent : Closed (Consistent (P := P)) Consistent := by
  refine ⟨fun h _ => h.told _, ?_, ?_⟩
  · intro e l events rest p h _ _ _
    refine (Action.progress _ h.workspace).mono (fun response w hp => ?_) fun _ w hp _ _ => ?_
    · exact ((h.delivered rest).worked hp).answered _ _ response
    · exact (h.delivered rest).worked hp
  · intro e r rest p h _ hr _
    refine (Action.progress _ h.workspace).mono (fun _ w hp => ?_) fun _ w hp _ _ => ?_
    · exact (h.met hr).worked hp
    · exact (h.met hr).worked hp

theorem Consistent.settle {e e' : Engine P} (h : Consistent e) {r : Except Contradiction Unit}
    (hs : Engine.settle e = .ok r e') : Consistent e' :=
  closed_consistent.settle (fun c h => h.failed c) h hs

theorem consistent_init (skipsOwn : Bool) : Consistent (init skipsOwn : Engine P) where
  workspace := by
    refine ⟨fun id d hd => ?_, fun r hr => ?_, Cells.wellFormed_init, rfl⟩
    · exact absurd (Table.lt_size_of_get? hd) (Nat.not_lt_zero _)
    · simp [init, Trail.frames] at hr
  pasts k hk := absurd hk (Nat.not_lt_zero k)
  watches_size := rfl
  waiting_eq := rfl
  nodup := List.nodup_nil

theorem Consistent.outcome {e e' : Engine P} (h : Consistent e) {move : Move P} {settled : Bool}
    (hrange : move.InRange) (ho : Outcome e move settled e') : Consistent e' := by
  cases ho with
  | unchanged => exact h
  | grown hd => exact h.grown (hd hrange)
  | joined hwatched => exact h.joined hwatched
  | constrained _ hwatched hsettle => exact (h.joined hwatched).settle hsettle
  | replaced => exact ⟨h.workspace, h.pasts, h.watches_size, h.waiting_eq, h.nodup⟩
  | narrowed hn => exact h.narrowed hn
  | forced _ => exact h.requested _ _ _
  | settled hsettle => exact h.settle hsettle
  | marked _ _ _ => exact h.marked _
  | rewound hdomains hcells => exact h.rewound hdomains hcells

theorem requests_eq_nil {e : Engine P} (h : Consistent e) (hempty : e.agenda.isEmpty = true) :
    e.agenda.requests = [] := by
  have hwaiting := beq_iff_eq.1 hempty
  rw [h.waiting_eq] at hwaiting
  exact List.eq_nil_of_length_eq_zero hwaiting

/-- A fixed point leaves nothing waiting. -/
theorem idle_of_settle {e e' : Engine P} {u : Unit} (hs : settle e = .ok (.ok u) e') : e'.Idle := by
  cases hc : e.contradiction with
  | some c =>
      rw [settle_of_contradiction hc] at hs
      exact nomatch (EStateM.Result.ok.inj hs).1
  | none =>
      have hclosed : Closed (fun _ : Engine P => True) fun _ => True :=
        ⟨fun _ _ => trivial, fun _ _ _ _ =>
          .of_all (fun _ _ => trivial) fun _ => trivial, fun _ _ _ _ =>
          .of_all (fun _ _ => trivial) fun _ => trivial⟩
      rcases hclosed.settle_eq_ok trivial hc hs with ⟨-, -, hidle⟩ | ⟨c, broken, hr, -⟩
      · exact hidle
      · exact nomatch hr

/-- In a run everything can be trusted, and right after a fixed point nothing waits. -/
theorem Leads.consistent {rules : Rules P} {m m' : Moment P} (h : Leads rules m m')
    (hm : Consistent m.engine ∧ (m.settled = true → m.engine.Idle)) :
    Consistent m'.engine ∧ (m'.settled = true → m'.engine.Idle) := by
  induction h with
  | refl => exact hm
  | step _ hrange hpermit hplay ih =>
      have ho := outcome_of_play ih.1.workspace.table hplay
      refine ⟨ih.1.outcome hrange ho, fun hsettled => ?_⟩
      cases ho with
      | constrained _ _ hs =>
          rename_i r _ _
          cases r with
          | ok u => exact idle_of_settle hs
          | error c => exact nomatch hsettled
      | settled hs =>
          rename_i r
          cases r with
          | ok u => exact idle_of_settle hs
          | error c => exact nomatch hsettled
      | _ => exact nomatch hsettled

/-! ### What propagation leaves alone -/

theorem closed_propagators (propagators : Table PropagatorId P) :
    Closed (fun e : Engine P => e.propagators = propagators)
      fun e => e.propagators = propagators := by
  refine ⟨fun h _ => h, fun h _ _ _ => ?_, fun h _ _ _ => .of_all (fun _ _ => h) fun _ => h⟩
  refine .of_all (fun response _ => ?_) fun _ => h
  cases response <;> exact h

/-- Propagation adds no propagator and replaces none. -/
theorem propagators_of_settle {e e' : Engine P} {r : Except Contradiction Unit}
    (hs : Engine.settle e = .ok r e') : e'.propagators = e.propagators :=
  (closed_propagators e.propagators).settle (fun _ h => h) rfl hs

/-- What is true of every propagator that may be added is true of all, if none may be replaced. -/
theorem Reached.forall_propagators {rules : Rules P} {Q : P → Prop} (hreplaces : ¬ rules.replaces)
    (hadds : ∀ e p integers sets, rules.adds e p → Q (p.build integers sets)) {skipsOwn : Bool}
    {m : Moment P} (h : Reached rules skipsOwn m) :
    ∀ id p, m.engine.propagators.get? id = some p → Q p := by
  induction h with
  | refl => exact fun id p hp => absurd (Table.lt_size_of_get? hp) (Nat.not_lt_zero _)
  | @step m' move settled e' hleads hrange hpermit hplay ih =>
      have hconsistent := (hleads.consistent ⟨consistent_init skipsOwn, fun hs => (nomatch hs)⟩).1
      have hjoined : ∀ {p : Posting P} {notifier journal}, rules.adds m'.engine p → ∀ id q,
          (m'.engine.joined p notifier journal).propagators.get? id = some q → Q q := by
        intro p notifier journal hadd id q hq
        rcases Table.eq_or_of_get?_push hq with ⟨-, hold⟩ | ⟨-, rfl⟩
        · exact ih id q hold
        · exact hadds _ _ _ _ hadd
      cases outcome_of_play hconsistent.workspace.table hplay with
      | joined => exact hjoined hpermit
      | constrained hroot _ hs =>
          exact fun id p hp => hjoined (hpermit hroot) id p (propagators_of_settle hs ▸ hp)
      | replaced => exact absurd hpermit hreplaces
      | settled hs => exact fun id p hp => ih id p (propagators_of_settle hs ▸ hp)
      | _ => exact ih

theorem closed_contradiction : Closed (fun e : Engine P => e.contradiction = none) fun _ => True := by
  refine ⟨fun h _ => h, fun h _ _ _ => ?_, fun h _ _ _ => .of_all (fun _ _ => h) fun _ => trivial⟩
  refine .of_all (fun response _ => ?_) fun _ => trivial
  cases response <;> exact h

/-- An engine keeps the contradiction that propagation comes to. -/
theorem contradiction_of_settle {e e' : Engine P} {r : Except Contradiction Unit}
    (hs : Engine.settle e = .ok r e') : r = .ok () ↔ e'.contradiction = none := by
  cases hc : e.contradiction with
  | some c =>
      rw [settle_of_contradiction hc] at hs
      obtain ⟨rfl, rfl⟩ := EStateM.Result.ok.inj hs
      exact iff_of_false (fun hr => nomatch hr) fun hn => nomatch hc.symm.trans hn
  | none =>
      rcases closed_contradiction.settle_eq_ok hc hc hs with ⟨rfl, h, -⟩ | ⟨c, broken, rfl, rfl, -⟩
      · exact iff_of_true rfl h
      · exact iff_of_false (fun hr => nomatch hr) fun hn => nomatch hn

theorem closed_skipsOwn (skipsOwn : Bool) :
    Closed (fun e : Engine P => e.notifier.skipsOwn = skipsOwn)
      fun e => e.notifier.skipsOwn = skipsOwn := by
  refine ⟨fun h _ => h, fun h _ _ _ => ?_, fun h _ _ _ => .of_all (fun _ _ => h) fun _ => h⟩
  refine .of_all (fun response _ => ?_) fun _ => h
  cases response <;> exact h

/-- Whether propagators hear of their own changes is settled when an engine is made. -/
theorem Reached.skipsOwn_eq {rules : Rules P} {skipsOwn : Bool} {m : Moment P}
    (h : Reached rules skipsOwn m) : m.engine.notifier.skipsOwn = skipsOwn := by
  induction h with
  | refl => rfl
  | @step m' move settled e' hleads hrange _ hplay ih =>
      have hconsistent := (hleads.consistent ⟨consistent_init skipsOwn, fun hs => (nomatch hs)⟩).1
      have hsettles : ∀ {e : Engine P} {r : Except Contradiction Unit}, e.notifier.skipsOwn = skipsOwn →
          Engine.settle e = .ok r e' → e'.notifier.skipsOwn = skipsOwn := fun he hs =>
        (closed_skipsOwn skipsOwn).settle (fun _ h => h) he hs
      cases outcome_of_play hconsistent.workspace.table hplay with
      | joined hwatched => exact hwatched.skipsOwn_eq.trans ih
      | constrained _ hwatched hsettle => exact hsettles (hwatched.skipsOwn_eq.trans ih) hsettle
      | settled hsettle => exact hsettles ih hsettle
      | _ => exact ih

end Narrowing.Engine
