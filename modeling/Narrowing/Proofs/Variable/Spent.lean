import Narrowing.Proofs.Variable.Alike
import Narrowing.Variable.Hull

/-!
Restrictions without effect. Whether a restriction of a variable has an effect is a matter of the
domain at its bottom alone, whatever else there is and for whatever cause it is made; so what had no
effect once has none as long as that domain stays what it is. This is also true where the values of a
variable do not obey the restriction, as with views of intervals.
-/

namespace Narrowing

open Narrowing.Domains

variable {cause : Cause} {s s' : Domains} {t t' : Table DomainId Domain} {id : DomainId}
  {r : Restriction} {α β : Type}

/-! ### Questions about one domain -/

theorem Domains.concur_of_get? (h : s.table.get? id = s'.table.get? id) :
    Concur (s.answer id) (s'.answer id) := by
  have hsame : s.domain id = s'.domain id := by
    rw [domain, domain, Table.fetch, Table.fetch, h]
  constructor <;> intros <;> simp only [answer, hsame]

theorem Variable.concur_of_get? {x : Variable} (h : s.table.get? x.base = s'.table.get? x.base) :
    Concur (x.answer s) (x.answer s') := by
  induction x with
  | domain id => exact Domains.concur_of_get? h
  | abs x ih => exact (ih h).absolute

theorem Variable.hull_of_get? {x : Variable} {goes : Int → Bool}
    (h : s.table.get? x.base = s'.table.get? x.base) : x.hull s goes = x.hull s' goes := by
  have hconcur := x.concur_of_get? h
  have hraise : ∀ limit n candidate bound,
      x.raise s goes limit n candidate bound = x.raise s' goes limit n candidate bound := by
    intro limit n
    induction n with
    | zero => exact fun _ _ => rfl
    | succ n ih =>
        intro candidate bound
        cases candidate with
        | none => rfl
        | some v => simp only [raise, hconcur.next, ih]
  have hsink : ∀ limit n candidate bound,
      x.sink s goes limit n candidate bound = x.sink s' goes limit n candidate bound := by
    intro limit n
    induction n with
    | zero => exact fun _ _ => rfl
    | succ n ih =>
        intro candidate bound
        cases candidate with
        | none => rfl
        | some v => simp only [sink, hconcur.previous, ih]
  simp only [hull, lower, upper, hconcur.lower, hconcur.upper, hraise, hsink]

/-! ### Steps without effect -/

namespace Domains

/-- `m` takes no report back, and where it makes none it has no effect, and neither has `m'` over any
domains that are the same under `id`. -/
def Repeats (id : DomainId) (m m' : Restricting α) : Prop :=
  ∀ ⦃s a s₁⦄, m s = .ok a s₁ → s.unreported.size ≤ s₁.unreported.size ∧
    (s₁.unreported.size ≤ s.unreported.size → s₁ = s ∧
      ∀ s', s'.table.get? id = s.table.get? id → m' s' = .ok a s')

theorem repeats_pure (id : DomainId) (a : α) : Repeats id (pure a) (pure a) := by
  intro s b s₁ h
  obtain ⟨rfl, rfl⟩ := EStateM.Result.ok.inj h
  exact ⟨Nat.le_refl _, fun _ => ⟨rfl, fun s' _ => rfl⟩⟩

theorem repeats_throw (id : DomainId) (e : Refusal) :
    Repeats id (throw e : Restricting α) (throw e) := fun _ _ _ h => nomatch h

theorem Repeats.bind {m m' : Restricting α} {f f' : α → Restricting β} (h : Repeats id m m')
    (hf : ∀ a, Repeats id (f a) (f' a)) : Repeats id (m >>= f) (m' >>= f') := by
  intro s b s₂ hr
  cases hm : m s with
  | error e s₁ =>
      rw [bind_of_error hm] at hr
      exact nomatch hr
  | ok a s₁ =>
      rw [bind_of_ok hm] at hr
      obtain ⟨hle, hsame⟩ := h hm
      obtain ⟨hle', hsame'⟩ := hf a hr
      refine ⟨hle.trans hle', fun hback => ?_⟩
      obtain ⟨rfl, hagain⟩ := hsame (hle'.trans hback)
      obtain ⟨rfl, hagain'⟩ := hsame' hback
      exact ⟨rfl, fun s' hs' => (bind_of_ok (hagain s' hs')).trans (hagain' s' hs')⟩

theorem repeats_checked (id : DomainId) (c : Checked α) :
    Repeats id (Absolute.checked c) (Absolute.checked c) := by
  cases c with
  | ok a => exact repeats_pure id a
  | error f => exact fun _ _ _ h => nomatch h

theorem repeats_ite {c : Prop} [Decidable c] {m₁ m₁' m₂ m₂' : Restricting α}
    (h₁ : Repeats id m₁ m₁') (h₂ : Repeats id m₂ m₂') :
    Repeats id (if c then m₁ else m₂) (if c then m₁' else m₂') := by
  split
  · exact h₁
  · exact h₂

theorem repeats_ask {x : Variable} {q : Query α} (h : ∀ {s s' : Domains},
    s.table.get? x.base = s'.table.get? x.base → x.answer s _ q = x.answer s' _ q) :
    Repeats x.base (x.ask q) (x.ask q) := by
  intro s a s₁ hr
  unfold Variable.ask at hr
  obtain ⟨hle, hsame⟩ := repeats_checked x.base (x.answer s _ q) hr
  refine ⟨hle, fun hback => ⟨(hsame hback).1, fun s' hs' => ?_⟩⟩
  unfold Variable.ask
  rw [h hs']
  exact (hsame hback).2 s' hs'

theorem size_changeAll (s : Domains) (id : DomainId) (cause : Cause) (changes : List Change) :
    (s.changeAll id cause changes).unreported.size = s.unreported.size + changes.length := by
  induction changes generalizing s with
  | nil => rfl
  | cons c rest ih =>
      rw [changeAll, List.foldl_cons, ← changeAll, ih, change, Array.size_push, List.length_cons]
      omega

/-- A domain makes the changes that its values call for. -/
theorem repeats_restrict (id : DomainId) (r : Restriction) (cause cause' : Cause) :
    Repeats id (Domains.restrict id r cause) (Domains.restrict id r cause') := by
  intro s b s₁ h
  have hdomain : ∀ s' : Domains, s'.table.get? id = s.table.get? id → s'.domain id = s.domain id := by
    intro s' hs'
    rw [domain, domain, Table.fetch, Table.fetch, hs']
  unfold Domains.restrict at h ⊢
  cases hd : s.domain id with
  | error f =>
      rw [hd] at h
      cases h
  | ok d =>
      rw [hd] at h
      dsimp only at h
      cases hplan : d.plan r with
      | error e =>
          rw [hplan] at h
          cases h
      | ok changes =>
          rw [hplan] at h
          obtain ⟨rfl, rfl⟩ := EStateM.Result.ok.inj h
          rw [size_changeAll]
          refine ⟨Nat.le_add_right _ _, fun hback => ?_⟩
          obtain rfl := List.length_eq_zero_iff.1 (by omega : changes.length = 0)
          refine ⟨rfl, fun s' hs' => ?_⟩
          rw [hdomain s' hs', hd]
          dsimp only
          rw [hplan]
          rfl

end Domains

namespace Variable

section Views

variable {x : Variable} {cause' : Cause}
  (hx : ∀ r, Repeats x.base (x.restrict cause r) (x.restrict cause' r))
include hx

theorem repeats_widenGap (v : Int) : Repeats x.base (Absolute.widenGap (x.restrict cause) v)
    (Absolute.widenGap (x.restrict cause') v) :=
  (repeats_checked _ _).bind fun _ => (repeats_checked _ _).bind fun _ => hx _

theorem repeats_clamp (v : Int) : Repeats x.base (Absolute.clamp (x.restrict cause) v)
    (Absolute.clamp (x.restrict cause') v) :=
  (hx _).bind fun _ => (repeats_checked _ _).bind fun _ => (hx _).bind fun _ => repeats_pure _ _

/-- A restriction of a view does again what it did, if those of what it looks at do. -/
theorem repeats_absolute (r : Restriction) : Repeats x.base
    (Absolute.restrict (fun _ q => (Variable.abs x).ask q) (x.restrict cause) r)
    (Absolute.restrict (fun _ q => (Variable.abs x).ask q) (x.restrict cause') r) := by
  have hconcur : ∀ {s s' : Domains}, s.table.get? x.base = s'.table.get? x.base →
      Concur ((Variable.abs x).answer s) ((Variable.abs x).answer s') := fun h =>
    (Variable.abs x).concur_of_get? h
  have hlower : Repeats x.base ((Variable.abs x).ask .lower) ((Variable.abs x).ask .lower) :=
    repeats_ask (x := .abs x) fun h => (hconcur h).lower
  have hupper : Repeats x.base ((Variable.abs x).ask .upper) ((Variable.abs x).ask .upper) :=
    repeats_ask (x := .abs x) fun h => (hconcur h).upper
  have hcontains : ∀ v, Repeats x.base ((Variable.abs x).ask (.contains v))
      ((Variable.abs x).ask (.contains v)) := fun v =>
    repeats_ask (x := .abs x) fun h => (hconcur h).contains v
  cases r with
  | atLeast v =>
      refine hlower.bind fun _ => repeats_ite (repeats_pure _ _) (hupper.bind fun _ => ?_)
      exact repeats_ite (repeats_throw _ _) (repeats_widenGap hx v)
  | atMost v =>
      refine repeats_ite (repeats_throw _ _) (hlower.bind fun _ => ?_)
      refine repeats_ite (repeats_throw _ _) (hupper.bind fun _ => ?_)
      exact repeats_ite (repeats_pure _ _) (repeats_clamp hx v)
  | without v =>
      refine (hcontains v).bind fun _ => repeats_ite (repeats_pure _ _) ?_
      refine hlower.bind fun _ => hupper.bind fun _ => repeats_ite (repeats_throw _ _) ?_
      refine (hx _).bind fun _ => repeats_ite (repeats_pure _ _) ?_
      exact (repeats_checked _ _).bind fun _ => (hx _).bind fun _ => repeats_pure _ _
  | outside lo hi =>
      have hmirrored : Repeats x.base (x.mirrored cause (max lo 0) hi)
          (x.mirrored cause' (max lo 0) hi) :=
        (hx _).bind fun _ => (repeats_checked _ _).bind fun _ => (repeats_checked _ _).bind fun _ =>
          (hx _).bind fun _ => repeats_pure _ _
      refine repeats_ite (repeats_pure _ _) (hlower.bind fun _ => repeats_ite ?_ hmirrored)
      refine hupper.bind fun _ => repeats_ite ?_ hmirrored
      exact (repeats_throw _ _).bind fun _ => hmirrored
  | exactly v =>
      refine (hcontains v).bind fun _ => repeats_ite (repeats_throw _ _) (repeats_ite (hx _) ?_)
      refine (repeats_clamp hx v).bind fun _ => (repeats_widenGap hx v).bind fun _ => ?_
      exact repeats_pure _ _

end Views

/-- Every restriction is a matter of the domain at the bottom. -/
theorem repeats_restrict (x : Variable) (r : Restriction) (cause cause' : Cause) :
    Repeats x.base (x.restrict cause r) (x.restrict cause' r) := by
  induction x generalizing r with
  | domain id => exact Domains.repeats_restrict id r cause cause'
  | abs x ih => exact repeats_absolute ih r

/-! ### Bounds -/

variable {x : Variable} {b : Bool} {v lo hi : Int}

theorem ask_of_ok {q : Query α} {a : α} (h : x.answer s _ q = .ok a) : x.ask q s = .ok a s := by
  unfold ask
  rw [h]
  rfl

theorem ask_of_error {q : Query α} {f : Fault} (h : x.answer s _ q = .error f) :
    x.ask q s = .error (.fault f) s := by
  unfold ask
  rw [h]
  rfl

section Bounds

variable (hlo : x.lower s = .ok lo)
include hlo

theorem restrict_atLeast_of_le (hle : v ≤ lo) : x.restrict cause (.atLeast v) s = .ok false s := by
  cases x with
  | domain id =>
      obtain ⟨d, hd, hlower⟩ := Checked.bind_eq_ok hlo
      obtain rfl := Except.ok.inj hlower
      rw [restrict, Domains.restrict, hd]
      dsimp only [Domain.plan, Domain.planAtLeast]
      rw [if_pos hle]
      rfl
  | abs y =>
      rw [restrict, Absolute.restrict, Absolute.atLeast, bind_of_ok (ask_of_ok hlo), if_pos hle]
      rfl

variable (hhi : x.upper s = .ok hi)
include hhi

theorem restrict_atLeast_of_lt (hlt : lo < v) (hout : hi < v) :
    x.restrict cause (.atLeast v) s = .error .empty s := by
  cases x with
  | domain id =>
      obtain ⟨d, hd, hlower⟩ := Checked.bind_eq_ok hlo
      obtain rfl := Except.ok.inj hlower
      obtain ⟨d', hd', hupper⟩ := Checked.bind_eq_ok hhi
      obtain rfl := Except.ok.inj (hd.symm.trans hd')
      obtain rfl := Except.ok.inj hupper
      rw [restrict, Domains.restrict, hd]
      dsimp only [Domain.plan, Domain.planAtLeast]
      rw [if_neg (not_le.2 hlt), if_pos hout]
  | abs y =>
      rw [restrict, Absolute.restrict, Absolute.atLeast, bind_of_ok (ask_of_ok hlo),
        if_neg (not_le.2 hlt), bind_of_ok (ask_of_ok hhi), if_pos hout]
      rfl

theorem restrict_atMost_of_le (h0 : lo ≤ v) (hle : hi ≤ v) (hwf : s.table.WellFormed) :
    x.restrict cause (.atMost v) s = .ok false s := by
  cases x with
  | domain id =>
      obtain ⟨d, hd, hupper⟩ := Checked.bind_eq_ok hhi
      obtain rfl := Except.ok.inj hupper
      rw [restrict, Domains.restrict, hd]
      dsimp only [Domain.plan, Domain.planAtMost]
      rw [if_pos hle]
      rfl
  | abs y =>
      obtain ⟨u, -, hu⟩ := mem_current.1 (((Variable.abs y).describes_answer hwf).lower hlo).1
      have := hu ▸ image_nonneg y u
      rw [restrict, Absolute.restrict, Absolute.atMost, if_neg (by omega),
        bind_of_ok (ask_of_ok hlo), if_neg (by omega), bind_of_ok (ask_of_ok hhi), if_pos hle]
      rfl

theorem restrict_atMost_of_lt (hlt : v < hi) (hout : v < lo) :
    x.restrict cause (.atMost v) s = .error .empty s := by
  cases x with
  | domain id =>
      obtain ⟨d, hd, hlower⟩ := Checked.bind_eq_ok hlo
      obtain rfl := Except.ok.inj hlower
      obtain ⟨d', hd', hupper⟩ := Checked.bind_eq_ok hhi
      obtain rfl := Except.ok.inj (hd.symm.trans hd')
      obtain rfl := Except.ok.inj hupper
      rw [restrict, Domains.restrict, hd]
      dsimp only [Domain.plan, Domain.planAtMost]
      rw [if_neg (not_le.2 hlt), if_pos hout]
  | abs y =>
      rw [restrict, Absolute.restrict, Absolute.atMost]
      split
      · rfl
      · rw [bind_of_ok (ask_of_ok hlo), if_pos hout]
        rfl

end Bounds

/-! ### Spent restrictions -/

/-- The restriction has no effect on the variable, whatever there is besides its domain. -/
def Spent (x : Variable) (t : Table DomainId Domain) (r : Restriction) : Prop :=
  ∀ cause (s : Domains), s.table.get? x.base = t.get? x.base → ∃ b, x.restrict cause r s = .ok b s

theorem Spent.of_get? (h : x.Spent t r) (hsame : t'.get? x.base = t.get? x.base) : x.Spent t' r :=
  fun cause s hs => h cause s (hs.trans hsame)

/-- A restriction that gave nothing to report had no effect, and will have none. -/
theorem spent_of_restrict (h : x.restrict cause r s = .ok b s')
    (hsize : s'.unreported.size ≤ s.unreported.size) : s' = s ∧ x.Spent s.table r := by
  obtain ⟨rfl, -⟩ := (x.repeats_restrict r cause cause h).2 hsize
  refine ⟨rfl, fun cause' s₁ hs₁ => ⟨b, ?_⟩⟩
  exact ((x.repeats_restrict r cause cause' h).2 hsize).2 s₁ hs₁

section Current

variable (hwf : s.table.WellFormed) (hlo : x.lower s = .ok lo) (hhi : x.upper s = .ok hi)
include hwf hlo

/-- A lower bound of which no value falls short has no effect. -/
theorem spent_atLeast (hall : ∀ u ∈ x.current s.table, v ≤ u) : x.Spent s.table (.atLeast v) := by
  intro cause s' hs'
  have hlo' : x.lower s' = .ok lo := (x.concur_of_get? hs').lower.trans hlo
  exact ⟨false, restrict_atLeast_of_le hlo' (hall lo ((x.describes_answer hwf).lower hlo).1)⟩

include hhi

/-- An upper bound that no value exceeds has no effect. -/
theorem spent_atMost (hall : ∀ u ∈ x.current s.table, u ≤ v) : x.Spent s.table (.atMost v) := by
  have hlov := hall lo ((x.describes_answer hwf).lower hlo).1
  have hhiv := hall hi ((x.describes_answer hwf).upper hhi).1
  have hsame : x.restrict .decision (.atMost v) s = .ok false s :=
    restrict_atMost_of_le hlo hhi hlov hhiv hwf
  exact (spent_of_restrict hsame (Nat.le_refl _)).2

omit hwf hlo hhi

/-- An upper bound that has no effect was compared with both bounds. -/
theorem Spent.exists_bounds (h : x.Spent s.table (.atMost v)) :
    ∃ lo hi, x.lower s = .ok lo ∧ x.upper s = .ok hi := by
  obtain ⟨b, hb⟩ := h .decision s rfl
  cases x with
  | domain id =>
      cases hd : s.domain id with
      | error f =>
          rw [restrict, Domains.restrict, hd] at hb
          exact nomatch hb
      | ok d =>
          refine ⟨d.lower, d.upper, ?_, ?_⟩
          · exact congrArg (· >>= fun d => pure d.lower) hd
          · exact congrArg (· >>= fun d => pure d.upper) hd
  | abs y =>
      rw [restrict, Absolute.restrict, Absolute.atMost] at hb
      split at hb
      · exact nomatch hb
      cases hlo : (abs y).lower s with
      | error f =>
          rw [bind_of_error (ask_of_error hlo)] at hb
          exact nomatch hb
      | ok lo =>
          rw [bind_of_ok (ask_of_ok hlo)] at hb
          split at hb
          · exact nomatch hb
          cases hhi : (abs y).upper s with
          | error f =>
              rw [bind_of_error (ask_of_error hhi)] at hb
              exact nomatch hb
          | ok hi => exact ⟨lo, hi, rfl, rfl⟩

include hwf hlo hhi

/-- A lower bound that has no effect is at most the greatest value. -/
theorem Spent.le_upper (h : x.Spent s.table (.atLeast v)) : v ≤ hi := by
  obtain ⟨b, hb⟩ := h .decision s rfl
  have hle := ((x.describes_answer hwf).upper hhi).2 lo ((x.describes_answer hwf).lower hlo).1
  by_contra hlt
  rw [restrict_atLeast_of_lt hlo hhi (by omega) (by omega)] at hb
  exact nomatch hb

/-- An upper bound that has no effect is at least the smallest value. -/
theorem Spent.lower_le (h : x.Spent s.table (.atMost v)) : lo ≤ v := by
  obtain ⟨b, hb⟩ := h .decision s rfl
  have hle := ((x.describes_answer hwf).upper hhi).2 lo ((x.describes_answer hwf).lower hlo).1
  by_contra hlt
  rw [restrict_atMost_of_lt hlo hhi (by omega) (by omega)] at hb
  exact nomatch hb

end Current

end Variable

end Narrowing
