import Narrowing.Fault

/-!
How stateful steps end. A step that works on a state ends with an answer or with an error, and in
either case with a state; `Ends` says what is to hold then. The rules below take a step apart along
its sequence, so that a property of a program is shown from the properties of its parts.
-/

namespace Narrowing

variable {ε σ α β : Type}

/-- Started in `s`, the step ends with an answer and a state as in `post`, or with an error and a
state as in `fail`. -/
def Ends (m : EStateM ε σ α) (s : σ) (post : α → σ → Prop) (fail : ε → σ → Prop) : Prop :=
  match m s with
  | .ok a s' => post a s'
  | .error e s' => fail e s'

/-- What a step answers, the state aside. -/
def answerOf : EStateM.Result ε σ α → Except ε α
  | .ok a _ => .ok a
  | .error e _ => .error e

namespace Ends

variable {m : EStateM ε σ α} {f : α → EStateM ε σ β} {s s' : σ}
  {post post' : α → σ → Prop} {fail fail' : ε → σ → Prop}

theorem of_ok (h : Ends m s post fail) {a : α} (he : m s = .ok a s') : post a s' := by
  simpa only [Ends, he] using h

theorem of_error (h : Ends m s post fail) {e : ε} (he : m s = .error e s') : fail e s' := by
  simpa only [Ends, he] using h

/-- An ending may be described more loosely. -/
theorem mono (h : Ends m s post fail) (hpost : ∀ a s', post a s' → post' a s')
    (hfail : ∀ e s', fail e s' → fail' e s') : Ends m s post' fail' := by
  unfold Ends at h ⊢
  split at h
  · exact hpost _ _ h
  · exact hfail _ _ h

theorem imp (h : Ends m s post fail) (hpost : ∀ a s', post a s' → post' a s') :
    Ends m s post' fail :=
  h.mono hpost fun _ _ he => he

/-- Two descriptions of one ending hold together. -/
theorem and (h : Ends m s post fail) (h' : Ends m s post' fail') :
    Ends m s (fun a s' => post a s' ∧ post' a s') (fun e s' => fail e s' ∧ fail' e s') := by
  unfold Ends at h h' ⊢
  split at h
  · next he => exact ⟨h, by simpa only [he] using h'⟩
  · next he => exact ⟨h, by simpa only [he] using h'⟩

end Ends

variable {m : EStateM ε σ α} {f : α → EStateM ε σ β} {s s' : σ} {fail : ε → σ → Prop}

/-- A sequence goes on where its first part leaves off. -/
theorem bind_of_ok {a : α} (h : m s = .ok a s') : (m >>= f) s = f a s' := by
  change EStateM.bind m f s = _
  unfold EStateM.bind
  rw [h]

theorem bind_of_error {e : ε} (h : m s = .error e s') : (m >>= f) s = .error e s' := by
  change EStateM.bind m f s = _
  unfold EStateM.bind
  rw [h]

/-- A sequence ends as its second part does where the first one leaves off. -/
theorem ends_bind {post : β → σ → Prop} (h : Ends m s (fun a s' => Ends (f a) s' post fail) fail) :
    Ends (m >>= f) s post fail := by
  unfold Ends at h ⊢
  cases hm : m s with
  | ok a s' =>
      rw [hm] at h
      rw [bind_of_ok hm]
      exact h
  | error e s' =>
      rw [hm] at h
      rw [bind_of_error hm]
      exact h

theorem Ends.bind {post : α → σ → Prop} {post' : β → σ → Prop} (h : Ends m s post fail)
    (hf : ∀ a s', post a s' → Ends (f a) s' post' fail) : Ends (m >>= f) s post' fail :=
  ends_bind (h.imp hf)

/-- A step ends as it does. -/
theorem ends_self : Ends m s (fun a s' => m s = .ok a s') fun _ _ => True := by
  unfold Ends
  split
  · next he => exact he
  · exact trivial

theorem ends_pure {post : α → σ → Prop} {a : α} (h : post a s) :
    Ends (pure a) s post fail := h

theorem ends_throw {post : α → σ → Prop} {e : ε} (h : fail e s) :
    Ends (throw e) s post fail := h

theorem ends_get {post : σ → σ → Prop} (h : post s s) : Ends get s post fail := h

theorem ends_set {post : PUnit → σ → Prop} (h : post ⟨⟩ s') : Ends (set s') s post fail := h

theorem ends_modify {post : PUnit → σ → Prop} {g : σ → σ} (h : post ⟨⟩ (g s)) :
    Ends (modify g) s post fail := h

theorem ends_ite {post : α → σ → Prop} {m' : EStateM ε σ α} {c : Prop} [Decidable c]
    (ht : c → Ends m s post fail) (hf : ¬ c → Ends m' s post fail) :
    Ends (if c then m else m') s post fail := by
  split
  · next hc => exact ht hc
  · next hc => exact hf hc

end Narrowing
