import SsaReplay.Proofs.Success.Statement

namespace SsaReplay.Replay

-- The state that a walk ends in, whether or not it gets through.
def ending {α : Type} (x : Walk α) (s : State) : State :=
  match x s with
  | .ok _ t | .error _ t => t

-- From a state where the invariant holds, a walk gets through with a result as described, or
-- it stops in a way that it may stop in. The invariant holds in the end, however it ends.
def ComesTo {α : Type} (inv : State → Prop) (stop : Halt → Prop) (x : Walk α) (s : State)
    (Q : α → State → Prop) : Prop :=
  inv s →
    match x s with
    | .ok a t => inv t ∧ Q a t
    | .error h t => inv t ∧ stop h

section Ending

variable {α : Type} {x : Walk α} {s t : State}

theorem ending_of_ok {a : α} (h : x s = .ok a t) : ending x s = t := by
  rw [ending, h]

theorem ending_of_error {e : Halt} (h : x s = .error e t) : ending x s = t := by
  rw [ending, h]

theorem ending_closing {close : State → State} :
    ending (closing close x) s = close (ending x s) := by
  unfold ending
  rw [closing_eq]
  cases x s <;> rfl

end Ending

namespace ComesTo

variable {α β : Type} {inv : State → Prop} {stop : Halt → Prop} {s : State}
  {Q : α → State → Prop}

theorem pure {a : α} (h : Q a s) : ComesTo inv stop (pure a) s Q := fun hs => ⟨hs, h⟩

theorem bind {x : Walk β} {f : β → Walk α}
    (h : ComesTo inv stop x s fun b t => ComesTo inv stop (f b) t Q) :
    ComesTo inv stop (x >>= f) s Q := by
  intro hs
  have first := h hs
  change match EStateM.bind x f s with
    | .ok a t => inv t ∧ Q a t
    | .error h t => inv t ∧ stop h
  unfold EStateM.bind
  cases hr : x s with
  | ok b t =>
      rw [hr] at first
      exact first.2 first.1
  | error h t =>
      rw [hr] at first
      exact first

theorem mono {x : Walk α} {P : α → State → Prop} (h : ComesTo inv stop x s P)
    (hp : ∀ a t, P a t → Q a t) : ComesTo inv stop x s Q := by
  intro hs
  have first := h hs
  cases hr : x s with
  | ok a t =>
      rw [hr] at first
      exact first.imp_right (hp a t)
  | error e t =>
      rw [hr] at first
      exact first

-- What a run comes to may be read off the run itself as well.
theorem with_run {x : Walk α} (h : ComesTo inv stop x s Q) :
    ComesTo inv stop x s fun a t => Q a t ∧ x s = .ok a t := by
  intro hs
  have first := h hs
  cases hr : x s with
  | ok a t =>
      rw [hr] at first
      exact ⟨first.1, first.2, rfl⟩
  | error e t =>
      rw [hr] at first
      exact first

theorem at_end {x : Walk α} (h : ComesTo inv stop x s Q) (hs : inv s) : inv (ending x s) := by
  have whole := h hs
  cases hr : x s with
  | ok a t =>
      rw [hr] at whole
      exact ending_of_ok hr ▸ whole.1
  | error e t =>
      rw [hr] at whole
      exact ending_of_error hr ▸ whole.1

theorem of_error {x : Walk α} {e : Halt} {t : State} (h : ComesTo inv stop x s Q) (hs : inv s)
    (hr : x s = .error e t) : stop e := by
  have whole := h hs
  rw [hr] at whole
  exact whole.2

theorem ite {c : Prop} [Decidable c] {x y : Walk α} (hx : c → ComesTo inv stop x s Q)
    (hy : ¬c → ComesTo inv stop y s Q) : ComesTo inv stop (if c then x else y) s Q := by
  by_cases h : c
  · rw [if_pos h]
    exact hx h
  · rw [if_neg h]
    exact hy h

theorem get {Q : State → State → Prop} (h : Q s s) : ComesTo inv stop get s Q :=
  fun hs => ⟨hs, h⟩

theorem modify {f : State → State} {Q : Unit → State → Prop} (hi : inv s → inv (f s))
    (h : Q () (f s)) : ComesTo inv stop (modify f) s Q :=
  fun hs => ⟨hi hs, h⟩

theorem throw {h : Halt} (hh : stop h) : ComesTo inv stop (throw h) s Q := fun hs => ⟨hs, hh⟩

-- What is set right in the end, is so however the walk ends.
theorem closing {close : State → State} {x : Walk α} (hi : ∀ t, inv t → inv (close t))
    (h : ComesTo inv stop x s fun a t => Q a (close t)) :
    ComesTo inv stop (closing close x) s Q := by
  intro hs
  have inside := h hs
  rw [closing_eq]
  cases hr : x s with
  | ok a t =>
      rw [hr] at inside
      exact ⟨hi t inside.1, inside.2⟩
  | error e t =>
      rw [hr] at inside
      exact ⟨hi t inside.1, inside.2⟩

-- Of the replay of another graph, only its warnings and its history are kept.
theorem apart {graph : Graph.Cfg} {act : Walk Unit} {Q : Unit → State → Prop}
    (hin : inv s → inv (s.apartOn graph))
    (hout : ∀ t, inv t → inv { s with warnings := t.warnings, history := t.history })
    (h : ComesTo inv stop act (s.apartOn graph) fun _ _ => True)
    (hq : ∀ warnings history, Q () { s with warnings, history }) :
    ComesTo inv stop (apart graph act) s Q := by
  intro hs
  have inside := h (hin hs)
  unfold State.apartOn at inside
  unfold Replay.apart
  cases hr : act { State.start graph with warnings := s.warnings, history := s.history } with
  | ok u t =>
      rw [hr] at inside
      exact ⟨hout t inside.1, hq _ _⟩
  | error e t =>
      rw [hr] at inside
      exact ⟨hout t inside.1, inside.2⟩

end ComesTo

end SsaReplay.Replay
