import Mathlib.Logic.Basic
import SsaReplay.Replay.State

namespace SsaReplay.Replay

-- When an action succeeds, and in what state it ends. Each equivalence leads back to
-- the parts of the action, so that `simp` takes a walk apart.

section Walk

variable {α β : Type} {ctx : Context} {s t : State}

@[simp] theorem pure_eq_ok {a b : α} : (pure a : Walk α) s = .ok b t ↔ a = b ∧ s = t := by
  constructor
  · intro h
    cases h
    exact ⟨rfl, rfl⟩
  · rintro ⟨rfl, rfl⟩
    rfl

@[simp] theorem bind_eq_ok {x : Walk α} {f : α → Walk β} {b : β} :
    (x >>= f) s = .ok b t ↔ ∃ a u, x s = .ok a u ∧ f a u = .ok b t := by
  change EStateM.bind x f s = _ ↔ _
  unfold EStateM.bind
  cases hx : x s with
  | ok a u => simp [and_assoc]
  | error h u => simp

@[simp] theorem map_eq_ok {f : α → β} {x : Walk α} {b : β} :
    (f <$> x) s = .ok b t ↔ ∃ a, x s = .ok a t ∧ f a = b := by
  change EStateM.map f x s = _ ↔ _
  unfold EStateM.map
  cases hx : x s with
  | ok a u =>
      simp only [EStateM.Result.ok.injEq]
      constructor
      · rintro ⟨rfl, rfl⟩
        exact ⟨a, ⟨rfl, rfl⟩, rfl⟩
      · rintro ⟨_, ⟨rfl, rfl⟩, rfl⟩
        exact ⟨rfl, rfl⟩
  | error h u => simp

@[simp] theorem ite_eq_ok {c : Prop} [Decidable c] {x y : Walk α} {a : α} :
    (if c then x else y) s = .ok a t ↔ c ∧ x s = .ok a t ∨ ¬c ∧ y s = .ok a t := by
  by_cases h : c <;> simp [h]

@[simp] theorem get_eq_ok {u : State} : (get : Walk State) s = .ok u t ↔ s = u ∧ s = t :=
  pure_eq_ok

@[simp] theorem modify_eq_ok {f : State → State} {u : Unit} :
    (modify f : Walk Unit) s = .ok u t ↔ f s = t := by
  constructor
  · intro h
    cases h
    rfl
  · rintro rfl
    rfl

@[simp] theorem throw_ne_ok {h : Halt} {a : α} : (throw h : Walk α) s ≠ .ok a t := nofun

@[simp] theorem record_eq_ok {e : Event} {u : Unit} :
    record ctx e s = .ok u t ↔ s.log ctx.site e = t := modify_eq_ok

@[simp] theorem setBindings_eq_ok {b : Bindings} {u : Unit} :
    setBindings b s = .ok u t ↔ { s with bindings := b } = t := modify_eq_ok

@[simp] theorem reject_ne_ok {m : Mismatch} {l : Location} {a : α} :
    (reject ctx m l : Walk α) s ≠ .ok a t := by
  simp [reject]

@[simp] theorem rejectOperation_ne_ok {m : Mismatch} {a : α} :
    (rejectOperation ctx m : Walk α) s ≠ .ok a t := by
  simp [rejectOperation]

@[simp] theorem rejectBlock_ne_ok {m : Mismatch} {a : α} :
    (rejectBlock ctx m : Walk α) s ≠ .ok a t := by
  simp [rejectBlock]

@[simp] theorem orReject_eq_ok {m : Mismatch} {o : Option α} {a : α} :
    orReject ctx m o s = .ok a t ↔ o = some a ∧ s = t := by
  cases o <;> simp [orReject]

theorem closing_eq (close : State → State) (act : Walk α) (s : State) :
    closing close act s = match act s with
      | .ok a t => .ok a (close t)
      | .error h t => .error h (close t) := by
  unfold closing tryFinally
  simp only [Functor.map, EStateM.map, tryFinally']
  cases act s <;> rfl

@[simp] theorem closing_eq_ok {close : State → State} {act : Walk α} {a : α} :
    closing close act s = .ok a t ↔ ∃ u, act s = .ok a u ∧ close u = t := by
  rw [closing_eq]
  cases act s <;> simp [and_assoc]

@[simp] theorem inScope_eq_ok {scope : ScopeId} {act : Walk α} {a : α} :
    inScope scope act s = .ok a t ↔
      ∃ u, act { s with scope? := some scope } = .ok a u ∧ { u with scope? := s.scope? } = t := by
  simp only [inScope, bind_eq_ok, get_eq_ok, modify_eq_ok, closing_eq_ok]
  constructor
  · rintro ⟨_, _, ⟨rfl, rfl⟩, _, _, rfl, u, h, rfl⟩
    exact ⟨u, h, rfl⟩
  · rintro ⟨u, h, rfl⟩
    exact ⟨_, _, ⟨rfl, rfl⟩, (), _, rfl, u, h, rfl⟩

-- The state after a replay that control falls through.
def after? (body : Walk Bool) (s : State) : Option State :=
  match body s with
  | .ok true t => some t
  | _ => none

theorem after?_eq_some {body : Walk Bool} : after? body s = some t ↔ body s = .ok true t := by
  unfold after?
  split
  · next u hu => simp [hu]
  · next hne => exact ⟨by simp, fun h => absurd h (hne t)⟩

theorem exists_ok_of_isSome_after? {body : Walk Bool} (h : (after? body s).isSome = true) :
    ∃ t, body s = .ok true t :=
  (Option.isSome_iff_exists.mp h).imp fun _ => after?_eq_some.mp

end Walk

namespace State

variable (s : State) (site : Site) (e : Event)

@[simp] theorem log_scope : (s.log site e).scope? = s.scope? := rfl

@[simp] theorem log_block : (s.log site e).block = s.block := rfl

@[simp] theorem log_op : (s.log site e).op = s.op := rfl

@[simp] theorem log_bindings : (s.log site e).bindings = s.bindings := rfl

@[simp] theorem log_loops : (s.log site e).loops = s.loops := rfl

@[simp] theorem log_warnings : (s.log site e).warnings = s.warnings := rfl

@[simp] theorem log_history : (s.log site e).history = ⟨site, e⟩ :: s.history := rfl

end State

end SsaReplay.Replay
