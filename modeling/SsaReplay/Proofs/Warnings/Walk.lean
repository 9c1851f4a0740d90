import SsaReplay.Proofs.Convergence.Loop
import SsaReplay.Proofs.Congruence.Loop

namespace SsaReplay.Replay

-- A walk that warns of nothing, however it ends.
def Quiet {α : Type} (x : Walk α) : Prop := ∀ s, (ending x s).warnings = s.warnings

variable {α β : Type} {ctx : Context} {s t : State} {x : Walk α} {f : α → Walk β}

-- A walk of two parts ends where the second part does, or already in the first part.
theorem ending_bind {P : State → Prop} (stopped : ∀ e, x s = .error e (ending x s) →
    P (ending x s)) (goesOn : ∀ a, x s = .ok a (ending x s) → P (ending (f a) (ending x s))) :
    P (ending (x >>= f) s) := by
  cases h : x s with
  | ok a t =>
      rw [ending_of_ok h] at goesOn
      rw [ending, bind_of_ok h]
      exact goesOn a h
  | error e t =>
      rw [ending_of_error h] at stopped
      rw [ending_of_error (bind_of_error h)]
      exact stopped e h

namespace Quiet

section Rules

theorem pure (a : α) : Quiet (pure a : Walk α) := fun _ => rfl

theorem bind (hx : Quiet x) (hf : ∀ a, Quiet (f a)) : Quiet (x >>= f) := by
  intro s
  have first := hx s
  refine ending_bind (P := fun t => t.warnings = s.warnings) (fun e _ => first) fun a _ => ?_
  exact (hf a _).trans first

theorem ite {c : Prop} [Decidable c] {y : Walk α} (hx : Quiet x) (hy : Quiet y) :
    Quiet (if c then x else y) := by
  split
  · exact hx
  · exact hy

theorem get : Quiet get := fun _ => rfl

theorem modify {f : State → State} (h : ∀ s, (f s).warnings = s.warnings) :
    Quiet (modify f : Walk Unit) := h

theorem throw (h : Halt) : Quiet (throw h : Walk α) := fun _ => rfl

theorem record (e : Event) : Quiet (record ctx e) := modify fun _ => rfl

theorem reject (m : Mismatch) (l : Location) : Quiet (reject ctx m l : Walk α) :=
  bind (record _) fun _ => throw _

theorem rejectOperation (m : Mismatch) : Quiet (rejectOperation ctx m : Walk α) :=
  bind get fun _ => reject m _

theorem rejectBlock (m : Mismatch) : Quiet (rejectBlock ctx m : Walk α) :=
  bind get fun _ => reject m _

theorem innermost : Quiet innermost := by
  refine bind get fun s => ?_
  split
  · exact pure _
  · exact throw _

theorem setInnermost (frame : LoopFrame) : Quiet (setInnermost frame) := by
  refine bind get fun s => ?_
  split
  · exact modify fun _ => rfl
  · exact throw _

end Rules

theorem unmoved : Unmoved ctx fun _ x _ => Quiet x where
  pure := pure
  bind := bind
  get := get
  move _ _ warnings _ := modify warnings
  record _ := record _
  reject _ := reject _ _

theorem resolve (name : String) : Quiet (resolve ctx name) :=
  resolve_of_get (R := fun _ x _ => Quiet x) (P := fun _ => True)
    (fun h => bind get fun s => h s trivial) pure (fun _ _ _ => rejectBlock _)
    (fun _ _ => rejectBlock _) name

-- Of the loops it does not matter which one is the innermost.
theorem looping : Looping ctx ctx (fun _ => True) fun _ x _ => Quiet x where
  toRoutes := unmoved.routes resolve
  afterInnermost hk := bind innermost fun frame => hk frame trivial
  setInnermost _ := setInnermost _
  noteEdge _ _ _ _ := record _

theorem replayLeave : Quiet (replayLeave ctx) :=
  looping.replayLeave (unmoved.leaveBy fun _ _ _ _ => record _)

end Quiet

end SsaReplay.Replay
