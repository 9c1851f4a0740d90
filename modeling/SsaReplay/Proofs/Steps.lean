import SsaReplay.Proofs.Congruence.Loop
import SsaReplay.Proofs.Frame

namespace SsaReplay.Replay

open SsaReplay.Graph (Exit)
open SsaReplay.Yul (Expr Literal Stmt)

-- What is told without an operation being matched, a graph entered or a function left.
def Event.Quiet : Event → Prop
  | .entered _ | .consumed .. | .left _ (.functionReturn _) => False
  | _ => True

-- A relation between states that goes on from step to step while a statement is
-- replayed, apart from the scopes, the loops and the definitions inside it.
structure Stepwise (ctx : Context) (R : State → State → Prop) : Prop where
  trans {s t u : State} (first : R s t) (second : R t u) : R s u
  silent {s t : State} (scope : t.scope? = s.scope?) (loops : t.loops = s.loops)
    (history : t.history = s.history) : R s t
  log (s : State) (e : Event) (quiet : e.Quiet) : R s (s.log ctx.site e)
  call {name : String} {operands : List (Expr × ValueSet)} {s t : State}
    {results? : Option (List ValueSet)} (matched : CallMatched ctx name operands s results? t) :
    R s t
  compared {e : Expr} {candidates : ValueSet} {value : Literal} {result : ValueId} {s t : State}
    (compared : Compared ctx e candidates value s result t) : R s t
  returned {s t : State} (left : FunctionLeft ctx s t) : R s t

-- One that does not mind the loops.
structure Loopless (ctx : Context) (R : State → State → Prop) : Prop extends Stepwise ctx R where
  regroup (s : State) (loops : List LoopFrame) : R s { s with loops }

-- The relation holds from the start of a walk to its end.
def Steps (R : State → State → Prop) {α : Type} (x : Walk α) : Prop :=
  ∀ s a t, x s = .ok a t → R s t

namespace Stepwise

variable {ctx : Context} {R : State → State → Prop} {α β : Type} {x y : Walk α}

section Rules

variable (hR : Stepwise ctx R)

include hR

theorem refl (s : State) : R s s := hR.silent rfl rfl rfl

theorem pure (a : α) : Steps R (pure a : Walk α) := by
  intro s b t h
  obtain ⟨-, rfl⟩ := pure_eq_ok.mp h
  exact hR.refl s

theorem bind {f : α → Walk β} (hx : Steps R x) (hf : ∀ a, Steps R (f a)) :
    Steps R (x >>= f) := by
  intro s b t h
  obtain ⟨a, u, ha, hb⟩ := bind_eq_ok.mp h
  exact hR.trans (hx s a u ha) (hf a u b t hb)

theorem get : Steps R get := by
  intro s a t h
  obtain ⟨-, rfl⟩ := get_eq_ok.mp h
  exact hR.refl s

theorem modify {f : State → State} (scope : ∀ s, (f s).scope? = s.scope?)
    (loops : ∀ s, (f s).loops = s.loops) (history : ∀ s, (f s).history = s.history) :
    Steps R (modify f) := by
  intro s a t h
  obtain rfl := modify_eq_ok.mp h
  exact hR.silent (scope s) (loops s) (history s)

theorem record {e : Event} (quiet : e.Quiet) : Steps R (record ctx e) := by
  intro s a t h
  obtain rfl := record_eq_ok.mp h
  exact hR.log s e quiet

-- A walk that only looks.
theorem reading {P : State → α → Prop} (hx : ∀ {s a t}, x s = .ok a t ↔ P s a ∧ s = t) :
    Steps R x := by
  intro s a t h
  obtain ⟨-, rfl⟩ := hx.mp h
  exact hR.refl s

theorem leaving {make : α → Exit}
    (hx : ∀ {s a t}, x s = .ok a t ↔
      AtExit ctx s (make a) ∧ s.log ctx.site (.left s.block (make a)) = t)
    (quiet : ∀ b a, (Event.left b (make a)).Quiet) : Steps R x := by
  intro s a t h
  obtain ⟨-, rfl⟩ := hx.mp h
  exact hR.log s _ (quiet s.block a)

end Rules

section Parts

variable (hR : Stepwise ctx R)

include hR

theorem advance (source target : BlockId) (b : Bindings) :
    Steps R (advance ctx source target b) := by
  intro s u t h
  obtain ⟨-, rfl⟩ := advance_eq_ok.mp h
  exact hR.trans (hR.log s (.advanced source target b) trivial) (hR.silent rfl rfl rfl)

theorem carry (source target : BlockId) : Steps R (carry ctx source target) := by
  intro s after t h
  obtain ⟨-, rfl⟩ := carry_eq_ok.mp h
  exact hR.log s _ trivial

theorem merge (join : BlockId) (bs : List Bindings) : Steps R (merge ctx join bs) := by
  intro s merged t h
  obtain ⟨-, rfl⟩ := merge_eq_ok.mp h
  exact hR.log s _ trivial

-- Where a walk rejects, it does not get to its end.
theorem routes : Routes ctx ctx fun _ x _ => Steps R x where
  same := rfl
  pure := hR.pure
  bind := hR.bind
  get := hR.get
  setBindings _ := hR.modify (fun _ => rfl) (fun _ => rfl) fun _ => rfl
  rejectOperation _ _ _ _ h := absurd h rejectOperation_ne_ok
  rejectBlock _ _ _ _ h := absurd h rejectBlock_ne_ok
  rejectGraph _ _ _ _ _ h := absurd h reject_ne_ok
  resolve _ := hR.reading resolve_eq_ok
  matchCall _ _ _ _ _ h := hR.call (callMatched_of_ok h)
  rejectAt _ _ _ _ _ h := absurd h reject_ne_ok
  leaveByJump := hR.leaving leaveByJump_eq_ok fun _ _ => trivial
  leaveByBranch := hR.leaving leaveByBranch_eq_ok fun _ _ => trivial
  checkEdge _ _ := hR.reading checkEdge_eq_ok
  advance := hR.advance
  carry := hR.carry
  merge := hR.merge
  checkPhiOwnership _ _ := hR.reading checkPhiOwnership_eq_ok
  replayComparison _ _ _ _ _ _ h := hR.compared (compared_of_ok h)

theorem replayLeave : Steps R (replayLeave ctx) :=
  fun _ _ _ h => hR.returned (functionLeft_of_ok h).1

theorem warnUnreachable (id : NodeId) (rest : List Stmt) :
    Steps R (warnUnreachable ctx id rest) := by
  intro s u t h
  cases warned_of_ok h with
  | silent => exact hR.refl s
  | warned m location =>
      exact hR.trans (hR.log s (.found m location) trivial) (hR.silent rfl rfl rfl)

end Parts

end Stepwise

namespace Loopless

variable {ctx : Context} {R : State → State → Prop} (hR : Loopless ctx R)

include hR

theorem innermost : Steps R innermost := hR.reading innermost_eq_ok

theorem setInnermost (frame : LoopFrame) : Steps R (setInnermost frame) := by
  intro s u t h
  obtain ⟨old, outer, -, rfl⟩ := setInnermost_eq_ok.mp h
  exact hR.regroup s _

theorem withLoop (header : BlockId) {act : Walk Unit} (ha : Steps R act) :
    Steps R (withLoop header act) := by
  intro s frame t h
  obtain ⟨u, outer, run, -, rfl⟩ := withLoop_eq_ok.mp h
  have inside : R s u := hR.trans (hR.regroup s (.start header :: s.loops)) (ha _ () u run)
  exact hR.trans inside (hR.regroup u outer)

theorem looping : Looping ctx ctx (fun _ => True) fun _ x _ => Steps R x where
  toRoutes := hR.routes
  afterInnermost hk := hR.bind hR.innermost fun frame => hk frame trivial
  setInnermost _ := hR.setInnermost _
  noteEdge _ _ _ _ := hR.record trivial

theorem iterating : Iterating ctx ctx (fun _ x _ => Steps R x) fun _ _ x _ => Steps R x where
  toRoutes := hR.routes
  inner _ := ⟨_, hR.looping⟩
  rewind _ _ _ := hR.modify (fun _ => rfl) (fun _ => rfl) fun _ => rfl
  beginPass _ _ _ := hR.record trivial
  withLoop := hR.withLoop _

end Loopless

end SsaReplay.Replay
