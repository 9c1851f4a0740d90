import SsaReplay.Proofs.Congruence.Loop
import SsaReplay.Validation

namespace SsaReplay

open Replay (Mismatch)

-- Other settings decide as these do, or are laxer about a check whose mismatches are spared.
structure Settings.Laxer (spared : Mismatch → Prop) (σ σ' : Settings) : Prop where
  ownership : σ'.checksPhiOwnership = σ.checksPhiOwnership ∨ σ'.checksPhiOwnership = false ∧
    (∀ b, spared (.absentBlock b)) ∧ ∀ phi b, spared (.unownedPhi phi b)
  iterations : σ'.maxLoopIterations = σ.maxLoopIterations ∨
    σ.maxLoopIterations ≤ σ'.maxLoopIterations ∧ ∀ header n, spared (.unstable header n)
  unreachable : σ'.reportsUnreachable = σ.reportsUnreachable

namespace Replay

open SsaReplay.Yul (Block Case Expr Stmt)

-- The other walk does the same, warnings and history included, unless this one stops with
-- a mismatch that it is spared.
def Concurs {α : Type} (spared : Mismatch → Prop) (x x' : Walk α) : Prop :=
  ∀ s, x' s = x s ∨ ∃ f t, x s = .error (.mismatch f) t ∧ spared f.mismatch

variable {σ' : Settings} {ctx : Context}

namespace Concurs

variable {α β : Type} {spared : Mismatch → Prop}

section Rules

variable {x x' y y' : Walk α}

theorem of_eq (h : x' = x) : Concurs spared x x' := fun _ => .inl (congrFun h _)

theorem refl (x : Walk α) : Concurs spared x x := of_eq rfl

theorem bind {f f' : α → Walk β} (h : Concurs spared x x')
    (hf : ∀ a, Concurs spared (f a) (f' a)) : Concurs spared (x >>= f) (x' >>= f') := by
  intro s
  have run : ∀ (y : Walk α) (g : α → Walk β), (y >>= g) s = EStateM.bind y g s := fun _ _ => rfl
  rw [run, run]
  unfold EStateM.bind
  rcases h s with heq | ⟨f, t, herror, hspared⟩
  · rw [heq]
    cases x s with
    | ok a t => exact hf a t
    | error e t => exact .inl rfl
  · rw [herror]
    exact .inr ⟨f, t, rfl, hspared⟩

-- Where the first part is the same in both.
theorem bind_right (x : Walk α) {f f' : α → Walk β} (hf : ∀ a, Concurs spared (f a) (f' a)) :
    Concurs spared (x >>= f) (x >>= f') :=
  (refl x).bind hf

theorem ite {c : Prop} [Decidable c] (hx : Concurs spared x x') (hy : Concurs spared y y') :
    Concurs spared (if c then x else y) (if c then x' else y') :=
  Closed.ite (R := fun _ => Concurs spared) hx hy

theorem reject {m : Mismatch} {l : Location} (hm : spared m) :
    Concurs spared (reject ctx m l) x' :=
  fun s => .inr ⟨⟨m, l, ctx.site⟩, s.log ctx.site (.found m l), rfl, hm⟩

theorem closing (close : State → State) (h : Concurs spared x x') :
    Concurs spared (closing close x) (closing close x') := by
  intro s
  rw [closing_eq, closing_eq]
  rcases h s with heq | ⟨f, t, herror, hspared⟩
  · rw [heq]
    exact .inl rfl
  · rw [herror]
    exact .inr ⟨f, close t, rfl, hspared⟩

theorem inScope (scope : ScopeId) (h : Concurs spared x x') :
    Concurs spared (inScope scope x) (inScope scope x') :=
  bind_right _ fun _ => bind_right _ fun _ => h.closing _

theorem withLoop (header : BlockId) {x x' : Walk Unit} (h : Concurs spared x x') :
    Concurs spared (withLoop header x) (withLoop header x') :=
  bind_right _ fun _ => (h.bind fun _ => refl _).closing _

theorem apart (graph : Graph.Cfg) {x x' : Walk Unit} (h : Concurs spared x x') :
    Concurs spared (apart graph x) (apart graph x') := by
  intro s
  unfold Replay.apart
  rcases h { State.start graph with warnings := s.warnings, history := s.history } with
    heq | ⟨f, t, herror, hspared⟩
  · rw [heq]
    exact .inl rfl
  · rw [herror]
    exact .inr ⟨f, _, rfl, hspared⟩

end Rules

variable (lax : ctx.settings.Laxer spared σ')

include lax

-- The first of three places where a replay looks at the settings.
theorem checkPhiOwnership (join : BlockId) (b : Bindings) :
    Concurs spared (checkPhiOwnership ctx join b) (checkPhiOwnership (ctx.under σ') join b) := by
  rcases lax.ownership with heq | ⟨hoff, habsent, hunowned⟩
  · apply of_eq
    unfold Replay.checkPhiOwnership
    rw [show (ctx.under σ').settings.checksPhiOwnership = ctx.settings.checksPhiOwnership from heq]
    rfl
  · have passes : Replay.checkPhiOwnership (ctx.under σ') join b = pure () := by
      unfold Replay.checkPhiOwnership
      rw [show (ctx.under σ').settings.checksPhiOwnership = false from hoff]
      rfl
    rw [passes]
    unfold Replay.checkPhiOwnership blockData
    by_cases hchecks : ctx.settings.checksPhiOwnership = true
    · rw [if_pos hchecks]
      cases ctx.graph.block? join with
      | none => exact fun s => .inr ⟨_, _, rfl, habsent join⟩
      | some data =>
          rw [pure_bind]
          cases data.phis.find? (fun phi => (b.holders phi).isEmpty) with
          | none => exact refl _
          | some phi => exact reject (hunowned phi join)
    · rw [if_neg hchecks]
      exact refl _

-- The second place.
theorem warnUnreachable (id : NodeId) (rest : List Stmt) :
    Concurs spared (warnUnreachable ctx id rest) (warnUnreachable (ctx.under σ') id rest) := by
  apply of_eq
  unfold Replay.warnUnreachable
  rw [show (ctx.under σ').settings.reportsUnreachable = ctx.settings.reportsUnreachable from
    lax.unreachable]
  rfl

omit lax in
theorem closed : Closed ctx (ctx.under σ') fun _ => Concurs spared where
  same := rfl
  pure _ := refl _
  bind := bind
  get := refl _
  setBindings _ := refl _
  rejectOperation _ := refl _
  rejectBlock _ := refl _
  rejectGraph _ _ := refl _
  resolve _ := refl _

theorem routes : Routes ctx (ctx.under σ') fun _ => Concurs spared where
  toClosed := closed
  matchCall := closed.matchCall (fun _ => refl _) (fun _ _ => refl _) (fun _ => refl _) (refl _)
  rejectAt _ _ := refl _
  leaveByJump := refl _
  leaveByBranch := refl _
  checkEdge _ _ := refl _
  advance _ _ _ := refl _
  carry _ _ := refl _
  merge _ _ := refl _
  checkPhiOwnership := checkPhiOwnership lax
  replayComparison _ _ _ := refl _

theorem looping : Looping ctx (ctx.under σ') (fun _ => True) fun _ => Concurs spared where
  toRoutes := routes lax
  afterInnermost hk := bind_right _ fun frame => hk frame trivial
  setInnermost _ := refl _
  noteEdge _ _ _ _ := refl _

section Loop

variable {body body' post post' : Walk Bool}

-- The last place. More passes can only be made where fewer ended in a mismatch.
theorem iterate (header : BlockId) (warnings : Nat) {parts parts' : LoopParts}
    (hp : Concurs spared (Replay.replayPass ctx header parts)
      (Replay.replayPass (ctx.under σ') header parts'))
    (remaining remaining' iteration : Nat) (entry : Bindings)
    (enough : (remaining' = remaining ∧ σ'.maxLoopIterations = ctx.settings.maxLoopIterations) ∨
      (remaining ≤ remaining' ∧ ∀ header n, spared (.unstable header n))) :
    Concurs spared (iterate ctx header warnings parts remaining iteration entry)
      (iterate (ctx.under σ') header warnings parts' remaining' iteration entry) := by
  induction remaining generalizing remaining' iteration entry with
  | zero =>
      rcases enough with ⟨rfl, hlimit⟩ | ⟨-, hspared⟩
      · apply of_eq
        unfold Replay.iterate
        rw [show (ctx.under σ').settings.maxLoopIterations = ctx.settings.maxLoopIterations from
          hlimit]
        rfl
      · exact reject (hspared header _)
  | succ remaining ih =>
      obtain ⟨later, rfl⟩ : ∃ later, remaining' = later + 1 := by
        apply Nat.exists_eq_add_one.mpr
        rcases enough with ⟨h, -⟩ | ⟨h, -⟩ <;> omega
      have still : (later = remaining ∧
          σ'.maxLoopIterations = ctx.settings.maxLoopIterations) ∨
          (remaining ≤ later ∧ ∀ header n, spared (.unstable header n)) := by
        rcases enough with ⟨h, hlimit⟩ | ⟨h, hspared⟩
        · exact .inl ⟨by omega, hlimit⟩
        · exact .inr ⟨by omega, hspared⟩
      refine bind_right _ fun _ => bind_right _ fun _ => (withLoop header hp).bind fun frame => ?_
      refine bind_right _ fun refined => ite ?_ (ih later (iteration + 1) refined still)
      exact (checkPhiOwnership lax header entry).bind fun _ => (routes lax).leaveLoop frame.exits

theorem replayLoop (condition? : Option Expr) (postEmpty : Bool)
    (hb : Concurs spared body body') (hq : Concurs spared post post') :
    Concurs spared (replayLoop ctx ⟨condition?, body, postEmpty, post⟩)
      (replayLoop (ctx.under σ') ⟨condition?, body', postEmpty, post'⟩) := by
  apply bind_right
  intro s
  apply iterate lax
  · exact (looping lax).replayPass condition? postEmpty hb hq
  · rcases lax.iterations with heq | hle
    · exact .inl ⟨heq, heq⟩
    · exact .inr hle

end Loop

section Program

omit lax in
-- The recursion is that of the replay itself.
mutual
theorem replayStmt {ctx : Context} (lax : ctx.settings.Laxer spared σ') (s : Stmt) :
    Concurs spared (replayStmt ctx s) (replayStmt (ctx.under σ') s) := by
  cases s with
  | expr e => exact (routes lax).replayBare e
  | assign names e => exact (routes lax).replayAssignment names e
  | letDecl names value? => exact (routes lax).replayLet names value?
  | funDef name parameters returns body =>
      refine bind ((routes lax).replayDefinition ⟨name, parameters, returns, body⟩
        fun f graph _ => apart graph ?_) fun _ => refl _
      have inner : (ctx.within f graph).settings.Laxer spared σ' := lax
      exact (routes inner).replayFunction ⟨name, parameters, returns, body⟩ (refl _)
        (fun _ => refl _) (refl _) (replayBlock inner body)
  | cond condition body => exact (routes lax).replayIf condition (replayBlock lax body)
  | switch e cases => exact (routes lax).replaySwitch e (replayArms lax cases)
  | forLoop pre condition post body =>
      cases pre with
      | mk id statements =>
          refine (routes lax).inBlock id (fun _ => refl _) fun scope => inScope scope ?_
          refine (routes lax).replayFor condition _ ?_ fun condition? => ?_
          · exact (replayDefinitions lax statements).bind fun _ => replayOthers lax id statements
          · exact replayLoop lax condition? _ (replayBlock lax body) (replayBlock lax post)
  | breakLoop => exact refl _
  | continueLoop => exact refl _
  | leave => exact (routes lax).replayLeave (refl _)
  | block body => exact replayBlock lax body
theorem replayBlock {ctx : Context} (lax : ctx.settings.Laxer spared σ') (b : Block) :
    Concurs spared (replayBlock ctx b) (replayBlock (ctx.under σ') b) := by
  cases b with
  | mk id statements =>
      refine (routes lax).inBlock id (fun _ => refl _) fun scope => inScope scope ?_
      exact (replayDefinitions lax statements).bind fun _ => replayOthers lax id statements
theorem replayDefinitions {ctx : Context} (lax : ctx.settings.Laxer spared σ')
    (statements : List Stmt) :
    Concurs spared (replayDefinitions ctx statements)
      (replayDefinitions (ctx.under σ') statements) := by
  cases statements with
  | nil => exact refl _
  | cons s rest =>
      refine ite ?_ (replayDefinitions lax rest)
      exact (replayStmt lax s).bind fun _ => replayDefinitions lax rest
theorem replayOthers {ctx : Context} (lax : ctx.settings.Laxer spared σ') (id : NodeId)
    (statements : List Stmt) :
    Concurs spared (replayOthers ctx id statements)
      (replayOthers (ctx.under σ') id statements) := by
  cases statements with
  | nil => exact refl _
  | cons s rest =>
      refine ite (replayOthers lax id rest) ?_
      exact (routes lax).thenOthers id rest (warnUnreachable lax id rest) (replayStmt lax s)
        (replayOthers lax id rest)
theorem replayArms {ctx : Context} (lax : ctx.settings.Laxer spared σ') (cases : List Case) :
    ArmsAlike (Concurs spared) (replayArms ctx cases) (replayArms (ctx.under σ') cases) := by
  cases cases with
  | nil => exact .nil
  | cons c rest =>
      cases c with
      | mk value? body => exact .cons ⟨rfl, replayBlock lax body⟩ (replayArms lax rest)
end

theorem replayMain (program : Block) :
    Concurs spared (replayMain ctx program) (replayMain (ctx.under σ') program) :=
  bind_right _ fun _ => (replayBlock lax program).bind fun _ => refl _

end Program

end Concurs

end Replay

end SsaReplay
