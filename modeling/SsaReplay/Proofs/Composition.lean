import SsaReplay.Proofs.Success.Statement

namespace SsaReplay

-- Whether a program gets by without any switch, in its functions too.
mutual
def Yul.Block.switchFree : Yul.Block → Bool
  | .mk _ statements => Yul.stmtsSwitchFree statements
def Yul.Stmt.switchFree : Yul.Stmt → Bool
  | .switch .. => false
  | .funDef _ _ _ body => body.switchFree
  | .cond _ body => body.switchFree
  | .forLoop pre _ post body => pre.switchFree && post.switchFree && body.switchFree
  | .block body => body.switchFree
  | _ => true
def Yul.stmtsSwitchFree : List Yul.Stmt → Bool
  | [] => true
  | s :: rest => s.switchFree && Yul.stmtsSwitchFree rest
end

namespace Replay

open SsaReplay.Yul (Block Case Definition Expr Stmt)

-- A statement, and what follows it where control gets past it.
def thenOthers (ctx : Context) (id : NodeId) (rest : List Stmt) (first others : Walk Bool) :
    Walk Bool := do
  if ← first then
    others
  else
    warnUnreachable ctx id rest
    pure false

theorem replayDefinitions_funDef (ctx : Context) (name : String)
    (parameters returns : List String) (body : Block) (rest : List Stmt) :
    replayDefinitions ctx (.funDef name parameters returns body :: rest) =
      (do replayDefinition ctx ⟨name, parameters, returns, body⟩ (replayBlock · body)
          replayDefinitions ctx rest) := by
  simp only [replayDefinitions, Stmt.isFunDef, replayStmt, bind_assoc, pure_bind, if_true]

-- The arms of one switch in two replays, with bodies that are related.
abbrev ArmsAlike (R : Walk Bool → Walk Bool → Prop) : List Arm → List Arm → Prop :=
  List.Forall₂ fun arm arm' => arm'.1 = arm.1 ∧ R arm.2 arm'.2

theorem armsAlike_self {R : Walk Bool → Walk Bool → Prop} {arms : List Arm}
    (ha : ∀ arm ∈ arms, R arm.2 arm.2) : ArmsAlike R arms arms :=
  List.forall₂_same.mpr fun arm hm => ⟨rfl, ha arm hm⟩

theorem splitDefault_alike {R : Walk Bool → Walk Bool → Prop} {arms arms' : List Arm}
    (ha : ArmsAlike R arms arms') : ArmsAlike R (splitDefault arms).1 (splitDefault arms').1 ∧
      Option.Rel R (splitDefault arms).2 (splitDefault arms').2 := by
  have last : Option.Rel (fun arm arm' => arm'.1 = arm.1 ∧ R arm.2 arm'.2)
      arms.getLast? arms'.getLast? ∧ ArmsAlike R arms.dropLast arms'.dropLast := by
    induction ha with
    | nil => exact ⟨.none, .nil⟩
    | cons first others ih =>
        cases others with
        | nil => exact ⟨.some first, .nil⟩
        | cons second rest =>
            rw [List.getLast?_cons_cons, List.getLast?_cons_cons, List.dropLast_cons_cons,
              List.dropLast_cons_cons]
            exact ⟨ih.1, .cons first ih.2⟩
  obtain ⟨hlast, hinit⟩ := last
  unfold splitDefault
  generalize arms.getLast? = found at hlast
  generalize arms'.getLast? = found' at hlast
  rcases hlast with @⟨⟨value?, body⟩, ⟨value?', body'⟩, hvalue, hb⟩ | _
  · dsimp only at hvalue
    subst hvalue
    cases value?' with
    | none => exact ⟨hinit, .some hb⟩
    | some value => exact ⟨ha, .none⟩
  · exact ⟨ha, .none⟩

-- A property of replays that passes from the parts of a program to the whole. It need
-- not pass to a switch where no program with a switch is of interest.
structure Compositional (switches : Prop) (P : Context → Walk Bool → Prop) : Prop where
  done (ctx : Context) : P ctx (pure true)
  expr (ctx : Context) (e : Expr) : P ctx (replayBare ctx e)
  assign (ctx : Context) (names : List String) (e : Expr) : P ctx (replayAssignment ctx names e)
  letDecl (ctx : Context) (names : List String) (value? : Option Expr) :
    P ctx (replayLet ctx names value?)
  leave (ctx : Context) : P ctx (replayLeave ctx)
  loopJump (ctx : Context) (way : LoopWay) : P ctx (replayLoopJump ctx way)
  cond (ctx : Context) (condition : Expr) (body : Walk Bool) (hb : P ctx body) :
    P ctx (replayIf ctx condition body)
  switch (hs : switches) (ctx : Context) (e : Expr) (arms : List Arm)
    (ha : ∀ arm ∈ arms, P ctx arm.2) : P ctx (replaySwitch ctx e arms)
  forLoop (ctx : Context) (pre : Walk Bool) (condition : Expr) (body : Walk Bool)
    (postEmpty : Bool) (post : Walk Bool) (hp : P ctx pre) (hb : P ctx body) (hq : P ctx post) :
    P ctx (replayFor ctx pre condition body postEmpty post)
  block (ctx : Context) (id : NodeId) (body : Walk Bool) (hb : P ctx body) :
    P ctx (inBlock ctx id body)
  definition (ctx : Context) (d : Definition) (others : Walk Bool)
    (hs : switches ∨ d.body.switchFree = true) (hd : ∀ inner, P inner (replayBlock inner d.body))
    (ho : P ctx others) :
    P ctx (inTurn (replayDefinition ctx d (replayBlock · d.body)) others)
  next (ctx : Context) (id : NodeId) (rest : List Stmt) (first others : Walk Bool)
    (hf : P ctx first) (ho : P ctx others) : P ctx (thenOthers ctx id rest first others)

namespace Compositional

variable {switches : Prop} {P : Context → Walk Bool → Prop}

theorem replayDefinitions_funDef (ctx : Context) (name : String) (parameters returns : List String)
    (body : Block) (rest : List Stmt) (others : Walk Bool) :
    inTurn (replayDefinitions ctx (.funDef name parameters returns body :: rest)) others =
      inTurn (replayDefinition ctx ⟨name, parameters, returns, body⟩ (replayBlock · body))
        (inTurn (replayDefinitions ctx rest) others) := by
  simp only [inTurn, Replay.replayDefinitions_funDef, bind_assoc]

-- The recursion is that of the replay itself. Of a list of statements, the definitions
-- come before the others.
mutual
theorem stmt (h : Compositional switches P) (ctx : Context) (s : Stmt)
    (hs : switches ∨ s.switchFree = true) : P ctx (replayStmt ctx s) := by
  cases s with
  | expr e => exact h.expr ctx e
  | assign names e => exact h.assign ctx names e
  | letDecl names value? => exact h.letDecl ctx names value?
  | funDef name parameters returns body =>
      exact h.definition ctx ⟨name, parameters, returns, body⟩ (pure true) hs
        (fun inner => h.ofBlock inner body hs) (h.done ctx)
  | cond condition body => exact h.cond ctx condition _ (h.ofBlock ctx body hs)
  | switch e cases =>
      exact h.switch (hs.resolve_right Bool.false_ne_true) ctx e _
        (h.arms ctx cases (hs.resolve_right Bool.false_ne_true))
  | forLoop pre condition post body =>
      cases pre with
      | mk id statements =>
          have hs : switches ∨ (Yul.stmtsSwitchFree statements = true ∧ post.switchFree = true) ∧
              body.switchFree = true := by
            simpa only [Stmt.switchFree, Block.switchFree, Bool.and_eq_true] using hs
          exact h.block ctx id _ (h.forLoop ctx _ condition _ _ _
            (h.definitions ctx statements _ (hs.imp_right (·.1.1))
              (h.others ctx id statements (hs.imp_right (·.1.1))))
            (h.ofBlock ctx body (hs.imp_right (·.2))) (h.ofBlock ctx post (hs.imp_right (·.1.2))))
  | breakLoop => exact h.loopJump ctx .exits
  | continueLoop => exact h.loopJump ctx .continues
  | leave => exact h.leave ctx
  | block body => exact h.ofBlock ctx body hs
theorem ofBlock (h : Compositional switches P) (ctx : Context) (b : Block)
    (hs : switches ∨ b.switchFree = true) : P ctx (replayBlock ctx b) := by
  cases b with
  | mk id statements =>
      exact h.block ctx id _ (h.definitions ctx statements _ hs (h.others ctx id statements hs))
theorem definitions (h : Compositional switches P) (ctx : Context) (statements : List Stmt)
    (others : Walk Bool) (hs : switches ∨ Yul.stmtsSwitchFree statements = true)
    (ho : P ctx others) : P ctx (inTurn (replayDefinitions ctx statements) others) := by
  cases statements with
  | nil => exact ho
  | cons s rest =>
      have hs : switches ∨ s.switchFree = true ∧ Yul.stmtsSwitchFree rest = true := by
        simpa only [Yul.stmtsSwitchFree, Bool.and_eq_true] using hs
      have hr := h.definitions ctx rest others (hs.imp_right (·.2)) ho
      cases s with
      | funDef name parameters returns body =>
          rw [replayDefinitions_funDef]
          exact h.definition ctx ⟨name, parameters, returns, body⟩ _ (hs.imp_right (·.1))
            (fun inner => h.ofBlock inner body (hs.imp_right (·.1))) hr
      | _ => exact hr
theorem others (h : Compositional switches P) (ctx : Context) (id : NodeId)
    (statements : List Stmt) (hs : switches ∨ Yul.stmtsSwitchFree statements = true) :
    P ctx (replayOthers ctx id statements) := by
  cases statements with
  | nil => exact h.done ctx
  | cons s rest =>
      have hs : switches ∨ s.switchFree = true ∧ Yul.stmtsSwitchFree rest = true := by
        simpa only [Yul.stmtsSwitchFree, Bool.and_eq_true] using hs
      have hr := h.others ctx id rest (hs.imp_right (·.2))
      unfold replayOthers
      split
      · exact hr
      · exact h.next ctx id rest _ _ (h.stmt ctx s (hs.imp_right (·.1))) hr
theorem arms (h : Compositional switches P) (ctx : Context) (cases : List Case) (hs : switches) :
    ∀ arm ∈ replayArms ctx cases, P ctx arm.2 := by
  cases cases with
  | nil => simp [replayArms]
  | cons c rest =>
      cases c with
      | mk value? body =>
          rw [replayArms, List.forall_mem_cons]
          exact ⟨h.ofBlock ctx body (.inl hs), h.arms ctx rest hs⟩
end

end Compositional

end Replay

end SsaReplay
