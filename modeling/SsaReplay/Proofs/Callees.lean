import SsaReplay.Proofs.Acceptance
import SsaReplay.Proofs.Layout
import SsaReplay.Proofs.Steps

namespace SsaReplay

namespace Yul

open Yul (Block Definition Stmt)

-- A function is declared in the scope or in one around it, whether or not a name there
-- is hidden by another further in.
inductive Scopes.Reveals (s : Scopes) : Option ScopeId → FunctionId → Prop
  | own {scope : ScopeId} {name : String} {f : FunctionId} (declares : s.Declares scope name f) :
      Reveals s (some scope) f
  | outer {scope : ScopeId} {outer? : Option ScopeId} {f : FunctionId}
      (inside : s.Inside scope outer?) (further : Reveals s outer? f) : Reveals s (some scope) f

-- A definition of the program stands in a block that declares the function under its name.
def Block.DefinesFunction (program : Block) (a : Analysis) (d : Definition) (f : FunctionId) :
    Prop :=
  ∃ block ∈ program.subBlocks, ∃ scope, a.scopeOf? block.id = some scope ∧
    a.scopes.Declares scope d.name f ∧
      Stmt.funDef d.name d.parameters d.returns d.body ∈ block.statements

namespace Scopes

variable {s : Scopes} {f : FunctionId} {name : String}

theorem reveals_of_search {n : Nat} {crossed : Bool} {scope? : Option ScopeId}
    (h : s.search name n crossed scope? = some (.func f)) : s.Reveals scope? f := by
  induction n generalizing crossed scope? with
  | zero => simp [search] at h
  | succ n ih =>
      cases scope? with
      | none => simp [search] at h
      | some scope =>
          cases hd : s.scope? scope with
          | none => simp [search, hd] at h
          | some data =>
              cases hl : data.symbols.lookup name with
              | none =>
                  simp only [search, hd, visible?, hl] at h
                  exact .outer ⟨data, hd, rfl⟩ (ih h)
              | some symbol =>
                  cases symbol with
                  | func g =>
                      simp only [search, hd, visible?, hl, Option.some.injEq] at h
                      exact .own ⟨data, hd, hl.trans (congrArg some h)⟩
                  | var x =>
                      cases crossed with
                      | false => simp [search, hd, visible?, hl] at h
                      | true =>
                          simp only [search, hd, visible?, hl, if_true] at h
                          exact .outer ⟨data, hd, rfl⟩ (ih h)

theorem reveals_of_symbol? {scope? : Option ScopeId}
    (h : s.symbol? scope? name = some (.func f)) : s.Reveals scope? f := by
  obtain ⟨scope, rfl, hl⟩ := Option.bind_eq_some_iff.mp h
  exact reveals_of_search hl

theorem Reveals.inside_of {scope : ScopeId} {outer? : Option ScopeId}
    (h : s.Reveals (some scope) f) (ho : s.Inside scope outer?) :
    (∃ name, s.Declares scope name f) ∨ s.Reveals outer? f := by
  obtain ⟨data, hd, rfl⟩ := ho
  cases h with
  | own declares => exact .inl ⟨_, declares⟩
  | outer inside further =>
      obtain ⟨data', hd', rfl⟩ := inside
      obtain rfl := Option.some.inj (hd.symm.trans hd')
      exact .inr further

end Scopes

end Yul

namespace Replay

open SsaReplay.Yul (Block Case Definition Expr Opens Stmt casesScoped stmtsScoped)

-- The history tells that an operation is matched that calls the function.
def Entry.Calls (e : Entry) (f : FunctionId) : Prop :=
  ∃ b i op bindings canContinue, e.event = .consumed b i op bindings ∧
    op.callee = .function f canContinue

-- A definition of the function has been replayed as a whole against the function's graph.
def Answered (ctx : Context) (program : Block) (history : List Entry) (f : FunctionId) : Prop :=
  ∃ d site before after, program.DefinesFunction ctx.analysis d f ∧ site.owner? = some f ∧
    DefinitionRun (ctx.on site) d before after ∧ after.history <:+ history

-- The functions called since are declared around, or have been answered.
def Owing (ctx : Context) (program : Block) (scope? : Option ScopeId) (old new : List Entry) :
    Prop :=
  ∃ more, new = more ++ old ∧ ∀ e ∈ more, ∀ f, e.Calls f →
    ctx.scopes.Reveals scope? f ∨ Answered ctx program new f

-- The same for a replay that resolves its names in the scope.
def OwesIn (ctx : Context) (program : Block) (scope? : Option ScopeId) (s t : State) : Prop :=
  s.scope? = scope? → t.scope? = scope? ∧ Owing ctx program scope? s.history t.history

variable {ctx : Context} {program : Block} {scope? outer? : Option ScopeId} {scope : ScopeId}
  {s t u : State} {old new newer : List Entry}

theorem Answered.mono {f : FunctionId} (h : Answered ctx program old f) (hs : old <:+ new) :
    Answered ctx program new f := by
  obtain ⟨d, site, before, after, hd, ho, hr, ha⟩ := h
  exact ⟨d, site, before, after, hd, ho, hr, ha.trans hs⟩

theorem Owing.suffix (h : Owing ctx program scope? old new) : old <:+ new := by
  obtain ⟨more, rfl, -⟩ := h
  exact List.suffix_append more old

theorem Owing.refl (history : List Entry) : Owing ctx program scope? history history :=
  ⟨[], rfl, fun _ he => absurd he List.not_mem_nil⟩

theorem Owing.trans (h : Owing ctx program scope? old new)
    (k : Owing ctx program scope? new newer) :
    Owing ctx program scope? old newer := by
  have later := k.suffix
  obtain ⟨first, rfl, hcalls⟩ := h
  obtain ⟨second, rfl, kcalls⟩ := k
  refine ⟨second ++ first, by rw [List.append_assoc], fun e he f hcall => ?_⟩
  rcases List.mem_append.mp he with he | he
  · exact kcalls e he f hcall
  · exact (hcalls e he f hcall).imp_right fun h => h.mono later

-- A single entry that calls nothing, or what is declared around.
theorem Owing.entry {e : Entry} (revealed : ∀ f, e.Calls f → ctx.scopes.Reveals scope? f) :
    Owing ctx program scope? old (e :: old) := by
  refine ⟨[e], rfl, fun x hx f hcall => ?_⟩
  obtain rfl := List.mem_singleton.mp hx
  exact .inl (revealed f hcall)

-- What is declared around in one way may be so in another, or may have been answered.
theorem Owing.elsewhere (h : Owing ctx program scope? old new)
    (revealed : ∀ f, ctx.scopes.Reveals scope? f →
      ctx.scopes.Reveals outer? f ∨ Answered ctx program new f) :
    Owing ctx program outer? old new := by
  obtain ⟨more, hmore, calls⟩ := h
  refine ⟨more, hmore, fun e he f hcall => ?_⟩
  exact (calls e he f hcall).elim (revealed f) .inr

theorem OperandsReconciled.silent {operands : List (Expr × ValueSet)} {inputs : List ValueId}
    (h : OperandsReconciled ctx s operands inputs t) :
    t.scope? = s.scope? ∧ t.history = s.history := by
  refine h.invariant (P := fun u => u.scope? = s.scope? ∧ u.history = s.history) ?_ ⟨rfl, rfl⟩
  intro u e candidates v w first before
  cases first with
  | named => exact before
  | result => exact before

theorem Callable.reveals {name : String} {f : FunctionId} {c canContinue : Bool} {outputs : Nat}
    (h : Callable ctx scope? name (.function f c) outputs canContinue) :
    ctx.scopes.Reveals scope? f := by
  cases h with
  | function noBuiltin resolved defined => exact Yul.Scopes.reveals_of_symbol? resolved

-- An event that is no match of an operation.
theorem owing_event {site : Site} {e : Event}
    (he : ∀ b i op bindings, e ≠ .consumed b i op bindings) :
    Owing ctx program scope? old (⟨site, e⟩ :: old) :=
  .entry fun _ ⟨b, i, op, bindings, _, hevent, _⟩ => absurd hevent (he b i op bindings)

-- Operands are matched before the operation, and tell nothing.
theorem OperandsReconciled.owesIn_consume {operands : List (Expr × ValueSet)}
    {inputs : List ValueId} (h : OperandsReconciled ctx s operands inputs u)
    {op : Graph.Operation} (revealed : ∀ f c, op.callee = .function f c →
      ctx.scopes.Reveals scope? f) : OwesIn ctx program scope? s (u.consume ctx.site op) := by
  intro hs
  obtain ⟨hscope, hhistory⟩ := h.silent
  rw [State.consume_history, hhistory]
  refine ⟨hscope.trans hs, .entry ?_⟩
  rintro f ⟨b, i, op', bindings, canContinue, he, hf⟩
  obtain ⟨-, -, rfl, -⟩ := Event.consumed.inj he
  exact revealed f canContinue hf

theorem OwesIn.trans (h : OwesIn ctx program scope? s t) (k : OwesIn ctx program scope? t u) :
    OwesIn ctx program scope? s u := by
  intro hs
  obtain ⟨ht, first⟩ := h hs
  obtain ⟨hu, second⟩ := k ht
  exact ⟨hu, first.trans second⟩

theorem owesIn_loopless : Loopless ctx (OwesIn ctx program scope?) where
  trans first second := first.trans second
  silent scope _ history hs := ⟨scope.trans hs, history ▸ .refl _⟩
  regroup _ _ hs := ⟨hs, .refl _⟩
  log s e quiet hs := by
    refine ⟨hs, owing_event ?_⟩
    rintro b i op bindings rfl
    exact quiet
  call matched hs := by
    cases matched with
    | returning block atOp inputs callee =>
        rw [inputs.silent.1, hs] at callee
        exact inputs.owesIn_consume (fun f c hf => (hf ▸ callee).reveals) hs
    | final block atOp inputs callee ends =>
        rw [inputs.silent.1, hs] at callee
        have matched : OwesIn ctx program scope? _ _ :=
          inputs.owesIn_consume fun f c hf => (hf ▸ callee).reveals
        exact ⟨(matched hs).1, (matched hs).2.trans (owing_event (by simp))⟩
  compared compared := by
    cases compared with
    | mk block last compares literal fits =>
        refine (OperandsReconciled.cons fits .nil).owesIn_consume fun f c hf => ?_
        simp [comparison?, hf] at compares
  returned left hs := by
    cases left with
    | mk exit count held => exact ⟨hs, owing_event (by simp)⟩

-- Whatever scope a block is entered from, it owes what is declared around it.
def BlockOwes (ctx : Context) (program : Block) (outer? : Option ScopeId) (b : Block) : Prop :=
  ∀ s r t, replayBlock ctx b s = .ok r t →
    t.scope? = s.scope? ∧ Owing ctx program outer? s.history t.history

theorem BlockOwes.steps {b : Block} (h : BlockOwes ctx program scope? b) :
    Steps (OwesIn ctx program scope?) (replayBlock ctx b) := by
  intro s r t hrun hs
  obtain ⟨hscope, howing⟩ := h s r t hrun
  exact ⟨hscope.trans hs, howing⟩

-- The definitions among the statements of a block owe what is declared around, and the
-- functions they define are answered.
def DefinitionsOwe (ctx : Context) (program : Block) (scope : ScopeId) (statements : List Stmt) :
    Prop :=
  ∀ s u t, replayDefinitions ctx statements s = .ok u t → s.scope? = some scope →
    t.scope? = some scope ∧ Owing ctx program (some scope) s.history t.history ∧
      ∀ name f, ctx.scopes.Declares scope name f → Yul.Defines statements name →
        Answered ctx program t.history f

-- What a block owes when its own functions are answered, it owes outside of itself.
theorem owing_inBlock {b : Block} {rest : Walk Bool} {r : Bool}
    (opens : Opens ctx.analysis outer? b scope)
    (definitions : DefinitionsOwe ctx program scope b.statements)
    (others : Steps (OwesIn ctx program (some scope)) rest)
    (h : inBlock ctx b.id (inTurn (replayDefinitions ctx b.statements) rest) s = .ok r t) :
    t.scope? = s.scope? ∧ Owing ctx program outer? s.history t.history := by
  obtain ⟨found, v, hfound, hrun, rfl⟩ := inBlock_eq_ok.mp h
  obtain rfl := Option.some.inj (hfound.symm.trans opens.opened)
  obtain ⟨_, u, hdefinitions, hrest⟩ := bind_eq_ok.mp hrun
  obtain ⟨hu, first, answered⟩ := definitions _ _ _ hdefinitions rfl
  obtain ⟨-, second⟩ := others _ _ _ hrest hu
  refine ⟨rfl, (first.trans second).elsewhere fun f hf => ?_⟩
  rcases hf.inside_of opens.inside with ⟨name, hname⟩ | further
  · exact .inr ((answered name f hname (opens.defined name f hname)).mono second.suffix)
  · exact .inl further

-- The replay of a definition answers its function. What the body owes, it owes outside
-- of the signature, which declares no functions.
theorem owing_definition {d : Definition} {block : Block} {signature : ScopeId} {v : Unit}
    (hblock : block ∈ program.subBlocks) (opened : ctx.analysis.scopeOf? block.id = some scope)
    (member : Stmt.funDef d.name d.parameters d.returns d.body ∈ block.statements)
    (inside : ctx.scopes.Inside signature (some scope))
    (noFunctions : ∀ name f, ¬ctx.scopes.Declares signature name f)
    (body : ∀ f graph, BlockOwes (ctx.within f graph) program (some signature) d.body)
    (hs : s.scope? = some scope) (h : replayDefinition ctx d (replayBlock · d.body) s = .ok v t) :
    t.scope? = some scope ∧ Owing ctx program (some scope) s.history t.history ∧
      ∀ f, ctx.scopes.Declares scope d.name f → Answered ctx program t.history f := by
  cases definitionReplayed_of_ok h with
  | @mk f graph u resolved defined parameters returns run =>
      refine ⟨hs, ?_, fun g hg => ?_⟩
      · have entered : Owing ctx program (some scope) s.history
            (⟨(ctx.within f graph).site, .entered (some d)⟩ :: s.history) :=
          owing_event (by simp)
        cases functionReplayed_of_ok run with
        | @mk bound all falls w _ bindsParameters bindsReturns runs ends =>
            have inner : Owing ctx program (some scope) _ w.history :=
              (body f graph _ _ _ runs).2.elsewhere fun g hg => by
                rcases hg.inside_of inside with ⟨name, hname⟩ | further
                · exact absurd hname (noFunctions name g)
                · exact .inl further
            rcases ends with ⟨-, rfl⟩ | ⟨-, left⟩
            · exact entered.trans inner
            · cases left with
              | mk exit count held =>
                  exact (entered.trans inner).trans (owing_event (by simp))
      · have ⟨_, hd, hl⟩ := hg
        have hsymbol := Yul.Scopes.symbol?_of_lookup hd hl
        rw [← hs, resolved] at hsymbol
        obtain rfl := Yul.Symbol.func.inj (Option.some.inj hsymbol)
        exact ⟨d, (ctx.within f graph).site, s.apartOn graph, u,
          ⟨block, hblock, scope, opened, hg, member⟩, rfl,
          ⟨⟨f, rfl, defined⟩, parameters, returns, ⟨s, rfl⟩, run⟩, List.suffix_rfl⟩

theorem inTurn_replayFor (definitions : Walk Unit) (others : Walk Bool) (condition : Expr)
    (body : Walk Bool) (postEmpty : Bool) (post : Walk Bool) :
    replayFor ctx (inTurn definitions others) condition body postEmpty post =
      inTurn definitions (replayFor ctx others condition body postEmpty post) := by
  simp only [replayFor, inTurn, bind_assoc]

-- The recursion is that of the replay. Each block is entered with its scope open, and
-- its definitions come first.
mutual
theorem stmt_owes (ctx : Context) (st : Stmt) (plain : st.isFunDef = false) {scope : ScopeId}
    (nested : st.Scoped ctx.analysis scope) (sub : Yul.stmtBlocks st ⊆ program.subBlocks) :
    Steps (OwesIn ctx program (some scope)) (replayStmt ctx st) := by
  cases st with
  | expr e => exact owesIn_loopless.routes.replayBare e
  | assign names e => exact owesIn_loopless.routes.replayAssignment names e
  | letDecl names value? => exact owesIn_loopless.routes.replayLet names value?
  | funDef name parameters returns body => exact absurd plain (by simp [Stmt.isFunDef])
  | cond condition body =>
      exact owesIn_loopless.routes.replayIf condition (y := replayBlock ctx body)
        (block_owes ctx body nested sub).steps
  | switch e cases =>
      exact owesIn_loopless.routes.replaySwitch e (armsAlike_self (arms_owe ctx cases nested sub))
  | forLoop pre condition post body =>
      cases pre with
      | mk id statements =>
          obtain ⟨inner, opens, hpre, hpost, hbody⟩ := nested
          have subs := List.append_subset.mp sub
          have subPre := List.append_subset.mp subs.1
          intro s r t h hs
          rw [replayStmt, inTurn_replayFor] at h
          have loop := owesIn_loopless.iterating.replayFor rfl condition post.statements.isEmpty
            (v := replayOthers ctx id statements)
            (others_owe ctx id statements hpre (List.subset_of_cons_subset subPre.1))
            (y := replayBlock ctx body) (fun _ => (block_owes ctx body hbody subs.2).steps)
            (q := replayBlock ctx post) fun _ => (block_owes ctx post hpost subPre.2).steps
          have definitions := definitions_owe ctx statements hpre
            (List.subset_of_cons_subset subPre.1) (subPre.1 List.mem_cons_self) opens.opened
            (List.Subset.refl _)
          obtain ⟨hscope, howing⟩ := owing_inBlock opens definitions loop h
          exact ⟨hscope.trans hs, howing⟩
  | breakLoop => exact owesIn_loopless.looping.replayLoopJump .exits
  | continueLoop => exact owesIn_loopless.looping.replayLoopJump .continues
  | leave => exact owesIn_loopless.replayLeave
  | block body => exact (block_owes ctx body nested sub).steps
theorem block_owes (ctx : Context) (b : Block) {outer? : Option ScopeId}
    (nested : b.Scoped ctx.analysis outer?) (sub : b.subBlocks ⊆ program.subBlocks) :
    BlockOwes ctx program outer? b := by
  intro s r t h
  cases b with
  | mk id statements =>
      obtain ⟨scope, opens, hstatements⟩ := nested
      have subs := List.subset_of_cons_subset sub
      have definitions := definitions_owe ctx statements hstatements subs
        (sub List.mem_cons_self) opens.opened (List.Subset.refl _)
      exact owing_inBlock opens definitions (others_owe ctx id statements hstatements subs) h
theorem definitions_owe (ctx : Context) (statements : List Stmt) {scope : ScopeId}
    (nested : stmtsScoped ctx.analysis scope statements)
    (sub : Yul.stmtsBlocks statements ⊆ program.subBlocks) {block : Block}
    (hblock : block ∈ program.subBlocks) (opened : ctx.analysis.scopeOf? block.id = some scope)
    (home : statements ⊆ block.statements) : DefinitionsOwe ctx program scope statements := by
  intro s u t h hs
  cases statements with
  | nil =>
      obtain ⟨-, rfl⟩ := pure_eq_ok.mp h
      refine ⟨hs, .refl _, ?_⟩
      rintro name f - ⟨parameters, returns, body, hm⟩
      exact absurd hm List.not_mem_nil
  | cons st rest =>
      have subs := List.append_subset.mp sub
      have others := definitions_owe ctx rest nested.2 subs.2 hblock opened
        (List.subset_of_cons_subset home)
      by_cases hdef : st.isFunDef = true
      · cases st with
        | funDef name parameters returns body =>
            obtain ⟨signature, inside, noFunctions, hbody⟩ := nested.1
            rw [replayDefinitions_funDef] at h
            obtain ⟨_, v, hd, hrest⟩ := bind_eq_ok.mp h
            obtain ⟨hv, first, answered⟩ := owing_definition hblock opened
              (home List.mem_cons_self) inside noFunctions
              (fun f graph => block_owes (ctx.within f graph) body hbody subs.1) hs hd
            obtain ⟨ht, second, later⟩ := others _ _ _ hrest hv
            refine ⟨ht, first.trans second, fun other f hf => ?_⟩
            rintro ⟨parameters', returns', body', hm⟩
            rcases List.mem_cons.mp hm with he | hm
            · obtain ⟨rfl, -⟩ := Stmt.funDef.inj he
              exact (answered f hf).mono second.suffix
            · exact later other f hf ⟨parameters', returns', body', hm⟩
        | _ => exact absurd hdef (by simp [Stmt.isFunDef])
      · rw [replayDefinitions, if_neg hdef] at h
        obtain ⟨ht, second, later⟩ := others _ _ _ h hs
        refine ⟨ht, second, fun other f hf => ?_⟩
        rintro ⟨parameters, returns, body, hm⟩
        rcases List.mem_cons.mp hm with rfl | hm
        · exact absurd rfl hdef
        · exact later other f hf ⟨parameters, returns, body, hm⟩
theorem others_owe (ctx : Context) (id : NodeId) (statements : List Stmt) {scope : ScopeId}
    (nested : stmtsScoped ctx.analysis scope statements)
    (sub : Yul.stmtsBlocks statements ⊆ program.subBlocks) :
    Steps (OwesIn ctx program (some scope)) (replayOthers ctx id statements) := by
  cases statements with
  | nil => exact owesIn_loopless.pure true
  | cons st rest =>
      have subs := List.append_subset.mp sub
      have others := others_owe ctx id rest nested.2 subs.2
      unfold replayOthers
      by_cases hdef : st.isFunDef = true
      · rw [if_pos hdef]
        exact others
      · rw [if_neg hdef]
        have plain : st.isFunDef = false := by simpa using hdef
        exact owesIn_loopless.routes.thenOthers id rest (owesIn_loopless.warnUnreachable id rest)
          (y := replayStmt ctx st) (stmt_owes ctx st plain nested.1 subs.1)
          (v := replayOthers ctx id rest) others
theorem arms_owe (ctx : Context) (cases : List Case) {scope : ScopeId}
    (nested : casesScoped ctx.analysis scope cases)
    (sub : Yul.casesBlocks cases ⊆ program.subBlocks) :
    ∀ arm ∈ replayArms ctx cases, Steps (OwesIn ctx program (some scope)) arm.2 := by
  cases cases with
  | nil => simp [replayArms]
  | cons c rest =>
      cases c with
      | mk value? body =>
          have subs := List.append_subset.mp sub
          rw [replayArms, List.forall_mem_cons]
          exact ⟨(block_owes ctx body nested.1 subs.1).steps, arms_owe ctx rest nested.2 subs.2⟩
end

-- Nothing is declared around the program.
theorem answered_of_main (nested : program.Scoped ctx.analysis none) {v : Unit}
    (h : replayMain ctx program (State.start ctx.graph) = .ok v t) {e : Entry}
    (he : e ∈ t.history) {f : FunctionId} (hcall : e.Calls f) :
    Answered ctx program t.history f := by
  obtain ⟨falls, u, hblock, hends⟩ := replayMain_of_ok h
  have entered : Owing ctx program none (State.start ctx.graph).history
      ((State.start ctx.graph).log ctx.site (.entered none)).history := owing_event (by simp)
  have inside := (block_owes ctx program nested (List.Subset.refl _) _ _ _ hblock).2
  have whole : Owing ctx program none [] t.history := by
    rcases hends with ⟨-, -, rfl⟩ | ⟨-, rfl⟩
    · exact (entered.trans inside).trans (owing_event (by simp))
    · exact entered.trans inside
  obtain ⟨more, hmore, calls⟩ := whole
  rw [List.append_nil] at hmore
  rcases calls e (hmore ▸ he) f hcall with revealed | answered
  · exact absurd revealed (by rintro ⟨⟩)
  · exact answered

-- An operation that a run consumes, found by looking through its history.
theorem exists_consumed (history : List Entry) (p : Graph.Operation → Bool)
    (h : history.any (fun e =>
      match e.event with
      | .consumed _ _ op _ => p op
      | _ => false) = true) :
    ∃ site b i op bindings, ⟨site, .consumed b i op bindings⟩ ∈ history ∧ p op = true := by
  obtain ⟨⟨site, event⟩, he, hevent⟩ := List.any_eq_true.mp h
  cases event with
  | consumed b i op bindings => exact ⟨site, b, i, op, bindings, he, hevent⟩
  | _ => exact absurd hevent Bool.false_ne_true

end Replay

open Replay

-- In an accepted run, every function called anywhere has its definition replayed, as a
-- whole and against the graph of the function, with as many parameters and returns.
theorem definition_replayed_of_accepted {draft : List Yul.Draft} {program : Yul.Block}
    {analysis : Yul.Analysis} (laid : Yul.program? draft = .ok (program, analysis))
    {dialect : Yul.Dialect} {flow : Graph.ControlFlow} {settings : Settings}
    (accepted : judge ⟨program, analysis, dialect, flow⟩ settings = .accepted) {e : Entry}
    (he : e ∈ (Subject.run ⟨program, analysis, dialect, flow⟩ settings).history)
    {f : FunctionId} (hcall : e.Calls f) :
    ∃ d site before after, program.DefinesFunction analysis d f ∧ site.owner? = some f ∧
      DefinitionRun
        ((Subject.context ⟨program, analysis, dialect, flow⟩ settings).on site) d before after ∧
        after.history.reverse <+:
          (Subject.run ⟨program, analysis, dialect, flow⟩ settings).history := by
  obtain ⟨t, hrun, hhistory⟩ := Subject.replayMain_of_accepted accepted
  rw [hhistory, List.mem_reverse] at he
  obtain ⟨d, site, before, after, hd, ho, hr, ha⟩ :=
    answered_of_main (Yul.Layout.scoped_of_program laid) hrun he hcall
  refine ⟨d, site, before, after, hd, ho, hr, ?_⟩
  rw [hhistory, List.reverse_prefix]
  exact ha

-- A call before the definition of the function, which stores its argument.
namespace Calling

open SsaReplay.Graph (Cfg)

def draft : List Yul.Draft :=
  [.expr (.call "f" [.call "calldatasize" []]),
    .funDef "f" ["x"] [] [.expr (.call "sstore" [.ident "x", .ident "x"])]]

def main : Cfg :=
  Cfg.ofSteps none [.operation (.builtin ⟨23⟩) [] 1, .operation (.function ⟨0⟩ true) [⟨0⟩] 0,
    .exit .mainExit]

def callee : Cfg :=
  Cfg.ofSteps (some ⟨0⟩) [.argument ⟨0⟩, .operation (.builtin ⟨29⟩) [⟨0⟩, ⟨0⟩] 0,
    .exit (.functionReturn [])]

def program : Yul.Block × Yul.Analysis := Yul.laidOut draft

theorem laid : Yul.program? draft = .ok (program.1, program.2) :=
  Yul.program?_eq_laidOut (by decide +kernel)

def subject : Subject := ⟨program.1, program.2, .evm, ⟨main, [(⟨0⟩, callee)]⟩⟩

theorem definition_replayed_here :
    judge subject .default = .accepted ∧
      ∃ e ∈ (subject.run .default).history, e.Calls ⟨0⟩ ∧
        ∃ d site before after, program.1.DefinesFunction program.2 d ⟨0⟩ ∧
          site.owner? = some ⟨0⟩ ∧
          DefinitionRun ((subject.context .default).on site) d before after ∧
            after.history.reverse <+: (subject.run .default).history := by
  have accepted : judge subject .default = .accepted := by decide +kernel
  obtain ⟨site, b, i, op, bindings, he, hop⟩ :=
    exists_consumed (subject.run .default).history
      (fun op => op.callee = .function ⟨0⟩ true) (by decide +kernel)
  have hcall : Entry.Calls ⟨site, .consumed b i op bindings⟩ ⟨0⟩ :=
    ⟨b, i, op, bindings, true, rfl, of_decide_eq_true hop⟩
  exact ⟨accepted, _, he, hcall, definition_replayed_of_accepted laid accepted he hcall⟩

end Calling

end SsaReplay
