import SsaReplay.Proofs.Continuing
import SsaReplay.Proofs.Mirroring.Program
import SsaReplay.Proofs.Warnings.Walk

namespace SsaReplay

open SsaReplay.Graph (Cfg)
open SsaReplay.Replay
open SsaReplay.Yul (Block Definition Expr Stmt)

namespace Replay

-- A function body is begun for a definition, in the graph of the function and with its
-- signature bound.
inductive EntersFunction (ctx : Context) (d : Definition) (s : State) : Context → State → Prop
  | mk {f : FunctionId} {graph : Cfg} {bound all : Bindings}
      (resolved : ctx.scopes.symbol? s.scope? d.name = some (.func f))
      (defined : ctx.flow.graphOf? f = some graph)
      (arity : graph.arguments.length = d.parameters.length)
      (results : graph.returns.length = d.returns.length)
      (parameters : SignatureBound (ctx.within f graph) (ctx.analysis.scopeOf? d.body.id) .empty
        ((graph.arguments.map (fun a => (a.1, .single a.2))).zip d.parameters) bound)
      (returns : ReturnsBound (ctx.within f graph) (ctx.analysis.scopeOf? d.body.id) d.returns
        bound all) :
      EntersFunction ctx d s (ctx.within f graph)
        ((s.apartOn graph).inFunction (ctx.within f graph) d all)

-- A loop is entered at its header, behind its pre block.
inductive EntersLoop (ctx : Context) (pre : Block) (condition : Expr) (s : State) : State → Prop
  | mk {scope : ScopeId} {header : BlockId} {entry : Bindings} {u : State}
      (opened : ctx.analysis.scopeOf? pre.id = some scope)
      (run : inTurn (replayDefinitions ctx pre.statements)
        (replayOthers ctx pre.id pre.statements) { s with scope? := some scope } = .ok true u)
      (exit : AtExit ctx u (.jump header))
      (carries : Carries ctx.graph u.block header u.bindings entry)
      (edge : ctx.graph.HasEdge u.block header)
      (constant : ∀ l, condition = .literal l →
        l.isZero = false ∧ (ctx.graph.literal? l.value).isSome = true) :
      EntersLoop ctx pre condition s
        (((u.log ctx.site (.left u.block (.jump header))).log ctx.site
          (.carried u.block header u.bindings entry)).follow ctx.site u.block header entry)

-- What a loop of the program repeats.
def LoopParts.ofLoop (ctx : Context) (condition : Expr) (post body : Block) : LoopParts :=
  .ofBlocks ctx (testedCondition? condition) body post.statements.isEmpty post

-- One of the passes over a loop begins in the state, at the header.
inductive BeginsPass (ctx : Context) (pre : Block) (condition : Expr) (post body : Block)
    (s : State) : BlockId → State → Prop
  | mk {i : Nat} {m : Bindings} {w x : State} (entered : EntersLoop ctx pre condition s w)
      (reached : Reaches ctx w.block w.warnings.length (.ofLoop ctx condition post body) 0
        w.bindings w i m x)
      (allowed : i < ctx.settings.maxLoopIterations) :
      BeginsPass ctx pre condition post body s w.block
        (x.beginPass ctx.site w.block w.warnings.length i m)

-- In the block, control gets past all statements up to one that it does not get past. So many
-- statements follow that one, not counting definitions, and there it stops in a state.
inductive StopsShort (ctx : Context) (b : Block) (s : State) : Nat → State → Prop
  | mk {scope : ScopeId} {earlier later : List Stmt} {last : Stmt} {u v w : State}
      (opened : ctx.analysis.scopeOf? b.id = some scope)
      (definitions : replayDefinitions ctx b.statements { s with scope? := some scope } = .ok () u)
      (statements : b.statements = earlier ++ last :: later)
      (passed : replayOthers ctx b.id earlier u = .ok true v) (other : last.isFunDef = false)
      (stuck : replayStmt ctx last v = .ok false w) :
      StopsShort ctx b s (later.filter (!·.isFunDef)).length w

end Replay

-- At some point of the run, the replay of the statement begins in the state. In all of it,
-- whatever comes before that point succeeds, on this pass and on earlier ones.
inductive Subject.Undertakes (subject : Subject) (settings : Settings) :
    Context → Stmt → State → Prop
  | program : Undertakes subject settings (subject.context settings) (.block subject.program)
      ((State.start subject.flow.main).log (subject.context settings).site (.entered none))
  | inside {ctx : Context} {a b : Stmt} {s t : State} (begun : Undertakes subject settings ctx a s)
      (step : StepsInto ctx a s b t) : Undertakes subject settings ctx b t
  | definition {ctx inner : Context} {id : NodeId} {earlier later : List Stmt} {d : Definition}
      {scope : ScopeId} {s u v : State}
      (begun : Undertakes subject settings ctx (.block (.mk id
        (earlier ++ .funDef d.name d.parameters d.returns d.body :: later))) s)
      (opened : ctx.analysis.scopeOf? id = some scope)
      (before : replayDefinitions ctx earlier { s with scope? := some scope } = .ok () u)
      (enters : EntersFunction ctx d u inner v) :
      Undertakes subject settings inner (.block d.body) v
  | body {ctx : Context} {pre post body : Block} {condition : Expr} {header : BlockId}
      {s p v : State} (begun : Undertakes subject settings ctx (.forLoop pre condition post body) s)
      (pass : BeginsPass ctx pre condition post body s header p)
      (tested : replayLoopCondition ctx (testedCondition? condition) p = .ok true v) :
      Undertakes subject settings ctx (.block body) v
  | post {ctx : Context} {pre post body : Block} {condition : Expr} {header : BlockId}
      {s p v : State} (begun : Undertakes subject settings ctx (.forLoop pre condition post body) s)
      (pass : BeginsPass ctx pre condition post body s header p)
      (enters : EntersPost ctx header (.ofLoop ctx condition post body) p v) :
      Undertakes subject settings ctx (.block post) v

end SsaReplay
