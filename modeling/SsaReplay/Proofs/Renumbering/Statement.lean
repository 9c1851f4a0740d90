import SsaReplay.Proofs.Composition
import SsaReplay.Proofs.Renumbering.Loop
import SsaReplay.Validation

namespace SsaReplay.Replay

open SsaReplay.Graph (Cfg)
open SsaReplay.Yul (Block Case Definition Expr Stmt)

namespace InStep

variable {ρ : Option FunctionId → Renumbering} {π : Renumbering} {ctx ctx' : Context}

theorem inScope {act act' : Walk Bool} (scope : ScopeId) (ha : InStep ρ π id act act') :
    InStep ρ π id (inScope scope act) (inScope scope act') := by
  refine bind_get fun s s' hs => bind_eq (modify fun t t' ht => ?_) fun _ =>
    ha.closing fun t t' ht => ?_
  · exact ⟨rfl, ht.block, ht.op, ht.bindings, ht.loops⟩
  · exact ⟨hs.scope, ht.block, ht.op, ht.bindings, ht.loops⟩

-- Warnings are beside the point.
theorem warnUnreachable (node : NodeId) (rest : List Stmt) :
    InStep ρ π id (warnUnreachable ctx node rest) (warnUnreachable ctx' node rest) := by
  have told : ∀ (ctx : Context) (s : State), ∃ warnings history,
      Replay.warnUnreachable ctx node rest s = .ok () { s with warnings, history } := by
    intro ctx s
    unfold Replay.warnUnreachable
    split
    · exact ⟨_, _, rfl⟩
    · exact ⟨_, _, rfl⟩
  intro s s' hs
  obtain ⟨_, _, hx⟩ := told ctx s
  obtain ⟨_, _, hx'⟩ := told ctx' s'
  rw [hx, hx']
  exact ⟨rfl, hs.scope, hs.block, hs.op, hs.bindings, hs.loops⟩

-- Both replays start anew in graphs that are the same but for the numbers.
theorem apart {f : FunctionId} {graph graph' : Cfg} (hg : GraphMirrors (ρ (some f)) graph graph')
    {act act' : Walk Unit} (ha : InStep ρ (ρ (some f)) id act act') :
    InStep ρ π id (apart graph act) (apart graph' act') := by
  intro s s' hs
  have inside := ha { State.start graph with warnings := s.warnings, history := s.history }
    { State.start graph' with warnings := s'.warnings, history := s'.history }
    ⟨rfl, hg.entry, rfl, rfl, rfl⟩
  unfold Replay.apart
  generalize act { State.start graph with warnings := s.warnings, history := s.history } = r
    at inside ⊢
  generalize act' { State.start graph' with warnings := s'.warnings, history := s'.history } = r'
    at inside ⊢
  match r, r' with
  | .ok () t, .ok () t' => exact ⟨rfl, hs.scope, hs.block, hs.op, hs.bindings, hs.loops⟩
  | .error e t, .error e' t' => exact inside
  | .ok () t, .error e' t' => exact inside.elim
  | .error e t, .ok () t' => exact inside.elim

variable (h : ContextMirrors ρ π ctx ctx')

include h

theorem replayValues (count : Nat) (e : Expr) :
    InStep ρ π (Option.map (List.map (·.renumber π))) (replayValues ctx count e)
      (replayValues ctx' count e) := by
  refine bind (replayExpr h e) fun values? => ?_
  cases values? with
  | none => exact pure none
  | some values =>
      dsimp only [Option.map_some]
      simp only [List.length_map]
      exact ite Iff.rfl (rejectOperation h rfl) (pure (some values))

theorem replayBare (e : Expr) : InStep ρ π id (replayBare ctx e) (replayBare ctx' e) := by
  refine bind (replayExpr h e) fun values? => ?_
  match values? with
  | none => exact pure false
  | some [] => exact pure true
  | some (_ :: rest) => exact rejectOperation h (by simp [Mismatch.renumber])

theorem assignAll (pairs : List (String × ValueSet)) :
    InStep ρ π id (assignAll ctx pairs)
      (assignAll ctx' (pairs.map fun p => (p.1, p.2.renumber π))) := by
  induction pairs with
  | nil => exact pure ()
  | cons pair rest ih =>
      obtain ⟨name, values⟩ := pair
      refine bind_eq (resolveVariable h name) fun x => bind_get fun s s' hs => ?_
      rw [hs.bindings, ← Bindings.renumber_assign]
      exact bind_eq (setBindings _) fun _ => ih

theorem replayAssignment (names : List String) (e : Expr) :
    InStep ρ π id (replayAssignment ctx names e) (replayAssignment ctx' names e) := by
  refine bind (replayValues h names.length e) fun values? => ?_
  cases values? with
  | none => exact pure false
  | some values =>
      simp only [Option.map_some, List.zip_map_right]
      exact bind_eq (assignAll h (names.zip values)) fun _ => pure true

theorem defineAll (pairs : List (String × ValueSet)) :
    InStep ρ π id (defineAll ctx pairs)
      (defineAll ctx' (pairs.map fun p => (p.1, p.2.renumber π))) := by
  induction pairs with
  | nil => exact pure ()
  | cons pair rest ih =>
      obtain ⟨name, values⟩ := pair
      refine bind_eq (resolveVariable h name) fun x => bind_get fun s s' hs => ?_
      rw [hs.bindings, Bindings.define?_renumber]
      cases s.bindings.define? x values with
      | none => exact rejectOperation h rfl
      | some bindings => exact bind_eq (setBindings bindings) fun _ => ih

theorem initialValues (count : Nat) (value? : Option Expr) :
    InStep ρ π (Option.map (List.map (·.renumber π))) (initialValues ctx count value?)
      (initialValues ctx' count value?) := by
  cases value? with
  | some e => exact replayValues h count e
  | none =>
      refine bind (readZero h) fun zero => ?_
      have zeros : List.replicate count (ValueSet.single (π.value zero)) =
          (List.replicate count (ValueSet.single zero)).map (·.renumber π) := by
        rw [List.map_replicate, ValueSet.renumber_single]
      rw [zeros]
      exact pure (some _)

theorem replayLet (names : List String) (value? : Option Expr) :
    InStep ρ π id (replayLet ctx names value?) (replayLet ctx' names value?) := by
  refine bind (initialValues h names.length value?) fun values? => ?_
  cases values? with
  | none => exact pure false
  | some values =>
      simp only [Option.map_some, List.zip_map_right]
      exact bind_eq (defineAll h (names.zip values)) fun _ => pure true

theorem checkReturned (pairs : List (VariableId × ValueId)) :
    InStep ρ π id (checkReturned ctx pairs)
      (checkReturned ctx' (pairs.map fun p => (p.1, π.value p.2))) := by
  induction pairs with
  | nil => exact pure ()
  | cons pair rest ih =>
      obtain ⟨x, v⟩ := pair
      refine bind_get fun s s' hs => ?_
      dsimp only
      rw [hs.bindings, Bindings.lookup_renumber]
      refine bind (orReject h rfl rfl) fun held => ?_
      simp only [ValueSet.contains_renumber, ← Bindings.renumber_narrow]
      exact ite Iff.rfl (bind_eq (setBindings _) fun _ => ih) (rejectOperation h rfl)

theorem replayLeave : InStep ρ π id (replayLeave ctx) (replayLeave ctx') := by
  refine bind (leaveByReturn h) fun values => ?_
  dsimp only
  simp only [List.length_map, h.graph.returns, List.zip_map_right]
  refine ite Iff.rfl ?_ (bind_eq (checkReturned h _) fun _ => pure false)
  refine bind_get fun s s' hs => rejectOperation h ?_
  rw [hs.block]
  rfl

theorem bindSignature (pairs : List ((VariableId × ValueSet) × String)) :
    InStep ρ π id (bindSignature ctx pairs)
      (bindSignature ctx' (pairs.map fun p => ((p.1.1, p.1.2.renumber π), p.2))) := by
  induction pairs with
  | nil => exact pure ()
  | cons pair rest ih =>
      obtain ⟨⟨graphVar, values⟩, name⟩ := pair
      have inGraph : Location.graph ctx'.graphRef =
          (Location.graph ctx.graphRef).renumber π := by
        rw [graphRef h]
        rfl
      refine bind_eq (resolveVariable h name) fun x => ?_
      refine ite Iff.rfl (reject h rfl inGraph) (bind_get fun s s' hs => ?_)
      rw [hs.bindings, Bindings.define?_renumber]
      cases s.bindings.define? x values with
      | none => exact reject h rfl inGraph
      | some bindings => exact bind_eq (setBindings bindings) fun _ => ih

omit h in
theorem zip_signature (pairs : List (VariableId × ValueSet)) (names : List String) :
    (pairs.map fun p => (p.1, p.2.renumber π)).zip names =
      (pairs.zip names).map fun p => ((p.1.1, p.1.2.renumber π), p.2) :=
  List.zip_map_left ..

theorem bindReturns (returns : List String) :
    InStep ρ π id (bindReturns ctx returns) (bindReturns ctx' returns) := by
  unfold Replay.bindReturns
  rw [h.graph.returns]
  refine ite Iff.rfl (pure ()) (bind (readZero h) fun zero => ?_)
  have zeros : (ctx.graph.returns.map (·, ValueSet.single (π.value zero))).zip returns =
      ((ctx.graph.returns.map (·, ValueSet.single zero)).zip returns).map
        fun p => ((p.1.1, p.1.2.renumber π), p.2) := by
    rw [← zip_signature, List.map_map]
    simp only [Function.comp_def, ValueSet.renumber_single]
  rw [zeros]
  exact bindSignature h _

theorem replayFunction (d : Definition) {body body' : Walk Bool}
    (hb : InStep ρ π id body body') :
    InStep ρ π id (replayFunction ctx d body) (replayFunction ctx' d body') := by
  refine bind_eq (record _ _) fun _ => bind_eq (modify fun s s' hs => ?_) fun _ => ?_
  · exact ⟨by rw [h.analysis], hs.block, hs.op, hs.bindings, hs.loops⟩
  · have arguments : (ctx'.graph.arguments.map fun a => (a.1, ValueSet.single a.2)).zip
        d.parameters =
          ((ctx.graph.arguments.map fun a => (a.1, ValueSet.single a.2)).zip d.parameters).map
            fun p => ((p.1.1, p.1.2.renumber π), p.2) := by
      rw [h.graph.arguments, ← zip_signature, List.map_map, List.map_map]
      simp only [Function.comp_def, ValueSet.renumber_single]
    rw [arguments]
    refine bind_eq (bindSignature h _) fun _ => bind_eq (bindReturns h d.returns) fun _ => ?_
    refine bind_eq hb fun falls => ite Iff.rfl ?_ (pure ())
    exact bind_eq (replayLeave h) fun _ => pure ()

theorem within {f : FunctionId} {graph graph' : Cfg}
    (hg : GraphMirrors (ρ (some f)) graph graph') :
    ContextMirrors ρ (ρ (some f)) (ctx.within f graph) (ctx'.within f graph') :=
  ⟨rfl, rfl, h.analysis, h.dialect, h.ownership, h.iterations, hg, h.functions⟩

-- The definition is replayed under the numbers of its own graph.
theorem replayDefinition (d : Definition) {body body' : Context → Walk Bool}
    (hb : ∀ {inner inner' : Context} {σ : Renumbering}, ContextMirrors ρ σ inner inner' →
      InStep ρ σ id (body inner) (body' inner')) :
    InStep ρ π id (replayDefinition ctx d body) (replayDefinition ctx' d body') := by
  refine bind_eq (resolveFunction h d.name) fun f => ?_
  have hf := h.functions f
  generalize ctx.flow.graphOf? f = found at hf ⊢
  generalize ctx'.flow.graphOf? f = found' at hf ⊢
  rcases hf with @⟨graph, graph', hg⟩ | _
  · refine ite ?_ (reject h ?_ rfl) ?_
    · rw [hg.arguments, hg.returns, List.length_map]
    · rw [hg.arguments, hg.returns, List.length_map]
      rfl
    · have inner : ContextMirrors ρ (ρ (some f)) (ctx.within f graph) (ctx'.within f graph') :=
        within h hg
      exact apart hg (replayFunction inner d (hb inner))
  · exact reject h rfl rfl

theorem inBlock (node : NodeId) {body body' : Walk Bool} (hb : InStep ρ π id body body') :
    InStep ρ π id (inBlock ctx node body) (inBlock ctx' node body') := by
  unfold Replay.inBlock
  rw [h.analysis]
  cases ctx.analysis.scopeOf? node with
  | none => exact rejectBlock h rfl
  | some scope => exact inScope scope hb

omit h in
-- The recursion is that of the replay itself.
mutual
theorem replayStmt {ctx ctx' : Context} {π : Renumbering} (h : ContextMirrors ρ π ctx ctx')
    (s : Stmt) : InStep ρ π id (replayStmt ctx s) (replayStmt ctx' s) := by
  cases s with
  | expr e => exact replayBare h e
  | assign names e => exact replayAssignment h names e
  | letDecl names value? => exact replayLet h names value?
  | funDef name parameters returns body =>
      exact bind_eq (replayDefinition h ⟨name, parameters, returns, body⟩
        fun inner => replayBlock inner body) fun _ => pure true
  | cond condition body => exact replayIf h condition (replayBlock h body)
  | switch e cases => exact replaySwitch h e (replayArms h cases)
  | forLoop init condition post body =>
      cases init with
      | mk node statements =>
          have first : InStep ρ π id (inTurn (Replay.replayDefinitions ctx statements)
              (Replay.replayOthers ctx node statements))
              (inTurn (Replay.replayDefinitions ctx' statements)
                (Replay.replayOthers ctx' node statements)) :=
            bind_eq (replayDefinitions h statements) fun _ => replayOthers h node statements
          exact inBlock h node
            (replayFor h first (replayBlock h body) (replayBlock h post) condition _)
  | breakLoop => exact replayLoopJump h .exits
  | continueLoop => exact replayLoopJump h .continues
  | leave => exact replayLeave h
  | block body => exact replayBlock h body
theorem replayBlock {ctx ctx' : Context} {π : Renumbering} (h : ContextMirrors ρ π ctx ctx')
    (b : Block) : InStep ρ π id (replayBlock ctx b) (replayBlock ctx' b) := by
  cases b with
  | mk node statements =>
      exact inBlock h node
        (bind_eq (replayDefinitions h statements) fun _ => replayOthers h node statements)
theorem replayDefinitions {ctx ctx' : Context} {π : Renumbering}
    (h : ContextMirrors ρ π ctx ctx') (statements : List Stmt) :
    InStep ρ π id (replayDefinitions ctx statements) (replayDefinitions ctx' statements) := by
  cases statements with
  | nil => exact pure ()
  | cons s rest =>
      refine ite Iff.rfl ?_ (replayDefinitions h rest)
      exact bind_eq (replayStmt h s) fun _ => replayDefinitions h rest
theorem replayOthers {ctx ctx' : Context} {π : Renumbering} (h : ContextMirrors ρ π ctx ctx')
    (node : NodeId) (statements : List Stmt) :
    InStep ρ π id (replayOthers ctx node statements) (replayOthers ctx' node statements) := by
  cases statements with
  | nil => exact pure true
  | cons s rest =>
      refine ite Iff.rfl (replayOthers h node rest) ?_
      refine bind_eq (replayStmt h s) fun falls => ite Iff.rfl (replayOthers h node rest) ?_
      exact bind_eq (warnUnreachable node rest) fun _ => pure false
theorem replayArms {ctx ctx' : Context} {π : Renumbering} (h : ContextMirrors ρ π ctx ctx')
    (cases : List Case) : ArmsInStep ρ π (replayArms ctx cases) (replayArms ctx' cases) := by
  cases cases with
  | nil => exact .nil
  | cons c rest =>
      cases c with
      | mk value? body => exact .cons ⟨rfl, replayBlock h body⟩ (replayArms h rest)
end

theorem replayMain (program : Block) :
    InStep ρ π id (replayMain ctx program) (replayMain ctx' program) := by
  refine bind_eq (record _ _) fun _ => bind_eq (replayBlock h program) fun falls => ?_
  exact ite Iff.rfl (leaveByMainExit h) (pure ())

end InStep

end SsaReplay.Replay
