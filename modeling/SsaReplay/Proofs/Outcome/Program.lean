import SsaReplay.Proofs.Outcome.Loop

namespace SsaReplay

namespace Replay

open SsaReplay.Yul (Block Definition Expr Stmt initialNames)

variable {allowed : Mismatch → Prop} {ctx : Context} {scope? : Option ScopeId}
  {duties : List Duty} {r r' r'' : Bounds} {s t : State}

-- The name stands for the variable.
def Names (ctx : Context) (scope? : Option ScopeId) (names : List String) (x : VariableId) : Prop :=
  ∃ name ∈ names, ctx.scopes.symbol? scope? name = some (.var x)

theorem names_append (names others : List String) {x : VariableId} :
    Names ctx scope? (names ++ others) x ↔
      Names ctx scope? names x ∨ Names ctx scope? others x := by
  simp only [Names, List.mem_append, or_and_right, exists_or]

theorem Assigned.binds {b b' : Bindings} {pairs : List (String × ValueSet)}
    (h : Assigned ctx scope? b pairs b') (x : VariableId) :
    b'.binds x = true ↔ b.binds x = true ∨ Names ctx scope? (pairs.map Prod.fst) x := by
  induction h with
  | nil => simp [Names]
  | @cons b b' name values y rest resolved others ih =>
      have here : Names ctx scope? [name] x ↔ x = y := by
        simp only [Names, List.mem_singleton, exists_eq_left, resolved, Option.some.injEq,
          Yul.Symbol.var.injEq]
        exact eq_comm
      have split : Names ctx scope? (name :: rest.map Prod.fst) x ↔
          Names ctx scope? [name] x ∨ Names ctx scope? (rest.map Prod.fst) x :=
        names_append [name] _
      rw [ih, Bindings.binds_assign, Bool.or_eq_true, decide_eq_true_iff, ← here,
        List.map_cons, split]
      exact or_assoc.trans or_left_comm

theorem Assigned.resolved {b b' : Bindings} {pairs : List (String × ValueSet)}
    (h : Assigned ctx scope? b pairs b') :
    ∀ name ∈ pairs.map Prod.fst, ∃ x, ctx.scopes.symbol? scope? name = some (.var x) := by
  induction h with
  | nil => exact fun _ hn => absurd hn List.not_mem_nil
  | cons resolved others ih => exact List.forall_mem_cons.mpr ⟨⟨_, resolved⟩, ih⟩

theorem SignatureBound.binds {b b' : Bindings} {pairs : List (VariableId × ValueSet)}
    {names : List String} (hl : pairs.length = names.length)
    (h : SignatureBound ctx scope? b (pairs.zip names) b') :
    (∀ x, b'.binds x = true ↔ b.binds x = true ∨ Names ctx scope? names x) ∧
      ∀ name ∈ names, ∃ x, ctx.scopes.symbol? scope? name = some (.var x) := by
  have hassigned := h.assigned
  have hnames : ((pairs.zip names).map fun p => (p.2, p.1.2)).map Prod.fst = names := by
    rw [List.map_map]
    exact List.map_snd_zip (Nat.le_of_eq hl.symm)
  exact ⟨fun x => hnames ▸ hassigned.binds x, hnames ▸ hassigned.resolved⟩

namespace Ends

-- The replay of a function's body begins with its signature bound and nothing else.
theorem replayFunction {d : Definition} {body : Walk Bool} (lenient : Lenient allowed)
    (arguments : ctx.graph.arguments.length = d.parameters.length)
    (returns : ctx.graph.returns.length = d.returns.length)
    (fresh : s.bindings = .empty)
    (declarable : Declarable ctx.scopes (ctx.analysis.scopeOf? d.body.id)
      (fun _ x => allowed (.signatureRedeclared x)) (fun _ => false) (d.parameters ++ d.returns))
    (hb : ∀ bindings : Bindings,
      (∀ x, bindings.binds x = true ↔
        Names ctx (ctx.analysis.scopeOf? d.body.id) (d.parameters ++ d.returns) x) →
      (∀ x ∈ ctx.graph.returns, bindings.binds x = true) →
      Ends allowed body (s.inFunction ctx d bindings) fun falls t => falls = true →
        (ctx.graph.block? t.block = none → allowed (.absentBlock t.block)) ∧
          ∀ x ∈ ctx.graph.returns, t.bindings.lookup x = none → allowed (.unboundReturn x)) :
    Ends allowed (replayFunction ctx d body) s fun _ _ => True := by
  have unbound : s.bindings.binds = fun _ => false := by
    rw [fresh]
    rfl
  have hargs : (ctx.graph.arguments.map fun a => (a.1, ValueSet.single a.2)).length =
      d.parameters.length := by rw [List.length_map, arguments]
  refine bind (record (bind (modify (fun _ hm => hm) (bind ?_))))
  have first : Declarable ctx.scopes (ctx.analysis.scopeOf? d.body.id)
      (fun _ x => allowed (.signatureRedeclared x)) s.bindings.binds d.parameters :=
    unbound ▸ declarable.left
  refine (bindSignature lenient first).mono fun _ t ht => bind ?_
  obtain ⟨given, hgiven, rfl⟩ := ht
  obtain ⟨hbinds, hresolved⟩ := hgiven.binds hargs
  have hgiven : ∀ x, given.binds x = true ↔
      Names ctx (ctx.analysis.scopeOf? d.body.id) d.parameters x := by
    intro x
    refine (hbinds x).trans ?_
    change s.bindings.binds x = true ∨
      Names ctx (ctx.analysis.scopeOf? d.body.id) d.parameters x ↔ _
    rw [unbound]
    simp
  have later : Declarable ctx.scopes (ctx.analysis.scopeOf? d.body.id)
      (fun _ x => allowed (.signatureRedeclared x)) given.binds d.returns :=
    declarable.right hresolved fun x hx => .inr ((hgiven x).mp hx)
  have ending : ∀ all : Bindings, (∀ x, all.binds x = true ↔ given.binds x = true ∨
      Names ctx (ctx.analysis.scopeOf? d.body.id) d.returns x) →
      (∀ x ∈ ctx.graph.returns, all.binds x = true) →
      Ends allowed
        (do if ← body then let _ ← Replay.replayLeave ctx; Pure.pure () else Pure.pure ())
        (s.inFunction ctx d all) fun _ _ => True := by
    intro all hall hreturns
    refine bind ((hb all (fun x => ?_) hreturns).mono fun falls u hu =>
      ite (fun hf => ?_) fun _ => ?_)
    · rw [hall, hgiven, names_append]
    · exact bind ((replayLeave lenient (hu hf).1 (hu hf).2).mono fun _ _ _ => pure trivial)
    · exact pure trivial
  refine ite (fun hempty => pure ?_) fun _ => bind (readZero lenient fun zero => ?_)
  · have hnone : ctx.graph.returns = [] := List.isEmpty_iff.mp hempty
    have hnames : d.returns = [] := by
      rw [hnone] at returns
      exact List.length_eq_zero_iff.mp returns.symm
    refine ending given (fun x => ?_) (by simp [hnone])
    simp [Names, hnames]
  · refine (bindSignature lenient later).mono fun _ t ht => ?_
    obtain ⟨all, hall, rfl⟩ := ht
    have hrets : (ctx.graph.returns.map (·, ValueSet.single zero)).length = d.returns.length := by
      rw [List.length_map, returns]
    refine ending all (hall.binds hrets).1 fun x hx => ?_
    have resolved := SignatureBound.resolved hall returns
    obtain ⟨i, hi, rfl⟩ := List.getElem_of_mem hx
    refine ((hall.binds hrets).1 _).mpr
      (.inr ⟨d.returns.get ⟨i, returns ▸ hi⟩, List.get_mem _ _, ?_⟩)
    exact (List.forall₂_iff_get.mp resolved).2 i (returns ▸ hi) hi

end Ends

namespace Runs

variable (tol : Tolerant allowed ctx)

theorem done (hle : r.Le r') : Runs allowed ctx scope? duties r r' (pure true) :=
  fun _ hs hr => .pure ⟨hs, fun _ => hr.mono hle⟩

theorem inTurn {definitions : Walk Unit} {others : Walk Bool}
    (hd : ∀ s, Stands allowed ctx scope? duties s → Ends allowed definitions s fun _ t =>
      Stands allowed ctx scope? duties t ∧ t.bindings = s.bindings)
    (ho : Runs allowed ctx scope? duties r r' others) :
    Runs allowed ctx scope? duties r r' (inTurn definitions others) :=
  fun s hs hr => .bind ((hd s hs).mono fun _ t ht => ho t ht.1 (ht.2 ▸ hr))

include tol

theorem replayBare {e : Expr} (reads : Reads allowed ctx scope? r e.names) :
    Runs allowed ctx scope? duties r r (replayBare ctx e) := by
  intro s hs hr
  refine (Ends.replayBare tol.lenient hs.here (reads.readable hs.scope hr)).mono fun _ t ht => ?_
  exact ⟨hs.abides ht, fun _ => hr.congr ht.bound⟩

theorem replayAssignment {names : List String} {e : Expr}
    (reads : Reads allowed ctx scope? r e.names)
    (targets : ∀ x, Names ctx scope? names x → r.lower x ∨ r.upper x) :
    Runs allowed ctx scope? duties r r (replayAssignment ctx names e) := by
  intro s hs hr
  refine .bind ((Ends.replayValues tol.lenient hs.here (reads.readable hs.scope hr)).mono ?_)
  intro values? t ht
  cases values? with
  | none => exact .pure ⟨hs.abides ht.1, fun h => absurd h Bool.false_ne_true⟩
  | some values =>
      refine .bind ((Ends.assignAll tol.lenient).mono fun _ u hu => .pure ?_)
      obtain ⟨b, hb, rfl⟩ := hu
      have hst := hs.abides ht.1
      have hrt : r.Holds t.bindings := hr.congr ht.1.bound
      have hnames : (names.zip values).map Prod.fst = names :=
        List.map_fst_zip (Nat.le_of_eq (ht.2 values rfl).symm)
      refine ⟨hst.bindings b, fun _ => ⟨fun x hx => ?_, fun x hx => ?_⟩⟩
      · exact (hb.binds x).mpr (.inl (hrt.lower x hx))
      · rcases (hb.binds x).mp hx with hx | hx
        · exact hrt.upper x hx
        · rw [hnames, hst.scope] at hx
          exact (targets x hx).elim (fun h => hrt.upper x (hrt.lower x h)) id

theorem replayLet {names : List String} {value? : Option Expr}
    (reads : Reads allowed ctx scope? r (initialNames value?))
    (declarable : ∀ bound : VariableId → Bool, (∀ x, bound x = true → r.upper x) →
      Declarable ctx.scopes scope? (fun name _ => allowed (.redeclared name)) bound names)
    (lower : ∀ x, r'.lower x → r.lower x ∨ Names ctx scope? names x)
    (upper : ∀ x, r.upper x ∨ Names ctx scope? names x → r'.upper x) :
    Runs allowed ctx scope? duties r r' (replayLet ctx names value?) := by
  intro s hs hr
  refine .bind ((Ends.initialValues tol.lenient hs.here (reads.readable hs.scope hr)).mono ?_)
  intro values? t ht
  cases values? with
  | none => exact .pure ⟨hs.abides ht.1, fun h => absurd h Bool.false_ne_true⟩
  | some values =>
      have hst := hs.abides ht.1
      have hrt : r.Holds t.bindings := hr.congr ht.1.bound
      have hdecl := declarable t.bindings.binds hrt.upper
      refine .bind ((Ends.defineAll tol.lenient (hst.scope ▸ hdecl)).mono fun _ u hu => .pure ?_)
      obtain ⟨b, hb, rfl⟩ := hu
      have hnames : (names.zip values).map Prod.fst = names :=
        List.map_fst_zip (Nat.le_of_eq (ht.2 values rfl).symm)
      have hbinds : ∀ x, b.binds x = true ↔ t.bindings.binds x = true ∨
          Names ctx scope? names x := by
        intro x
        rw [hb.assigned.binds x, hnames, hst.scope]
      refine ⟨hst.bindings b, fun _ => ⟨fun x hx => (hbinds x).mpr ?_, fun x hx => upper x ?_⟩⟩
      · exact (lower x hx).imp_left (hrt.lower x)
      · exact ((hbinds x).mp hx).imp_left (hrt.upper x)

theorem replayLeave
    (returns : ∀ x ∈ ctx.graph.returns, r.lower x ∨ allowed (.unboundReturn x)) :
    Runs allowed ctx scope? duties r r' (replayLeave ctx) := by
  intro s hs hr
  refine (Ends.replayLeave tol.lenient hs.here fun x hx hl => ?_).mono fun falls t ht => ?_
  · refine (returns x hx).resolve_left fun hlow => ?_
    have hb := hr.lower x hlow
    rw [Bindings.binds, hl] at hb
    exact absurd hb (by simp)
  · obtain ⟨rfl, ht⟩ := ht
    exact ⟨hs.abides ht, fun h => absurd h Bool.false_ne_true⟩

theorem inBlock {id : NodeId} {body : Walk Bool}
    (hb : ∀ scope, ctx.analysis.scopeOf? id = some scope →
      Runs allowed ctx (some scope) duties r r' body) :
    Runs allowed ctx scope? duties r r' (inBlock ctx id body) := by
  intro s hs hr
  unfold Replay.inBlock
  cases hscope : ctx.analysis.scopeOf? id with
  | none => exact .rejectBlock (tol.lenient _ rfl rfl)
  | some scope =>
      have inside : Stands allowed ctx (some scope) duties { s with scope? := some scope } :=
        ⟨rfl, hs.here, hs.loops⟩
      refine .inScope ((hb scope hscope _ inside hr).mono fun falls t ht => ?_)
      exact ⟨⟨hs.scope, ht.1.here, ht.1.loops⟩, ht.2⟩

-- A statement, then the others where control falls through it.
theorem thenOthers {id : NodeId} {rest : List Stmt} {first others : Walk Bool}
    (hf : Runs allowed ctx scope? duties r r' first)
    (ho : Runs allowed ctx scope? duties r' r'' others) :
    Runs allowed ctx scope? duties r r'' (thenOthers ctx id rest first others) := by
  intro s hs hr
  refine .bind ((hf s hs hr).mono fun falls t ht => .ite (fun hfalls => ?_) fun _ => ?_)
  · exact ho t ht.1 (ht.2 hfalls)
  · refine .bind (.warnUnreachable (fun _ _ => tol.lenient _ rfl rfl) fun warnings history => ?_)
    exact .pure ⟨⟨ht.1.scope, ht.1.here, ht.1.loops⟩, fun h => absurd h Bool.false_ne_true⟩

omit tol

-- The body of a function starts with its signature, and keeps its returns bound.
theorem replayDefinition {d : Definition} {body : Context → Walk Bool} (lenient : Lenient allowed)
    (hf : ∀ f graph, ctx.scopes.symbol? scope? d.name = some (.func f) →
      ctx.flow.graphOf? f = some graph →
      Tolerant allowed (ctx.within f graph) ∧
      (graph.block? graph.entry = none → allowed (.absentBlock graph.entry)) ∧
      Declarable ctx.scopes (ctx.analysis.scopeOf? d.body.id)
        (fun _ x => allowed (.signatureRedeclared x)) (fun _ => false)
          (d.parameters ++ d.returns) ∧
      ∃ r r' : Bounds, Runs allowed (ctx.within f graph) (ctx.analysis.scopeOf? d.body.id) [] r r'
          (body (ctx.within f graph)) ∧
        (∀ b : Bindings, (∀ x, b.binds x = true ↔
          Names ctx (ctx.analysis.scopeOf? d.body.id) (d.parameters ++ d.returns) x) →
          (∀ x ∈ graph.returns, b.binds x = true) → r.Holds b ∧
            ∀ x ∈ graph.returns, r'.lower x ∨ allowed (.unboundReturn x)))
    (hs : Stands allowed ctx scope? duties s) :
    Ends allowed (replayDefinition ctx d body) s fun _ t =>
      Stands allowed ctx scope? duties t ∧ t.bindings = s.bindings := by
  refine .bind (.resolveFunction lenient fun f hresolved => ?_)
  cases hg : ctx.flow.graphOf? f with
  | none => exact .reject (lenient _ rfl rfl)
  | some graph =>
      refine .ite (fun _ => .reject (lenient _ rfl rfl)) fun hsize => ?_
      obtain ⟨arguments, returns⟩ := not_or.mp hsize
      obtain ⟨tol, entry, declarable, r, r', hb, hr⟩ := hf f graph (hs.scope ▸ hresolved) hg
      refine .apart ?_ fun warnings history => ⟨⟨hs.scope, hs.here, hs.loops⟩, rfl⟩
      refine .replayFunction lenient (not_not.mp arguments) (not_not.mp returns) rfl declarable ?_
      intro bindings hbinds hreturns
      obtain ⟨hholds, hkept⟩ := hr bindings hbinds hreturns
      have start : Stands allowed (ctx.within f graph) (ctx.analysis.scopeOf? d.body.id) []
          ((s.apartOn graph).inFunction (ctx.within f graph) d bindings) := ⟨rfl, entry, .nil⟩
      refine (hb _ start hholds).mono fun falls t ht hfalls => ⟨ht.1.here, fun x hx hl => ?_⟩
      refine (hkept x hx).resolve_left fun hlow => ?_
      have hbound := (ht.2 hfalls).lower x hlow
      rw [Bindings.binds, hl] at hbound
      exact absurd hbound (by simp)

end Runs

theorem Ends.replayMain {program : Block} (tol : Tolerant allowed ctx)
    (entry : ctx.graph.block? ctx.graph.entry = none → allowed (.absentBlock ctx.graph.entry))
    (hr : r.Holds .empty) (hb : Runs allowed ctx none [] r r' (replayBlock ctx program)) :
    Ends allowed (replayMain ctx program) (State.start ctx.graph) fun _ _ => True := by
  refine .bind (.record (.bind ((hb _ ⟨rfl, entry, .nil⟩ hr).mono fun falls t ht => ?_)))
  refine .ite (fun _ => ?_) fun _ => .pure trivial
  exact .leaveByMainExit tol.lenient ht.1.here trivial

end Replay

end SsaReplay
