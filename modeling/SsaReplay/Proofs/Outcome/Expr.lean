import SsaReplay.Proofs.Outcome.Walk

namespace SsaReplay

namespace Bindings

def binds (b : Bindings) (x : VariableId) : Bool := (b.lookup x).isSome

theorem binds_assign (b : Bindings) (x y : VariableId) (values : ValueSet) :
    (b.assign x values).binds y = (decide (y = x) || b.binds y) := by
  unfold binds
  rw [lookup_assign]
  by_cases h : y = x
  · simp [h]
  · simp [h]

-- A variable that is committed to one of its candidates was bound before.
theorem binds_narrow {b : Bindings} {x : VariableId} {held : ValueSet}
    (h : b.lookup x = some held) (v : ValueId) : (b.narrow x v).binds = b.binds := by
  funext y
  rw [narrow, binds_assign]
  by_cases hy : y = x
  · rw [hy, binds, h, decide_eq_true rfl]
    rfl
  · rw [decide_eq_false hy, Bool.false_or]

end Bindings

namespace Yul

-- All names that are read in an expression.
mutual
def Expr.names : Expr → List String
  | .ident name => [name]
  | .literal _ => []
  | .call _ arguments => argumentsNames arguments
def argumentsNames : List Expr → List String
  | [] => []
  | e :: rest => e.names ++ argumentsNames rest
end

-- All names that the initial value of a declaration reads.
def initialNames : Option Expr → List String
  | some e => e.names
  | none => []

end Yul

namespace Replay

open SsaReplay.Graph (Callee Operation)
open SsaReplay.Yul (Expr Literal argumentsNames)

-- The replay went on inside a block. It may have committed variables to some of their
-- candidates.
structure Abides (s t : State) : Prop where
  scope : t.scope? = s.scope?
  block : t.block = s.block
  loops : t.loops = s.loops
  bound : t.bindings.binds = s.bindings.binds

theorem Abides.refl (s : State) : Abides s s := ⟨rfl, rfl, rfl, rfl⟩

theorem Abides.trans {s t u : State} (h : Abides s t) (k : Abides t u) : Abides s u :=
  ⟨k.scope.trans h.scope, k.block.trans h.block, k.loops.trans h.loops,
    k.bound.trans h.bound⟩

theorem Abides.log {s t : State} (h : Abides s t) (site : Site) (e : Event) :
    Abides s (t.log site e) :=
  ⟨h.scope, h.block, h.loops, h.bound⟩

-- No name among those given stands for a variable without a value, unless that may be
-- found.
def Readable (allowed : Mismatch → Prop) (ctx : Context) (s : State) (names : List String) :
    Prop :=
  ∀ name ∈ names, ∀ x, ctx.scopes.symbol? s.scope? name = some (.var x) →
    s.bindings.lookup x = none → allowed (.unbound name)

theorem Readable.abides {allowed : Mismatch → Prop} {ctx : Context} {s t : State}
    {names : List String} (h : Readable allowed ctx s names) (ht : Abides s t) :
    Readable allowed ctx t names := by
  intro name hn x hx hl
  refine h name hn x (ht.scope ▸ hx) ?_
  have hb : (s.bindings.lookup x).isSome = (t.bindings.lookup x).isSome :=
    (congrFun ht.bound x).symm
  rw [hl, Option.isSome_none, Option.isSome_eq_false_iff] at hb
  exact Option.isNone_iff_eq_none.mp hb

namespace Ends

variable {α : Type} {allowed : Mismatch → Prop} {ctx : Context} {s : State}
  {Q : α → State → Prop}

theorem consume {op : Operation} {Q : Unit → State → Prop} (hq : Q () (s.consume ctx.site op)) :
    Ends allowed (consume ctx op) s Q :=
  bind (get (bind (record (modify (fun _ hm => hm) hq))))

variable (lenient : Lenient allowed)

include lenient

theorem resolve {name : String} {Q : Yul.Symbol → State → Prop}
    (hq : ∀ symbol, ctx.scopes.symbol? s.scope? name = some symbol → Q symbol s) :
    Ends allowed (resolve ctx name) s Q := by
  refine bind (get ?_)
  cases hs : s.scope? with
  | none => exact rejectBlock (lenient _ rfl rfl)
  | some scope =>
      cases hl : ctx.scopes.lookup scope name with
      | none =>
          simp only [hl]
          exact rejectBlock (lenient _ rfl rfl)
      | some symbol =>
          simp only [hl]
          refine pure (hq symbol ?_)
          rw [Yul.Scopes.symbol?, hs, Option.bind_some, hl]

theorem resolveVariable {name : String} {Q : VariableId → State → Prop}
    (hq : ∀ x, ctx.scopes.symbol? s.scope? name = some (.var x) → Q x s) :
    Ends allowed (resolveVariable ctx name) s Q := by
  refine bind (resolve lenient fun symbol hs => ?_)
  cases symbol with
  | var x => exact pure (hq x hs)
  | func f => exact rejectBlock (lenient _ rfl rfl)

theorem resolveFunction {name : String} {Q : FunctionId → State → Prop}
    (hq : ∀ f, ctx.scopes.symbol? s.scope? name = some (.func f) → Q f s) :
    Ends allowed (resolveFunction ctx name) s Q := by
  refine bind (resolve lenient fun symbol hs => ?_)
  cases symbol with
  | var x => exact rejectBlock (lenient _ rfl rfl)
  | func f => exact pure (hq f hs)

theorem readLiteral {l : Literal} {Q : ValueId → State → Prop} (hq : ∀ v, Q v s) :
    Ends allowed (readLiteral ctx l) s Q :=
  orReject (fun _ => lenient _ rfl rfl) fun v _ => hq v

theorem readZero {Q : ValueId → State → Prop} (hq : ∀ v, Q v s) :
    Ends allowed (readZero ctx) s Q :=
  orReject (fun _ => lenient _ rfl rfl) fun v _ => hq v

theorem readVariable {name : String} {Q : ValueSet → State → Prop}
    (bound : ∀ x, ctx.scopes.symbol? s.scope? name = some (.var x) →
      s.bindings.lookup x = none → allowed (.unbound name))
    (hq : ∀ held, Q held s) : Ends allowed (readVariable ctx name) s Q :=
  bind (resolveVariable lenient fun x hx =>
    bind (get (orReject (bound x hx) fun held _ => hq held)))

theorem reconcile {e : Expr} {candidates : ValueSet} {v : ValueId} :
    Ends allowed (reconcile ctx e candidates v) s fun _ t => Abides s t := by
  cases e with
  | ident name =>
      refine bind (resolveVariable lenient fun x _ => bind (get (ite (fun hany => ?_) fun _ => ?_)))
      · obtain ⟨held, hl, -⟩ := (Option.any_eq_true _ _).mp hany
        exact bind (setBindings (pure ⟨rfl, rfl, rfl, Bindings.binds_narrow hl v⟩))
      · exact pure (.refl s)
  | literal l => exact pure (.refl s)
  | call name arguments => exact pure (.refl s)

theorem reconcileOperands {name : String} {i : Nat} {operands : List (Expr × ValueSet)}
    {inputs : List ValueId} :
    Ends allowed (reconcileOperands ctx name i operands inputs) s fun _ t => Abides s t := by
  induction operands generalizing s i inputs with
  | nil => exact pure (.refl s)
  | cons operand operands ih =>
      obtain ⟨e, candidates⟩ := operand
      cases inputs with
      | nil => exact pure (.refl s)
      | cons input inputs =>
          refine bind ((reconcile lenient).mono fun fits t ht => ite (fun _ => ?_) fun _ => ?_)
          · exact ih.mono fun _ u hu => ht.trans hu
          · exact rejectOperation (lenient _ rfl rfl)

theorem checkCallee {name : String} {callee : Callee} {outputs : Nat}
    {Q : Bool → State → Prop} (hq : ∀ canContinue, Q canContinue s) :
    Ends allowed (checkCallee ctx name callee outputs) s Q := by
  have rejected : ∀ m : Mismatch, m.code.isStructural = false → m.code.isOfBinding = false →
      Ends allowed (Replay.rejectOperation ctx m) s Q :=
    fun m hs hb => rejectOperation (lenient m hs hb)
  cases callee with
  | builtin b =>
      unfold Replay.checkCallee
      cases ctx.dialect.named? name with
      | none => exact rejected _ rfl rfl
      | some builtin =>
          refine ite (fun _ => rejected _ rfl rfl) fun _ => ?_
          exact ite (fun _ => rejected _ rfl rfl) fun _ => pure (hq _)
  | function f canContinue =>
      refine ite (fun _ => rejected _ rfl rfl) fun _ => ?_
      refine bind (resolveFunction lenient fun resolved _ => ?_)
      refine ite (fun _ => rejected _ rfl rfl) fun _ => ?_
      refine bind (orReject (fun _ => lenient _ rfl rfl) fun graph _ => ?_)
      exact ite (fun _ => rejected _ rfl rfl) fun _ => pure (hq _)

theorem oneValue {values? : Option (List ValueSet)} :
    Ends allowed (oneValue ctx values?) s fun _ t => Abides s t := by
  unfold Replay.oneValue
  split
  · exact pure (.refl s)
  · exact pure (.refl s)
  · exact rejectOperation (lenient _ rfl rfl)

theorem matchCall {name : String} {operands : List (Expr × ValueSet)}
    (here : ctx.graph.block? s.block = none → allowed (.absentBlock s.block)) :
    Ends allowed (matchCall ctx name operands) s fun _ t => Abides s t := by
  refine bind (get (bind (blockData here fun data _ => ?_)))
  refine bind (orReject (fun _ => lenient _ rfl rfl) fun op _ => ?_)
  refine ite (fun _ => rejectOperation (lenient _ rfl rfl)) fun _ => ?_
  refine bind ((reconcileOperands lenient).mono fun _ t ht => ?_)
  refine bind (checkCallee lenient fun canContinue => bind (consume ?_))
  have hu : Abides s (t.consume ctx.site op) := ⟨ht.scope, ht.block, ht.loops, ht.bound⟩
  refine ite (fun _ => pure hu) fun _ => ?_
  exact bind (leaveByTermination lenient (hu.block ▸ here) (pure (hu.log _ _)))

-- The recursion is that of the expression.
mutual
theorem replayExpr (e : Expr) {s : State}
    (here : ctx.graph.block? s.block = none → allowed (.absentBlock s.block))
    (readable : Readable allowed ctx s e.names) :
    Ends allowed (replayExpr ctx e) s fun _ t => Abides s t := by
  cases e with
  | ident name =>
      refine bind (readVariable lenient ?_ fun held => pure (.refl s))
      exact readable name (List.mem_singleton_self name)
  | literal l => exact bind (readLiteral lenient fun v => pure (.refl s))
  | call name arguments =>
      refine bind ((replayArguments arguments here readable).mono fun operands? t ht => ?_)
      cases operands? with
      | none => exact pure ht
      | some operands =>
          exact (matchCall lenient (ht.block ▸ here)).mono fun _ u hu => ht.trans hu
theorem replayArguments (arguments : List Expr) {s : State} {skipped : Nat → Bool} {i : Nat}
    (here : ctx.graph.block? s.block = none → allowed (.absentBlock s.block))
    (readable : Readable allowed ctx s (argumentsNames arguments)) :
    Ends allowed (replayArguments ctx skipped i arguments) s fun _ t => Abides s t := by
  cases arguments with
  | nil => exact pure (.refl s)
  | cons e rest =>
      have first : Readable allowed ctx s e.names :=
        fun name hn => readable name (List.mem_append_left _ hn)
      have others : Readable allowed ctx s (argumentsNames rest) :=
        fun name hn => readable name (List.mem_append_right _ hn)
      refine bind ((replayArguments rest here others).mono fun operands? t ht => ?_)
      cases operands? with
      | none => exact pure ht
      | some operands =>
          refine ite (fun _ => pure ht) fun _ => ?_
          refine bind ((replayExpr e (ht.block ▸ here) (first.abides ht)).mono fun _ u hu => ?_)
          refine bind ((oneValue lenient).mono fun value? v hv => ?_)
          have hall := (ht.trans hu).trans hv
          cases value? with
          | none => exact pure hall
          | some values => exact pure hall
end

theorem replayOne (e : Expr)
    (here : ctx.graph.block? s.block = none → allowed (.absentBlock s.block))
    (readable : Readable allowed ctx s e.names) :
    Ends allowed (replayOne ctx e) s fun _ t => Abides s t :=
  bind ((replayExpr lenient e here readable).mono fun _ _ ht =>
    (oneValue lenient).mono fun _ _ hu => ht.trans hu)

end Ends

end Replay

end SsaReplay
