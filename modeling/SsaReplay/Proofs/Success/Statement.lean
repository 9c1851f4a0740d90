import Mathlib.Data.List.Forall2
import SsaReplay.Proofs.Success.Loop
import SsaReplay.Replay.Statement

namespace SsaReplay

theorem Bindings.define?_eq_some {b b' : Bindings} {x : VariableId} {values : ValueSet} :
    b.define? x values = some b' ↔ b.lookup x = none ∧ b.assign x values = b' := by
  unfold define?
  cases b.lookup x <;> simp

namespace Replay

open SsaReplay.Graph (Cfg)
open SsaReplay.Yul (Definition Expr Stmt)

-- Names are given values, one after the other.
inductive Assigned (ctx : Context) (scope? : Option ScopeId) :
    Bindings → List (String × ValueSet) → Bindings → Prop
  | nil {b : Bindings} : Assigned ctx scope? b [] b
  | cons {b b' : Bindings} {name : String} {values : ValueSet} {x : VariableId}
      {rest : List (String × ValueSet)} (resolved : ctx.scopes.symbol? scope? name = some (.var x))
      (others : Assigned ctx scope? (b.assign x values) rest b') :
      Assigned ctx scope? b ((name, values) :: rest) b'

-- The same for names that are bound for the first time.
inductive Declared (ctx : Context) (scope? : Option ScopeId) :
    Bindings → List (String × ValueSet) → Bindings → Prop
  | nil {b : Bindings} : Declared ctx scope? b [] b
  | cons {b b' : Bindings} {name : String} {values : ValueSet} {x : VariableId}
      {rest : List (String × ValueSet)} (resolved : ctx.scopes.symbol? scope? name = some (.var x))
      (fresh : b.lookup x = none) (others : Declared ctx scope? (b.assign x values) rest b') :
      Declared ctx scope? b ((name, values) :: rest) b'

-- The names of a signature stand for the variables that the graph has for them.
inductive SignatureBound (ctx : Context) (scope? : Option ScopeId) :
    Bindings → List ((VariableId × ValueSet) × String) → Bindings → Prop
  | nil {b : Bindings} : SignatureBound ctx scope? b [] b
  | cons {b b' : Bindings} {name : String} {values : ValueSet} {x : VariableId}
      {rest : List ((VariableId × ValueSet) × String)}
      (resolved : ctx.scopes.symbol? scope? name = some (.var x))
      (fresh : b.lookup x = none) (others : SignatureBound ctx scope? (b.assign x values) rest b') :
      SignatureBound ctx scope? b (((x, values), name) :: rest) b'

-- Every return variable holds the value returned for it, and is committed to it.
inductive ReturnsHeld : Bindings → List (VariableId × ValueId) → Bindings → Prop
  | nil {b : Bindings} : ReturnsHeld b [] b
  | cons {b b' : Bindings} {x : VariableId} {v : ValueId} {held : ValueSet}
      {rest : List (VariableId × ValueId)} (bound : b.lookup x = some held) (member : v ∈ held)
      (others : ReturnsHeld (b.narrow x v) rest b') : ReturnsHeld b ((x, v) :: rest) b'

inductive FunctionLeft (ctx : Context) (s : State) : State → Prop
  | mk {values : List ValueId} {b : Bindings} (exit : AtExit ctx s (.functionReturn values))
      (count : values.length = ctx.graph.returns.length)
      (held : ReturnsHeld s.bindings (ctx.graph.returns.zip values) b) :
      FunctionLeft ctx s
        { s.log ctx.site (.left s.block (.functionReturn values)) with bindings := b }

inductive ReturnsBound (ctx : Context) (scope? : Option ScopeId) (names : List String)
    (b : Bindings) : Bindings → Prop
  | none (noReturns : ctx.graph.returns = []) : ReturnsBound ctx scope? names b b
  | zero {v : ValueId} {b' : Bindings} (found : ctx.graph.zero? = some v)
      (bound : SignatureBound ctx scope? b
        ((ctx.graph.returns.map (·, .single v)).zip names) b') :
      ReturnsBound ctx scope? names b b'

namespace State

-- The state in which the body of a function is replayed.
def inFunction (s : State) (ctx : Context) (d : Definition) (b : Bindings) : State :=
  { s.log ctx.site (.entered (some d)) with
    scope? := ctx.analysis.scopeOf? d.body.id, bindings := b }

-- The state in which the replay of another graph starts.
def apartOn (s : State) (graph : Cfg) : State :=
  { State.start graph with warnings := s.warnings, history := s.history }

end State

inductive FunctionReplayed (ctx : Context) (d : Definition) (body : Walk Bool) (s : State) :
    State → Prop
  | mk {bound all : Bindings} {falls : Bool} {u t : State}
      (parameters : SignatureBound ctx (ctx.analysis.scopeOf? d.body.id) s.bindings
        ((ctx.graph.arguments.map (fun a => (a.1, .single a.2))).zip d.parameters) bound)
      (returns : ReturnsBound ctx (ctx.analysis.scopeOf? d.body.id) d.returns bound all)
      (run : body (s.inFunction ctx d all) = .ok falls u)
      (ends : falls = false ∧ u = t ∨ falls = true ∧ FunctionLeft ctx u t) :
      FunctionReplayed ctx d body s t

inductive DefinitionReplayed (ctx : Context) (d : Definition) (body : Context → Walk Bool)
    (s : State) : State → Prop
  | mk {f : FunctionId} {graph : Cfg} {u : State}
      (resolved : ctx.scopes.symbol? s.scope? d.name = some (.func f))
      (defined : ctx.flow.graphOf? f = some graph)
      (parameters : graph.arguments.length = d.parameters.length)
      (returns : graph.returns.length = d.returns.length)
      (run : replayFunction (ctx.within f graph) d (body (ctx.within f graph)) (s.apartOn graph) =
        .ok () u) :
      DefinitionReplayed ctx d body s { s with warnings := u.warnings, history := u.history }

-- At most a warning is added.
inductive Warned (ctx : Context) (s : State) : State → Prop
  | silent : Warned ctx s s
  | warned (m : Mismatch) (location : Location) :
      Warned ctx s
        { s.log ctx.site (.found m location) with
          warnings := s.warnings ++ [⟨m, location, ctx.site⟩] }

variable {ctx : Context} {s t : State}

theorem Declared.assigned {scope? : Option ScopeId} {b b' : Bindings}
    {pairs : List (String × ValueSet)} (h : Declared ctx scope? b pairs b') :
    Assigned ctx scope? b pairs b' := by
  induction h with
  | nil => exact .nil
  | cons resolved fresh others ih => exact .cons resolved ih

theorem SignatureBound.assigned {scope? : Option ScopeId} {b b' : Bindings}
    {pairs : List ((VariableId × ValueSet) × String)} (h : SignatureBound ctx scope? b pairs b') :
    Assigned ctx scope? b (pairs.map fun p => (p.2, p.1.2)) b' := by
  induction h with
  | nil => exact .nil
  | cons resolved fresh others ih => exact .cons resolved ih

-- The names of a signature mean its variables.
theorem SignatureBound.resolved {scope? : Option ScopeId} {b b' : Bindings}
    {vars : List VariableId} {names : List String} {values : ValueSet}
    (h : SignatureBound ctx scope? b ((vars.map (·, values)).zip names) b')
    (hl : vars.length = names.length) :
    List.Forall₂ (fun name x => ctx.scopes.symbol? scope? name = some (.var x)) names vars := by
  induction vars generalizing names b with
  | nil =>
      obtain rfl := List.length_eq_zero_iff.mp hl.symm
      exact .nil
  | cons x vars ih =>
      cases names with
      | nil => simp at hl
      | cons name names =>
          cases h with
          | cons resolved fresh others => exact .cons resolved (ih others (by simpa using hl))

theorem replayValues_eq_ok {count : Nat} {e : Expr} {values? : Option (List ValueSet)} :
    replayValues ctx count e s = .ok values? t ↔
      replayExpr ctx e s = .ok values? t ∧ ∀ values ∈ values?, values.length = count := by
  simp only [replayValues, bind_eq_ok]
  constructor
  · rintro ⟨found?, u, he, h⟩
    cases found? with
    | none =>
        obtain ⟨rfl, rfl⟩ := pure_eq_ok.mp h
        exact ⟨he, by simp⟩
    | some found =>
        simp only [ite_eq_ok, rejectOperation_ne_ok, and_false, false_or, not_not,
          pure_eq_ok] at h
        obtain ⟨hl, rfl, rfl⟩ := h
        exact ⟨he, by simpa using hl⟩
  · rintro ⟨he, hl⟩
    refine ⟨values?, t, he, ?_⟩
    cases values? with
    | none => exact pure_eq_ok.mpr ⟨rfl, rfl⟩
    | some found => simp [hl found rfl]

theorem replayBare_eq_ok {e : Expr} {r : Bool} :
    replayBare ctx e s = .ok r t ↔
      replayExpr ctx e s = .ok none t ∧ r = false ∨
        replayExpr ctx e s = .ok (some []) t ∧ r = true := by
  simp only [replayBare, bind_eq_ok]
  constructor
  · rintro ⟨found?, u, he, h⟩
    cases found? with
    | none =>
        obtain ⟨rfl, rfl⟩ := pure_eq_ok.mp h
        exact .inl ⟨he, rfl⟩
    | some values =>
        cases values with
        | nil =>
            obtain ⟨rfl, rfl⟩ := pure_eq_ok.mp h
            exact .inr ⟨he, rfl⟩
        | cons => exact absurd h rejectOperation_ne_ok
  · rintro (⟨he, rfl⟩ | ⟨he, rfl⟩)
    · exact ⟨none, t, he, pure_eq_ok.mpr ⟨rfl, rfl⟩⟩
    · exact ⟨some [], t, he, pure_eq_ok.mpr ⟨rfl, rfl⟩⟩

theorem assigned_of_ok {pairs : List (String × ValueSet)} {u : Unit}
    (h : assignAll ctx pairs s = .ok u t) :
    ∃ b, Assigned ctx s.scope? s.bindings pairs b ∧ { s with bindings := b } = t := by
  induction pairs generalizing s with
  | nil =>
      obtain ⟨-, rfl⟩ := pure_eq_ok.mp h
      exact ⟨_, .nil, rfl⟩
  | cons pair rest ih =>
      obtain ⟨name, values⟩ := pair
      simp only [assignAll, bind_eq_ok, resolveVariable_eq_ok, get_eq_ok, setBindings_eq_ok] at h
      obtain ⟨x, _, ⟨hx, rfl⟩, _, _, ⟨rfl, rfl⟩, _, _, rfl, h⟩ := h
      obtain ⟨b, hb, rfl⟩ := ih h
      exact ⟨b, .cons hx hb, rfl⟩

theorem replayAssignment_of_ok {names : List String} {e : Expr} {r : Bool}
    (h : replayAssignment ctx names e s = .ok r t) :
    replayExpr ctx e s = .ok none t ∧ r = false ∨
      ∃ values u b, replayExpr ctx e s = .ok (some values) u ∧ values.length = names.length ∧
        Assigned ctx u.scope? u.bindings (names.zip values) b ∧ { u with bindings := b } = t ∧
          r = true := by
  simp only [replayAssignment, bind_eq_ok, replayValues_eq_ok] at h
  obtain ⟨values?, u, ⟨he, hl⟩, h⟩ := h
  cases values? with
  | none =>
      obtain ⟨rfl, rfl⟩ := pure_eq_ok.mp h
      exact .inl ⟨he, rfl⟩
  | some values =>
      simp only [bind_eq_ok, pure_eq_ok] at h
      obtain ⟨_, _, ha, rfl, rfl⟩ := h
      obtain ⟨b, hb, ht⟩ := assigned_of_ok ha
      exact .inr ⟨values, u, b, he, hl values rfl, hb, ht, rfl⟩

theorem declared_of_ok {pairs : List (String × ValueSet)} {u : Unit}
    (h : defineAll ctx pairs s = .ok u t) :
    ∃ b, Declared ctx s.scope? s.bindings pairs b ∧ { s with bindings := b } = t := by
  induction pairs generalizing s with
  | nil =>
      obtain ⟨-, rfl⟩ := pure_eq_ok.mp h
      exact ⟨_, .nil, rfl⟩
  | cons pair rest ih =>
      obtain ⟨name, values⟩ := pair
      simp only [defineAll, bind_eq_ok, resolveVariable_eq_ok, get_eq_ok] at h
      obtain ⟨x, _, ⟨hx, rfl⟩, _, _, ⟨rfl, rfl⟩, h⟩ := h
      cases hd : s.bindings.define? x values with
      | none => simp [hd] at h
      | some next =>
          obtain ⟨hf, rfl⟩ := Bindings.define?_eq_some.mp hd
          simp only [hd, bind_eq_ok, setBindings_eq_ok] at h
          obtain ⟨_, _, rfl, h⟩ := h
          obtain ⟨b, hb, rfl⟩ := ih h
          exact ⟨b, .cons hx hf hb, rfl⟩

-- The values that variables are declared with, in the order of the names.
inductive InitialValues (ctx : Context) (count : Nat) (s : State) :
    Option Expr → Option (List ValueSet) → State → Prop
  | given {e : Expr} {values? : Option (List ValueSet)} {t : State}
      (value : replayExpr ctx e s = .ok values? t)
      (fits : ∀ values ∈ values?, values.length = count) :
      InitialValues ctx count s (some e) values? t
  | zero {v : ValueId} (found : ctx.graph.zero? = some v) :
      InitialValues ctx count s none (some (List.replicate count (.single v))) s

theorem initialValues_of_ok {count : Nat} {value? : Option Expr}
    {values? : Option (List ValueSet)} (h : initialValues ctx count value? s = .ok values? t) :
    InitialValues ctx count s value? values? t := by
  cases value? with
  | none =>
      simp only [initialValues, bind_eq_ok, readZero_eq_ok, pure_eq_ok] at h
      obtain ⟨v, _, ⟨hv, rfl⟩, rfl, rfl⟩ := h
      exact .zero hv
  | some e =>
      obtain ⟨he, hl⟩ := replayValues_eq_ok.mp h
      exact .given he hl

theorem replayLet_of_ok {names : List String} {value? : Option Expr} {r : Bool}
    (h : replayLet ctx names value? s = .ok r t) :
    InitialValues ctx names.length s value? none t ∧ r = false ∨
      ∃ values u b, InitialValues ctx names.length s value? (some values) u ∧
        Declared ctx u.scope? u.bindings (names.zip values) b ∧ { u with bindings := b } = t ∧
          r = true := by
  simp only [replayLet, bind_eq_ok] at h
  obtain ⟨values?, u, hv, h⟩ := h
  have hi := initialValues_of_ok hv
  cases values? with
  | none =>
      obtain ⟨rfl, rfl⟩ := pure_eq_ok.mp h
      exact .inl ⟨hi, rfl⟩
  | some values =>
      simp only [bind_eq_ok, pure_eq_ok] at h
      obtain ⟨_, _, hd, rfl, rfl⟩ := h
      obtain ⟨b, hb, ht⟩ := declared_of_ok hd
      exact .inr ⟨values, u, b, hi, hb, ht, rfl⟩

theorem returnsHeld_of_ok {pairs : List (VariableId × ValueId)} {u : Unit}
    (h : checkReturned ctx pairs s = .ok u t) :
    ∃ b, ReturnsHeld s.bindings pairs b ∧ { s with bindings := b } = t := by
  induction pairs generalizing s with
  | nil =>
      obtain ⟨-, rfl⟩ := pure_eq_ok.mp h
      exact ⟨_, .nil, rfl⟩
  | cons pair rest ih =>
      obtain ⟨x, v⟩ := pair
      simp only [checkReturned, bind_eq_ok, get_eq_ok, orReject_eq_ok, ite_eq_ok,
        setBindings_eq_ok, rejectOperation_ne_ok, and_false, or_false] at h
      obtain ⟨_, _, ⟨rfl, rfl⟩, held, _, ⟨hb, rfl⟩, hv, _, _, rfl, h⟩ := h
      obtain ⟨b, hh, rfl⟩ := ih h
      exact ⟨b, .cons hb ((ValueSet.contains_iff _ _).mp hv) hh, rfl⟩

theorem functionLeft_of_ok {r : Bool} (h : replayLeave ctx s = .ok r t) :
    FunctionLeft ctx s t ∧ r = false := by
  simp only [replayLeave, bind_eq_ok, leaveByReturn_eq_ok, ite_eq_ok, get_eq_ok,
    rejectOperation_ne_ok, and_false, exists_false, false_or, not_not, pure_eq_ok] at h
  obtain ⟨values, _, ⟨hx, rfl⟩, hl, _, _, hc, rfl, rfl⟩ := h
  obtain ⟨b, hb, rfl⟩ := returnsHeld_of_ok hc
  exact ⟨.mk hx hl hb, rfl⟩

theorem signatureBound_of_ok {pairs : List ((VariableId × ValueSet) × String)} {u : Unit}
    (h : bindSignature ctx pairs s = .ok u t) :
    ∃ b, SignatureBound ctx s.scope? s.bindings pairs b ∧ { s with bindings := b } = t := by
  induction pairs generalizing s with
  | nil =>
      obtain ⟨-, rfl⟩ := pure_eq_ok.mp h
      exact ⟨_, .nil, rfl⟩
  | cons pair rest ih =>
      obtain ⟨⟨x, values⟩, name⟩ := pair
      simp only [bindSignature, bind_eq_ok, resolveVariable_eq_ok, ite_eq_ok, reject_ne_ok,
        and_false, false_or, not_not, get_eq_ok] at h
      obtain ⟨y, _, ⟨hx, rfl⟩, rfl, _, _, ⟨rfl, rfl⟩, h⟩ := h
      cases hd : s.bindings.define? y values with
      | none => simp [hd] at h
      | some next =>
          obtain ⟨hf, rfl⟩ := Bindings.define?_eq_some.mp hd
          simp only [hd, bind_eq_ok, setBindings_eq_ok] at h
          obtain ⟨_, _, rfl, h⟩ := h
          obtain ⟨b, hb, rfl⟩ := ih h
          exact ⟨b, .cons hx hf hb, rfl⟩

theorem returnsBound_of_ok {names : List String} {u : Unit}
    (h : bindReturns ctx names s = .ok u t) :
    ∃ b, ReturnsBound ctx s.scope? names s.bindings b ∧ { s with bindings := b } = t := by
  simp only [bindReturns, ite_eq_ok, pure_eq_ok, bind_eq_ok, readZero_eq_ok] at h
  rcases h with ⟨he, -, rfl⟩ | ⟨-, v, _, ⟨hv, rfl⟩, h⟩
  · exact ⟨_, .none (List.isEmpty_iff.mp he), rfl⟩
  · obtain ⟨b, hb, rfl⟩ := signatureBound_of_ok h
    exact ⟨b, .zero hv hb, rfl⟩

theorem functionReplayed_of_ok {d : Definition} {body : Walk Bool} {u : Unit}
    (h : replayFunction ctx d body s = .ok u t) : FunctionReplayed ctx d body s t := by
  simp only [replayFunction, bind_eq_ok, record_eq_ok, modify_eq_ok, ite_eq_ok, pure_eq_ok] at h
  obtain ⟨_, _, rfl, _, _, rfl, _, _, hp, _, _, hr, falls, w, hb, h⟩ := h
  obtain ⟨bound, hbound, rfl⟩ := signatureBound_of_ok hp
  obtain ⟨all, hall, rfl⟩ := returnsBound_of_ok hr
  refine .mk hbound hall hb ?_
  rcases h with ⟨rfl, _, _, hl, -, rfl⟩ | ⟨hf, -, rfl⟩
  · exact .inr ⟨rfl, (functionLeft_of_ok hl).1⟩
  · exact .inl ⟨by simpa using hf, rfl⟩

theorem apart_eq_ok {graph : Cfg} {act : Walk Unit} {u : Unit} :
    apart graph act s = .ok u t ↔
      ∃ v, act (s.apartOn graph) = .ok () v ∧
        { s with warnings := v.warnings, history := v.history } = t := by
  unfold apart State.apartOn
  cases act { State.start graph with warnings := s.warnings, history := s.history } <;> simp

theorem definitionReplayed_of_ok {d : Definition} {body : Context → Walk Bool} {u : Unit}
    (h : replayDefinition ctx d body s = .ok u t) : DefinitionReplayed ctx d body s t := by
  simp only [replayDefinition, bind_eq_ok, resolveFunction_eq_ok] at h
  obtain ⟨f, _, ⟨hf, rfl⟩, h⟩ := h
  cases hg : ctx.flow.graphOf? f with
  | none => simp [hg] at h
  | some graph =>
      simp only [hg, ite_eq_ok, reject_ne_ok, and_false, false_or, not_or, not_not,
        apart_eq_ok] at h
      obtain ⟨⟨ha, hr⟩, v, hv, rfl⟩ := h
      exact .mk hf hg ha hr hv

theorem inBlock_eq_ok {id : NodeId} {body : Walk Bool} {r : Bool} :
    inBlock ctx id body s = .ok r t ↔
      ∃ scope u, ctx.analysis.scopeOf? id = some scope ∧
        body { s with scope? := some scope } = .ok r u ∧ { u with scope? := s.scope? } = t := by
  unfold inBlock
  cases ctx.analysis.scopeOf? id <;> simp

theorem warned_of_ok {id : NodeId} {rest : List Stmt} {u : Unit}
    (h : warnUnreachable ctx id rest s = .ok u t) : Warned ctx s t := by
  simp only [warnUnreachable, ite_eq_ok, warnBlock, bind_eq_ok, get_eq_ok, record_eq_ok,
    modify_eq_ok, pure_eq_ok] at h
  rcases h with ⟨-, _, _, ⟨rfl, rfl⟩, _, _, rfl, rfl⟩ | ⟨-, -, rfl⟩
  · exact .warned _ _
  · exact .silent

end Replay

end SsaReplay
