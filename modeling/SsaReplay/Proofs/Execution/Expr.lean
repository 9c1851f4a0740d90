import SsaReplay.Proofs.Execution.Settled

namespace SsaReplay

open SsaReplay.Execution
open SsaReplay.Graph (BasicBlock Callee Cfg Exit Operation)
open SsaReplay.Replay
open SsaReplay.Yul (Expr)

-- Whatever is a candidate of a variable stands for the word that the variable has.
def Bindings.Agrees (b : Bindings) (words : VariableId → Option Word)
    (env : ValueId → Option Word) : Prop :=
  ∀ x held, b.lookup x = some held → ∃ w, words x = some w ∧ ∀ v ∈ held, env v = some w

namespace Bindings

variable {b b' : Bindings} {words : VariableId → Option Word} {env env' : ValueId → Option Word}

theorem agrees_empty : Bindings.empty.Agrees words env := fun _ _ hb => absurd hb (by simp)

theorem Refines.agrees (h : b'.Refines b) (ha : b.Agrees words env) : b'.Agrees words env := by
  intro x held hx
  obtain ⟨wider, hw, hm⟩ := h x held hx
  obtain ⟨w, hx, hv⟩ := ha x wider hw
  exact ⟨w, hx, fun v h => hv v (hm v h)⟩

theorem Agrees.persists (ha : b.Agrees words env) (hp : Persists env env') :
    b.Agrees words env' := by
  intro x held hx
  obtain ⟨w, hw, hv⟩ := ha x held hx
  exact ⟨w, hw, fun v h => hp v w (hv v h)⟩

theorem Agrees.assign {memory : Memory} {x : VariableId} {values : ValueSet} {w : Word}
    (ha : b.Agrees memory.words env) (hv : ∀ v ∈ values, env v = some w) :
    (b.assign x values).Agrees (memory.assign x w).words env := by
  intro y held hy
  rw [lookup_assign] at hy
  by_cases hyx : y = x
  · rw [if_pos hyx] at hy
    obtain rfl := Option.some.inj hy
    exact ⟨w, by simp [Memory.assign, hyx], hv⟩
  · rw [if_neg hyx] at hy
    obtain ⟨u, hu, hm⟩ := ha y held hy
    exact ⟨u, by simpa [Memory.assign, hyx] using hu, hm⟩

-- A phi that comes in for a candidate takes its word along the edge.
theorem Agrees.carried {g : Cfg} {source target : BlockId} {data : BasicBlock} {after : Bindings}
    (ha : b.Agrees words env) (h : Carries g source target b after)
    (hd : g.block? target = some data) (hp : Persists env env')
    (hphi : ∀ v ∈ data.phis, env' v = g.phiWord? env data source v) : after.Agrees words env' := by
  obtain ⟨found, pairs, hf, hpairs, rfl⟩ := h
  obtain rfl := Option.some.inj (hd.symm.trans hf)
  obtain ⟨hphis, hfed⟩ := phiArguments_eq_ok hpairs
  intro x held hx
  rw [lookup_acrossEdge, Option.map_eq_some_iff] at hx
  obtain ⟨values, hvalues, rfl⟩ := hx
  obtain ⟨w, hw, hv⟩ := ha x values hvalues
  refine ⟨w, hw, fun v hm => ?_⟩
  rcases mem_carried.mp hm with ⟨hm, -⟩ | ⟨u, hu, hm⟩
  · exact hp v w (hv v hm)
  · have hpair := mem_phisFedBy.mp hm
    obtain ⟨offset, c, arguments, hoffset, horigin, hargument⟩ := hfed _ hpair
    rw [hphi v (hphis ▸ List.mem_map_of_mem (f := Prod.snd) hpair), Cfg.phiWord?]
    simp only [Option.bind_eq_bind, hoffset, Option.bind_some, horigin, hargument, hv u hu]

end Bindings

namespace Execution

-- A graph that is run next to its code.
structure Setup where
  ctx : Context
  oracle : Oracle
  arguments : List Word
  rank : BlockId → Nat

namespace Setup

def graph (x : Setup) : Cfg := x.ctx.graph

def machine (x : Setup) : Machine := ⟨x.ctx.analysis, x.ctx.dialect, x.oracle⟩

def Reached (x : Setup) (c : Config) : Prop :=
  x.graph.Reaches x.oracle (x.graph.first x.arguments) c

-- What is asked of the graph, and of the answers to its calls.
structure Orderly (x : Setup) : Prop where
  placed : x.graph.Placed
  ranked : x.graph.Ranked x.rank
  conforms : x.graph.Conforms x.ctx.dialect x.oracle x.arguments

-- The run of the graph is at the position, after the calls that the code has made, and
-- the bindings are right.
structure At (x : Setup) (block : BlockId) (op : Nat) (b : Bindings) (memory : Memory)
    (c : Config) : Prop where
  reached : x.Reached c
  block : c.block = block
  op : c.op = op
  calls : c.calls = memory.calls
  agrees : b.Agrees memory.words c.env

abbrev Aligned (x : Setup) (s : State) (memory : Memory) (c : Config) : Prop :=
  x.At s.block s.op s.bindings memory c

variable {x : Setup} {s t u : State} {memory memory' : Memory} {c c' : Config}

theorem Reached.trans (h : x.Reached c) (k : x.graph.Reaches x.oracle c c') : x.Reached c' :=
  Relation.ReflTransGen.trans h k

theorem Orderly.persists (hx : x.Orderly) (h : x.Reached c)
    (k : x.graph.Reaches x.oracle c c') : Persists c.env c'.env := by
  obtain ⟨hs, -⟩ := Cfg.settled_of_reaches hx.placed hx.ranked Cfg.settled_first h
  exact (Cfg.settled_of_reaches hx.placed hx.ranked hs k).2.1

theorem Orderly.rank_le (hx : x.Orderly) (h : x.Reached c)
    (k : x.graph.Reaches x.oracle c c') : x.rank c.block ≤ x.rank c'.block := by
  obtain ⟨hs, -⟩ := Cfg.settled_of_reaches hx.placed hx.ranked Cfg.settled_first h
  exact (Cfg.settled_of_reaches hx.placed hx.ranked hs k).2.2

theorem Orderly.literal (hx : x.Orderly) (h : x.Reached c) {w : Word} {v : ValueId}
    (hv : x.graph.literal? w = some v) : c.env v = some w := by
  refine hx.persists .refl h v w ?_
  obtain ⟨before, after, hl, -⟩ := List.lookup_eq_some_iff.mp hv
  have hplace := hx.placed.literals (w, v) (by rw [hl]; simp)
  obtain ⟨origin, ho, hp⟩ := Option.map_eq_some_iff.mp hplace
  cases origin with
  | literal u =>
      obtain rfl := Graph.Origin.literal.inj hp
      simp only [Cfg.first, Cfg.given, ho]
  | _ => exact absurd hp (by simp [Graph.Origin.place])

theorem Orderly.argument (hx : x.Orderly) (h : x.Reached c) {i : Nat} {y : VariableId}
    {v : ValueId} {w : Word} (hv : x.graph.arguments[i]? = some (y, v))
    (hw : x.arguments[i]? = some w) : c.env v = some w := by
  refine hx.persists .refl h v w ?_
  obtain ⟨origin, ho, hp⟩ := Option.map_eq_some_iff.mp (hx.placed.arguments i y v hv)
  cases origin with
  | argument j =>
      obtain rfl := Graph.Origin.argument.inj hp
      simpa only [Cfg.first, Cfg.given, ho] using hw
  | _ => exact absurd hp (by simp [Graph.Origin.place])

theorem At.refine {block : BlockId} {op : Nat} {b b' : Bindings} (h : x.At block op b memory c)
    (hb : b'.Refines b) : x.At block op b' memory c :=
  ⟨h.reached, h.block, h.op, h.calls, hb.agrees h.agrees⟩

-- At the end of a block, the run goes by the exit.
theorem Aligned.step?_eq (h : x.Aligned s memory c) {exit : Exit} (he : AtExit x.ctx s exit) :
    x.graph.step? x.oracle c = x.graph.leave? c exit := by
  obtain ⟨data, hd, hl, rfl⟩ := he
  exact Cfg.step?_of_exit (h.block ▸ hd) (h.op ▸ hl)

-- An edge is followed. Bindings are right behind it as they are, or as they are carried.
theorem Orderly.follow (hx : x.Orderly) (h : x.Aligned s memory c) {exit : Exit}
    {target : BlockId} (he : AtExit x.ctx s exit) (ht : target ∈ exit.targets)
    (hb : (x.graph.block? target).isSome)
    (hs : x.graph.leave? c exit = (x.graph.enter? c target).map .going) :
    ∃ c', x.graph.Reaches x.oracle c c' ∧ x.rank c.block < x.rank c'.block ∧
      x.At target 0 s.bindings memory c' ∧
        ∀ after, Carries x.graph s.block target s.bindings after →
          x.At target 0 after memory c' := by
  obtain ⟨data, hd⟩ := Option.isSome_iff_exists.mp hb
  obtain ⟨c', henter⟩ : ∃ c', x.graph.enter? c target = some c' :=
    ⟨_, Cfg.enter?_eq_some.mpr ⟨data, hd, rfl⟩⟩
  have hreaches : x.graph.Reaches x.oracle c c' :=
    .single ((h.step?_eq he).trans (hs.trans (congrArg (Option.map _) henter)))
  have hleads : x.graph.Leads c.block target := by
    obtain ⟨found, hf, -, rfl⟩ := he
    exact ⟨found, h.block ▸ hf, ht⟩
  have hpersists := hx.persists h.reached hreaches
  have hreached := h.reached.trans hreaches
  obtain ⟨found, hf, rfl⟩ := Cfg.enter?_eq_some.mp henter
  obtain rfl := Option.some.inj (hd.symm.trans hf)
  refine ⟨_, hreaches, hx.ranked _ _ hleads,
    ⟨hreached, rfl, rfl, h.calls, h.agrees.persists hpersists⟩, fun after hc => ?_⟩
  refine ⟨hreached, rfl, rfl, h.calls, h.agrees.carried hc hd hpersists fun v hv => ?_⟩
  exact h.block ▸ if_pos hv

theorem Orderly.followJump (hx : x.Orderly) (h : x.Aligned s memory c) {target : BlockId}
    (he : AtExit x.ctx s (.jump target)) {after : Bindings}
    (hc : Carries x.graph s.block target s.bindings after) :
    ∃ c', x.graph.Reaches x.oracle c c' ∧ x.rank c.block < x.rank c'.block ∧
      x.At target 0 after memory c' := by
  have hb : (x.graph.block? target).isSome := by
    obtain ⟨data, -, hd, -⟩ := hc
    rw [hd]
    rfl
  obtain ⟨c', hr, hrank, -, hcarried⟩ := hx.follow h he (by simp [Exit.targets]) hb rfl
  exact ⟨c', hr, hrank, hcarried after hc⟩

section Names

variable {scope? : Option ScopeId} {name : String}

theorem var?_eq_some {y : VariableId} :
    x.machine.var? scope? name = some y ↔
      x.ctx.scopes.symbol? scope? name = some (.var y) := by
  unfold Machine.var?
  split
  · next z hz =>
      have hz : x.ctx.scopes.symbol? scope? name = some (.var z) := hz
      simp [hz]
  · next hne => exact ⟨by simp, fun h => absurd h (hne y)⟩

theorem target?_of_callable {callee : Callee} {outputs : Nat} {flag : Bool}
    (h : Callable x.ctx scope? name callee outputs flag) :
    x.machine.target? scope? name = some callee.target ∧
      callee.continues x.ctx.dialect = flag := by
  cases h with
  | builtin found data =>
      refine ⟨?_, ?_⟩
      · have found : x.machine.dialect.find? name = some _ := found
        simp only [Machine.target?, found, Callee.target]
      · simp only [Callee.continues, data, Option.all_some]
  | function noBuiltin resolved defined =>
      refine ⟨?_, rfl⟩
      have noBuiltin : x.machine.dialect.find? name = none := noBuiltin
      have resolved : x.machine.analysis.scopes.symbol? scope? name = some (.func _) := resolved
      simp only [Machine.target?, noBuiltin, resolved, Callee.target]

end Names

-- What evaluating comes to in the graph: it ends there, or goes on with candidates that
-- stand for the words.
inductive Evaluated {α : Type} (x : Setup) (stands : (ValueId → Option Word) → α → Word → Prop)
    (c : Config) (t : State) (memory : Memory) : Option (List α) → Option (List Word) → Prop
  | stuck (finishes : x.graph.Finishes x.oracle c .terminated memory.calls) :
      Evaluated x stands c t memory none none
  | values {c' : Config} {results : List α} {words : List Word}
      (reaches : x.graph.Reaches x.oracle c c') (aligned : x.Aligned t memory c')
      (all : List.Forall₂ (stands c'.env) results words) :
      Evaluated x stands c t memory (some results) (some words)

theorem Evaluated.before {α : Type} {stands : (ValueId → Option Word) → α → Word → Prop}
    {results? : Option (List α)} {words? : Option (List Word)}
    (h : x.graph.Reaches x.oracle c c') (k : x.Evaluated stands c' t memory results? words?) :
    x.Evaluated stands c t memory results? words? := by
  cases k with
  | stuck finishes => exact .stuck (finishes.before h)
  | values reaches aligned all => exact .values (h.trans reaches) aligned all

def StandsFor (env : ValueId → Option Word) (values : ValueSet) (w : Word) : Prop :=
  ∀ v ∈ values, env v = some w

-- An operand that is a name is looked up once more when it is used.
def OperandStands (x : Setup) (scope? : Option ScopeId) (words : VariableId → Option Word)
    (env : ValueId → Option Word) (operand : Expr × ValueSet) (w : Word) : Prop :=
  StandsFor env operand.2 w ∧ ∀ name, operand.1 = .ident name →
    ∃ y, x.machine.var? scope? name = some y ∧ words y = some w

theorem OperandStands.persists {scope? : Option ScopeId} {words : VariableId → Option Word}
    {env env' : ValueId → Option Word} {operand : Expr × ValueSet} {w : Word}
    (h : x.OperandStands scope? words env operand w) (hp : Persists env env') :
    x.OperandStands scope? words env' operand w :=
  ⟨fun v hv => hp v w (h.1 v hv), h.2⟩

theorem mapM_eq_some_of_forall₂ {α β : Type} {f : α → Option β} {values : List α} {words : List β}
    (h : List.Forall₂ (fun v w => f v = some w) values words) : values.mapM f = some words := by
  induction h with
  | nil => rfl
  | cons hv _ ih => simp [List.mapM_cons, hv, ih]

theorem stands_of_reconciled {e : Expr} {candidates : ValueSet} {v : ValueId} {w : Word}
    (h : Reconciled x.ctx s e candidates v t) (ha : x.Aligned s memory c)
    (ho : x.OperandStands s.scope? memory.words c.env (e, candidates) w) :
    c.env v = some w ∧ x.Aligned t memory c := by
  cases h with
  | @named name _ held y v resolved bound member =>
      refine ⟨?_, ha.refine (Bindings.refines_narrow bound member)⟩
      obtain ⟨z, hz, hw⟩ := ho.2 name rfl
      obtain rfl : y = z :=
        Option.some.inj ((var?_eq_some.mpr resolved).symm.trans hz)
      obtain ⟨u, hu, hv⟩ := ha.agrees y held bound
      obtain rfl := Option.some.inj (hu.symm.trans hw)
      exact hv v member
  | result noName only => exact ⟨ho.1 v ((ValueSet.mem_of_only? only).mpr rfl), ha⟩

theorem stands_of_operandsReconciled {operands : List (Expr × ValueSet)} {inputs : List ValueId}
    {words : List Word} (h : OperandsReconciled x.ctx s operands inputs t)
    (ha : x.Aligned s memory c)
    (ho : List.Forall₂ (x.OperandStands s.scope? memory.words c.env) operands words) :
    List.Forall₂ (fun v w => c.env v = some w) inputs words ∧ x.Aligned t memory c := by
  induction h generalizing words with
  | nil =>
      cases ho
      exact ⟨.nil, ha⟩
  | cons first rest ih =>
      cases ho with
      | cons hfirst hrest =>
          obtain ⟨hv, ht⟩ := stands_of_reconciled first ha hfirst
          have hstays : Stays False x.ctx _ _ := first.stays
          obtain ⟨hin, hu⟩ := ih ht (hstays.scope ▸ hrest)
          exact ⟨.cons hv hin, hu⟩

-- The operation at the position makes the call that the code makes.
theorem performs_call (hx : x.Orderly) {name : String} {operands : List (Expr × ValueSet)}
    {words : List Word} {data : BasicBlock} {op : Operation} {flag : Bool}
    (ha : x.Aligned s memory c)
    (ho : List.Forall₂ (x.OperandStands s.scope? memory.words c.env) operands words)
    (block : x.ctx.graph.block? s.block = some data) (atOp : data.operations[s.op]? = some op)
    (inputs : OperandsReconciled x.ctx s operands op.inputs u)
    (callee : Callable x.ctx u.scope? name op.callee op.outputs.length flag) :
    x.Aligned u memory c ∧ x.machine.target? s.scope? name = some op.callee.target ∧
      x.graph.step? x.oracle c = Cfg.perform? x.oracle c op ∧
        op.inputs.mapM c.env = some words ∧
          if flag then
            ∃ results, x.oracle c.calls ⟨op.callee.target, words⟩ = some results ∧
              results.length = op.outputs.length
          else x.oracle c.calls ⟨op.callee.target, words⟩ = none := by
  have hstays : Stays False x.ctx s u := inputs.stays
  obtain ⟨hin, hu⟩ := stands_of_operandsReconciled inputs ha ho
  obtain ⟨htarget, hcontinues⟩ := target?_of_callable callee
  have hd : x.graph.block? c.block = some data := ha.block ▸ block
  have hop : data.operations[c.op]? = some op := ha.op ▸ atOp
  have hwords := mapM_eq_some_of_forall₂ hin
  have hanswer := hx.conforms c data op words ha.reached hd hop hwords
  rw [hcontinues] at hanswer
  exact ⟨hu, hstays.scope ▸ htarget, Cfg.step?_of_op hd hop, hwords, hanswer⟩

-- The results of an operation are what its outputs stand for.
theorem standsFor_outputs {env : ValueId → Option Word} {outputs : List ValueId}
    {results : List Word} (hn : outputs.Nodup) (hl : outputs.length = results.length) :
    List.Forall₂ (StandsFor (bindAll env outputs results)) (outputs.map .single) results := by
  have hbound : List.Forall₂ (fun v w => bindAll env outputs results v = some w) outputs results :=
    bindAll_forall₂ hn hl
  refine List.forall₂_map_left_iff.mpr (hbound.imp ?_)
  intro v w hv u hm
  obtain rfl := (ValueSet.mem_single _ _).mp hm
  exact hv

theorem evaluated_of_callMatched (hx : x.Orderly) {name : String}
    {operands : List (Expr × ValueSet)} {results? : Option (List ValueSet)} {words : List Word}
    (h : CallMatched x.ctx name operands s results? t) (ha : x.Aligned s memory c)
    (ho : List.Forall₂ (x.OperandStands s.scope? memory.words c.env) operands words) :
    ∃ target, x.machine.target? s.scope? name = some target ∧
      x.Evaluated StandsFor c t { memory with calls := ⟨target, words⟩ :: memory.calls } results?
        (x.oracle memory.calls ⟨target, words⟩) := by
  cases h with
  | @returning data op u block atOp inputs callee =>
      obtain ⟨hu, htarget, hstep, hwords, results, hresults, hlength⟩ :=
        performs_call hx ha ho block atOp inputs callee
      have hmove : x.graph.Moves x.oracle c { c with
          op := c.op + 1, env := bindAll c.env op.outputs results
          calls := ⟨op.callee.target, words⟩ :: c.calls } := by
        unfold Cfg.Moves
        rw [hstep, Cfg.perform?]
        simp only [Option.bind_eq_bind, hwords, Option.bind_some, hresults]
      have hreaches : x.graph.Reaches x.oracle c _ := .single hmove
      have hpersists := hx.persists ha.reached hreaches
      have hnodup : op.outputs.Nodup :=
        (List.nodup_flatMap.mp (hx.placed.blocks _ data block).distinct).1 op
          (List.mem_of_getElem? atOp)
      refine ⟨op.callee.target, htarget, ?_⟩
      rw [← ha.calls, hresults]
      exact .values hreaches ⟨ha.reached.trans hreaches, hu.block, congrArg (· + 1) hu.op, rfl,
        hu.agrees.persists hpersists⟩ (standsFor_outputs hnodup hlength.symm)
  | @final data op u block atOp inputs callee ends =>
      obtain ⟨hu, htarget, hstep, hwords, hnone⟩ :=
        performs_call hx ha ho block atOp inputs callee
      rw [if_neg Bool.false_ne_true] at hnone
      refine ⟨op.callee.target, htarget, ?_⟩
      rw [← ha.calls, hnone]
      refine .stuck ⟨c, .refl, ?_⟩
      rw [hstep, Cfg.perform?]
      simp only [Option.bind_eq_bind, hwords, Option.bind_some, hnone]

theorem eval_ident {scope? : Option ScopeId} {name : String} {words : List Word}
    (h : x.machine.eval scope? (.ident name) memory = some (some words, memory')) :
    ∃ y w, x.machine.var? scope? name = some y ∧ memory.words y = some w ∧ words = [w] := by
  simp only [Machine.eval, Option.bind_eq_bind, Option.bind_eq_some_iff, Option.some.injEq,
    Prod.mk.injEq] at h
  obtain ⟨y, hy, w, hw, rfl, -⟩ := h
  exact ⟨y, w, hy, hw, rfl⟩

-- An expression with one value, as an operand.
theorem operandStands_of_single {scope? : Option ScopeId} {env : ValueId → Option Word} {e : Expr}
    {values : ValueSet} {words : List Word}
    (he : x.machine.eval scope? e memory = some (some words, memory'))
    (all : List.Forall₂ (StandsFor env) [values] words) :
    ∃ w, words = [w] ∧ x.OperandStands scope? memory.words env (e, values) w := by
  cases all with
  | @cons _ w _ _ hstands rest =>
      cases rest
      refine ⟨w, rfl, hstands, ?_⟩
      rintro name rfl
      obtain ⟨y, w', hy, hw, heq⟩ := eval_ident he
      obtain ⟨rfl, -⟩ := List.cons.inj heq
      exact ⟨y, hy, hw⟩

-- The code and the graph evaluate an expression alike. Only calls are made.
mutual
theorem evaluated_of_replayExpr (hx : x.Orderly) (e : Expr) {s t : State} {memory : Memory}
    {c : Config} {values? : Option (List ValueSet)} (h : replayExpr x.ctx e s = .ok values? t)
    (ha : x.Aligned s memory c) :
    ∃ words? memory', x.machine.eval s.scope? e memory = some (words?, memory') ∧
      memory'.words = memory.words ∧ x.Evaluated StandsFor c t memory' values? words? := by
  cases e with
  | ident name =>
      obtain ⟨⟨y, held, hy, hb, rfl⟩, rfl⟩ := replayExpr_ident_eq_ok.mp h
      obtain ⟨w, hw, hv⟩ := ha.agrees y held hb
      refine ⟨some [w], memory, ?_, rfl, .values .refl ha (.cons hv .nil)⟩
      simp only [Machine.eval, var?_eq_some.mpr hy, Option.bind_eq_bind, Option.bind_some, hw]
  | literal l =>
      obtain ⟨⟨v, hv, rfl⟩, rfl⟩ := replayExpr_literal_eq_ok.mp h
      refine ⟨some [l.value], memory, rfl, rfl, .values .refl ha (.cons (fun u hu => ?_) .nil)⟩
      obtain rfl := (ValueSet.mem_single _ _).mp hu
      exact hx.literal ha.reached hv
  | call name arguments =>
      rcases replayExpr_call_of_ok h with ⟨rfl, hargs⟩ | ⟨operands, u, hargs, hm⟩
      · obtain ⟨words?, memory', he, hw, hk⟩ :=
          evaluatedAll_of_replayArguments hx arguments hargs ha
        cases hk with
        | stuck finishes =>
            refine ⟨none, memory', ?_, hw, .stuck finishes⟩
            simp only [Machine.eval, Option.bind_eq_bind]
            exact (congrArg (Option.bind · _) he).trans rfl
      · obtain ⟨words?, memory', he, hw, hk⟩ :=
          evaluatedAll_of_replayArguments hx arguments hargs ha
        cases hk with
        | @values c' _ words reaches aligned all =>
            have hstays : Stays False x.ctx s u := replayArguments_stays hargs
            rw [← hw, ← hstays.scope] at all
            obtain ⟨target, htarget, hcall⟩ := evaluated_of_callMatched hx hm aligned all
            refine ⟨_, { memory' with calls := ⟨target, words⟩ :: memory'.calls }, ?_, hw,
              hcall.before reaches⟩
            simp only [Machine.eval, Option.bind_eq_bind]
            refine (congrArg (Option.bind · _) he).trans ?_
            simp only [Option.bind_some, ← hstays.scope, htarget]
            rfl
theorem evaluatedAll_of_replayArguments (hx : x.Orderly) (arguments : List Expr) {s t : State}
    {memory : Memory} {c : Config} {skipped : Nat → Bool} {i : Nat}
    {operands? : Option (List (Expr × ValueSet))}
    (h : replayArguments x.ctx skipped i arguments s = .ok operands? t)
    (ha : x.Aligned s memory c) :
    ∃ words? memory', x.machine.evalArguments s.scope? skipped i arguments memory =
        some (words?, memory') ∧ memory'.words = memory.words ∧
          x.Evaluated (x.OperandStands s.scope? memory.words) c t memory' operands? words? := by
  cases arguments with
  | nil =>
      obtain ⟨rfl, rfl⟩ := replayArguments_nil_eq_ok.mp h
      exact ⟨some [], memory, rfl, rfl, .values .refl ha .nil⟩
  | cons e rest =>
      rcases replayArguments_cons_of_ok h with ⟨rfl, hrest⟩ | ⟨operands, u, hrest, hm⟩
      · obtain ⟨words?, memory', he, hw, hk⟩ := evaluatedAll_of_replayArguments hx rest hrest ha
        cases hk with
        | stuck finishes =>
            refine ⟨none, memory', ?_, hw, .stuck finishes⟩
            simp only [Machine.evalArguments, he, Option.bind_eq_bind, Option.bind_some]
      · obtain ⟨words?, memory', he, hw, hk⟩ := evaluatedAll_of_replayArguments hx rest hrest ha
        cases hk with
        | @values c' _ words reaches aligned all =>
            rcases hm with ⟨hs, rfl, rfl⟩ | ⟨hs, hv, rfl⟩ | ⟨hs, values, hv, rfl⟩
            · refine ⟨some words, memory', ?_, hw, .values reaches aligned all⟩
              simp only [Machine.evalArguments, he, Option.bind_eq_bind, Option.bind_some, hs,
                if_true]
            · have hstays : Stays False x.ctx s u := replayArguments_stays hrest
              obtain ⟨first?, memory'', he', hw', hk'⟩ := evaluated_of_replayExpr hx e hv aligned
              rw [hstays.scope] at he'
              cases hk' with
              | stuck finishes =>
                  refine ⟨none, memory'', ?_, hw'.trans hw, .stuck (finishes.before reaches)⟩
                  simp only [Machine.evalArguments, he, Option.bind_eq_bind, Option.bind_some, hs,
                    Bool.false_eq_true, if_false, he']
            · have hstays : Stays False x.ctx s u := replayArguments_stays hrest
              obtain ⟨first?, memory'', he', hw', hk'⟩ := evaluated_of_replayExpr hx e hv aligned
              rw [hstays.scope] at he'
              cases hk' with
              | @values c'' _ found reaches' aligned' all' =>
                  obtain ⟨w, rfl, hstands⟩ := operandStands_of_single he' all'
                  have hpersists := hx.persists aligned.reached reaches'
                  have hlater := all.imp fun operand w hoperand => hoperand.persists hpersists
                  refine ⟨some (w :: words), memory'', ?_, hw'.trans hw,
                    .values (reaches.trans reaches') aligned' (.cons (hw ▸ hstands) hlater)⟩
                  simp only [Machine.evalArguments, he, Option.bind_eq_bind, Option.bind_some, hs,
                    Bool.false_eq_true, if_false, he']
end

-- The same for an expression that has one value.
theorem evaluated_of_replayOne (hx : x.Orderly) {e : Expr} {value? : Option ValueSet}
    (h : replayOne x.ctx e s = .ok value? t) (ha : x.Aligned s memory c) :
    ∃ memory', memory'.words = memory.words ∧
      (value? = none ∧ x.machine.evalOne s.scope? e memory = some (none, memory') ∧
          x.graph.Finishes x.oracle c .terminated memory'.calls ∨
        ∃ values w c', value? = some values ∧
          x.machine.evalOne s.scope? e memory = some (some w, memory') ∧
            x.graph.Reaches x.oracle c c' ∧ x.Aligned t memory' c' ∧
              x.OperandStands s.scope? memory'.words c'.env (e, values) w) := by
  obtain ⟨values?, he, hv⟩ := replayOne_eq_ok.mp h
  obtain ⟨words?, memory', heval, hw, hk⟩ := evaluated_of_replayExpr hx e he ha
  refine ⟨memory', hw, ?_⟩
  rcases hv with ⟨rfl, rfl⟩ | ⟨values, rfl, rfl⟩
  · cases hk with
    | stuck finishes =>
        refine .inl ⟨rfl, ?_, finishes⟩
        simp only [Machine.evalOne, heval, Option.bind_eq_bind, Option.bind_some]
  · cases hk with
    | @values c' _ words reaches aligned all =>
        obtain ⟨w, rfl, hstands⟩ := operandStands_of_single heval all
        refine .inr ⟨values, w, c', rfl, ?_, reaches, aligned, hw ▸ hstands⟩
        simp only [Machine.evalOne, heval, Option.bind_eq_bind, Option.bind_some]

end Setup

end Execution

end SsaReplay
