import SsaReplay.Proofs.Numbering
import SsaReplay.Proofs.Outcome.Program

namespace SsaReplay

namespace Yul

namespace Scopes

-- Whether the scope or one around it declares the name, be it hidden or not. The walk goes
-- over at most the given number of scopes.
def declaresFrom (s : Scopes) (name : String) : Nat → Option ScopeId → Bool
  | 0, _ => false
  | _ + 1, none => false
  | n + 1, some id =>
      match s.scope? id with
      | none => false
      | some data => (data.symbols.lookup name).isSome || declaresFrom s name n data.parent?

-- No scope declares a name that one around it declares.
def shadowFree (s : Scopes) : Bool :=
  s.scopes.toList.all fun data =>
    data.symbols.all fun p => !s.declaresFrom p.1 s.scopes.size data.parent?

-- The variables among what the names stand for.
def variablesOf (s : Scopes) (scope? : Option ScopeId) (names : List String) : List VariableId :=
  names.filterMap fun name =>
    match s.symbol? scope? name with
    | some (.var x) => some x
    | _ => none

-- Every name stands for one of the variables.
def resolves (s : Scopes) (scope? : Option ScopeId) (visible : List VariableId)
    (names : List String) : Bool :=
  names.all fun name =>
    match s.symbol? scope? name with
    | some (.var x) => decide (x ∈ visible)
    | _ => false

variable {s : Scopes} {scope inner : ScopeId} {scope? : Option ScopeId} {name : String}
  {names : List String} {x : VariableId}

theorem mem_variablesOf :
    x ∈ s.variablesOf scope? names ↔ ∃ name ∈ names, s.symbol? scope? name = some (.var x) := by
  rw [variablesOf, List.mem_filterMap]
  refine exists_congr fun name => and_congr_right fun _ => ?_
  cases s.symbol? scope? name with
  | none => simp
  | some symbol => cases symbol <;> simp

theorem resolves_iff {visible : List VariableId} :
    s.resolves scope? visible names = true ↔
      ∀ name ∈ names, ∃ x ∈ visible, s.symbol? scope? name = some (.var x) := by
  rw [resolves, List.all_eq_true]
  refine forall_congr' fun name => imp_congr_right fun _ => ?_
  cases s.symbol? scope? name with
  | none => simp
  | some symbol => cases symbol <;> simp

theorem symbol?_of_own? {symbol : Symbol} (h : s.own? scope name = some symbol) :
    s.symbol? (some scope) name = some symbol := by
  obtain ⟨data, hd, hl⟩ := Option.bind_eq_some_iff.mp h
  exact symbol?_of_lookup hd hl

-- Past the scope of a signature no variable is found.
theorem search_crossed (n : Nat) (scope? : Option ScopeId) (x : VariableId) :
    s.search name n true scope? ≠ some (.var x) := by
  induction n generalizing scope? with
  | zero => simp [search]
  | succ n ih =>
      cases scope? with
      | none => simp [search]
      | some id =>
          cases hd : s.scope? id with
          | none => simp [search, hd]
          | some data =>
              cases hl : data.symbols.lookup name with
              | none => simpa [search, hd, visible?, hl] using ih data.parent?
              | some symbol =>
                  cases symbol with
                  | func f => simp [search, hd, visible?, hl]
                  | var y => simpa [search, hd, visible?, hl] using ih data.parent?

-- A variable that the scope around declares is meant inside, if any variable is.
theorem own?_of_symbol? {y : VariableId} (free : s.shadowFree = true)
    (inside : s.Inside inner (some scope)) (ho : s.own? scope name = some (.var y))
    (h : s.symbol? (some inner) name = some (.var x)) : x = y := by
  obtain ⟨data, hd, hparent⟩ := inside
  obtain ⟨outer, houter, hl⟩ := Option.bind_eq_some_iff.mp ho
  have hidden : data.symbols.lookup name = none := by
    cases hown : data.symbols.lookup name with
    | none => rfl
    | some symbol =>
        obtain ⟨n, hn⟩ := size_pos hd
        have hmem : data ∈ s.scopes.toList :=
          List.mem_of_getElem? ((Array.getElem?_toList ..).trans hd)
        obtain ⟨before, after, hsplit, -⟩ := List.lookup_eq_some_iff.mp hown
        have hmem' : (name, symbol) ∈ data.symbols :=
          hsplit ▸ List.mem_append_right before List.mem_cons_self
        have hp := List.all_eq_true.mp (List.all_eq_true.mp free data hmem) (name, symbol) hmem'
        rw [hparent, hn] at hp
        simp [declaresFrom, houter, hl] at hp
  rw [symbol?, Option.bind_some, lookup] at h
  obtain ⟨n, hn⟩ := size_pos hd
  rw [hn] at h
  simp only [search, hd, visible?, hidden, Bool.false_or, hparent] at h
  cases n with
  | zero => simp [search] at h
  | succ n =>
      cases hf : data.functionScope with
      | true => exact absurd (hf ▸ h) (search_crossed _ _ _)
      | false =>
          rw [hf] at h
          simp only [search, houter, visible?, hl, Bool.false_eq_true, if_false, Option.some.injEq,
            Symbol.var.injEq] at h
          exact h.symm

end Scopes

-- The variables that are declared by a statement itself.
def Stmt.introduces (a : Analysis) (scope? : Option ScopeId) : Stmt → List VariableId
  | .letDecl names _ => a.scopes.variablesOf scope? names
  | _ => []

theorem Stmt.introduces_of_isFunDef {a : Analysis} {scope? : Option ScopeId} {s : Stmt}
    (h : s.isFunDef = true) : s.introduces a scope? = [] := by
  cases s with
  | funDef => rfl
  | _ => simp [isFunDef] at h

def introducedBy (a : Analysis) (scope? : Option ScopeId) (statements : List Stmt) :
    List VariableId :=
  statements.flatMap (·.introduces a scope?)

-- Every name that is read or assigned stands for a variable that is visible: a parameter
-- or a return variable of the function, or a variable that was declared before, in the
-- same block or in one around it. Only functions are left by a `leave`.
mutual
def Block.wellScoped (a : Analysis) (inFunction : Bool) (visible : List VariableId) :
    Block → Bool
  | .mk id statements => stmtsWellScoped a inFunction (a.scopeOf? id) visible statements
def Stmt.wellScoped (a : Analysis) (inFunction : Bool) (scope? : Option ScopeId)
    (visible : List VariableId) : Stmt → Bool
  | .expr e => a.scopes.resolves scope? visible e.names
  | .assign names e =>
      a.scopes.resolves scope? visible e.names && a.scopes.resolves scope? visible names
  | .letDecl _ value? => a.scopes.resolves scope? visible (initialNames value?)
  | .funDef _ parameters returns body =>
      body.wellScoped a true (a.scopes.variablesOf (a.scopeOf? body.id) (parameters ++ returns))
  | .cond condition body =>
      a.scopes.resolves scope? visible condition.names && body.wellScoped a inFunction visible
  | .switch e cases =>
      a.scopes.resolves scope? visible e.names && casesWellScoped a inFunction visible cases
  | .forLoop (.mk id pre) condition post body =>
      stmtsWellScoped a inFunction (a.scopeOf? id) visible pre &&
        (a.scopes.resolves (a.scopeOf? id) (visible ++ introducedBy a (a.scopeOf? id) pre)
          condition.names &&
          (post.wellScoped a inFunction (visible ++ introducedBy a (a.scopeOf? id) pre) &&
            body.wellScoped a inFunction (visible ++ introducedBy a (a.scopeOf? id) pre)))
  | .breakLoop => true
  | .continueLoop => true
  | .leave => inFunction
  | .block body => body.wellScoped a inFunction visible
def stmtsWellScoped (a : Analysis) (inFunction : Bool) (scope? : Option ScopeId)
    (visible : List VariableId) : List Stmt → Bool
  | [] => true
  | s :: rest =>
      s.wellScoped a inFunction scope? visible &&
        stmtsWellScoped a inFunction scope? (visible ++ s.introduces a scope?) rest
def casesWellScoped (a : Analysis) (inFunction : Bool) (visible : List VariableId) :
    List Case → Bool
  | [] => true
  | .mk _ body :: rest =>
      body.wellScoped a inFunction visible && casesWellScoped a inFunction visible rest
end

end Yul

namespace Replay

open SsaReplay.Graph (Cfg)
open SsaReplay.Yul (Block Case Definition Expr Stmt casesNumbered casesWellScoped initialNames
  introducedBy stmtsNumbered stmtsWellScoped)

-- It is not about whether a variable is bound.
def SparesBindings (m : Mismatch) : Prop := m.code.isOfBinding = false

theorem code_of_phiArguments {g : Cfg} {source target : BlockId} {data : Graph.BasicBlock}
    {m : Mismatch} (h : phiArguments g source target data = .error m) : SparesBindings m := by
  rcases phiArguments_eq_error h with ⟨-, rfl⟩ | ⟨offset, phi, -, -, harg⟩
  · rfl
  · unfold phiArgument at harg
    split at harg
    · split at harg
      · split at harg
        · exact absurd harg (by simp)
        · exact Except.error.inj harg ▸ rfl
      · exact Except.error.inj harg ▸ rfl
    · exact Except.error.inj harg ▸ rfl
    · exact Except.error.inj harg ▸ rfl

-- Whatever is wrong with a graph, it is not that a variable is not bound.
theorem tolerant_sparesBindings (ctx : Context) : Tolerant SparesBindings ctx :=
  ⟨fun _ _ h => h, fun _ _ _ => ⟨fun _ => rfl, fun _ => rfl, fun _ => rfl,
    fun _ _ _ => code_of_phiArguments⟩⟩

-- What is bound already, and variables of the numbers given.
def Since (upper : VariableId → Prop) (lo hi : Nat) (x : VariableId) : Prop :=
  upper x ∨ lo ≤ x.index ∧ x.index < hi

-- The visible variables have to be bound, and in a function what its graph returns.
def seeing (ctx : Context) (inFunction : Bool) (visible : List VariableId)
    (upper : VariableId → Prop) : Bounds :=
  ⟨fun x => x ∈ visible ∨ inFunction = true ∧ x ∈ ctx.graph.returns, upper⟩

variable {ctx : Context} {inFunction : Bool} {scope : ScopeId} {scope? : Option ScopeId}
  {visible visible' : List VariableId} {upper upper' : VariableId → Prop} {lo mid hi : Nat}
  {duties : List Duty} {names : List String}

theorem seeing_le (hv : ∀ x ∈ visible, x ∈ visible') (hu : ∀ x, upper' x → upper x) :
    (seeing ctx inFunction visible' upper').Le (seeing ctx inFunction visible upper) :=
  ⟨fun x hx => hx.imp_left (hv x), hu⟩

theorem Since.widen {lo' hi' : Nat} (hlo : lo' ≤ lo) (hhi : hi ≤ hi')
    (hu : ∀ x, upper x → Since upper' lo' hi' x) (x : VariableId) (h : Since upper lo hi x) :
    Since upper' lo' hi' x := by
  rcases h with h | ⟨hl, hh⟩
  · exact hu x h
  · exact .inr ⟨Nat.le_trans hlo hl, Nat.lt_of_lt_of_le hh hhi⟩

theorem reads_of_resolves (h : ctx.scopes.resolves scope? visible names = true) :
    Reads SparesBindings ctx scope? (seeing ctx inFunction visible upper) names := by
  intro name hn x hx
  obtain ⟨y, hy, hs⟩ := Yul.Scopes.resolves_iff.mp h name hn
  obtain rfl := Yul.Symbol.var.inj (Option.some.inj (hx.symm.trans hs))
  exact .inl (.inl hy)

-- Names that are declared in turn are not bound, if none of their numbers is.
theorem declarable_of_numbers {again : String → VariableId → Prop} {bound : VariableId → Bool}
    (numbers : ctx.scopes.Numbers scope names lo hi)
    (looked : ∀ name y, ctx.scopes.own? scope name = some (.var y) →
      ∀ x, ctx.scopes.symbol? scope? name = some (.var x) → x = y)
    (fresh : ∀ x, bound x = true → x.index < lo ∨ hi ≤ x.index) :
    Declarable ctx.scopes scope? again bound names := by
  induction names generalizing lo bound with
  | nil => trivial
  | cons name rest ih =>
      obtain ⟨hown, hrest⟩ := numbers
      have hlt : lo < hi := hrest.le
      intro x hx
      obtain rfl := looked name _ hown x hx
      refine ⟨fun hbound => absurd (fresh _ hbound) (by simpa using hlt), ih hrest fun y hy => ?_⟩
      rw [Bool.or_eq_true, decide_eq_true_iff] at hy
      rcases hy with rfl | hy
      · exact .inl (Nat.lt_succ_self _)
      · exact (fresh y hy).imp_left Nat.lt_succ_of_lt

theorem since_of_names {x : VariableId} (numbers : ctx.scopes.Numbers scope names lo hi)
    (looked : ∀ name y, ctx.scopes.own? scope name = some (.var y) →
      ∀ x, ctx.scopes.symbol? scope? name = some (.var x) → x = y)
    (h : Names ctx scope? names x) : lo ≤ x.index ∧ x.index < hi := by
  obtain ⟨name, hn, hx⟩ := h
  obtain ⟨y, hy, hrange⟩ := numbers.own?_of_mem hn
  exact looked name y hy x hx ▸ hrange

-- What a scope declares is seen as such in the scope.
theorem own?_looked (name : String) (y : VariableId)
    (h : ctx.scopes.own? scope name = some (.var y)) (x : VariableId)
    (hx : ctx.scopes.symbol? (some scope) name = some (.var x)) : x = y :=
  Yul.Symbol.var.inj (Option.some.inj (hx.symm.trans (Yul.Scopes.symbol?_of_own? h)))

-- What a signature declares is seen as such in the body of the function.
theorem signature_looked {inner : ScopeId} (free : ctx.scopes.shadowFree = true)
    (inside : ctx.scopes.Inside inner (some scope)) (name : String) (y : VariableId)
    (h : ctx.scopes.own? scope name = some (.var y)) (x : VariableId)
    (hx : ctx.scopes.symbol? (some inner) name = some (.var x)) : x = y :=
  Yul.Scopes.own?_of_symbol? free inside h hx

-- What a statement asks of its surroundings: its own variables are not bound yet, and
-- with all of them a pass through the innermost loop is still within its bounds.
structure Surrounds (ctx : Context) (inFunction : Bool) (visible : List VariableId)
    (upper : VariableId → Prop) (lo hi : Nat) (duties : List Duty) : Prop where
  fresh : ∀ x, upper x → x.index < lo ∨ hi ≤ x.index
  fits : ∀ d ∈ duties.head?, (seeing ctx inFunction visible (Since upper lo hi)).Le d.bounds

theorem Since.within {lo' hi' : Nat} (hlo : lo ≤ lo') (hle : lo' ≤ hi') (hhi : hi' ≤ hi)
    (hu : ∀ x, upper' x → Since upper lo lo' x) (x : VariableId) (h : Since upper' lo' hi' x) :
    Since upper lo hi x := by
  rcases h with h | ⟨hl, hh⟩
  · refine (hu x h).imp_right fun ⟨hl, hh⟩ => ⟨hl, ?_⟩
    exact Nat.lt_of_lt_of_le hh (Nat.le_trans hle hhi)
  · exact .inr ⟨Nat.le_trans hlo hl, Nat.lt_of_lt_of_le hh hhi⟩

-- A part of a statement asks for no more than the statement, once the parts before it
-- are through.
theorem Surrounds.part {lo' hi' : Nat}
    (h : Surrounds ctx inFunction visible upper lo hi duties) (hlo : lo ≤ lo') (hle : lo' ≤ hi')
    (hhi : hi' ≤ hi) (hv : ∀ x ∈ visible, x ∈ visible')
    (hu : ∀ x, upper' x → Since upper lo lo' x) :
    Surrounds ctx inFunction visible' upper' lo' hi' duties := by
  refine ⟨fun x hx => ?_, fun d hd => .trans (seeing_le hv ?_) (h.fits d hd)⟩
  · rcases hu x hx with hx | ⟨-, hx⟩
    · rcases h.fresh x hx with hx | hx
      · exact .inl (Nat.lt_of_lt_of_le hx hlo)
      · exact .inr (Nat.le_trans hhi hx)
    · exact .inl hx
  · exact Since.within hlo hle hhi hu

theorem Surrounds.first (h : Surrounds ctx inFunction visible upper lo hi duties)
    (hlo : lo ≤ mid) (hhi : mid ≤ hi) : Surrounds ctx inFunction visible upper lo mid duties :=
  h.part (Nat.le_refl lo) hlo hhi (fun _ h => h) fun _ h => .inl h

-- The body of a loop is what its bounds are made for.
theorem Surrounds.inLoop {collecting : Bool} (fresh : ∀ x, upper x → x.index < lo ∨ hi ≤ x.index) :
    Surrounds ctx inFunction visible upper lo hi
      (⟨seeing ctx inFunction visible (Since upper lo hi), collecting⟩ :: duties) := by
  refine ⟨fresh, fun d hd => ?_⟩
  obtain rfl := Option.some.inj hd
  exact .refl _

-- Statements keep bound what is visible, and bind no more than what they declare.
abbrev Spares (ctx : Context) (inFunction : Bool) (scope? : Option ScopeId) (duties : List Duty)
    (visible visible' : List VariableId) (upper : VariableId → Prop) (lo hi : Nat)
    (body : Walk Bool) : Prop :=
  Runs SparesBindings ctx scope? duties (seeing ctx inFunction visible upper)
    (seeing ctx inFunction visible' (Since upper lo hi)) body

theorem Spares.widen {body : Walk Bool} {visible'' : List VariableId} {lo' hi' : Nat}
    (h : Spares ctx inFunction scope? duties visible visible' upper' lo' hi' body)
    (hv : ∀ x ∈ visible'', x ∈ visible') (hu : ∀ x, upper x → upper' x)
    (hu' : ∀ x, Since upper' lo' hi' x → Since upper lo hi x) :
    Spares ctx inFunction scope? duties visible visible'' upper lo hi body :=
  fun s hs hr => (h s hs (hr.mono (seeing_le (fun _ h => h) hu))).mono fun _ _ ⟨ht, hb⟩ =>
    ⟨ht, fun hf => (hb hf).mono (seeing_le hv hu')⟩

-- A statement that declares nothing.
theorem Spares.of_runs {body : Walk Bool}
    (h : Runs SparesBindings ctx scope? duties (seeing ctx inFunction visible upper)
      (seeing ctx inFunction visible upper) body) :
    Spares ctx inFunction scope? duties visible (visible ++ []) upper lo hi body :=
  h.weaken (seeing_le (by simp) fun _ h => .inl h)

theorem seeing_since : (seeing ctx inFunction visible upper).Le
    (seeing ctx inFunction visible (Since upper lo hi)) :=
  seeing_le (fun _ h => h) fun _ h => .inl h

theorem spares_let {value? : Option Expr}
    (hw : ctx.scopes.resolves (some scope) visible (initialNames value?) = true)
    (hn : ctx.scopes.Numbers scope names lo hi)
    (around : Surrounds ctx inFunction visible upper lo hi duties) :
    Spares ctx inFunction (some scope) duties visible
      (visible ++ ctx.scopes.variablesOf (some scope) names) upper lo hi
      (replayLet ctx names value?) := by
  refine .replayLet (tolerant_sparesBindings ctx) (reads_of_resolves hw) (fun bound hb => ?_)
    (fun x hx => ?_) fun x hx => ?_
  · exact declarable_of_numbers hn own?_looked fun x hx => around.fresh x (hb x hx)
  · rcases hx with hx | hx
    · exact (List.mem_append.mp hx).imp .inl Yul.Scopes.mem_variablesOf.mp
    · exact .inl (.inr hx)
  · exact hx.imp_right (since_of_names hn own?_looked)

-- A pass goes through the body before the post block, whose variables have the smaller
-- numbers.
theorem spares_for {pre body post : Walk Bool} {condition : Expr} {postEmpty : Bool} {mid' : Nat}
    (hw : ctx.scopes.resolves scope? visible' condition.names = true)
    (hle : lo ≤ mid) (hle' : mid ≤ mid') (hle'' : mid' ≤ hi) (hv : ∀ x ∈ visible, x ∈ visible')
    (around : Surrounds ctx inFunction visible upper lo hi duties)
    (hpre : Spares ctx inFunction scope? duties visible visible' upper lo mid pre)
    (hb : ∀ duties, Surrounds ctx inFunction visible' (Since upper lo mid) mid' hi duties →
      Spares ctx inFunction scope? duties visible' visible' (Since upper lo mid) mid' hi body)
    (hq : ∀ duties,
      Surrounds ctx inFunction visible' (Since (Since upper lo mid) mid' hi) mid mid' duties →
      Spares ctx inFunction scope? duties visible' visible' (Since (Since upper lo mid) mid' hi)
        mid mid' post) :
    Spares ctx inFunction scope? duties visible (visible ++ []) upper lo hi
      (replayFor ctx pre condition body postEmpty post) := by
  have before : ∀ x, Since upper lo mid x → x.index < mid ∨ hi ≤ x.index := by
    rintro x (hx | ⟨-, hx⟩)
    · exact (around.fresh x hx).imp_left fun hlt => Nat.lt_of_lt_of_le hlt hle
    · exact .inl hx
  have whole : ∀ x, Since (Since (Since upper lo mid) mid' hi) mid mid' x →
      Since upper lo hi x := by
    refine .widen hle hle'' (.widen (Nat.le_trans hle hle') (Nat.le_refl hi) ?_)
    exact .widen (Nat.le_refl lo) (Nat.le_trans hle' hle'') fun _ h => .inl h
  have visited : Runs SparesBindings ctx scope? duties (seeing ctx inFunction visible upper)
      (seeing ctx inFunction visible' (Since (Since (Since upper lo mid) mid' hi) mid mid'))
      (replayFor ctx pre condition body postEmpty post) := by
    refine .replayFor (tolerant_sparesBindings ctx) seeing_since seeing_since (fun _ h => h)
      (reads_of_resolves hw) hpre (hb _ (.inLoop fun x hx => ?_)) (hq _ (.inLoop fun x hx => ?_))
    · exact (before x hx).imp_left fun hlt => Nat.lt_of_lt_of_le hlt hle'
    · rcases hx with hx | ⟨hx, -⟩
      · exact (before x hx).imp_right fun hge => Nat.le_trans hle'' hge
      · exact .inr hx
  exact visited.weaken (seeing_le (by simpa using hv) whole)

-- A signature is bound to begin with, and what the graph returns is part of it.
theorem stands_definition {d : Definition} {s : State} {body : Context → Walk Bool}
    {inner : ScopeId} (free : ctx.scopes.shadowFree = true)
    (hopened : ctx.analysis.scopeOf? d.body.id = some inner)
    (inside : ctx.scopes.Inside inner (some scope))
    (hn : ctx.scopes.Numbers scope (d.parameters ++ d.returns) lo mid)
    (hb : ∀ f graph, Spares (ctx.within f graph) true (some inner) []
      (ctx.scopes.variablesOf (some inner) (d.parameters ++ d.returns))
      (ctx.scopes.variablesOf (some inner) (d.parameters ++ d.returns))
      (fun x => lo ≤ x.index ∧ x.index < mid) mid hi (body (ctx.within f graph)))
    (hs : Stands SparesBindings ctx scope? duties s) :
    Ends SparesBindings (replayDefinition ctx d body) s fun _ t =>
      Stands SparesBindings ctx scope? duties t ∧ t.bindings = s.bindings := by
  have looked := signature_looked free inside
  refine Runs.replayDefinition (tolerant_sparesBindings ctx).lenient (fun f graph _ _ => ?_) hs
  rw [hopened]
  refine ⟨tolerant_sparesBindings _, fun _ => rfl, ?_, _, _, hb f graph,
    fun b hbinds hreturns => ?_⟩
  · exact declarable_of_numbers hn looked nofun
  · refine ⟨⟨fun x hx => ?_, fun x hx => ?_⟩, fun x hx => .inl (.inr ⟨rfl, hx⟩)⟩
    · rcases hx with hx | ⟨-, hx⟩
      · exact (hbinds x).mpr (Yul.Scopes.mem_variablesOf.mp hx)
      · exact hreturns x hx
    · exact since_of_names hn looked ((hbinds x).mp hx)

end Replay

namespace Replay

open SsaReplay.Yul (Block Case Definition Stmt casesNumbered casesWellScoped introducedBy
  stmtsNumbered stmtsWellScoped)

-- The recursion is that of the replay: function definitions first, then the others.
mutual
theorem stmt_spares {ctx : Context} {inFunction : Bool} {scope : ScopeId} {s : Stmt}
    {visible : List VariableId} {upper : VariableId → Prop} {lo hi : Nat} {duties : List Duty}
    (free : ctx.scopes.shadowFree = true)
    (hw : s.wellScoped ctx.analysis inFunction (some scope) visible = true)
    (hn : s.Numbered ctx.analysis scope lo hi) (hf : s.isFunDef = false)
    (around : Surrounds ctx inFunction visible upper lo hi duties) :
    Spares ctx inFunction (some scope) duties visible
      (visible ++ s.introduces ctx.analysis (some scope)) upper lo hi (replayStmt ctx s) := by
  have tol := tolerant_sparesBindings ctx
  cases s with
  | expr e => exact .of_runs (.replayBare tol (reads_of_resolves hw))
  | assign names e =>
      obtain ⟨hreads, htargets⟩ := Bool.and_eq_true_iff.mp hw
      refine .of_runs (.replayAssignment tol (reads_of_resolves hreads) ?_)
      rintro x ⟨name, hn, hx⟩
      obtain ⟨y, hy, hs⟩ := Yul.Scopes.resolves_iff.mp htargets name hn
      obtain rfl := Yul.Symbol.var.inj (Option.some.inj (hx.symm.trans hs))
      exact .inl (.inl hy)
  | letDecl names value? => exact spares_let hw hn around
  | funDef name parameters returns body => exact absurd hf (by simp [Stmt.isFunDef])
  | cond condition body =>
      obtain ⟨hreads, hbody⟩ := Bool.and_eq_true_iff.mp hw
      refine Spares.widen (.replayIf tol seeing_since (reads_of_resolves hreads)
        (block_spares free hbody hn around)) (by simp [Stmt.introduces]) (fun _ h => h) fun _ h => h
  | switch e cases =>
      obtain ⟨hreads, harms⟩ := Bool.and_eq_true_iff.mp hw
      refine Spares.widen (.replaySwitch tol seeing_since (reads_of_resolves hreads)
        (arms_spare free harms hn around)) (by simp [Stmt.introduces]) (fun _ h => h) fun _ h => h
  | forLoop pre condition post body =>
      cases pre with
      | mk id statements =>
          obtain ⟨inner, mid, mid', hopened, hpre, hpost, hbody⟩ := hn
          simp only [Stmt.wellScoped, Bool.and_eq_true, hopened] at hw
          obtain ⟨wpre, wcondition, wpost, wbody⟩ := hw
          have hle := Yul.stmtsNumbered_le hpre
          have hle' := Yul.Block.Numbered.le hpost
          have hle'' := Yul.Block.Numbered.le hbody
          refine .inBlock tol fun scope' hscope' => ?_
          obtain rfl := Option.some.inj (hopened.symm.trans hscope')
          refine spares_for wcondition hle hle' hle'' (fun x => List.mem_append_left _) around
            ?_ ?_ ?_
          · have first := around.first hle (Nat.le_trans hle' hle'')
            exact .inTurn (definitions_stand free wpre hpre)
              (others_spare free wpre hpre first)
          · exact fun duties inside => block_spares free wbody hbody inside
          · exact fun duties inside => block_spares free wpost hpost inside
  | breakLoop => exact .replayLoopJump tol .exits fun d hd => .trans seeing_since (around.fits d hd)
  | continueLoop =>
      exact .replayLoopJump tol .continues fun d hd => .trans seeing_since (around.fits d hd)
  | leave => exact .replayLeave tol fun x hx => .inl (.inr ⟨hw, hx⟩)
  | block body =>
      exact (block_spares free hw hn around).widen (by simp [Stmt.introduces]) (fun _ h => h)
        fun _ h => h
theorem block_spares {ctx : Context} {inFunction : Bool} {scope? : Option ScopeId} {b : Block}
    {visible : List VariableId} {upper : VariableId → Prop} {lo hi : Nat} {duties : List Duty}
    (free : ctx.scopes.shadowFree = true)
    (hw : b.wellScoped ctx.analysis inFunction visible = true) (hn : b.Numbered ctx.analysis lo hi)
    (around : Surrounds ctx inFunction visible upper lo hi duties) :
    Spares ctx inFunction scope? duties visible visible upper lo hi (replayBlock ctx b) := by
  cases b with
  | mk id statements =>
      obtain ⟨scope, hopened, hstatements⟩ := hn
      simp only [Block.wellScoped, hopened] at hw
      refine .inBlock (tolerant_sparesBindings ctx) fun scope' hscope' => ?_
      obtain rfl := Option.some.inj (hopened.symm.trans hscope')
      exact .inTurn (definitions_stand free hw hstatements)
        ((others_spare free hw hstatements around).widen (fun x => List.mem_append_left _)
          (fun _ h => h) fun _ h => h)
theorem definitions_stand {ctx : Context} {inFunction : Bool} {scope : ScopeId}
    {statements : List Stmt} {visible : List VariableId} {lo hi : Nat} {duties : List Duty}
    (free : ctx.scopes.shadowFree = true)
    (hw : stmtsWellScoped ctx.analysis inFunction (some scope) visible statements = true)
    (hn : stmtsNumbered ctx.analysis scope statements lo hi) (s : State)
    (hs : Stands SparesBindings ctx (some scope) duties s) :
    Ends SparesBindings (replayDefinitions ctx statements) s fun _ t =>
      Stands SparesBindings ctx (some scope) duties t ∧ t.bindings = s.bindings := by
  cases statements with
  | nil => exact .pure ⟨hs, rfl⟩
  | cons first rest =>
      obtain ⟨mid, hfirst, hrest⟩ := hn
      obtain ⟨wfirst, wrest⟩ := Bool.and_eq_true_iff.mp hw
      unfold replayDefinitions
      cases first with
      | funDef name parameters returns body =>
          obtain ⟨inner, signature, next, hopened, hinside, hnumbers, hbody⟩ := hfirst
          simp only [Stmt.wellScoped, hopened] at wfirst
          let d : Definition := ⟨name, parameters, returns, body⟩
          have hbodies : ∀ f graph, Spares (ctx.within f graph) true (some inner) []
              (ctx.scopes.variablesOf (some inner) (parameters ++ returns))
              (ctx.scopes.variablesOf (some inner) (parameters ++ returns))
              (fun x => lo ≤ x.index ∧ x.index < next) next mid
              (replayBlock (ctx.within f graph) body) :=
            fun f graph => block_spares free wfirst hbody ⟨fun x hx => .inl hx.2, nofun⟩
          have hdef : Ends SparesBindings (replayDefinition ctx d (replayBlock · body)) s fun _ t =>
              Stands SparesBindings ctx (some scope) duties t ∧ t.bindings = s.bindings :=
            stands_definition free hopened hinside hnumbers hbodies hs
          refine .ite (fun _ => .bind (.bind (hdef.mono fun _ t ht => .pure ?_))) fun h => ?_
          · refine (definitions_stand free wrest hrest t ht.1).mono fun _ u hu => ?_
            exact ⟨hu.1, hu.2.trans ht.2⟩
          · exact absurd rfl h
      | _ => exact .ite (fun h => nomatch h) fun _ => definitions_stand free wrest hrest s hs
theorem others_spare {ctx : Context} {inFunction : Bool} {scope : ScopeId}
    {statements : List Stmt} {id : NodeId} {visible : List VariableId}
    {upper : VariableId → Prop} {lo hi : Nat} {duties : List Duty}
    (free : ctx.scopes.shadowFree = true)
    (hw : stmtsWellScoped ctx.analysis inFunction (some scope) visible statements = true)
    (hn : stmtsNumbered ctx.analysis scope statements lo hi)
    (around : Surrounds ctx inFunction visible upper lo hi duties) :
    Spares ctx inFunction (some scope) duties visible
      (visible ++ introducedBy ctx.analysis (some scope) statements) upper lo hi
      (replayOthers ctx id statements) := by
  cases statements with
  | nil => exact .of_runs (.done (.refl _))
  | cons first rest =>
      obtain ⟨mid, hfirst, hrest⟩ := hn
      obtain ⟨wfirst, wrest⟩ := Bool.and_eq_true_iff.mp hw
      have hlo := Yul.Stmt.Numbered.le hfirst
      have hhi := Yul.stmtsNumbered_le hrest
      unfold replayOthers
      split
      next hf =>
        have none : first.introduces ctx.analysis (some scope) = [] :=
          Stmt.introduces_of_isFunDef hf
        rw [none, List.append_nil] at wrest
        have later : Surrounds ctx inFunction visible upper mid hi duties :=
          around.part hlo hhi (Nat.le_refl hi) (fun _ h => h) fun _ h => .inl h
        refine (others_spare free wrest hrest later).widen ?_ (fun _ h => h)
          (.widen hlo (Nat.le_refl hi) fun _ h => .inl h)
        simp [introducedBy, none]
      next hf =>
        have later : Surrounds ctx inFunction
            (visible ++ first.introduces ctx.analysis (some scope)) (Since upper lo mid) mid hi
              duties :=
          around.part hlo hhi (Nat.le_refl hi) (fun x => List.mem_append_left _) fun _ h => h
        have hv : ∀ x ∈ visible ++ introducedBy ctx.analysis (some scope) (first :: rest),
            x ∈ visible ++ first.introduces ctx.analysis (some scope) ++
              introducedBy ctx.analysis (some scope) rest := by
          simp [introducedBy]
        have whole : ∀ x, Since (Since upper lo mid) mid hi x → Since upper lo hi x :=
          .within hlo hhi (Nat.le_refl hi) fun _ h => h
        exact .thenOthers (tolerant_sparesBindings ctx) (stmt_spares free wfirst hfirst
          (Bool.eq_false_iff.mpr hf) (around.first hlo hhi))
            ((others_spare free wrest hrest later).weaken (seeing_le hv whole))
theorem arms_spare {ctx : Context} {inFunction : Bool} {scope? : Option ScopeId}
    {cases : List Case} {visible : List VariableId} {upper : VariableId → Prop} {lo hi : Nat}
    {duties : List Duty} (free : ctx.scopes.shadowFree = true)
    (hw : casesWellScoped ctx.analysis inFunction visible cases = true)
    (hn : casesNumbered ctx.analysis cases lo hi)
    (around : Surrounds ctx inFunction visible upper lo hi duties) :
    ∀ arm ∈ replayArms ctx cases,
      Spares ctx inFunction scope? duties visible visible upper lo hi arm.2 := by
  cases cases with
  | nil => simp [replayArms]
  | cons c rest =>
      cases c with
      | mk value? body =>
          obtain ⟨mid, hbody, hrest⟩ := hn
          obtain ⟨wbody, wrest⟩ := Bool.and_eq_true_iff.mp hw
          have hlo := Yul.Block.Numbered.le hbody
          have hhi := Yul.casesNumbered_le hrest
          rw [replayArms, List.forall_mem_cons]
          refine ⟨?_, fun arm harm => ?_⟩
          · exact (block_spares free wbody hbody (around.first hlo hhi)).widen (fun _ h => h)
              (fun _ h => h) (.widen (Nat.le_refl lo) hhi fun _ h => .inl h)
          · have later : Surrounds ctx inFunction visible upper mid hi duties :=
              around.part hlo hhi (Nat.le_refl hi) (fun _ h => h) fun _ h => .inl h
            exact (arms_spare free wrest hrest later arm harm).widen (fun _ h => h) (fun _ h => h)
              (.widen hlo (Nat.le_refl hi) fun _ h => .inl h)
end

end Replay

open Replay

-- Where names are in order, no graph can make a variable be missing or be there twice.
theorem binding_of_wellScoped {draft : List Yul.Draft} {program : Yul.Block} {a : Yul.Analysis}
    {dialect : Yul.Dialect} {flow : Graph.ControlFlow} {settings : Settings} {report : Report}
    (laid : Yul.program? draft = .ok (program, a)) (free : a.scopes.shadowFree = true)
    (inOrder : program.wellScoped a false [] = true)
    (h : validate? ⟨program, a, dialect, flow⟩ settings = some report) :
    report.hasCode .unboundVariable = false ∧ report.hasCode .redeclaredVariable = false := by
  obtain ⟨count, numbered⟩ := Yul.Layout.numbered_of_program laid
  let ctx := (⟨program, a, dialect, flow⟩ : Subject).context settings
  have around : Surrounds ctx false [] (fun _ => False) 0 count [] := ⟨nofun, nofun⟩
  have runs : Spares ctx false none [] [] [] (fun _ => False) 0 count (replayBlock ctx program) :=
    block_spares free inOrder numbered around
  have unbound : (seeing ctx false [] fun _ => False).Holds .empty := ⟨nofun, nofun⟩
  have ends := Ends.replayMain (tolerant_sparesBindings ctx) (fun _ => rfl) unbound runs
  have spared : ∀ c : Code, c.isOfBinding = true → report.hasCode c = false := by
    intro c hc
    cases hr : report.hasCode c with
    | false => rfl
    | true =>
        obtain ⟨m, hm, rfl⟩ := Subject.allowed_of_hasCode ends h hr
        exact absurd (hc.symm.trans hm) (by simp)
  exact ⟨spared _ rfl, spared _ rfl⟩

-- A function with a loop that declares variables in its pre block and in its body. The
-- graph always returns zero, though the loop may have assigned something else.
namespace Ordered

open SsaReplay.Graph (Cfg ConstructionStep)

def draft : List Yul.Draft :=
  [.funDef "f" ["n"] ["r"]
    [.forLoop [.letDecl ["i"] (some (.ident "n"))] (.ident "i") []
      [.letDecl ["t"] (some (.ident "i")), .cond (.ident "t") [.breakLoop],
        .assign ["r"] (.ident "t")]],
    .letDecl ["x"] (some (.call "f" [.literal (.number 1)]))]

def steps : List ConstructionStep :=
  [.argument ⟨0⟩, .returnVariable ⟨1⟩, .literal 0, .block, .block, .block, .block, .block,
    .exit (.jump ⟨1⟩), .moveTo ⟨1⟩, .exit (.branch ⟨⟨0⟩, ⟨2⟩, ⟨4⟩⟩),
    .moveTo ⟨2⟩, .exit (.branch ⟨⟨0⟩, ⟨5⟩, ⟨3⟩⟩), .moveTo ⟨5⟩, .exit (.jump ⟨4⟩),
    .moveTo ⟨3⟩, .exit (.jump ⟨1⟩), .moveTo ⟨4⟩, .exit (.functionReturn [⟨1⟩])]

def callee : Cfg := Cfg.ofSteps (some ⟨0⟩) steps

def program : Yul.Block × Yul.Analysis := Yul.laidOut draft

def subject : Subject := ⟨program.1, program.2, .evm, ⟨.start none, [(⟨0⟩, callee)]⟩⟩

theorem laid : Yul.program? draft = .ok (program.1, program.2) :=
  Yul.program?_eq_laidOut (by decide +kernel)

theorem binding_of_wellScoped_here :
    Yul.program? draft = .ok (program.1, program.2) ∧ program.2.scopes.shadowFree = true ∧
      program.1.wellScoped program.2 false [] = true ∧
      ∃ report, validate? subject .default = some report ∧
        report.hasCode .inconsistentBinding = true ∧
          report.hasCode .unboundVariable = false ∧ report.hasCode .redeclaredVariable = false := by
  have free : program.2.scopes.shadowFree = true := by decide +kernel
  have inOrder : program.1.wellScoped program.2 false [] = true := by decide +kernel
  have reported : (validate? subject .default).any (·.hasCode .inconsistentBinding) = true := by
    decide +kernel
  obtain ⟨report, hr, hcode⟩ := (Option.any_eq_true _ _).mp reported
  exact ⟨laid, free, inOrder, report, hr, hcode, binding_of_wellScoped laid free inOrder hr⟩

end Ordered

end SsaReplay
