import SsaReplay.Proofs.Mirroring.Spread
import SsaReplay.Proofs.Scoping

namespace SsaReplay.Yul

-- Whether something was declared, and not only a scope asked for.
def Declared.isDeclaration : Declared → Bool
  | .scope _ => false
  | _ => true

namespace Scopes

-- In the scope, the names stand for the variables.
def Resolve (s : Scopes) (scope : ScopeId) (names : List String) (ids : List VariableId) : Prop :=
  List.Forall₂ (fun name x => s.lookup scope name = some (.var x)) names ids

-- The scope itself declares the names for the variables.
def Owns (s : Scopes) (scope : ScopeId) (names : List String) (ids : List VariableId) : Prop :=
  List.Forall₂ (fun name x => s.own? scope name = some (.var x)) names ids

-- A scope inside the other that declares the names for the variables, and nothing else.
def Signature (s : Scopes) (id outer : ScopeId) (names : List String) (ids : List VariableId) :
    Prop :=
  s.Resolve id names ids ∧
    s.scope? id = some ⟨some outer, true, (names.zip (ids.map Symbol.var)).reverse⟩

variable {s s' : Scopes} {scope : ScopeId} {names : List String} {ids : List VariableId}

theorem Owns.retained (h : s.Owns scope names ids) (hr : Retains scope s s') :
    s'.Owns scope names ids :=
  List.Forall₂.imp (fun name x hx => hr name (.var x) hx) h

theorem Owns.resolve (h : s.Owns scope names ids) : s.Resolve scope names ids :=
  List.Forall₂.imp (fun _ _ hx => symbol?_of_own? hx) h

end Scopes

-- A program and what was returned when it was laid out, as the analysis has them. Every block
-- opens a scope inside the one it stands in; the post and the body of a loop stand in the
-- scope of the pre block. The body of a function stands in a scope of exactly its parameters
-- and return variables. What is declared in a block is what its name stands for there.
mutual
def Block.Mirrored (a : Analysis) (outer? : Option ScopeId) : Block → List Declared → Prop
  | .mk id statements, declared =>
      ∃ scope, a.scopeOf? id = some scope ∧ a.scopes.Shaped scope outer? false ∧
        stmtsMirrored a scope statements declared
def Stmt.Mirrored (a : Analysis) (scope : ScopeId) : Stmt → List Declared → Prop
  | .letDecl names _, declared =>
      ∃ ids, declared = [.vars (ids.map some)] ∧ a.scopes.Resolve scope names ids
  | .funDef name parameters returns body, declared =>
      ∃ (f : FunctionId) (xs ys : List VariableId) (signature : ScopeId) (inner : List Declared),
        declared = inner ++ [.function (some f) (xs.map some) (ys.map some)] ∧
          a.scopes.lookup scope name = some (.func f) ∧ xs.length = parameters.length ∧
            a.scopes.Signature signature scope (parameters ++ returns) (xs ++ ys) ∧
              body.Mirrored a (some signature) inner
  | .cond _ body, declared => body.Mirrored a (some scope) declared
  | .switch _ cases, declared => casesMirrored a scope cases declared
  | .forLoop (.mk id pre) _ post body, declared =>
      ∃ inner first second third, declared = first ++ second ++ third ∧
        a.scopeOf? id = some inner ∧ a.scopes.Shaped inner (some scope) false ∧
          stmtsMirrored a inner pre first ∧ post.Mirrored a (some inner) second ∧
            body.Mirrored a (some inner) third
  | .block body, declared => body.Mirrored a (some scope) declared
  | _, declared => declared = []
def stmtsMirrored (a : Analysis) (scope : ScopeId) : List Stmt → List Declared → Prop
  | [], declared => declared = []
  | s :: rest, declared =>
      ∃ first others, declared = first ++ others ∧ s.Mirrored a scope first ∧
        stmtsMirrored a scope rest others
def casesMirrored (a : Analysis) (scope : ScopeId) : List Case → List Declared → Prop
  | [], declared => declared = []
  | .mk _ body :: rest, declared =>
      ∃ first others, declared = first ++ others ∧ body.Mirrored a (some scope) first ∧
        casesMirrored a scope rest others
end

theorem stmtsMirrored_append {a : Analysis} {scope : ScopeId} {first others : List Stmt}
    {declared declared' : List Declared} (h : stmtsMirrored a scope first declared)
    (k : stmtsMirrored a scope others declared') :
    stmtsMirrored a scope (first ++ others) (declared ++ declared') := by
  induction first generalizing declared with
  | nil =>
      obtain rfl : declared = [] := h
      exact k
  | cons s rest ih =>
      obtain ⟨new, newer, rfl, hs, hr⟩ := h
      exact ⟨new, newer ++ declared', List.append_assoc _ _ _, hs, ih hr⟩

namespace Layout

-- What the declarations up to here returned, in order.
def returned (l : Layout) : List Declared := l.declared.reverse.filter Declared.isDeclaration

variable {scope : ScopeId} {l m n : Layout} {a : Analysis}

theorem returned_congr (h : m.declared = l.declared) : m.returned = l.returned := by
  rw [returned, h, returned]

theorem returned_note (d : Declared) (l : Layout) :
    (note d l).2.returned = l.returned ++ [d].filter Declared.isDeclaration := by
  change ((d :: l.declared).reverse.filter _) = _
  rw [List.reverse_cons, List.filter_append]
  rfl

section Steps

variable {name : String}

theorem settle_declared {α : Type} (l : Layout) (outcome : Except DeclareError (α × Scopes)) :
    (l.settle outcome).2.declared = l.declared := by
  cases outcome <;> rfl

-- A declaration that does not fail.
theorem declareVariable_declared (he : (declareVariable scope name l).2.error? = none) :
    ∃ x, (declareVariable scope name l).1 = some x ∧
      (declareVariable scope name l).2.scopes.own? scope name = some (.var x) ∧
      (declareVariable scope name l).2.scopes.scope? scope = (l.scopes.scope? scope).map
        fun data => { data with symbols := (name, .var x) :: data.symbols } := by
  change (l.settle (l.scopes.declareVariable scope name)).2.error? = none at he
  change ∃ x, (l.settle (l.scopes.declareVariable scope name)).1 = some x ∧
    (l.settle (l.scopes.declareVariable scope name)).2.scopes.own? scope name = _ ∧
      (l.settle (l.scopes.declareVariable scope name)).2.scopes.scope? scope = _
  cases hd : l.scopes.declareVariable scope name with
  | error e =>
      rw [hd] at he
      exact absurd he nofun
  | ok result =>
      obtain ⟨x, s⟩ := result
      obtain ⟨free, -, hs, -⟩ := Scopes.declareVariable_eq_ok hd
      refine ⟨x, rfl, (Scopes.own?_record free hs).1, ?_⟩
      have looked : s.scope? scope = (l.scopes.record scope name (.var x)).scope? scope := by
        unfold Scopes.scope?
        rw [hs]
      exact looked.trans ((record_scope? _ _ _ _ _).trans (if_pos rfl))

theorem declareFunction_declared {parameters returns : Nat}
    (he : (declareFunction scope name parameters returns l).2.error? = none) :
    ∃ f, (declareFunction scope name parameters returns l).1 = some f ∧
      (declareFunction scope name parameters returns l).2.scopes.own? scope name =
        some (.func f) := by
  change (l.settle (l.scopes.declareFunction scope name parameters returns)).2.error? = none at he
  change ∃ f, (l.settle (l.scopes.declareFunction scope name parameters returns)).1 = some f ∧
    (l.settle (l.scopes.declareFunction scope name parameters returns)).2.scopes.own? scope name = _
  cases hd : l.scopes.declareFunction scope name parameters returns with
  | error e =>
      rw [hd] at he
      exact absurd he nofun
  | ok result =>
      obtain ⟨f, s⟩ := result
      obtain ⟨free, hs, -⟩ := Scopes.declareFunction_eq_ok hd
      exact ⟨f, rfl, (Scopes.own?_record free hs).1⟩

theorem declareVariables_noted (scope : ScopeId) (names : List String) (l : Layout) :
    (names.mapM (declareVariable scope) l).2.declared = l.declared := by
  induction names generalizing l with
  | nil => rfl
  | cons name rest ih =>
      rw [List.mapM_cons]
      exact (ih _).trans (settle_declared l _)

-- The symbols of the scope are the names, the last one first, and what was there before.
theorem declareVariables_declared (scope : ScopeId) (names : List String) (l : Layout)
    (he : (names.mapM (declareVariable scope) l).2.error? = none) :
    ∃ ids : List VariableId, (names.mapM (declareVariable scope) l).1 = ids.map some ∧
      (names.mapM (declareVariable scope) l).2.scopes.Owns scope names ids ∧
      (names.mapM (declareVariable scope) l).2.scopes.scope? scope =
        (l.scopes.scope? scope).map fun data =>
          { data with symbols := (names.zip (ids.map Symbol.var)).reverse ++ data.symbols } := by
  induction names generalizing l with
  | nil => exact ⟨[], rfl, .nil, by cases h : l.scopes.scope? scope <;> exact h⟩
  | cons name rest ih =>
      rw [List.mapM_cons] at he ⊢
      have adds := (declareVariables_adds scope rest (declareVariable scope name l).2).1
      obtain ⟨x, hx, hown, hscope⟩ := declareVariable_declared (adds.failed he)
      obtain ⟨ids, hids, howns, hscopes⟩ := ih (declareVariable scope name l).2 he
      refine ⟨x :: ids, congr (congrArg List.cons hx) hids, .cons (adds.kept _ _ hown) howns, ?_⟩
      refine hscopes.trans ?_
      rw [hscope, Option.map_map]
      simp [Function.comp_def]

end Steps

-- Statements are laid out in a scope and return what is new; unless that fails, they are
-- mirrored by it.
def Mirrors (scope : ScopeId) (l : Layout) (statements : List Stmt) (m : Layout) : Prop :=
  ∃ new, m.returned = l.returned ++ new ∧ ∀ a, m.error? = none → Kept l m a →
    Scopes.Retains scope m.scopes a.scopes → stmtsMirrored a scope statements new

-- The same for a block, which declares nothing around it.
def BlockMirrors (outer? : Option ScopeId) (l : Layout) (b : Block) (m : Layout) : Prop :=
  ∃ new, m.returned = l.returned ++ new ∧ ∀ a, m.error? = none → Kept l m a →
    b.Mirrored a outer? new

def CasesMirror (scope : ScopeId) (l : Layout) (cases : List Case) (m : Layout) : Prop :=
  ∃ new, m.returned = l.returned ++ new ∧ ∀ a, m.error? = none → Kept l m a →
    casesMirrored a scope cases new

-- Nothing is returned, and nothing is to be mirrored.
theorem mirrors_silent {s : Stmt} (hs : ∀ a, s.Mirrored a scope []) : Mirrors scope l [s] l :=
  ⟨[], (List.append_nil _).symm, fun a _ _ _ => ⟨[], [], rfl, hs a, rfl⟩⟩

theorem mirrors_statement {s : Stmt} {new : List Declared}
    (hreturned : m.returned = l.returned ++ new)
    (hs : ∀ a, m.error? = none → Kept l m a → Scopes.Retains scope m.scopes a.scopes →
      s.Mirrored a scope new) : Mirrors scope l [s] m :=
  ⟨new, hreturned, fun a he ha hr => ⟨new, [], (List.append_nil _).symm, hs a he ha hr, rfl⟩⟩

theorem BlockMirrors.statement {b : Block} {s : Stmt} (h : BlockMirrors (some scope) l b m)
    (hs : ∀ a new, b.Mirrored a (some scope) new → s.Mirrored a scope new) :
    Mirrors scope l [s] m := by
  obtain ⟨new, hreturned, hb⟩ := h
  exact mirrors_statement hreturned fun a he ha _ => hs a new (hb a he ha)

theorem Mirrors.append {first others : List Stmt} (h : Mirrors scope l first m)
    (k : Mirrors scope m others n) (laid : Laid scope l first m) (laid' : Laid scope m others n)
    (adds : Adds scope m n) (hscope : scope.index < l.size) :
    Mirrors scope l (first ++ others) n := by
  obtain ⟨new, hreturned, hfirst⟩ := h
  obtain ⟨newer, hreturned', hothers⟩ := k
  refine ⟨new ++ newer, by rw [hreturned', hreturned, List.append_assoc], fun a he ha hr => ?_⟩
  have kept := ha.before laid'.grown (.inl hscope)
  refine stmtsMirrored_append (hfirst a (adds.failed he) kept ?_) ?_
  · exact fun name symbol hs => hr name symbol (adds.kept name symbol hs)
  · exact hothers a he (ha.after laid.grown.size laid.grown.nodes) hr

theorem blockMirrors_of_body {outer? : Option ScopeId} {body : List Draft} {l : Layout}
    (hbody : Mirrors ⟨l.size⟩ (l.opened outer?) (layAll ⟨l.size⟩ body (l.opened outer?)).1
      (layAll ⟨l.size⟩ body (l.opened outer?)).2) :
    BlockMirrors outer? l (layBlock outer? body l).1 (layBlock outer? body l).2 := by
  obtain ⟨new, hreturned, hstatements⟩ := hbody
  have laid := layBlock_laid outer? body l
  refine ⟨new, hreturned, fun a he ha => ⟨⟨l.size⟩, (laid.nested a ha).1.opened, ?_, ?_⟩⟩
  · exact ha.shaped (Nat.le_refl _) laid.size (layBlock_shaped outer? body l)
  · refine hstatements a he (ha.after ?_ (Nat.le_succ _)) (own?_congr ?_)
    · exact opened_size l outer? ▸ Nat.le_succ _
    · exact ha.scopes ⟨l.size⟩ (Nat.le_refl _) laid.size

theorem layVariables_mirrors {names : List String} {value? : Option Expr}
    {ids : List (Option VariableId)} (noted : m.declared = l.declared)
    (owned : m.error? = none → ∃ xs : List VariableId, ids = xs.map some ∧
      m.scopes.Owns scope names xs) :
    Mirrors scope l [.letDecl names value?] (note (.vars ids) m).2 := by
  have returned : (note (.vars ids) m).2.returned = l.returned ++ [.vars ids] := by
    rw [returned_note, returned_congr noted]
    rfl
  refine mirrors_statement returned fun a he ha hr => ?_
  obtain ⟨xs, rfl, howns⟩ := owned he
  exact ⟨xs, rfl, (howns.retained hr).resolve⟩

-- The pre block of a loop comes first, then the post block and the body in its scope.
theorem layLoop_mirrors {condition : Expr} {pre post body : Block} {inner : ScopeId}
    {l₁ l₂ l₃ : Layout} (hscope : scope.index < l.size) (hinner : inner = ⟨l.size⟩)
    (loop : LoopLaid scope l pre post body l₁ l₂ l₃)
    (failed₂ : l₂.error? = none → l₁.error? = none)
    (failed₃ : l₃.error? = none → l₂.error? = none) (h₁ : BlockMirrors (some scope) l pre l₁)
    (h₂ : BlockMirrors (some inner) l₁ post l₂) (h₃ : BlockMirrors (some inner) l₂ body l₃) :
    Mirrors scope l [.forLoop pre condition post body] l₃ := by
  obtain ⟨first, hreturned₁, hpre⟩ := h₁
  obtain ⟨second, hreturned₂, hpost⟩ := h₂
  obtain ⟨third, hreturned₃, hbody⟩ := h₃
  have returned : l₃.returned = l.returned ++ (first ++ second ++ third) := by
    rw [hreturned₃, hreturned₂, hreturned₁, List.append_assoc, List.append_assoc, List.append_assoc]
  refine mirrors_statement returned fun a he ha _ => ?_
  obtain ⟨kept₁, kept₂, kept₃⟩ := loop.parts hscope ha
  have he₂ := failed₃ he
  have mirrored := hpre a (failed₂ he₂) kept₁
  have opens := (loop.pre.nested a kept₁).1.opened
  cases pre with
  | mk id statements =>
      obtain ⟨scope', hopened, hshaped, hstatements⟩ := mirrored
      obtain rfl : scope' = inner := (Option.some.inj (hopened.symm.trans opens)).trans hinner.symm
      exact ⟨scope', first, second, third, rfl, hopened, hshaped, hstatements, hpost a he₂ kept₂,
        hbody a he kept₃⟩

-- The scope of a signature, once its names are declared.
structure SignatureLaid (scope : ScopeId) (parameters returns : List String)
    (ps rs : List (Option VariableId)) (l m : Layout) : Prop where
  size : l.size < m.size
  nodes : l.nextNode ≤ m.nextNode
  kept : ∀ id : ScopeId, id.index < l.size → m.scopes.scope? id = l.scopes.scope? id
  noted : m.returned = l.returned
  failed : m.error? = none → l.error? = none
  bound : m.error? = none → ∃ xs ys : List VariableId, ps = xs.map some ∧ rs = ys.map some ∧
    xs.length = parameters.length ∧ m.scopes.Owns ⟨l.size⟩ (parameters ++ returns) (xs ++ ys) ∧
      m.scopes.scope? ⟨l.size⟩ = some ⟨some scope, true,
        ((parameters ++ returns).zip ((xs ++ ys).map Symbol.var)).reverse⟩

theorem signatureLaid (scope : ScopeId) (parameters returns : List String) (l : Layout)
    {m n : Layout} {ps rs : List (Option VariableId)}
    (hp : parameters.mapM (declareVariable ⟨l.size⟩) (makeScope (some scope) true l).2 = (ps, m))
    (hr : returns.mapM (declareVariable ⟨l.size⟩) m = (rs, n)) :
    SignatureLaid scope parameters returns ps rs l n := by
  have size := makeScope_size (l := l) (some scope) true
  have settles := (declareVariables_settles ⟨l.size⟩ parameters _).trans
    (declareVariables_settles ⟨l.size⟩ returns (parameters.mapM (declareVariable ⟨l.size⟩)
      (makeScope (some scope) true l).2).2)
  have given := declareVariables_grown ⟨l.size⟩ parameters (makeScope (some scope) true l).2
  have given' := declareVariables_grown ⟨l.size⟩ returns m
  have adds := declareVariables_adds ⟨l.size⟩ returns m
  have noted := declareVariables_noted ⟨l.size⟩ parameters (makeScope (some scope) true l).2
  have noted' := declareVariables_noted ⟨l.size⟩ returns m
  have declared := declareVariables_declared ⟨l.size⟩ parameters (makeScope (some scope) true l).2
  have declared' := declareVariables_declared ⟨l.size⟩ returns m
  have first := declareVariables_adds ⟨l.size⟩ parameters (makeScope (some scope) true l).2
  rw [hp] at settles given noted declared first
  rw [hr] at settles given' adds noted' declared'
  refine ⟨?_, ?_, fun id hid => ?_, returned_congr (noted'.trans noted),
    fun he => first.1.failed (adds.1.failed he), fun he => ?_⟩
  · rw [settles.size, size]
    exact Nat.lt_succ_self _
  · exact Nat.le_of_eq settles.nodes.symm
  · have hne : id ≠ ⟨l.size⟩ := fun h => Nat.ne_of_lt hid (congrArg ScopeId.index h)
    have whole := given.1.trans given'.1
    rw [whole.kept id (size ▸ Nat.lt_succ_of_lt hid) hne, makeScope_scope?,
      if_neg (Nat.ne_of_lt hid)]
  · obtain ⟨xs, hxs, hown, hsymbols⟩ := declared (adds.1.failed he)
    obtain ⟨ys, hys, hown', hsymbols'⟩ := declared' he
    have hx : xs.length = parameters.length := hown.length_eq.symm
    refine ⟨xs, ys, hxs, hys, hx, ?_, ?_⟩
    · exact List.rel_append (hown.retained adds.1.kept) hown'
    · rw [hsymbols', hsymbols, makeScope_scope?, if_pos rfl, List.map_append,
        List.zip_append (by rw [List.length_map, hx]), List.reverse_append]
      simp

theorem layFunction_mirrors {name : String} {parameters returns : List String} {b : Block}
    {ps rs : List (Option VariableId)} {l₁ l₂ l₃ : Layout} {f? : Option FunctionId}
    (hscope : scope.index < l.size)
    (declared : declareFunction scope name parameters.length returns.length l = (f?, l₁))
    (signature : SignatureLaid scope parameters returns ps rs l₁ l₂)
    (laid : BlockLaid (some ⟨l₁.size⟩) l₂ b l₃) (failed : l₃.error? = none → l₂.error? = none)
    (hb : BlockMirrors (some ⟨l₁.size⟩) l₂ b l₃) :
    Mirrors scope l [.funDef name parameters returns b] (note (.function f? ps rs) l₃).2 := by
  obtain ⟨inner, hreturned, hmirrored⟩ := hb
  have settled := declareFunction_settles scope name parameters.length returns.length l
  have noted : (declareFunction scope name parameters.length returns.length l).2.declared =
      l.declared := settle_declared l _
  have found := @declareFunction_declared scope l name parameters.length returns.length
  rw [declared] at settled noted found
  have hscope₁ : scope.index < l₁.size := settled.size ▸ hscope
  have hscope₂ : scope.index < l₂.size := Nat.lt_trans hscope₁ signature.size
  have sizes : l.size ≤ l₂.size := settled.size ▸ Nat.le_of_lt signature.size
  have nodes : l.nextNode ≤ l₂.nextNode := settled.nodes ▸ signature.nodes
  have returned : (note (.function f? ps rs) l₃).2.returned =
      l.returned ++ (inner ++ [.function f? ps rs]) := by
    rw [returned_note, hreturned, signature.noted, returned_congr noted, List.append_assoc]
    rfl
  refine mirrors_statement returned fun a he ha hr => ?_
  have kept : Kept l l₃ a := ⟨ha.scopes, ha.blocks⟩
  have he₂ := failed he
  obtain ⟨f, hf, hown⟩ := found (signature.failed he₂)
  obtain ⟨xs, ys, rfl, rfl, hx, howns, hsymbols⟩ := signature.bound he₂
  obtain rfl : f? = some f := hf
  have outside : l₃.scopes.scope? scope = l₁.scopes.scope? scope :=
    (laid.kept scope hscope₂).trans (signature.kept scope hscope₁)
  have looked : a.scopes.scope? ⟨l₁.size⟩ = l₂.scopes.scope? ⟨l₁.size⟩ := by
    rw [kept.scopes ⟨l₁.size⟩ (Nat.le_of_eq settled.size.symm)
      (Nat.lt_trans signature.size laid.size), laid.kept ⟨l₁.size⟩ signature.size]
  have resolved : a.scopes.Resolve ⟨l₁.size⟩ (parameters ++ returns) (xs ++ ys) :=
    (howns.retained (own?_congr looked)).resolve
  refine ⟨f, xs, ys, ⟨l₁.size⟩, inner, rfl, ?_, hx, ⟨resolved, looked.trans hsymbols⟩, ?_⟩
  · exact Scopes.symbol?_of_own? (hr name _ (own?_congr outside name _ hown))
  · exact hmirrored a he (kept.after sizes nodes)

-- The recursion is that of the layout itself.
mutual
theorem lay_mirrors (scope : ScopeId) (d : Draft) (l : Layout) (hscope : scope.index < l.size) :
    Mirrors scope l (d.lay scope l).1.toList (d.lay scope l).2 := by
  cases d with
  | letDecl names value? =>
      have declared := declareVariables_declared scope names l
      exact layVariables_mirrors (declareVariables_noted scope names l) fun he =>
        let ⟨ids, hids, howns, _⟩ := declared he
        ⟨ids, hids, howns⟩
  | funDef name parameters returns body =>
      let declared := (declareFunction scope name parameters.length returns.length l).2
      have signature := signatureLaid scope parameters returns declared rfl rfl
      exact layFunction_mirrors hscope rfl signature (layBlock_laid _ body _)
        (layBlock_counted _ body _).failed (layBlock_mirrors _ body _)
  | cond condition body => exact (layBlock_mirrors (some scope) body l).statement fun _ _ h => h
  | switch value cases =>
      obtain ⟨new, hreturned, hcases⟩ := layCases_mirror scope cases l hscope
      exact mirrors_statement hreturned fun a he ha _ => hcases a he ha
  | forLoop pre condition post body =>
      exact layLoop_mirrors hscope rfl (layLoop_laid scope pre post body l)
        (layBlock_counted _ post _).failed (layBlock_counted _ body _).failed
        (layBlock_mirrors _ pre _) (layBlock_mirrors _ post _) (layBlock_mirrors _ body _)
  | block body => exact (layBlock_mirrors (some scope) body l).statement fun _ _ h => h
  | mark => exact ⟨[], returned_note _ l, fun _ _ _ _ => rfl⟩
  | expr e => exact mirrors_silent fun _ => rfl
  | assign names value => exact mirrors_silent fun _ => rfl
  | breakLoop => exact mirrors_silent fun _ => rfl
  | continueLoop => exact mirrors_silent fun _ => rfl
  | leave => exact mirrors_silent fun _ => rfl
theorem layBlock_mirrors (outer? : Option ScopeId) (body : List Draft) (l : Layout) :
    BlockMirrors outer? l (layBlock outer? body l).1 (layBlock outer? body l).2 :=
  blockMirrors_of_body (layAll_mirrors _ body _ (by rw [opened_size]; exact Nat.lt_succ_self _))
theorem layAll_mirrors (scope : ScopeId) (ds : List Draft) (l : Layout)
    (hscope : scope.index < l.size) :
    Mirrors scope l (layAll scope ds l).1 (layAll scope ds l).2 := by
  cases ds with
  | nil => exact ⟨[], (List.append_nil _).symm, fun _ _ _ _ => rfl⟩
  | cons d rest =>
      have laid := lay_laid scope d l hscope
      have hscope' := Nat.lt_of_lt_of_le hscope laid.grown.size
      exact (lay_mirrors scope d l hscope).append (layAll_mirrors scope rest _ hscope') laid
        (layAll_laid scope rest _ hscope') (layAll_counted scope rest _ hscope').adds hscope
theorem layCases_mirror (scope : ScopeId) (cases : List DraftCase) (l : Layout)
    (hscope : scope.index < l.size) :
    CasesMirror scope l (layCases scope cases l).1 (layCases scope cases l).2 := by
  cases cases with
  | nil => exact ⟨[], (List.append_nil _).symm, fun _ _ _ => rfl⟩
  | cons c rest =>
      obtain ⟨value?, body⟩ := c
      have laid := layBlock_laid (some scope) body l
      have hscope' : scope.index < _ := Nat.lt_trans hscope laid.size
      obtain ⟨first, hreturned, hbody⟩ := layBlock_mirrors (some scope) body l
      obtain ⟨others, hreturned', hrest⟩ := layCases_mirror scope rest _ hscope'
      have since := layCases_laid scope rest _ hscope'
      have failed := (layCases_counted scope rest _ hscope').adds.failed
      refine ⟨first ++ others, ?_, fun a he ha => ⟨first, others, rfl, ?_, ?_⟩⟩
      · exact hreturned'.trans (by rw [hreturned, List.append_assoc])
      · exact hbody a (failed he) (ha.before since.grown (.inl hscope))
      · exact hrest a he (ha.after (Nat.le_of_lt laid.size) (Nat.le_of_lt laid.nodes))
end

end Layout

end SsaReplay.Yul
