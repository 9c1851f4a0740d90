import SsaReplay.Proofs.Layout

namespace SsaReplay.Yul

namespace Scopes

-- What a scope declares itself under a name.
def own? (s : Scopes) (scope : ScopeId) (name : String) : Option Symbol :=
  (s.scope? scope).bind (·.symbols.lookup name)

-- What the scope declares is still declared there, as the same.
def Retains (scope : ScopeId) (s s' : Scopes) : Prop :=
  ∀ name symbol, s.own? scope name = some symbol → s'.own? scope name = some symbol

-- The names are declared in the scope for the variables of the numbers given, in turn.
def Numbers (s : Scopes) (scope : ScopeId) : List String → Nat → Nat → Prop
  | [], lo, hi => lo = hi
  | name :: rest, lo, hi =>
      s.own? scope name = some (.var ⟨lo⟩) ∧ Numbers s scope rest (lo + 1) hi

variable {s s' : Scopes} {scope : ScopeId} {names others : List String} {lo mid hi : Nat}

theorem Numbers.le (h : s.Numbers scope names lo hi) : lo ≤ hi := by
  induction names generalizing lo with
  | nil => exact Nat.le_of_eq h
  | cons name rest ih => exact Nat.le_of_succ_le (ih h.2)

theorem Numbers.append (h : s.Numbers scope names lo mid) (k : s.Numbers scope others mid hi) :
    s.Numbers scope (names ++ others) lo hi := by
  induction names generalizing lo with
  | nil => exact Eq.symm h ▸ k
  | cons name rest ih => exact ⟨h.1, ih h.2⟩

theorem Numbers.retained (h : s.Numbers scope names lo hi) (hr : Retains scope s s') :
    s'.Numbers scope names lo hi := by
  induction names generalizing lo with
  | nil => exact h
  | cons name rest ih => exact ⟨hr name _ h.1, ih h.2⟩

-- The numbers of the variables lie in the range.
theorem Numbers.own?_of_mem (h : s.Numbers scope names lo hi) {name : String}
    (hn : name ∈ names) :
    ∃ x : VariableId, s.own? scope name = some (.var x) ∧ lo ≤ x.index ∧ x.index < hi := by
  induction names generalizing lo with
  | nil => exact absurd hn List.not_mem_nil
  | cons first rest ih =>
      have hle : lo + 1 ≤ hi := h.2.le
      rcases List.mem_cons.mp hn with rfl | hn
      · exact ⟨⟨lo⟩, h.1, Nat.le_refl lo, hle⟩
      · obtain ⟨x, hx, hlo, hhi⟩ := ih h.2 hn
        exact ⟨x, hx, Nat.le_of_succ_le hlo, hhi⟩

theorem checkFree_eq_ok {name : String} :
    s.checkFree scope name = .ok () ↔
      (s.scope? scope).isSome = true ∧ s.own? scope name = none := by
  unfold checkFree own?
  cases s.scope? scope with
  | none => simp
  | some data => cases hl : data.symbols.lookup name <;> simp [hl]

theorem declareVariable_eq_ok {name : String} {x : VariableId}
    (h : s.declareVariable scope name = .ok (x, s')) :
    s.checkFree scope name = .ok () ∧ x = ⟨s.vars.size⟩ ∧
      s'.scopes = (s.record scope name (.var x)).scopes ∧ s'.vars.size = s.vars.size + 1 := by
  unfold declareVariable at h
  cases hc : s.checkFree scope name with
  | error e => simp [hc] at h
  | ok u =>
      simp only [hc, Except.ok.injEq, Prod.mk.injEq] at h
      obtain ⟨rfl, rfl⟩ := h
      exact ⟨rfl, rfl, rfl, Array.size_push _⟩

theorem declareFunction_eq_ok {name : String} {parameters returns : Nat} {f : FunctionId}
    (h : s.declareFunction scope name parameters returns = .ok (f, s')) :
    s.checkFree scope name = .ok () ∧ s'.scopes = (s.record scope name (.func f)).scopes ∧
      s'.vars = s.vars := by
  unfold declareFunction at h
  cases hc : s.checkFree scope name with
  | error e => simp [hc] at h
  | ok u =>
      simp only [hc, Except.ok.injEq, Prod.mk.injEq] at h
      obtain ⟨rfl, rfl⟩ := h
      exact ⟨rfl, rfl, rfl⟩

-- A scope that is free for a name declares it afterwards, and all it declared before.
theorem own?_record {name : String} {symbol : Symbol}
    (free : s.checkFree scope name = .ok ())
    (hs : s'.scopes = (s.record scope name symbol).scopes) :
    s'.own? scope name = some symbol ∧ Retains scope s s' := by
  obtain ⟨present, hfree⟩ := checkFree_eq_ok.mp free
  obtain ⟨data, hd⟩ := Option.isSome_iff_exists.mp present
  have looked : ∀ other, s'.own? scope other =
      ((name, symbol) :: data.symbols).lookup other := by
    intro other
    have hscope : s'.scope? scope = (s.record scope name symbol).scope? scope := by
      unfold scope?
      rw [hs]
    rw [own?, hscope, Layout.record_scope?, if_pos rfl, hd]
    rfl
  refine ⟨by rw [looked, List.lookup_cons_self], fun other old ho => ?_⟩
  have hne : other ≠ name := by
    rintro rfl
    exact absurd (hfree.symm.trans ho) (by simp)
  rw [looked, List.lookup_cons, beq_false_of_ne hne]
  rw [own?, hd] at ho
  exact ho

end Scopes

-- Variables are numbered in the order of their declarations in the program: those of a
-- function's signature before those of its body, and those of a loop's pre block before
-- those of its post block and its body.
mutual
def Block.Numbered (a : Analysis) : Block → Nat → Nat → Prop
  | .mk id statements, lo, hi =>
      ∃ scope, a.scopeOf? id = some scope ∧ stmtsNumbered a scope statements lo hi
def Stmt.Numbered (a : Analysis) (scope : ScopeId) : Stmt → Nat → Nat → Prop
  | .letDecl names _, lo, hi => a.scopes.Numbers scope names lo hi
  | .funDef _ parameters returns body, lo, hi =>
      ∃ inner signature mid, a.scopeOf? body.id = some inner ∧
        a.scopes.Inside inner (some signature) ∧
          a.scopes.Numbers signature (parameters ++ returns) lo mid ∧ body.Numbered a mid hi
  | .cond _ body, lo, hi => body.Numbered a lo hi
  | .switch _ cases, lo, hi => casesNumbered a cases lo hi
  | .forLoop (.mk id pre) _ post body, lo, hi =>
      ∃ inner mid mid', a.scopeOf? id = some inner ∧ stmtsNumbered a inner pre lo mid ∧
        post.Numbered a mid mid' ∧ body.Numbered a mid' hi
  | .block body, lo, hi => body.Numbered a lo hi
  | _, lo, hi => lo = hi
def stmtsNumbered (a : Analysis) (scope : ScopeId) : List Stmt → Nat → Nat → Prop
  | [], lo, hi => lo = hi
  | s :: rest, lo, hi => ∃ mid, s.Numbered a scope lo mid ∧ stmtsNumbered a scope rest mid hi
def casesNumbered (a : Analysis) : List Case → Nat → Nat → Prop
  | [], lo, hi => lo = hi
  | .mk _ body :: rest, lo, hi => ∃ mid, body.Numbered a lo mid ∧ casesNumbered a rest mid hi
end

section Ranges

variable {a : Analysis}

mutual
theorem Block.Numbered.le {b : Block} {lo hi : Nat} (h : b.Numbered a lo hi) : lo ≤ hi := by
  cases b with
  | mk id statements =>
      obtain ⟨scope, -, hs⟩ := h
      exact stmtsNumbered_le hs
theorem Stmt.Numbered.le {scope : ScopeId} {s : Stmt} {lo hi : Nat}
    (h : s.Numbered a scope lo hi) : lo ≤ hi := by
  cases s with
  | letDecl names value? => exact Scopes.Numbers.le h
  | funDef name parameters returns body =>
      obtain ⟨inner, signature, mid, -, -, hn, hb⟩ := h
      exact Nat.le_trans hn.le (Block.Numbered.le hb)
  | cond condition body => exact Block.Numbered.le h
  | switch e cases => exact casesNumbered_le h
  | forLoop pre condition post body =>
      cases pre with
      | mk id statements =>
          obtain ⟨inner, mid, mid', -, hpre, hpost, hbody⟩ := h
          exact Nat.le_trans (stmtsNumbered_le hpre)
            (Nat.le_trans (Block.Numbered.le hpost) (Block.Numbered.le hbody))
  | block body => exact Block.Numbered.le h
  | expr e => exact Nat.le_of_eq h
  | assign names e => exact Nat.le_of_eq h
  | breakLoop => exact Nat.le_of_eq h
  | continueLoop => exact Nat.le_of_eq h
  | leave => exact Nat.le_of_eq h
theorem stmtsNumbered_le {scope : ScopeId} {statements : List Stmt} {lo hi : Nat}
    (h : stmtsNumbered a scope statements lo hi) : lo ≤ hi := by
  cases statements with
  | nil => exact Nat.le_of_eq h
  | cons s rest =>
      obtain ⟨mid, hs, hr⟩ := h
      exact Nat.le_trans (Stmt.Numbered.le hs) (stmtsNumbered_le hr)
theorem casesNumbered_le {cases : List Case} {lo hi : Nat} (h : casesNumbered a cases lo hi) :
    lo ≤ hi := by
  cases cases with
  | nil => exact Nat.le_of_eq h
  | cons c rest =>
      cases c with
      | mk value? body =>
          obtain ⟨mid, hb, hr⟩ := h
          exact Nat.le_trans (Block.Numbered.le hb) (casesNumbered_le hr)
end

theorem stmtsNumbered_append {scope : ScopeId} {first others : List Stmt} {lo mid hi : Nat}
    (h : stmtsNumbered a scope first lo mid) (k : stmtsNumbered a scope others mid hi) :
    stmtsNumbered a scope (first ++ others) lo hi := by
  induction first generalizing lo with
  | nil => exact Eq.symm h ▸ k
  | cons s rest ih =>
      obtain ⟨next, hs, hr⟩ := h
      exact ⟨next, hs, ih hr⟩

end Ranges

namespace Layout

-- How many variables have been declared.
def count (l : Layout) : Nat := l.scopes.vars.size

-- A layout goes on: variables are added, the scope keeps its declarations, and what has
-- failed stays failed.
structure Adds (scope : ScopeId) (l m : Layout) : Prop where
  count : l.count ≤ m.count
  failed : m.error? = none → l.error? = none
  kept : Scopes.Retains scope l.scopes m.scopes

-- Statements are laid out in a scope; unless that fails, their variables are numbered.
structure Counted (scope : ScopeId) (l : Layout) (statements : List Stmt) (m : Layout) :
    Prop where
  adds : Adds scope l m
  numbered : ∀ a, m.error? = none → Kept l m a → Scopes.Retains scope m.scopes a.scopes →
    stmtsNumbered a scope statements l.count m.count

-- The same for a block, which declares nothing around it.
structure BlockCounted (l : Layout) (b : Block) (m : Layout) : Prop where
  count : l.count ≤ m.count
  failed : m.error? = none → l.error? = none
  numbered : ∀ a, m.error? = none → Kept l m a → b.Numbered a l.count m.count

structure CasesCounted (scope : ScopeId) (l : Layout) (cases : List Case) (m : Layout) : Prop where
  adds : Adds scope l m
  numbered : ∀ a, m.error? = none → Kept l m a → casesNumbered a cases l.count m.count

variable {scope : ScopeId} {l m n : Layout} {a : Analysis}

theorem own?_congr {s s' : Scopes} (h : s'.scope? scope = s.scope? scope) :
    Scopes.Retains scope s s' := by
  intro name symbol hs
  rw [Scopes.own?, h]
  exact hs

theorem Adds.same (ha : m.scopes = l.scopes) (he : m.error? = l.error?) : Adds scope l m :=
  ⟨Nat.le_of_eq (congrArg (·.vars.size) ha).symm, fun h => he ▸ h, fun _ _ h => ha ▸ h⟩

theorem Adds.refl (l : Layout) : Adds scope l l := .same rfl rfl

theorem Adds.trans (h : Adds scope l m) (k : Adds scope m n) : Adds scope l n :=
  ⟨Nat.le_trans h.count k.count, fun he => h.failed (k.failed he),
    fun name symbol hs => k.kept name symbol (h.kept name symbol hs)⟩

section Steps

variable {name : String}

-- A declaration that is refused leaves a failure behind.
theorem settle_adds {α : Type} {outcome : Except DeclareError (α × Scopes)}
    (done : ∀ id s, outcome = .ok (id, s) →
      l.count ≤ s.vars.size ∧ Scopes.Retains scope l.scopes s) :
    Adds scope l (l.settle outcome).2 ∧
      ((l.settle outcome).2.error? = none →
        ∃ id s, outcome = .ok (id, s) ∧ (l.settle outcome).2.scopes = s) := by
  cases outcome with
  | error e => exact ⟨⟨Nat.le_refl _, nofun, fun _ _ h => h⟩, nofun⟩
  | ok result =>
      obtain ⟨id, s⟩ := result
      obtain ⟨hcount, hkept⟩ := done id s rfl
      exact ⟨⟨hcount, fun h => h, hkept⟩, fun _ => ⟨id, s, rfl, rfl⟩⟩

theorem declareVariable_adds (scope : ScopeId) (name : String) (l : Layout) :
    Adds scope l (declareVariable scope name l).2 ∧
      ((declareVariable scope name l).2.error? = none →
        (declareVariable scope name l).2.scopes.own? scope name = some (.var ⟨l.count⟩) ∧
          (declareVariable scope name l).2.count = l.count + 1) := by
  have done : ∀ (x : VariableId) s, l.scopes.declareVariable scope name = .ok (x, s) →
      l.count ≤ s.vars.size ∧ Scopes.Retains scope l.scopes s := by
    intro x s h
    obtain ⟨free, -, hs, hsize⟩ := Scopes.declareVariable_eq_ok h
    exact ⟨hsize ▸ Nat.le_succ _, (Scopes.own?_record free hs).2⟩
  obtain ⟨adds, declared⟩ := settle_adds done
  refine ⟨adds, fun he => ?_⟩
  obtain ⟨x, s, hok, hs⟩ := declared he
  obtain ⟨free, rfl, hrecord, hsize⟩ := Scopes.declareVariable_eq_ok hok
  change (l.settle (l.scopes.declareVariable scope name)).2.scopes.own? scope name = _ ∧
    (l.settle (l.scopes.declareVariable scope name)).2.scopes.vars.size = _
  rw [hs]
  exact ⟨(Scopes.own?_record free hrecord).1, hsize⟩

theorem declareFunction_adds (scope : ScopeId) (name : String) (parameters returns : Nat)
    (l : Layout) :
    Adds scope l (declareFunction scope name parameters returns l).2 ∧
      (declareFunction scope name parameters returns l).2.count = l.count := by
  have done : ∀ (f : FunctionId) s,
      l.scopes.declareFunction scope name parameters returns = .ok (f, s) →
        l.count ≤ s.vars.size ∧ Scopes.Retains scope l.scopes s := by
    intro f s h
    obtain ⟨free, hs, hvars⟩ := Scopes.declareFunction_eq_ok h
    exact ⟨Nat.le_of_eq (congrArg Array.size hvars).symm, (Scopes.own?_record free hs).2⟩
  refine ⟨(settle_adds done).1, ?_⟩
  change (l.settle (l.scopes.declareFunction scope name parameters returns)).2.scopes.vars.size = _
  cases hd : l.scopes.declareFunction scope name parameters returns with
  | error e => rfl
  | ok result => exact congrArg Array.size (Scopes.declareFunction_eq_ok hd).2.2

theorem declareVariables_adds (scope : ScopeId) (names : List String) (l : Layout) :
    Adds scope l (names.mapM (declareVariable scope) l).2 ∧
      ((names.mapM (declareVariable scope) l).2.error? = none →
        (names.mapM (declareVariable scope) l).2.scopes.Numbers scope names l.count
          (names.mapM (declareVariable scope) l).2.count) := by
  induction names generalizing l with
  | nil => exact ⟨.refl l, fun _ => rfl⟩
  | cons name rest ih =>
      rw [List.mapM_cons]
      obtain ⟨first, hfirst⟩ := declareVariable_adds scope name l
      obtain ⟨others, hothers⟩ := ih (declareVariable scope name l).2
      refine ⟨first.trans others, fun he => ?_⟩
      obtain ⟨hown, hcount⟩ := hfirst (others.failed he)
      exact ⟨others.kept name _ hown, hcount ▸ hothers he⟩

end Steps

-- Nothing is declared in the scopes around a block.
theorem BlockCounted.adds {outer? : Option ScopeId} {b : Block} (h : BlockCounted l b m)
    (laid : BlockLaid outer? l b m) (hscope : scope.index < l.size) : Adds scope l m :=
  ⟨h.count, h.failed, own?_congr (laid.kept scope hscope)⟩

theorem blockCounted_of_counted {outer? : Option ScopeId} {body : List Draft} {l : Layout}
    (hbody : Counted ⟨l.size⟩ (l.opened outer?) (layAll ⟨l.size⟩ body (l.opened outer?)).1
      (layAll ⟨l.size⟩ body (l.opened outer?)).2) :
    BlockCounted l (layBlock outer? body l).1 (layBlock outer? body l).2 := by
  have laid := layBlock_laid outer? body l
  refine ⟨hbody.adds.count, hbody.adds.failed, fun a he ha => ?_⟩
  have hscope := ha.scopes ⟨l.size⟩ (Nat.le_refl _) laid.size
  refine ⟨⟨l.size⟩, (laid.nested a ha).1.opened, ?_⟩
  refine hbody.numbered a he (ha.after ?_ (Nat.le_succ _)) (own?_congr hscope)
  exact opened_size l outer? ▸ Nat.le_succ _

-- A statement that declares nothing in its scope itself.
theorem BlockCounted.statement {outer? : Option ScopeId} {b : Block} {s : Stmt}
    (h : BlockCounted l b m) (laid : BlockLaid outer? l b m) (hscope : scope.index < l.size)
    (hs : ∀ a, b.Numbered a l.count m.count → s.Numbered a scope l.count m.count) :
    Counted scope l [s] m :=
  ⟨h.adds laid hscope, fun a he ha _ => ⟨m.count, hs a (h.numbered a he ha), rfl⟩⟩

theorem Counted.append {first others : List Stmt} (h : Counted scope l first m)
    (k : Counted scope m others n) (laid : Laid scope l first m) (laid' : Laid scope m others n)
    (hscope : scope.index < l.size) : Counted scope l (first ++ others) n := by
  refine ⟨h.adds.trans k.adds, fun a he ha hr => ?_⟩
  have hfirst := h.numbered a (k.adds.failed he) (ha.before laid'.grown (.inl hscope))
    fun name symbol hs => hr name symbol (k.adds.kept name symbol hs)
  have hothers := k.numbered a he (ha.after laid.grown.size laid.grown.nodes) hr
  exact stmtsNumbered_append hfirst hothers

theorem Counted.note {statements : List Stmt} (h : Counted scope l statements m) (d : Declared) :
    Counted scope l statements (note d m).2 :=
  ⟨h.adds.trans (.same rfl rfl), fun a he ha hr => h.numbered a he ⟨ha.scopes, ha.blocks⟩ hr⟩

theorem layLoop_counted {condition : Expr} {pre post body : Block} {l₁ l₂ l₃ : Layout}
    (hscope : scope.index < l.size) (loop : LoopLaid scope l pre post body l₁ l₂ l₃)
    (counted₁ : BlockCounted l pre l₁) (counted₂ : BlockCounted l₁ post l₂)
    (counted₃ : BlockCounted l₂ body l₃) :
    Counted scope l [.forLoop pre condition post body] l₃ := by
  have first := counted₁.adds loop.pre hscope
  have adds := first.trans (counted₂.adds loop.post (loop.before_post hscope))
  refine ⟨adds.trans (counted₃.adds loop.body (loop.before_body hscope)), fun a he ha _ => ?_⟩
  obtain ⟨kept₁, kept₂, kept₃⟩ := loop.parts hscope ha
  have he₂ := counted₃.failed he
  have hpre := counted₁.numbered a (counted₂.failed he₂) kept₁
  have hpost := counted₂.numbered a he₂ kept₂
  have hbody := counted₃.numbered a he kept₃
  cases pre with
  | mk id statements =>
      obtain ⟨inner, hopened, hstatements⟩ := hpre
      exact ⟨l₃.count, ⟨inner, l₁.count, l₂.count, hopened, hstatements, hpost, hbody⟩, rfl⟩

theorem layFunction_counted {name : String} {parameters returns : List String} {b : Block}
    {l₁ l₂ l₃ l₄ : Layout} (hscope : scope.index < l.size)
    (declared : l₁ = (declareFunction scope name parameters.length returns.length l).2)
    (made : l₂ = (makeScope (some scope) true l₁).2)
    (grown : Extends ⟨l₁.size⟩ l₂ l₃) (adds : Adds ⟨l₁.size⟩ l₂ l₃)
    (numbers : l₃.error? = none →
      l₃.scopes.Numbers ⟨l₁.size⟩ (parameters ++ returns) l₂.count l₃.count)
    (hl : BlockLaid (some ⟨l₁.size⟩) l₃ b l₄) (hb : BlockCounted l₃ b l₄) :
    Counted scope l [.funDef name parameters returns b] l₄ := by
  obtain ⟨first, hcount⟩ := declareFunction_adds scope name parameters.length returns.length l
  have hsize := (declareFunction_grown scope name parameters.length returns.length l).1.size
  rw [← declared] at first hcount hsize
  have hcount₂ : l₂.count = l.count := by
    rw [made]
    exact hcount
  have hsize₂ : l₂.size = l₁.size + 1 := made ▸ makeScope_size _ _
  have hsize₃ : l₁.size < l₃.size := Nat.lt_of_lt_of_le (hsize₂ ▸ Nat.lt_succ_self _) grown.size
  have hscope₁ : scope.index < l₁.size := Nat.lt_of_lt_of_le hscope hsize
  have hne : scope ≠ ⟨l₁.size⟩ := fun h => Nat.ne_of_lt hscope₁ (congrArg ScopeId.index h)
  have kept : l₄.scopes.scope? scope = l₁.scopes.scope? scope := by
    rw [hl.kept scope (Nat.lt_trans hscope₁ hsize₃),
      grown.kept scope (hsize₂ ▸ Nat.lt_succ_of_lt hscope₁) hne, made, makeScope_scope?,
      if_neg (Nat.ne_of_lt hscope₁)]
  have failed₂ : l₂.error? = none → l.error? = none := by
    rw [made]
    exact first.failed
  refine ⟨⟨?_, fun he => failed₂ (adds.failed (hb.failed he)), fun other symbol hs => ?_⟩, ?_⟩
  · exact hcount₂ ▸ Nat.le_trans adds.count hb.count
  · exact own?_congr kept other symbol (first.kept other symbol hs)
  · intro a he ha hr
    have since : Kept l₃ l₄ a := by
      refine ha.after (Nat.le_of_lt (Nat.lt_of_le_of_lt hsize hsize₃)) ?_
      have nodes : l₂.nextNode = l.nextNode := by
        rw [made, declared]
        unfold declareFunction
        cases hd : l.analysis.scopes.declareFunction scope name parameters.length returns.length <;>
          simp [modifyGet, MonadStateOf.modifyGet, StateT.modifyGet, settle, hd, makeScope, pure]
      exact nodes ▸ grown.nodes
    have looked : a.scopes.scope? ⟨l₁.size⟩ = l₃.scopes.scope? ⟨l₁.size⟩ := by
      rw [ha.scopes ⟨l₁.size⟩ hsize (Nat.lt_trans hsize₃ hl.size), hl.kept ⟨l₁.size⟩ hsize₃]
    have opens := (hl.nested a since).1
    refine ⟨l₄.count, ⟨⟨l₃.size⟩, ⟨l₁.size⟩, l₃.count, opens.opened, opens.inside, ?_, ?_⟩, rfl⟩
    · exact hcount₂ ▸ (numbers (hb.failed he)).retained (own?_congr looked)
    · exact hb.numbered a he since

-- The recursion is that of the layout itself.
mutual
theorem lay_counted (scope : ScopeId) (d : Draft) (l : Layout) (hscope : scope.index < l.size) :
    Counted scope l (d.lay scope l).1.toList (d.lay scope l).2 := by
  cases d with
  | expr e => exact ⟨.refl l, fun _ _ _ _ => ⟨_, rfl, rfl⟩⟩
  | assign names value => exact ⟨.refl l, fun _ _ _ _ => ⟨_, rfl, rfl⟩⟩
  | letDecl names value? =>
      obtain ⟨adds, numbers⟩ := declareVariables_adds scope names l
      exact ⟨adds.trans (.same rfl rfl), fun a he _ hr => ⟨_, (numbers he).retained hr, rfl⟩⟩
  | funDef name parameters returns body =>
      let signature : ScopeId :=
        ⟨(declareFunction scope name parameters.length returns.length l).2.size⟩
      obtain ⟨given, hgiven⟩ := declareVariables_grown signature parameters _
      obtain ⟨given', hgiven'⟩ := declareVariables_grown signature returns _
      obtain ⟨adds, numbers⟩ := declareVariables_adds signature parameters _
      obtain ⟨adds', numbers'⟩ := declareVariables_adds signature returns _
      have counted : Counted scope l _ _ := layFunction_counted hscope rfl rfl (given.trans given')
        (adds.trans adds') (fun he => ((numbers (adds'.failed he)).retained adds'.kept).append
          (numbers' he)) (layBlock_laid _ body _) (layBlock_counted _ body _)
      exact counted.note _
  | cond condition body =>
      exact (layBlock_counted (some scope) body l).statement (layBlock_laid (some scope) body l)
        hscope fun _ h => h
  | switch value cases =>
      have counted := layCases_counted scope cases l hscope
      exact ⟨counted.adds, fun a he ha _ => ⟨_, counted.numbered a he ha, rfl⟩⟩
  | forLoop pre condition post body =>
      exact layLoop_counted hscope (layLoop_laid scope pre post body l) (layBlock_counted _ pre _)
        (layBlock_counted _ post _) (layBlock_counted _ body _)
  | breakLoop => exact ⟨.refl l, fun _ _ _ _ => ⟨_, rfl, rfl⟩⟩
  | continueLoop => exact ⟨.refl l, fun _ _ _ _ => ⟨_, rfl, rfl⟩⟩
  | leave => exact ⟨.refl l, fun _ _ _ _ => ⟨_, rfl, rfl⟩⟩
  | block body =>
      exact (layBlock_counted (some scope) body l).statement (layBlock_laid (some scope) body l)
        hscope fun _ h => h
  | mark => exact ⟨.same rfl rfl, fun _ _ _ _ => rfl⟩
theorem layBlock_counted (outer? : Option ScopeId) (body : List Draft) (l : Layout) :
    BlockCounted l (layBlock outer? body l).1 (layBlock outer? body l).2 :=
  blockCounted_of_counted (layAll_counted _ body _ (by rw [opened_size]; exact Nat.lt_succ_self _))
theorem layAll_counted (scope : ScopeId) (ds : List Draft) (l : Layout)
    (hscope : scope.index < l.size) :
    Counted scope l (layAll scope ds l).1 (layAll scope ds l).2 := by
  cases ds with
  | nil => exact ⟨.refl l, fun _ _ _ _ => rfl⟩
  | cons d rest =>
      have laid := lay_laid scope d l hscope
      have hscope' := Nat.lt_of_lt_of_le hscope laid.grown.size
      exact (lay_counted scope d l hscope).append (layAll_counted scope rest _ hscope') laid
        (layAll_laid scope rest _ hscope') hscope
theorem layCases_counted (scope : ScopeId) (cases : List DraftCase) (l : Layout)
    (hscope : scope.index < l.size) :
    CasesCounted scope l (layCases scope cases l).1 (layCases scope cases l).2 := by
  cases cases with
  | nil => exact ⟨.refl l, fun _ _ _ => rfl⟩
  | cons c rest =>
      obtain ⟨value?, body⟩ := c
      have laid := layBlock_laid (some scope) body l
      have hscope₁ : scope.index < _ := Nat.lt_trans hscope laid.size
      have first := layBlock_counted (some scope) body l
      have others := layCases_counted scope rest (layBlock (some scope) body l).2 hscope₁
      have since := layCases_laid scope rest (layBlock (some scope) body l).2 hscope₁
      refine ⟨(first.adds laid hscope).trans others.adds, fun a he ha =>
        ⟨(layBlock (some scope) body l).2.count, ?_, ?_⟩⟩
      · exact first.numbered a (others.adds.failed he) (ha.before since.grown (.inl hscope))
      · exact others.numbered a he (ha.after (Nat.le_of_lt laid.size) (Nat.le_of_lt laid.nodes))
end

-- The variables of a program are numbered from zero on.
theorem numbered_of_program {draft : List Draft} {program : Block} {a : Analysis}
    (h : program? draft = .ok (program, a)) : ∃ count, program.Numbered a 0 count := by
  obtain ⟨l, hl, he, rfl⟩ := layBlock_of_program h
  have counted := layBlock_counted none draft start
  rw [hl] at counted
  exact ⟨_, counted.numbered _ he (kept_analysis start l)⟩

end Layout

end SsaReplay.Yul
