import Mathlib.Data.List.Basic
import SsaReplay.Yul.Draft

namespace SsaReplay.Yul

namespace Scopes

-- A scope has the other around it, or none.
def Inside (s : Scopes) (id : ScopeId) (outer? : Option ScopeId) : Prop :=
  ∃ data, s.scope? id = some data ∧ data.parent? = outer?

-- A scope has a function under the name.
def Declares (s : Scopes) (id : ScopeId) (name : String) (f : FunctionId) : Prop :=
  ∃ data, s.scope? id = some data ∧ data.symbols.lookup name = some (.func f)

variable {s : Scopes} {scope : ScopeId} {data : Scope} {name : String} {symbol : Symbol}

-- Where there is a scope, a walk outwards may take a step.
theorem size_pos (hd : s.scope? scope = some data) : ∃ n, s.scopes.size = n + 1 := by
  have hlt : scope.index < s.scopes.size := (Array.getElem?_eq_some_iff.mp hd).1
  exact ⟨s.scopes.size - 1, by omega⟩

-- What a scope declares itself is found first.
theorem symbol?_of_lookup (hd : s.scope? scope = some data)
    (hl : data.symbols.lookup name = some symbol) :
    s.symbol? (some scope) name = some symbol := by
  obtain ⟨n, hn⟩ := size_pos hd
  rw [symbol?, Option.bind_some, lookup, hn]
  cases symbol <;> simp [search, hd, visible?, hl]

end Scopes

-- One of the statements defines a function under the name.
def Defines (statements : List Stmt) (name : String) : Prop :=
  ∃ parameters returns body, Stmt.funDef name parameters returns body ∈ statements

-- A block opens a scope of its own, in which only its own definitions declare functions.
structure Opens (a : Analysis) (outer? : Option ScopeId) (b : Block) (scope : ScopeId) :
    Prop where
  opened : a.scopeOf? b.id = some scope
  inside : a.scopes.Inside scope outer?
  defined : ∀ name f, a.scopes.Declares scope name f → Defines b.statements name

-- The scopes of blocks are nested as the blocks are. The post and the body of a loop
-- stand in the scope of its pre block, and a scope without functions, that of the
-- signature, lies around the body of a function.
mutual
def Block.Scoped (a : Analysis) (outer? : Option ScopeId) : Block → Prop
  | .mk id statements =>
      ∃ scope, Opens a outer? (.mk id statements) scope ∧ stmtsScoped a scope statements
def Stmt.Scoped (a : Analysis) (scope : ScopeId) : Stmt → Prop
  | .funDef _ _ _ body =>
      ∃ signature, a.scopes.Inside signature (some scope) ∧
        (∀ name f, ¬a.scopes.Declares signature name f) ∧ body.Scoped a (some signature)
  | .cond _ body => body.Scoped a (some scope)
  | .switch _ cases => casesScoped a scope cases
  | .forLoop (.mk id pre) _ post body =>
      ∃ inner, Opens a (some scope) (.mk id pre) inner ∧ stmtsScoped a inner pre ∧
        post.Scoped a (some inner) ∧ body.Scoped a (some inner)
  | .block body => body.Scoped a (some scope)
  | _ => True
def stmtsScoped (a : Analysis) (scope : ScopeId) : List Stmt → Prop
  | [] => True
  | s :: rest => s.Scoped a scope ∧ stmtsScoped a scope rest
def casesScoped (a : Analysis) (scope : ScopeId) : List Case → Prop
  | [] => True
  | .mk _ body :: rest => body.Scoped a (some scope) ∧ casesScoped a scope rest
end

namespace Layout

def scopes (l : Layout) : Scopes := l.analysis.scopes

def size (l : Layout) : Nat := l.scopes.scopes.size

-- A layout goes on while the scope is open. What was closed before stays as it was.
structure Extends (scope : ScopeId) (l m : Layout) : Prop where
  size : l.size ≤ m.size
  nodes : l.nextNode ≤ m.nextNode
  kept : ∀ id : ScopeId, id.index < l.size → id ≠ scope → m.scopes.scope? id = l.scopes.scope? id
  inside : ∀ outer?, l.scopes.Inside scope outer? → m.scopes.Inside scope outer?
  blocks : ∀ node : NodeId, node.index < l.nextNode →
    m.analysis.scopeOf? node = l.analysis.scopeOf? node

-- The analysis has taken over what was laid out between the two layouts.
structure Kept (l m : Layout) (a : Analysis) : Prop where
  scopes : ∀ id : ScopeId, l.size ≤ id.index → id.index < m.size →
    a.scopes.scope? id = m.scopes.scope? id
  blocks : ∀ node : NodeId, l.nextNode ≤ node.index → node.index < m.nextNode →
    a.scopeOf? node = m.analysis.scopeOf? node

-- Statements are laid out in a scope.
structure Laid (scope : ScopeId) (l : Layout) (statements : List Stmt) (m : Layout) : Prop where
  grown : Extends scope l m
  functions : ∀ name f, m.scopes.Declares scope name f →
    l.scopes.Declares scope name f ∨ Defines statements name
  nested : ∀ a, Kept l m a → stmtsScoped a scope statements

-- A block is laid out; its scope is the next one.
structure BlockLaid (outer? : Option ScopeId) (l : Layout) (b : Block) (m : Layout) : Prop where
  size : l.size < m.size
  nodes : l.nextNode < m.nextNode
  kept : ∀ id : ScopeId, id.index < l.size → m.scopes.scope? id = l.scopes.scope? id
  blocks : ∀ node : NodeId, node.index < l.nextNode →
    m.analysis.scopeOf? node = l.analysis.scopeOf? node
  nested : ∀ a, Kept l m a →
    Opens a outer? b ⟨l.size⟩ ∧ stmtsScoped a ⟨l.size⟩ b.statements

variable {scope : ScopeId} {l m n : Layout} {a : Analysis}

-- Neither scopes nor blocks are made.
theorem Extends.same (ha : m.analysis = l.analysis) (hn : m.nextNode = l.nextNode) :
    Extends scope l m := by
  have hs : m.scopes = l.scopes := congrArg Analysis.scopes ha
  refine ⟨?_, Nat.le_of_eq hn.symm, fun id _ _ => by rw [hs], fun _ h => hs ▸ h,
    fun node _ => by rw [ha]⟩
  unfold Layout.size
  exact Nat.le_of_eq (by rw [hs])

theorem Extends.refl (l : Layout) : Extends scope l l := .same rfl rfl

theorem Extends.trans (h : Extends scope l m) (k : Extends scope m n) : Extends scope l n :=
  ⟨Nat.le_trans h.size k.size, Nat.le_trans h.nodes k.nodes,
    fun id hid hne => (k.kept id (Nat.lt_of_lt_of_le hid h.size) hne).trans (h.kept id hid hne),
    fun outer? ho => k.inside outer? (h.inside outer? ho),
    fun node hn => (k.blocks node (Nat.lt_of_lt_of_le hn h.nodes)).trans (h.blocks node hn)⟩

-- What is kept in the end was kept halfway, when only outer scopes were open since.
theorem Kept.before (h : Kept l n a) (k : Extends scope m n)
    (hscope : scope.index < l.size ∨ m.size ≤ scope.index) : Kept l m a := by
  constructor
  · intro id hle hlt
    rw [h.scopes id hle (Nat.lt_of_lt_of_le hlt k.size)]
    refine k.kept id hlt ?_
    rintro rfl
    omega
  · intro node hle hlt
    rw [h.blocks node hle (Nat.lt_of_lt_of_le hlt k.nodes)]
    exact k.blocks node hlt

theorem Kept.after (h : Kept l n a) (hs : l.size ≤ m.size) (hn : l.nextNode ≤ m.nextNode) :
    Kept m n a :=
  ⟨fun id hle hlt => h.scopes id (Nat.le_trans hs hle) hlt,
    fun node hle hlt => h.blocks node (Nat.le_trans hn hle) hlt⟩

theorem BlockLaid.grown {outer? : Option ScopeId} {b : Block} (h : BlockLaid outer? l b m)
    (hscope : scope.index < l.size) : Extends scope l m := by
  refine ⟨Nat.le_of_lt h.size, Nat.le_of_lt h.nodes, fun id hid _ => h.kept id hid, ?_, h.blocks⟩
  rintro outer? ⟨data, hd, ho⟩
  exact ⟨data, (h.kept scope hscope).trans hd, ho⟩

theorem BlockLaid.block_scoped {outer? : Option ScopeId} {b : Block} (h : BlockLaid outer? l b m)
    (ha : Kept l m a) : b.Scoped a outer? := by
  obtain ⟨hopens, hstatements⟩ := h.nested a ha
  cases b with
  | mk id statements => exact ⟨_, hopens, hstatements⟩

section Steps

variable {name : String}

-- A scope is made, and nothing else changes.
theorem makeScope_scope? (outer? : Option ScopeId) (functionScope : Bool) (id : ScopeId) :
    (makeScope outer? functionScope l).2.scopes.scope? id =
      if id.index = l.size then some ⟨outer?, functionScope, []⟩ else l.scopes.scope? id := by
  change (l.scopes.scopes.push _)[id.index]? = _
  rw [Array.getElem?_push]
  rfl

theorem makeScope_size (outer? : Option ScopeId) (functionScope : Bool) :
    (makeScope outer? functionScope l).2.size = l.size + 1 :=
  Array.size_push _

theorem extends_makeScope (hscope : scope.index < l.size) (outer? : Option ScopeId)
    (functionScope : Bool) : Extends scope l (makeScope outer? functionScope l).2 := by
  have kept : ∀ id : ScopeId, id.index < l.size →
      (makeScope outer? functionScope l).2.scopes.scope? id = l.scopes.scope? id := by
    intro id hid
    rw [makeScope_scope?, if_neg (Nat.ne_of_lt hid)]
  refine ⟨?_, Nat.le_refl _, fun id hid _ => kept id hid, ?_, fun _ _ => rfl⟩
  · rw [makeScope_size]
    exact Nat.le_succ _
  · rintro outer? ⟨data, hd, ho⟩
    exact ⟨data, (kept scope hscope).trans hd, ho⟩

theorem record_scope? (s : Scopes) (scope : ScopeId) (name : String) (symbol : Symbol)
    (id : ScopeId) :
    (s.record scope name symbol).scope? id =
      if scope.index = id.index then
        (s.scope? id).map fun data => { data with symbols := (name, symbol) :: data.symbols }
      else s.scope? id :=
  Array.getElem?_modify

-- A declaration adds to the open scope what it declares, or nothing if it is refused.
theorem settle_grown {α : Type} {outcome : Except DeclareError (α × Scopes)} {symbol : α → Symbol}
    (done : ∀ id s, outcome = .ok (id, s) →
      s.scopes = (l.scopes.record scope name (symbol id)).scopes) :
    Extends scope l (l.settle outcome).2 ∧
      ∀ other f, (l.settle outcome).2.scopes.Declares scope other f →
        l.scopes.Declares scope other f ∨ other = name ∧ ∃ id, symbol id = .func f := by
  cases outcome with
  | error e => exact ⟨.same rfl rfl, fun other f h => .inl h⟩
  | ok result =>
      obtain ⟨id, s⟩ := result
      have looked : ∀ other, s.scope? other =
          (l.scopes.record scope name (symbol id)).scope? other := by
        intro other
        unfold Scopes.scope?
        rw [done id s rfl]
      refine ⟨⟨?_, Nat.le_refl _, ?_, ?_, fun _ _ => rfl⟩, ?_⟩
      · change l.scopes.scopes.size ≤ s.scopes.size
        rw [done id s rfl]
        simp [Scopes.record]
      · intro other _ hne
        have hi : scope.index ≠ other.index := by
          intro h
          exact hne (by cases scope; cases other; cases h; rfl)
        change s.scope? other = _
        rw [looked, record_scope?, if_neg hi]
      · rintro outer? ⟨data, hd, ho⟩
        refine ⟨{ data with symbols := (name, symbol id) :: data.symbols }, ?_, ho⟩
        change s.scope? scope = _
        rw [looked, record_scope?, if_pos rfl, hd, Option.map_some]
      · rintro other f ⟨data, hd, hl⟩
        change s.scope? scope = _ at hd
        rw [looked, record_scope?, if_pos rfl, Option.map_eq_some_iff] at hd
        obtain ⟨old, hold, rfl⟩ := hd
        rw [List.lookup_cons] at hl
        by_cases hname : other = name
        · rw [beq_iff_eq.mpr hname] at hl
          exact .inr ⟨hname, id, Option.some.inj hl⟩
        · rw [beq_false_of_ne hname] at hl
          exact .inl ⟨old, hold, hl⟩

theorem declareVariable_grown (scope : ScopeId) (name : String) (l : Layout) :
    Extends scope l (declareVariable scope name l).2 ∧
      ∀ other f, (declareVariable scope name l).2.scopes.Declares scope other f →
        l.scopes.Declares scope other f := by
  have done : ∀ id s, l.scopes.declareVariable scope name = .ok (id, s) →
      s.scopes = (l.scopes.record scope name (.var id)).scopes := by
    intro id s h
    unfold Scopes.declareVariable at h
    cases hc : l.scopes.checkFree scope name with
    | error e => simp [hc] at h
    | ok u =>
        simp only [hc, Except.ok.injEq, Prod.mk.injEq] at h
        obtain ⟨rfl, rfl⟩ := h
        rfl
  obtain ⟨grown, functions⟩ := settle_grown done
  refine ⟨grown, fun other f h => (functions other f h).resolve_right ?_⟩
  rintro ⟨-, id, hid⟩
  exact absurd hid (by simp)

theorem declareFunction_grown (scope : ScopeId) (name : String) (parameters returns : Nat)
    (l : Layout) :
    Extends scope l (declareFunction scope name parameters returns l).2 ∧
      ∀ other f, (declareFunction scope name parameters returns l).2.scopes.Declares scope other f →
        l.scopes.Declares scope other f ∨ other = name := by
  have done : ∀ id s, l.scopes.declareFunction scope name parameters returns = .ok (id, s) →
      s.scopes = (l.scopes.record scope name (.func id)).scopes := by
    intro id s h
    unfold Scopes.declareFunction at h
    cases hc : l.scopes.checkFree scope name with
    | error e => simp [hc] at h
    | ok u =>
        simp only [hc, Except.ok.injEq, Prod.mk.injEq] at h
        obtain ⟨rfl, rfl⟩ := h
        rfl
  obtain ⟨grown, functions⟩ := settle_grown done
  exact ⟨grown, fun other f h => (functions other f h).imp_right And.left⟩

theorem declareVariables_grown (scope : ScopeId) (names : List String) (l : Layout) :
    Extends scope l (names.mapM (declareVariable scope) l).2 ∧
      ∀ other f, (names.mapM (declareVariable scope) l).2.scopes.Declares scope other f →
        l.scopes.Declares scope other f := by
  induction names generalizing l with
  | nil => exact ⟨.refl l, fun _ _ h => h⟩
  | cons name rest ih =>
      rw [List.mapM_cons]
      obtain ⟨first, hfirst⟩ := declareVariable_grown scope name l
      obtain ⟨others, hothers⟩ := ih (declareVariable scope name l).2
      exact ⟨first.trans others, fun other f h => hfirst other f (hothers other f h)⟩

end Steps

section Lay

-- A block by itself, inside the scope given.
def layBlock (outer? : Option ScopeId) (body : List Draft) : StateM Layout Block := do
  let scope ← makeScope outer? false
  let node ← makeNode scope
  let statements ← layAll scope body
  pure (.mk node statements)

-- How the layout of a block begins.
def opened (l : Layout) (outer? : Option ScopeId) : Layout :=
  (makeNode ⟨l.size⟩ (makeScope outer? false l).2).2

theorem opened_size (l : Layout) (outer? : Option ScopeId) :
    (l.opened outer?).size = l.size + 1 :=
  makeScope_size outer? false

theorem opened_scope? (l : Layout) (outer? : Option ScopeId) (id : ScopeId) :
    (l.opened outer?).scopes.scope? id =
      if id.index = l.size then some ⟨outer?, false, []⟩ else l.scopes.scope? id :=
  makeScope_scope? outer? false id

theorem opened_scopeOf? (l : Layout) (outer? : Option ScopeId) (node : NodeId) :
    (l.opened outer?).analysis.scopeOf? node =
      if node = ⟨l.nextNode⟩ then some ⟨l.size⟩ else l.analysis.scopeOf? node := by
  change List.lookup node ((⟨l.nextNode⟩, ⟨l.size⟩) :: l.analysis.blockScopes) = _
  rw [List.lookup_cons]
  by_cases h : node = ⟨l.nextNode⟩
  · rw [beq_iff_eq.mpr h, if_pos h]
  · rw [beq_false_of_ne h, if_neg h]
    rfl

theorem blockLaid_of_laid {outer? : Option ScopeId} {body : List Draft} {l : Layout}
    (hbody : Laid ⟨l.size⟩ (l.opened outer?) (layAll ⟨l.size⟩ body (l.opened outer?)).1
      (layAll ⟨l.size⟩ body (l.opened outer?)).2) :
    BlockLaid outer? l (layBlock outer? body l).1 (layBlock outer? body l).2 := by
  have hsize := opened_size l outer?
  have grown := hbody.grown
  have hle : l.size + 1 ≤ (layBlock outer? body l).2.size := hsize ▸ grown.size
  refine ⟨hle, grown.nodes, fun id hid => ?_, fun node hnode => ?_, fun a ha => ?_⟩
  · have hne : id ≠ ⟨l.size⟩ := fun h => Nat.ne_of_lt hid (congrArg ScopeId.index h)
    have hid' : id.index < (l.opened outer?).size := hsize ▸ Nat.lt_succ_of_lt hid
    refine (grown.kept id hid' hne).trans ?_
    rw [opened_scope?, if_neg (Nat.ne_of_lt hid)]
  · have hne : node ≠ ⟨l.nextNode⟩ := fun h => Nat.ne_of_lt hnode (congrArg NodeId.index h)
    refine (grown.blocks node (Nat.lt_succ_of_lt hnode)).trans ?_
    rw [opened_scopeOf?, if_neg hne]
  · have hscope := ha.scopes ⟨l.size⟩ (Nat.le_refl _) hle
    refine ⟨⟨?_, ?_, fun name f hdeclares => ?_⟩, ?_⟩
    · rw [show (layBlock outer? body l).1.id = ⟨l.nextNode⟩ from rfl,
        ha.blocks ⟨l.nextNode⟩ (Nat.le_refl _) grown.nodes]
      refine (grown.blocks ⟨l.nextNode⟩ (Nat.lt_succ_self _)).trans ?_
      rw [opened_scopeOf?, if_pos rfl]
    · have hinside : (l.opened outer?).scopes.Inside ⟨l.size⟩ outer? :=
        ⟨_, (opened_scope? l outer? ⟨l.size⟩).trans (if_pos rfl), rfl⟩
      obtain ⟨data, hd, ho⟩ := grown.inside outer? hinside
      exact ⟨data, hscope.trans hd, ho⟩
    · obtain ⟨data, hd, hl⟩ := hdeclares
      rcases hbody.functions name f ⟨data, hscope.symm.trans hd, hl⟩ with ⟨fresh, hf, hl⟩ | h
      · rw [opened_scope?, if_pos rfl] at hf
        obtain rfl := Option.some.inj hf
        exact absurd hl (by simp)
      · exact h
    · exact hbody.nested a (ha.after (hsize ▸ Nat.le_succ _) (Nat.le_succ _))

theorem BlockLaid.declares {outer? : Option ScopeId} {b : Block} (h : BlockLaid outer? l b m)
    {id : ScopeId} (hid : id.index < l.size) {name : String} {f : FunctionId} :
    m.scopes.Declares id name f ↔ l.scopes.Declares id name f := by
  unfold Scopes.Declares
  rw [h.kept id hid]

-- A statement that declares no function is laid out.
theorem laid_plain {s : Stmt} (grown : Extends scope l m)
    (functions : ∀ name f, m.scopes.Declares scope name f → l.scopes.Declares scope name f)
    (nested : ∀ a, Kept l m a → s.Scoped a scope) : Laid scope l [s] m :=
  ⟨grown, fun name f h => .inl (functions name f h), fun a ha => ⟨nested a ha, trivial⟩⟩

theorem BlockLaid.statement {b : Block} {s : Stmt} (h : BlockLaid (some scope) l b m)
    (hscope : scope.index < l.size)
    (hs : ∀ a, b.Scoped a (some scope) → s.Scoped a scope) : Laid scope l [s] m :=
  laid_plain (h.grown hscope) (fun _ _ hd => (h.declares hscope).mp hd)
    fun a ha => hs a (h.block_scoped ha)

theorem stmtsScoped_append {a : Analysis} {first others : List Stmt} :
    stmtsScoped a scope (first ++ others) ↔
      stmtsScoped a scope first ∧ stmtsScoped a scope others := by
  induction first with
  | nil => simp [stmtsScoped]
  | cons s rest ih => simp only [List.cons_append, stmtsScoped, ih, and_assoc]

theorem Laid.append {first others : List Stmt} (h : Laid scope l first m)
    (k : Laid scope m others n) (hscope : scope.index < l.size) :
    Laid scope l (first ++ others) n := by
  refine ⟨h.grown.trans k.grown, fun name f hd => ?_, fun a ha => ?_⟩
  · have later : Defines others name → Defines (first ++ others) name :=
      fun ⟨parameters, returns, body, hm⟩ =>
        ⟨parameters, returns, body, List.mem_append_right first hm⟩
    have earlier : Defines first name → Defines (first ++ others) name :=
      fun ⟨parameters, returns, body, hm⟩ =>
        ⟨parameters, returns, body, List.mem_append_left others hm⟩
    rcases k.functions name f hd with hd | hd
    · exact (h.functions name f hd).imp_right earlier
    · exact .inr (later hd)
  · have hfirst := h.nested a (ha.before k.grown (.inl hscope))
    have hothers := k.nested a (ha.after h.grown.size h.grown.nodes)
    exact stmtsScoped_append.mpr ⟨hfirst, hothers⟩

theorem Laid.note {statements : List Stmt} (h : Laid scope l statements m) (d : Declared) :
    Laid scope l statements (note d m).2 :=
  ⟨h.grown.trans (.same rfl rfl), h.functions, fun a ha => h.nested a ⟨ha.scopes, ha.blocks⟩⟩

-- The blocks of a loop are laid out in turn: pre, post and body. The last two stand in the
-- scope of the first.
structure LoopLaid (scope : ScopeId) (l : Layout) (pre post body : Block) (l₁ l₂ l₃ : Layout) :
    Prop where
  pre : BlockLaid (some scope) l pre l₁
  post : BlockLaid (some ⟨l.size⟩) l₁ post l₂
  body : BlockLaid (some ⟨l.size⟩) l₂ body l₃

namespace LoopLaid

variable {pre post body : Block} {l₁ l₂ l₃ : Layout}

theorem before_post (h : LoopLaid scope l pre post body l₁ l₂ l₃)
    (hscope : scope.index < l.size) : scope.index < l₁.size :=
  Nat.lt_trans hscope h.pre.size

theorem before_body (h : LoopLaid scope l pre post body l₁ l₂ l₃)
    (hscope : scope.index < l.size) : scope.index < l₂.size :=
  Nat.lt_trans (h.before_post hscope) h.post.size

theorem kept (h : LoopLaid scope l pre post body l₁ l₂ l₃) (hscope : scope.index < l.size) :
    l₃.scopes.scope? scope = l.scopes.scope? scope := by
  rw [h.body.kept scope (h.before_body hscope), h.post.kept scope (h.before_post hscope),
    h.pre.kept scope hscope]

-- What an analysis has taken over of a loop it has of each of its blocks.
theorem parts (h : LoopLaid scope l pre post body l₁ l₂ l₃) (hscope : scope.index < l.size)
    (ha : Kept l l₃ a) : Kept l l₁ a ∧ Kept l₁ l₂ a ∧ Kept l₂ l₃ a := by
  have later := h.body.grown (h.before_body hscope)
  have grown := (h.post.grown (h.before_post hscope)).trans later
  have since := ha.after (Nat.le_of_lt h.pre.size) (Nat.le_of_lt h.pre.nodes)
  refine ⟨ha.before grown (.inl hscope), since.before later (.inl (h.before_post hscope)), ?_⟩
  exact since.after (Nat.le_of_lt h.post.size) (Nat.le_of_lt h.post.nodes)

theorem laid {condition : Expr} (h : LoopLaid scope l pre post body l₁ l₂ l₃)
    (hscope : scope.index < l.size) : Laid scope l [.forLoop pre condition post body] l₃ := by
  have grown := (h.post.grown (h.before_post hscope)).trans (h.body.grown (h.before_body hscope))
  refine laid_plain ((h.pre.grown hscope).trans grown) (fun name f hd => ?_) fun a ha => ?_
  · unfold Scopes.Declares at hd ⊢
    rwa [h.kept hscope] at hd
  · obtain ⟨hpre, hpost, hbody⟩ := h.parts hscope ha
    have outer := h.pre.nested a hpre
    cases pre with
    | mk id statements =>
        exact ⟨⟨l.size⟩, outer.1, outer.2, h.post.block_scoped hpost, h.body.block_scoped hbody⟩

end LoopLaid

-- A function's signature has its own scope, around the block of the body.
theorem layFunction_laid {name : String} {parameters returns : List String} {b : Block}
    {l₁ l₂ l₃ l₄ : Layout} (hscope : scope.index < l.size)
    (declared : l₁ = (declareFunction scope name parameters.length returns.length l).2)
    (made : l₂ = (makeScope (some scope) true l₁).2)
    (grown : Extends ⟨l₁.size⟩ l₂ l₃)
    (functions : ∀ other f, l₃.scopes.Declares ⟨l₁.size⟩ other f →
      l₂.scopes.Declares ⟨l₁.size⟩ other f)
    (hb : BlockLaid (some ⟨l₁.size⟩) l₃ b l₄) :
    Laid scope l [.funDef name parameters returns b] l₄ := by
  obtain ⟨first, hfirst⟩ :=
    declareFunction_grown scope name parameters.length returns.length l
  rw [← declared] at first hfirst
  have hscope₁ : scope.index < l₁.size := Nat.lt_of_lt_of_le hscope first.size
  have hsize : l₂.size = l₁.size + 1 := made ▸ makeScope_size _ _
  have hsize₃ : l₁.size < l₃.size := Nat.lt_of_lt_of_le (hsize ▸ Nat.lt_succ_self _) grown.size
  have hne : ∀ id : ScopeId, id.index < l₁.size → id ≠ ⟨l₁.size⟩ :=
    fun id hid h => Nat.ne_of_lt hid (congrArg ScopeId.index h)
  have signature : l₂.scopes.scope? ⟨l₁.size⟩ = some ⟨some scope, true, []⟩ := by
    rw [made, makeScope_scope?, if_pos rfl]
  have kept : ∀ id : ScopeId, id.index < l₁.size → l₃.scopes.scope? id = l₁.scopes.scope? id := by
    intro id hid
    rw [grown.kept id (hsize ▸ Nat.lt_succ_of_lt hid) (hne id hid), made, makeScope_scope?,
      if_neg (Nat.ne_of_lt hid)]
  have inner : Extends scope l₁ l₃ := by
    have outer := extends_makeScope hscope₁ (some scope) true
    rw [← made] at outer
    refine ⟨Nat.le_of_lt hsize₃, Nat.le_trans outer.nodes grown.nodes, fun id hid _ => kept id hid,
      ?_, fun node hnode => ?_⟩
    · rintro outer? ⟨data, hd, ho⟩
      exact ⟨data, (kept scope hscope₁).trans hd, ho⟩
    · rw [grown.blocks node (Nat.lt_of_lt_of_le hnode outer.nodes), outer.blocks node hnode]
  have hscope₃ : scope.index < l₃.size := Nat.lt_trans hscope₁ hsize₃
  refine ⟨(first.trans inner).trans (hb.grown hscope₃), fun other f hd => ?_, fun a ha => ?_⟩
  · rw [hb.declares hscope₃] at hd
    unfold Scopes.Declares at hd
    rw [kept scope hscope₁] at hd
    refine (hfirst other f hd).imp_right ?_
    rintro rfl
    exact ⟨parameters, returns, b, List.mem_singleton_self _⟩
  · have whole := first.trans inner
    have hl : l.size ≤ l₁.size := first.size
    have looked : a.scopes.scope? ⟨l₁.size⟩ = l₃.scopes.scope? ⟨l₁.size⟩ := by
      rw [ha.scopes ⟨l₁.size⟩ hl (Nat.lt_trans hsize₃ hb.size), hb.kept ⟨l₁.size⟩ hsize₃]
    refine ⟨⟨⟨l₁.size⟩, ?_, fun other f hd => ?_, ?_⟩, trivial⟩
    · obtain ⟨data, hd, ho⟩ := grown.inside (some scope) ⟨_, signature, rfl⟩
      exact ⟨data, looked.trans hd, ho⟩
    · unfold Scopes.Declares at hd
      rw [looked] at hd
      obtain ⟨data, hd, hl⟩ := functions other f hd
      rw [signature] at hd
      obtain rfl := Option.some.inj hd
      exact absurd hl (by simp)
    · exact hb.block_scoped (ha.after whole.size whole.nodes)

-- The arms of a switch are laid out, each in a block of its own.
structure CasesLaid (scope : ScopeId) (l : Layout) (cases : List Case) (m : Layout) : Prop where
  grown : Extends scope l m
  functions : ∀ name f, m.scopes.Declares scope name f → l.scopes.Declares scope name f
  nested : ∀ a, Kept l m a → casesScoped a scope cases

mutual
theorem lay_laid (scope : ScopeId) (d : Draft) (l : Layout) (hscope : scope.index < l.size) :
    Laid scope l (d.lay scope l).1.toList (d.lay scope l).2 := by
  cases d with
  | expr e => exact laid_plain (.refl l) (fun _ _ h => h) fun _ _ => trivial
  | assign names value => exact laid_plain (.refl l) (fun _ _ h => h) fun _ _ => trivial
  | letDecl names value? =>
      obtain ⟨grown, functions⟩ := declareVariables_grown scope names l
      exact laid_plain (grown.trans (.same rfl rfl)) functions fun _ _ => trivial
  | funDef name parameters returns body =>
      let signature : ScopeId :=
        ⟨(declareFunction scope name parameters.length returns.length l).2.size⟩
      obtain ⟨given, hgiven⟩ := declareVariables_grown signature parameters _
      obtain ⟨given', hgiven'⟩ := declareVariables_grown signature returns _
      have laid : Laid scope l _ _ := layFunction_laid hscope rfl rfl (given.trans given')
        (fun other f h => hgiven other f (hgiven' other f h)) (layBlock_laid _ body _)
      exact laid.note _
  | cond condition body =>
      exact (layBlock_laid (some scope) body l).statement hscope fun _ h => h
  | switch value cases =>
      have laid := layCases_laid scope cases l hscope
      exact laid_plain laid.grown laid.functions laid.nested
  | forLoop pre condition post body =>
      have loop : LoopLaid scope l _ _ _ _ _ _ :=
        ⟨layBlock_laid (some scope) pre l, layBlock_laid _ post _, layBlock_laid _ body _⟩
      exact loop.laid hscope
  | breakLoop => exact laid_plain (.refl l) (fun _ _ h => h) fun _ _ => trivial
  | continueLoop => exact laid_plain (.refl l) (fun _ _ h => h) fun _ _ => trivial
  | leave => exact laid_plain (.refl l) (fun _ _ h => h) fun _ _ => trivial
  | block body => exact (layBlock_laid (some scope) body l).statement hscope fun _ h => h
  | mark => exact ⟨.same rfl rfl, fun _ _ h => .inl h, fun _ _ => trivial⟩
theorem layBlock_laid (outer? : Option ScopeId) (body : List Draft) (l : Layout) :
    BlockLaid outer? l (layBlock outer? body l).1 (layBlock outer? body l).2 :=
  blockLaid_of_laid (layAll_laid _ body _ (by rw [opened_size]; exact Nat.lt_succ_self _))
theorem layAll_laid (scope : ScopeId) (ds : List Draft) (l : Layout)
    (hscope : scope.index < l.size) :
    Laid scope l (layAll scope ds l).1 (layAll scope ds l).2 := by
  cases ds with
  | nil => exact ⟨.refl l, fun _ _ h => .inl h, fun _ _ => trivial⟩
  | cons d rest =>
      have first := lay_laid scope d l hscope
      have others := layAll_laid scope rest _ (Nat.lt_of_lt_of_le hscope first.grown.size)
      exact first.append others hscope
theorem layCases_laid (scope : ScopeId) (cases : List DraftCase) (l : Layout)
    (hscope : scope.index < l.size) :
    CasesLaid scope l (layCases scope cases l).1 (layCases scope cases l).2 := by
  cases cases with
  | nil => exact ⟨.refl l, fun _ _ h => h, fun _ _ => trivial⟩
  | cons c rest =>
      obtain ⟨value?, body⟩ := c
      have first := layBlock_laid (some scope) body l
      have hscope₁ : scope.index < _ := Nat.lt_trans hscope first.size
      have others := layCases_laid scope rest (layBlock (some scope) body l).2 hscope₁
      refine ⟨(first.grown hscope).trans others.grown, fun name f hd => ?_, fun a ha => ?_⟩
      · exact (first.declares hscope).mp (others.functions name f hd)
      · exact ⟨first.block_scoped (ha.before others.grown (.inl hscope)),
          others.nested a (ha.after (Nat.le_of_lt first.size) (Nat.le_of_lt first.nodes))⟩
end

theorem layLoop_laid (scope : ScopeId) (pre post body : List Draft) (l : Layout) :
    LoopLaid scope l (layBlock (some scope) pre l).1
      (layBlock (some ⟨l.size⟩) post (layBlock (some scope) pre l).2).1
      (layBlock (some ⟨l.size⟩) body
        (layBlock (some ⟨l.size⟩) post (layBlock (some scope) pre l).2).2).1
      (layBlock (some scope) pre l).2
      (layBlock (some ⟨l.size⟩) post (layBlock (some scope) pre l).2).2
      (layBlock (some ⟨l.size⟩) body
        (layBlock (some ⟨l.size⟩) post (layBlock (some scope) pre l).2).2).2 :=
  ⟨layBlock_laid (some scope) pre l, layBlock_laid _ post _, layBlock_laid _ body _⟩

-- A program is laid out as a block that stands in no scope.
theorem program?_eq (draft : List Draft) :
    program? draft = match (layBlock none draft start).2.error? with
      | some e => .error e
      | none => .ok ((layBlock none draft start).1, (layBlock none draft start).2.analysis) :=
  rfl

theorem layBlock_of_program {draft : List Draft} {program : Block}
    (h : program? draft = .ok (program, a)) :
    ∃ l, layBlock none draft start = (program, l) ∧ l.error? = none ∧ l.analysis = a := by
  rw [program?_eq] at h
  cases he : (layBlock none draft start).2.error? with
  | some e =>
      rw [he] at h
      exact absurd h nofun
  | none =>
      rw [he] at h
      obtain ⟨rfl, rfl⟩ := Prod.mk.inj (Except.ok.inj h)
      exact ⟨_, rfl, he, rfl⟩

-- An analysis takes over all of its own layout.
theorem kept_analysis (l m : Layout) : Kept l m m.analysis :=
  ⟨fun _ _ _ => rfl, fun _ _ _ => rfl⟩

-- The scopes of a program are nested as its blocks are.
theorem scoped_of_program {draft : List Draft} {program : Block}
    (h : program? draft = .ok (program, a)) : program.Scoped a none := by
  obtain ⟨l, hl, -, rfl⟩ := layBlock_of_program h
  have laid := layBlock_laid none draft start
  rw [hl] at laid
  exact laid.block_scoped (kept_analysis start l)

end Lay

end Layout

end SsaReplay.Yul
