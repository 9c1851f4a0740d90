import SsaReplay.Proofs.Numbering

namespace SsaReplay.Yul

-- The functions that a program defines, each before those that are defined in its body.
mutual
def Block.definitions : Block → List Definition
  | .mk _ statements => stmtsDefinitions statements
def stmtDefinitions : Stmt → List Definition
  | .funDef name parameters returns body =>
      ⟨name, parameters, returns, body⟩ :: body.definitions
  | .cond _ body => body.definitions
  | .switch _ cases => casesDefinitions cases
  | .forLoop pre _ post body => pre.definitions ++ post.definitions ++ body.definitions
  | .block body => body.definitions
  | _ => []
def stmtsDefinitions : List Stmt → List Definition
  | [] => []
  | s :: rest => stmtDefinitions s ++ stmtsDefinitions rest
def casesDefinitions : List Case → List Definition
  | [] => []
  | .mk _ body :: rest => body.definitions ++ casesDefinitions rest
end

-- The scope lies right around the one that the block opens.
def Analysis.Encloses (a : Analysis) (id : ScopeId) (b : Block) : Prop :=
  ∃ inner, a.scopeOf? b.id = some inner ∧ a.scopes.Inside inner (some id)

-- Where a scope lies, and whether it is that of a signature.
def Scopes.Shaped (s : Scopes) (id : ScopeId) (outer? : Option ScopeId) (signature : Bool) : Prop :=
  ∃ symbols, s.scope? id = some ⟨outer?, signature, symbols⟩

namespace Layout

-- A relation between layouts that holds for every step, and so for all that is laid out.
structure Stepwise (R : Layout → Layout → Prop) : Prop where
  refl (l : Layout) : R l l
  trans {l m n : Layout} (h : R l m) (k : R m n) : R l n
  makeScope (outer? : Option ScopeId) (signature : Bool) (l : Layout) :
    R l (makeScope outer? signature l).2
  makeNode (scope : ScopeId) (l : Layout) : R l (makeNode scope l).2
  note (d : Declared) (l : Layout) : R l (note d l).2
  declareVariable (scope : ScopeId) (name : String) (l : Layout) :
    R l (declareVariable scope name l).2
  declareFunction (scope : ScopeId) (name : String) (parameters returns : Nat) (l : Layout) :
    R l (declareFunction scope name parameters returns l).2

namespace Stepwise

variable {R : Layout → Layout → Prop}

theorem declareVariables (h : Stepwise R) (scope : ScopeId) (names : List String) (l : Layout) :
    R l (names.mapM (Layout.declareVariable scope) l).2 := by
  induction names generalizing l with
  | nil => exact h.refl l
  | cons name rest ih =>
      rw [List.mapM_cons]
      exact h.trans (h.declareVariable scope name l) (ih _)

theorem opened (h : Stepwise R) (outer? : Option ScopeId) (l : Layout) : R l (l.opened outer?) :=
  h.trans (h.makeScope outer? false l) (h.makeNode _ _)

mutual
theorem lay (h : Stepwise R) (scope : ScopeId) (d : Draft) (l : Layout) :
    R l (d.lay scope l).2 := by
  cases d with
  | letDecl names value? => exact h.trans (h.declareVariables scope names l) (h.note _ _)
  | funDef name parameters returns body =>
      let declared := (Layout.declareFunction scope name parameters.length returns.length l).2
      have made : R l (Layout.makeScope (some scope) true declared).2 :=
        h.trans (h.declareFunction scope name _ _ l) (h.makeScope (some scope) true declared)
      refine h.trans made (h.trans (h.declareVariables ⟨declared.size⟩ parameters _) ?_)
      refine h.trans (h.declareVariables ⟨declared.size⟩ returns _) ?_
      exact h.trans (h.layBlock (some ⟨declared.size⟩) body _) (h.note _ _)
  | cond condition body => exact h.layBlock (some scope) body l
  | switch value cases => exact h.layCases scope cases l
  | forLoop pre condition post body =>
      refine h.trans (h.layBlock (some scope) pre l) ?_
      exact h.trans (h.layBlock (some ⟨l.size⟩) post _) (h.layBlock (some ⟨l.size⟩) body _)
  | block body => exact h.layBlock (some scope) body l
  | mark => exact h.note _ l
  | _ => exact h.refl l
theorem layBlock (h : Stepwise R) (outer? : Option ScopeId) (body : List Draft) (l : Layout) :
    R l (layBlock outer? body l).2 :=
  h.trans (h.opened outer? l) (h.layAll _ body _)
theorem layAll (h : Stepwise R) (scope : ScopeId) (ds : List Draft) (l : Layout) :
    R l (layAll scope ds l).2 := by
  cases ds with
  | nil => exact h.refl l
  | cons d rest => exact h.trans (h.lay scope d l) (h.layAll scope rest _)
theorem layCases (h : Stepwise R) (scope : ScopeId) (cases : List DraftCase) (l : Layout) :
    R l (layCases scope cases l).2 := by
  cases cases with
  | nil => exact h.refl l
  | cons c rest =>
      obtain ⟨value?, body⟩ := c
      exact h.trans (h.layBlock (some scope) body l) (h.layCases scope rest _)
end

end Stepwise

-- A scope keeps its place. Declarations only add to its symbols.
def Steady (l m : Layout) : Prop :=
  ∀ id outer? signature, l.scopes.Shaped id outer? signature → m.scopes.Shaped id outer? signature

-- What makes neither scopes nor blocks.
structure Settles (l m : Layout) : Prop where
  size : m.size = l.size
  nodes : m.nextNode = l.nextNode
  steady : Steady l m

section Declarations

variable {l m : Layout} {scope : ScopeId} {name : String}

theorem settles_of_same (hs : m.scopes = l.scopes) (hn : m.nextNode = l.nextNode) :
    Settles l m := by
  refine ⟨?_, hn, fun _ _ _ h => hs ▸ h⟩
  unfold Layout.size
  rw [hs]

theorem Settles.refl (l : Layout) : Settles l l := settles_of_same rfl rfl

theorem Settles.trans {n : Layout} (h : Settles l m) (k : Settles m n) : Settles l n :=
  ⟨k.size.trans h.size, k.nodes.trans h.nodes,
    fun id outer? signature hs => k.steady id outer? signature (h.steady id outer? signature hs)⟩

theorem settles_of_record {s : Scopes} {symbol : Symbol} (hn : m.nextNode = l.nextNode)
    (hm : m.scopes = s) (hs : s.scopes = (l.scopes.record scope name symbol).scopes) :
    Settles l m := by
  refine ⟨?_, hn, fun id outer? signature hshaped => ?_⟩
  · unfold Layout.size
    rw [hm, hs]
    exact Array.size_modify
  · obtain ⟨symbols, hd⟩ := hshaped
    have looked : m.scopes.scope? id = (l.scopes.record scope name symbol).scope? id := by
      unfold Scopes.scope?
      rw [hm, hs]
    unfold Scopes.Shaped
    rw [looked, record_scope?, hd]
    by_cases hi : scope.index = id.index
    · exact ⟨_, if_pos hi⟩
    · exact ⟨symbols, if_neg hi⟩

theorem declareVariable_settles (scope : ScopeId) (name : String) (l : Layout) :
    Settles l (declareVariable scope name l).2 := by
  change Settles l (l.settle (l.scopes.declareVariable scope name)).2
  cases hd : l.scopes.declareVariable scope name with
  | error e => exact settles_of_same rfl rfl
  | ok result => exact settles_of_record rfl rfl (Scopes.declareVariable_eq_ok hd).2.2.1

theorem declareFunction_settles (scope : ScopeId) (name : String) (parameters returns : Nat)
    (l : Layout) : Settles l (declareFunction scope name parameters returns l).2 := by
  change Settles l (l.settle (l.scopes.declareFunction scope name parameters returns)).2
  cases hd : l.scopes.declareFunction scope name parameters returns with
  | error e => exact settles_of_same rfl rfl
  | ok result => exact settles_of_record rfl rfl (Scopes.declareFunction_eq_ok hd).2.1

theorem declareVariables_settles (scope : ScopeId) (names : List String) (l : Layout) :
    Settles l (names.mapM (declareVariable scope) l).2 := by
  induction names generalizing l with
  | nil => exact settles_of_same rfl rfl
  | cons name rest ih =>
      rw [List.mapM_cons]
      exact (declareVariable_settles scope name l).trans (ih _)

end Declarations

theorem steady_stepwise : Stepwise Steady where
  refl _ _ _ _ h := h
  trans h k id outer? signature hs := k id outer? signature (h id outer? signature hs)
  makeScope outer? signature l id outer'? signature' h := by
    obtain ⟨symbols, hd⟩ := h
    have hlt : id.index < l.size := (Array.getElem?_eq_some_iff.mp hd).1
    refine ⟨symbols, ?_⟩
    rw [makeScope_scope?, if_neg (Nat.ne_of_lt hlt)]
    exact hd
  makeNode _ _ _ _ _ h := h
  note _ _ _ _ _ h := h
  declareVariable scope name l := (declareVariable_settles scope name l).steady
  declareFunction scope name parameters returns l :=
    (declareFunction_settles scope name parameters returns l).steady

-- Blocks and definitions are laid out between the two layouts. The blocks are numbered in
-- turn, each opens a scope of its own, and the scopes of signatures lie around the bodies of
-- the definitions.
structure Spread (l : Layout) (blocks : List Block) (definitions : List Definition) (m : Layout) :
    Prop where
  size : l.size ≤ m.size
  nodes : m.nextNode = l.nextNode + blocks.length
  numbered : blocks.map Block.id = (List.range' l.nextNode blocks.length).map NodeId.mk
  opened : ∀ a, Kept l m a → ∃ scopes : List ScopeId,
    blocks.map (fun b => a.scopeOf? b.id) = scopes.map some ∧ scopes.Nodup ∧
      ∀ id ∈ scopes, l.size ≤ id.index ∧ id.index < m.size
  signatures : ∀ a, Kept l m a → ∀ id outer?, l.size ≤ id.index → id.index < m.size →
    a.scopes.Shaped id outer? true → ∃ d ∈ definitions, a.Encloses id d.body

variable {scope : ScopeId} {l m n : Layout} {a : Analysis}

theorem Settles.spread (h : Settles l m) : Spread l (stmtsBlocks []) (stmtsDefinitions []) m := by
  refine ⟨Nat.le_of_eq h.size.symm, h.nodes, rfl, fun a _ => ⟨[], rfl, .nil, nofun⟩, ?_⟩
  intro a _ id outer? hlo hhi
  rw [h.size] at hhi
  exact absurd hhi (Nat.not_lt_of_le hlo)

theorem Spread.append {blocks blocks' : List Block} {definitions definitions' : List Definition}
    (h : Spread l blocks definitions m) (k : Spread m blocks' definitions' n)
    (later : Extends scope m n) (hscope : scope.index < l.size) :
    Spread l (blocks ++ blocks') (definitions ++ definitions') n := by
  have nodes : l.nextNode ≤ m.nextNode := h.nodes ▸ Nat.le_add_right _ _
  refine ⟨Nat.le_trans h.size k.size, ?_, ?_, fun a ha => ?_, fun a ha id outer? hlo hhi hs => ?_⟩
  · rw [k.nodes, h.nodes, List.length_append, Nat.add_assoc]
  · rw [List.map_append, h.numbered, k.numbered, h.nodes, List.length_append, ← List.map_append,
      ← List.range'_append_1]
  · obtain ⟨scopes, hmap, nodup, within⟩ := h.opened a (ha.before later (.inl hscope))
    obtain ⟨scopes', hmap', nodup', within'⟩ := k.opened a (ha.after h.size nodes)
    refine ⟨scopes ++ scopes', by rw [List.map_append, List.map_append, hmap, hmap'], ?_, ?_⟩
    · refine List.nodup_append.mpr ⟨nodup, nodup', fun id hid id' hid' heq => ?_⟩
      subst heq
      exact absurd (within id hid).2 (Nat.not_lt_of_le (within' id hid').1)
    · intro id hid
      rcases List.mem_append.mp hid with hid | hid
      · exact ⟨(within id hid).1, Nat.lt_of_lt_of_le (within id hid).2 k.size⟩
      · exact ⟨Nat.le_trans h.size (within' id hid).1, (within' id hid).2⟩
  · rcases Nat.lt_or_ge id.index m.size with hlt | hge
    · obtain ⟨d, hd, he⟩ :=
        h.signatures a (ha.before later (.inl hscope)) id outer? hlo hlt hs
      exact ⟨d, List.mem_append_left _ hd, he⟩
    · obtain ⟨d, hd, he⟩ := k.signatures a (ha.after h.size nodes) id outer? hge hhi hs
      exact ⟨d, List.mem_append_right _ hd, he⟩

-- What was laid out has its place in the analysis as well.
theorem Kept.shaped (h : Kept l m a) {id : ScopeId} {outer? : Option ScopeId} {signature : Bool}
    (hlo : l.size ≤ id.index) (hhi : id.index < m.size)
    (hs : m.scopes.Shaped id outer? signature) : a.scopes.Shaped id outer? signature := by
  obtain ⟨symbols, hd⟩ := hs
  exact ⟨symbols, (h.scopes id hlo hhi).trans hd⟩

theorem shaped_opened (l : Layout) (outer? : Option ScopeId) :
    (l.opened outer?).scopes.Shaped ⟨l.size⟩ outer? false :=
  ⟨[], (opened_scope? l outer? ⟨l.size⟩).trans (if_pos rfl)⟩

theorem layBlock_shaped (outer? : Option ScopeId) (body : List Draft) (l : Layout) :
    (layBlock outer? body l).2.scopes.Shaped ⟨l.size⟩ outer? false :=
  steady_stepwise.layAll ⟨l.size⟩ body (l.opened outer?) _ _ _ (shaped_opened l outer?)

theorem spread_of_body {outer? : Option ScopeId} {body : List Draft} {l : Layout}
    {statements : List Stmt} (hs : (layAll ⟨l.size⟩ body (l.opened outer?)).1 = statements)
    (hbody : Spread (l.opened outer?) (stmtsBlocks statements) (stmtsDefinitions statements)
      (layAll ⟨l.size⟩ body (l.opened outer?)).2) :
    Spread l (layBlock outer? body l).1.subBlocks (layBlock outer? body l).1.definitions
      (layBlock outer? body l).2 := by
  subst hs
  have laid := layBlock_laid outer? body l
  have hsize := opened_size l outer?
  have sizes : l.size + 1 ≤ (layBlock outer? body l).2.size := hsize ▸ hbody.size
  have since : ∀ a, Kept l (layBlock outer? body l).2 a →
      Kept (l.opened outer?) (layBlock outer? body l).2 a :=
    fun a ha => ha.after (hsize ▸ Nat.le_succ _) (Nat.le_succ _)
  refine ⟨Nat.le_of_lt sizes, ?_, ?_, fun a ha => ?_, fun a ha id outer'? hlo hhi hs => ?_⟩
  · have nodes := hbody.nodes
    rw [show (l.opened outer?).nextNode = l.nextNode + 1 from rfl, Nat.add_assoc,
      Nat.add_comm 1] at nodes
    exact nodes
  · exact congrArg (NodeId.mk l.nextNode :: ·) hbody.numbered
  · obtain ⟨scopes, hmap, nodup, within⟩ := hbody.opened a (since a ha)
    refine ⟨⟨l.size⟩ :: scopes, congr (congrArg List.cons (laid.nested a ha).1.opened) hmap,
      List.nodup_cons.mpr ⟨fun hmem => ?_, nodup⟩, List.forall_mem_cons.mpr ⟨⟨Nat.le_refl _, sizes⟩,
        fun id hid => ⟨?_, (within id hid).2⟩⟩⟩
    · exact absurd (within _ hmem).1 (hsize ▸ Nat.not_succ_le_self _)
    · have hlo := (within id hid).1
      rw [hsize] at hlo
      exact Nat.le_of_succ_le hlo
  · rcases Nat.eq_or_lt_of_le hlo with heq | hlt
    · have hid : id = ⟨l.size⟩ := congrArg ScopeId.mk heq.symm
      obtain ⟨symbols, hd⟩ := hs
      obtain ⟨symbols', hd'⟩ := ha.shaped hlo hhi (hid ▸ layBlock_shaped outer? body l)
      exact absurd (Option.some.inj (hd.symm.trans hd')) nofun
    · exact hbody.signatures a (since a ha) id outer'? (hsize ▸ hlt) hhi hs

-- The scope of the signature comes before that of the body.
theorem spread_of_function {name : String} {parameters returns : List String} {b : Block}
    {l₁ l₂ l₃ l₄ : Layout} (declared : Settles l l₁)
    (made : l₂ = (makeScope (some scope) true l₁).2) (bound : Settles l₂ l₃)
    (laid : BlockLaid (some ⟨l₁.size⟩) l₃ b l₄) (hb : Spread l₃ b.subBlocks b.definitions l₄) :
    Spread l b.subBlocks (⟨name, parameters, returns, b⟩ :: b.definitions) l₄ := by
  have size₃ : l₃.size = l.size + 1 := by
    rw [bound.size, made, makeScope_size, declared.size]
  have before : l.size ≤ l₃.size := size₃ ▸ Nat.le_succ _
  have nodes₃ : l₃.nextNode = l.nextNode := by
    rw [bound.nodes, made]
    exact declared.nodes
  have since : ∀ a, Kept l l₄ a → Kept l₃ l₄ a :=
    fun a ha => ha.after before (Nat.le_of_eq nodes₃.symm)
  refine ⟨Nat.le_trans before hb.size, nodes₃ ▸ hb.nodes, nodes₃ ▸ hb.numbered,
    fun a ha => ?_, fun a ha id outer? hlo hhi hs => ?_⟩
  · obtain ⟨scopes, hmap, nodup, within⟩ := hb.opened a (since a ha)
    exact ⟨scopes, hmap, nodup, fun id hid =>
      ⟨Nat.le_trans before (within id hid).1, (within id hid).2⟩⟩
  · rcases Nat.eq_or_lt_of_le hlo with heq | hlt
    · have hid : id = ⟨l₁.size⟩ := congrArg ScopeId.mk (heq.symm.trans declared.size.symm)
      have opens := (laid.nested a (since a ha)).1
      exact ⟨_, List.mem_cons_self, ⟨l₃.size⟩, opens.opened, hid ▸ opens.inside⟩
    · obtain ⟨d, hd, he⟩ := hb.signatures a (since a ha) id outer? (size₃ ▸ hlt) hhi hs
      exact ⟨d, List.mem_cons_of_mem _ hd, he⟩

theorem stmtsBlocks_append (first others : List Stmt) :
    stmtsBlocks (first ++ others) = stmtsBlocks first ++ stmtsBlocks others := by
  induction first with
  | nil => rfl
  | cons s rest ih => rw [List.cons_append, stmtsBlocks, stmtsBlocks, ih, List.append_assoc]

theorem stmtsDefinitions_append (first others : List Stmt) :
    stmtsDefinitions (first ++ others) = stmtsDefinitions first ++ stmtsDefinitions others := by
  induction first with
  | nil => rfl
  | cons s rest ih =>
      rw [List.cons_append, stmtsDefinitions, stmtsDefinitions, ih, List.append_assoc]

theorem Spread.note {blocks : List Block} {definitions : List Definition}
    (h : Spread l blocks definitions m) (d : Declared) :
    Spread l blocks definitions (note d m).2 :=
  ⟨h.size, h.nodes, h.numbered, fun a ha => h.opened a ⟨ha.scopes, ha.blocks⟩,
    fun a ha => h.signatures a ⟨ha.scopes, ha.blocks⟩⟩

theorem Spread.statement {s : Stmt} (h : Spread l (stmtBlocks s) (stmtDefinitions s) m) :
    Spread l (stmtsBlocks [s]) (stmtsDefinitions [s]) m := by
  rw [stmtsBlocks, stmtsBlocks, stmtsDefinitions, stmtsDefinitions, List.append_nil,
    List.append_nil]
  exact h

-- A statement without blocks.
theorem Settles.plain (h : Settles l m) (s : Stmt) (hb : stmtBlocks s = [])
    (hd : stmtDefinitions s = []) : Spread l (stmtsBlocks [s]) (stmtsDefinitions [s]) m := by
  refine Spread.statement ?_
  rw [hb, hd]
  exact h.spread

-- The recursion is that of the layout itself.
mutual
theorem lay_spread (scope : ScopeId) (d : Draft) (l : Layout) (hscope : scope.index < l.size) :
    Spread l (stmtsBlocks (d.lay scope l).1.toList) (stmtsDefinitions (d.lay scope l).1.toList)
      (d.lay scope l).2 := by
  cases d with
  | letDecl names value? =>
      exact ((declareVariables_settles scope names l).plain (.letDecl names value?) rfl rfl).note _
  | funDef name parameters returns body =>
      let declared := (declareFunction scope name parameters.length returns.length l).2
      have given := declareVariables_settles ⟨declared.size⟩ parameters
        (makeScope (some scope) true declared).2
      have bound := given.trans (declareVariables_settles ⟨declared.size⟩ returns _)
      have spread : Spread l _ (⟨name, parameters, returns, _⟩ :: _) _ :=
        spread_of_function (declareFunction_settles scope name _ _ l) rfl bound
          (layBlock_laid (some ⟨declared.size⟩) body _) (layBlock_spread _ body _)
      exact (spread.note _).statement
  | cond condition body => exact (layBlock_spread (some scope) body l).statement
  | switch value cases => exact (layCases_spread scope cases l hscope).statement
  | forLoop pre condition post body =>
      have loop := layLoop_laid scope pre post body l
      have first := (layBlock_spread (some scope) pre l).append (layBlock_spread _ post _)
        (loop.post.grown (loop.before_post hscope)) hscope
      exact (first.append (layBlock_spread _ body _) (loop.body.grown (loop.before_body hscope))
        hscope).statement
  | block body => exact (layBlock_spread (some scope) body l).statement
  | mark => exact (Settles.refl l).spread.note (.scope scope)
  | expr e => exact (Settles.refl l).plain (.expr e) rfl rfl
  | assign names value => exact (Settles.refl l).plain (.assign names value) rfl rfl
  | breakLoop => exact (Settles.refl l).plain .breakLoop rfl rfl
  | continueLoop => exact (Settles.refl l).plain .continueLoop rfl rfl
  | leave => exact (Settles.refl l).plain .leave rfl rfl
theorem layBlock_spread (outer? : Option ScopeId) (body : List Draft) (l : Layout) :
    Spread l (layBlock outer? body l).1.subBlocks (layBlock outer? body l).1.definitions
      (layBlock outer? body l).2 :=
  spread_of_body rfl (layAll_spread _ body _ (by rw [opened_size]; exact Nat.lt_succ_self _))
theorem layAll_spread (scope : ScopeId) (ds : List Draft) (l : Layout)
    (hscope : scope.index < l.size) :
    Spread l (stmtsBlocks (layAll scope ds l).1) (stmtsDefinitions (layAll scope ds l).1)
      (layAll scope ds l).2 := by
  cases ds with
  | nil => exact (Settles.refl l).spread
  | cons d rest =>
      have first := lay_spread scope d l hscope
      have hscope' := Nat.lt_of_lt_of_le hscope first.size
      have others := layAll_spread scope rest _ hscope'
      have spread := first.append others (layAll_laid scope rest _ hscope').grown hscope
      rw [← stmtsBlocks_append, ← stmtsDefinitions_append] at spread
      exact spread
theorem layCases_spread (scope : ScopeId) (cases : List DraftCase) (l : Layout)
    (hscope : scope.index < l.size) :
    Spread l (casesBlocks (layCases scope cases l).1) (casesDefinitions (layCases scope cases l).1)
      (layCases scope cases l).2 := by
  cases cases with
  | nil => exact (Settles.refl l).spread
  | cons c rest =>
      obtain ⟨value?, body⟩ := c
      have first := layBlock_spread (some scope) body l
      have hscope' := Nat.lt_of_lt_of_le hscope first.size
      exact first.append (layCases_spread scope rest _ hscope')
        (layCases_laid scope rest _ hscope').grown hscope
end

end Layout

end SsaReplay.Yul
