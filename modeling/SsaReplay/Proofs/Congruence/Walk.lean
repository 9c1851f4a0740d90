import SsaReplay.Proofs.Composition
import SsaReplay.Proofs.Structural

namespace SsaReplay

namespace Replay

open SsaReplay.Graph (BasicBlock Callee Cfg)
open SsaReplay.Yul (Definition Expr Literal Stmt Symbol)

def Context.under (ctx : Context) (settings : Settings) : Context := { ctx with settings }

-- What nearly every walk may object to. The exceptions are that a scope is missing, and the
-- one mismatch that names a builtin which the dialect may not have.
def Mismatch.ordinary : Mismatch → Bool
  | .noActiveScope | .unscopedBlock _ | .otherBuiltin .. => false
  | _ => true

-- What nearly every walk may tell. The exceptions are mismatches, and the exits that only
-- either functions or the main program may take.
def Event.ordinary : Event → Bool
  | .found .. | .left _ .mainExit | .left _ (.functionReturn _) => false
  | _ => true

abbrev WalkRelation := (α : Type) → Walk α → Walk α → Prop

-- A relation between walks that passes from the parts of a walk to the whole. The second walk
-- may go by other settings. Of one walk alone, this is a property that composes.
structure Closed (ctx ctx' : Context) (R : WalkRelation) : Prop where
  same : ctx' = ctx.under ctx'.settings
  pure {α : Type} (a : α) : R α (pure a) (pure a)
  bind {α β : Type} {x x' : Walk α} {f f' : α → Walk β} (hx : R α x x')
    (hf : ∀ a, R β (f a) (f' a)) : R β (x >>= f) (x' >>= f')
  get : R State get get
  setBindings (b : Bindings) : R Unit (setBindings b) (setBindings b)
  rejectOperation {α : Type} {m : Mismatch} (hm : m.ordinary = true) :
    R α (rejectOperation ctx m) (rejectOperation ctx' m)
  rejectBlock {α : Type} {m : Mismatch} (hm : m.ordinary = true) :
    R α (rejectBlock ctx m) (rejectBlock ctx' m)
  rejectGraph {α : Type} {m : Mismatch} (g : GraphRef) (hm : m.ordinary = true) :
    R α (reject ctx m (.graph g)) (reject ctx' m (.graph g))
  resolve (name : String) : R _ (resolve ctx name) (resolve ctx' name)

-- It also holds of the calls in an expression.
structure Congruence (ctx ctx' : Context) (R : WalkRelation) : Prop extends Closed ctx ctx' R where
  matchCall (name : String) (operands : List (Expr × ValueSet)) :
    R _ (matchCall ctx name operands) (matchCall ctx' name operands)

variable {ctx ctx' : Context} {R : WalkRelation} {α : Type}

-- What is wrong with a phi is nothing out of the ordinary.
theorem ordinary_of_phiArguments {g : Cfg} {source target : BlockId} {data : BasicBlock}
    {m : Mismatch} (h : phiArguments g source target data = .error m) : m.ordinary = true := by
  rcases phiArguments_eq_error h with ⟨-, rfl⟩ | ⟨offset, phi, hoffset, -, h⟩
  · rfl
  · cases PhiUnfed.of_error (BasicBlock.lt_length_of_entryOffset? hoffset) h <;> rfl

theorem Mismatch.code_ne_of_ordinary {m : Mismatch} (h : m.ordinary = true) :
    m.code ≠ .missingScope := by
  cases m with
  | outsideLoop way => cases way <;> nofun
  | noActiveScope => exact absurd h Bool.false_ne_true
  | unscopedBlock node => exact absurd h Bool.false_ne_true
  | _ => nofun

-- How a name is looked up in the scope that is read from the state.
theorem resolve_of_get {P : State → Prop}
    (get : ∀ {f : State → Walk Symbol}, (∀ s, P s → R _ (f s) (f s)) →
      R _ (get >>= f) (get >>= f))
    (pure : ∀ symbol, R Symbol (pure symbol) (pure symbol))
    (unscoped : ∀ s, P s → s.scope? = none →
      R Symbol (rejectBlock ctx .noActiveScope) (rejectBlock ctx .noActiveScope))
    (undeclared : ∀ name scope, R Symbol (rejectBlock ctx (.undeclared name scope))
      (rejectBlock ctx (.undeclared name scope)))
    (name : String) : R _ (resolve ctx name) (resolve ctx name) := by
  refine get fun s hs => ?_
  cases hscope : s.scope? with
  | none => exact unscoped s hs hscope
  | some scope =>
      dsimp only
      cases ctx.scopes.lookup scope name with
      | none => exact undeclared name scope
      | some symbol => exact pure symbol

namespace Closed

theorem ite {c : Prop} [Decidable c] {x x' y y' : Walk α} (hx : R α x x') (hy : R α y y') :
    R α (if c then x else y) (if c then x' else y') := by
  by_cases h : c
  · rw [if_pos h, if_pos h]
    exact hx
  · rw [if_neg h, if_neg h]
    exact hy

variable (h : Closed ctx ctx' R)

include h

theorem analysis : ctx'.analysis = ctx.analysis := by
  rw [h.same]
  rfl

theorem graph : ctx'.graph = ctx.graph := by
  rw [h.same]
  rfl

theorem graphRef : ctx'.graphRef = ctx.graphRef := by
  rw [h.same]
  rfl

theorem dialect : ctx'.dialect = ctx.dialect := by
  rw [h.same]
  rfl

theorem flow : ctx'.flow = ctx.flow := by
  rw [h.same]
  rfl

theorem orReject {m : Mismatch} (hm : m.ordinary = true) (o : Option α) :
    R α (orReject ctx m o) (orReject ctx' m o) := by
  cases o with
  | none => exact h.rejectOperation hm
  | some a => exact h.pure a

section Names

theorem resolveVariable (name : String) :
    R _ (resolveVariable ctx name) (resolveVariable ctx' name) := by
  refine h.bind (h.resolve name) fun symbol => ?_
  cases symbol with
  | var x => exact h.pure x
  | func f => exact h.rejectBlock rfl

theorem resolveFunction (name : String) :
    R _ (resolveFunction ctx name) (resolveFunction ctx' name) := by
  refine h.bind (h.resolve name) fun symbol => ?_
  cases symbol with
  | var x => exact h.rejectBlock rfl
  | func f => exact h.pure f

theorem readVariable (name : String) : R _ (readVariable ctx name) (readVariable ctx' name) :=
  h.bind (h.resolveVariable name) fun _ => h.bind h.get fun _ => h.orReject rfl _

theorem readLiteral (l : Literal) : R _ (readLiteral ctx l) (readLiteral ctx' l) := by
  unfold Replay.readLiteral
  rw [h.graph]
  exact h.orReject rfl _

theorem readZero : R _ (readZero ctx) (readZero ctx') := by
  unfold Replay.readZero
  rw [h.graph]
  exact h.orReject rfl _

theorem reconcile (e : Expr) (candidates : ValueSet) (v : ValueId) :
    R _ (reconcile ctx e candidates v) (reconcile ctx' e candidates v) := by
  cases e with
  | ident name =>
      refine h.bind (h.resolveVariable name) fun x => h.bind h.get fun s => ?_
      exact ite (h.bind (h.setBindings _) fun _ => h.pure true) (h.pure false)
  | literal l => exact h.pure _
  | call name arguments => exact h.pure _

theorem reconcileCondition (e : Expr) (candidates : ValueSet) (v : ValueId) :
    R _ (reconcileCondition ctx e candidates v) (reconcileCondition ctx' e candidates v) :=
  h.bind (h.reconcile e candidates v) fun _ => ite (h.pure ()) (h.rejectOperation rfl)

end Names

section Calls

theorem reconcileOperands (name : String) (i : Nat) (operands : List (Expr × ValueSet))
    (inputs : List ValueId) : R _ (reconcileOperands ctx name i operands inputs)
      (reconcileOperands ctx' name i operands inputs) := by
  induction operands generalizing i inputs with
  | nil => exact h.pure ()
  | cons operand operands ih =>
      cases inputs with
      | nil => exact h.pure ()
      | cons input inputs =>
          refine h.bind (h.reconcile _ _ _) fun fits => ?_
          exact ite (ih (i + 1) inputs) (h.rejectOperation rfl)

theorem checkCallee {name : String} {callee : Callee} (outputs : Nat)
    (other : ∀ b, callee = .builtin b → R Bool (Replay.rejectOperation ctx (.otherBuiltin b name))
      (Replay.rejectOperation ctx' (.otherBuiltin b name))) :
    R _ (checkCallee ctx name callee outputs) (checkCallee ctx' name callee outputs) := by
  unfold Replay.checkCallee
  rw [h.dialect, h.flow]
  cases callee with
  | builtin b =>
      dsimp only
      cases ctx.dialect.named? name with
      | none => exact other b rfl
      | some builtin => exact ite (other b rfl) (ite (h.rejectOperation rfl) (h.pure _))
  | function f canContinue =>
      refine ite (h.rejectOperation rfl) (h.bind (h.resolveFunction name) fun resolved => ?_)
      refine ite (h.rejectOperation rfl) (h.bind (h.orReject rfl _) fun graph => ?_)
      exact ite (h.rejectOperation rfl) (h.pure _)

theorem matchCall (found : ∀ b, R _ (blockData ctx b) (blockData ctx' b))
    (other : ∀ b name, R Bool (Replay.rejectOperation ctx (.otherBuiltin b name))
      (Replay.rejectOperation ctx' (.otherBuiltin b name)))
    (consumed : ∀ op, R _ (consume ctx op) (consume ctx' op))
    (terminated : R _ (leaveByTermination ctx) (leaveByTermination ctx'))
    (name : String) (operands : List (Expr × ValueSet)) :
    R _ (matchCall ctx name operands) (matchCall ctx' name operands) := by
  refine h.bind h.get fun s => h.bind (found _) fun data => h.bind (h.orReject rfl _) fun op => ?_
  refine ite (h.rejectOperation rfl) (h.bind (h.reconcileOperands _ _ _ _) fun _ => ?_)
  refine h.bind (h.checkCallee _ fun b _ => other b name) fun canContinue => ?_
  refine h.bind (consumed op) fun _ => ite (h.pure _) ?_
  exact h.bind terminated fun _ => h.pure none

theorem replayComparison (found : ∀ b, R _ (blockData ctx b) (blockData ctx' b))
    (consumed : ∀ op, R _ (consume ctx op) (consume ctx' op)) (e : Expr) (candidates : ValueSet)
    (value : Literal) :
    R _ (replayComparison ctx e candidates value) (replayComparison ctx' e candidates value) := by
  have same : ∀ op, comparison? ctx' op = comparison? ctx op := fun op => by rw [h.same]; rfl
  refine h.bind h.get fun s => h.bind (found _) fun data => ?_
  match data.operations.drop s.op with
  | [] => exact h.rejectOperation rfl
  | [op] =>
      dsimp only
      rw [same op]
      cases comparison? ctx op with
      | none => exact h.rejectOperation rfl
      | some compared =>
          refine h.bind (h.readLiteral value) fun literal => ite (h.rejectOperation rfl) ?_
          refine h.bind (h.reconcile _ _ _) fun fits => ?_
          exact ite (h.bind (consumed op) fun _ => h.pure _) (h.rejectOperation rfl)
  | _ :: _ :: _ => exact h.rejectOperation rfl

theorem leaveToJoin (left : R _ (leaveByJump ctx) (leaveByJump ctx')) (join : SwitchJoin) :
    R _ (leaveToJoin ctx join) (leaveToJoin ctx' join) := by
  refine h.bind left fun target => ?_
  cases join.edge? with
  | none => exact h.pure target
  | some edge => exact ite (h.rejectOperation rfl) (h.pure target)

theorem oneValue (values? : Option (List ValueSet)) :
    R _ (oneValue ctx values?) (oneValue ctx' values?) := by
  unfold Replay.oneValue
  split
  · exact h.pure none
  · exact h.pure _
  · exact h.rejectOperation rfl

end Calls

section Variables

theorem assignAll (pairs : List (String × ValueSet)) :
    R _ (assignAll ctx pairs) (assignAll ctx' pairs) := by
  induction pairs with
  | nil => exact h.pure ()
  | cons pair rest ih =>
      refine h.bind (h.resolveVariable pair.1) fun x => h.bind h.get fun s => ?_
      exact h.bind (h.setBindings _) fun _ => ih

theorem defineAll (pairs : List (String × ValueSet)) :
    R _ (defineAll ctx pairs) (defineAll ctx' pairs) := by
  induction pairs with
  | nil => exact h.pure ()
  | cons pair rest ih =>
      refine h.bind (h.resolveVariable pair.1) fun x => h.bind h.get fun s => ?_
      cases s.bindings.define? x pair.2 with
      | none => exact h.rejectOperation rfl
      | some b => exact h.bind (h.setBindings b) fun _ => ih

theorem checkReturned (pairs : List (VariableId × ValueId)) :
    R _ (checkReturned ctx pairs) (checkReturned ctx' pairs) := by
  induction pairs with
  | nil => exact h.pure ()
  | cons pair rest ih =>
      refine h.bind h.get fun s => h.bind (h.orReject rfl _) fun held => ?_
      exact ite (h.bind (h.setBindings _) fun _ => ih) (h.rejectOperation rfl)

theorem replayLeave (left : R _ (leaveByReturn ctx) (leaveByReturn ctx')) :
    R _ (replayLeave ctx) (replayLeave ctx') := by
  unfold Replay.replayLeave
  rw [h.graph]
  refine h.bind left fun values => ite (h.bind h.get fun s => h.rejectOperation rfl) ?_
  exact h.bind (h.checkReturned _) fun _ => h.pure false

theorem bindSignature (pairs : List ((VariableId × ValueSet) × String)) :
    R _ (bindSignature ctx pairs) (bindSignature ctx' pairs) := by
  induction pairs with
  | nil => exact h.pure ()
  | cons pair rest ih =>
      unfold Replay.bindSignature
      rw [h.graphRef]
      refine h.bind (h.resolveVariable pair.2) fun x => ite (h.rejectGraph _ rfl) ?_
      refine h.bind h.get fun s => ?_
      cases s.bindings.define? x pair.1.2 with
      | none => exact h.rejectGraph _ rfl
      | some b => exact h.bind (h.setBindings b) fun _ => ih

theorem bindReturns (returns : List String) :
    R _ (bindReturns ctx returns) (bindReturns ctx' returns) := by
  unfold Replay.bindReturns
  rw [h.graph]
  exact ite (h.pure ()) (h.bind h.readZero fun _ => h.bindSignature _)

end Variables

section Blocks

theorem inBlock (id : NodeId) {x y : Walk Bool}
    (unscoped : ctx.analysis.scopeOf? id = none →
      R Bool (Replay.rejectBlock ctx (.unscopedBlock id))
        (Replay.rejectBlock ctx' (.unscopedBlock id)))
    (hb : ∀ scope, R _ (inScope scope x) (inScope scope y)) :
    R _ (inBlock ctx id x) (inBlock ctx' id y) := by
  unfold Replay.inBlock
  rw [h.analysis]
  cases hscope : ctx.analysis.scopeOf? id with
  | none => exact unscoped hscope
  | some scope => exact hb scope

theorem thenOthers (id : NodeId) (rest : List Stmt) {x y u v : Walk Bool}
    (warned : R _ (warnUnreachable ctx id rest) (warnUnreachable ctx' id rest))
    (hx : R _ x y) (hu : R _ u v) :
    R _ (thenOthers ctx id rest x u) (thenOthers ctx' id rest y v) :=
  h.bind hx fun _ => ite hu (h.bind warned fun _ => h.pure false)

theorem replayFunction (d : Definition) {x y : Walk Bool}
    (entered : R _ (record ctx (.entered (some d))) (record ctx' (.entered (some d))))
    (placed : ∀ scope?, R Unit (modify fun s => { s with scope? })
      (modify fun s => { s with scope? }))
    (left : R _ (leaveByReturn ctx) (leaveByReturn ctx')) (hx : R _ x y) :
    R _ (replayFunction ctx d x) (replayFunction ctx' d y) := by
  unfold Replay.replayFunction
  rw [h.analysis, h.graph]
  refine h.bind entered fun _ => h.bind (placed _) fun _ => h.bind (h.bindSignature _) fun _ => ?_
  refine h.bind (h.bindReturns _) fun _ => h.bind hx fun falls => ite ?_ (h.pure ())
  exact h.bind (h.replayLeave left) fun _ => h.pure ()

theorem replayDefinition (d : Definition) {x y : Context → Walk Bool}
    (hb : ∀ f graph, ctx.flow.graphOf? f = some graph →
      R _ (apart graph (Replay.replayFunction (ctx.within f graph) d (x (ctx.within f graph))))
        (apart graph
          (Replay.replayFunction (ctx'.within f graph) d (y (ctx'.within f graph))))) :
    R _ (replayDefinition ctx d x) (replayDefinition ctx' d y) := by
  unfold Replay.replayDefinition
  rw [h.flow]
  refine h.bind (h.resolveFunction d.name) fun f => ?_
  cases hg : ctx.flow.graphOf? f with
  | none => exact h.rejectGraph _ rfl
  | some graph => exact ite (h.rejectGraph _ rfl) (hb f graph hg)

end Blocks

end Closed

namespace Congruence

open Closed (ite)

variable (h : Congruence ctx ctx' R)

include h

-- The recursion is that of the expression.
mutual
theorem replayExpr (e : Expr) : R _ (replayExpr ctx e) (replayExpr ctx' e) := by
  cases e with
  | ident name => exact h.bind (h.readVariable name) fun _ => h.pure _
  | literal l => exact h.bind (h.readLiteral l) fun _ => h.pure _
  | call name arguments =>
      unfold Replay.replayExpr
      rw [h.dialect]
      refine h.bind (replayArguments arguments _ _) fun operands? => ?_
      cases operands? with
      | none => exact h.pure none
      | some operands => exact h.matchCall name operands
theorem replayArguments (arguments : List Expr) (skipped : Nat → Bool) (i : Nat) :
    R _ (replayArguments ctx skipped i arguments) (replayArguments ctx' skipped i arguments) := by
  cases arguments with
  | nil => exact h.pure _
  | cons e rest =>
      refine h.bind (replayArguments rest skipped (i + 1)) fun operands? => ?_
      cases operands? with
      | none => exact h.pure none
      | some operands =>
          refine ite (h.pure _) (h.bind (replayExpr e) fun values? => ?_)
          refine h.bind (h.oneValue values?) fun value? => ?_
          cases value? with
          | none => exact h.pure none
          | some values => exact h.pure _
end

theorem replayOne (e : Expr) : R _ (replayOne ctx e) (replayOne ctx' e) :=
  h.bind (h.replayExpr e) fun values? => h.oneValue values?

theorem replayValues (count : Nat) (e : Expr) :
    R _ (replayValues ctx count e) (replayValues ctx' count e) := by
  refine h.bind (h.replayExpr e) fun values? => ?_
  cases values? with
  | none => exact h.pure none
  | some values => exact ite (h.rejectOperation rfl) (h.pure _)

theorem replayBare (e : Expr) : R _ (replayBare ctx e) (replayBare ctx' e) := by
  refine h.bind (h.replayExpr e) fun values? => ?_
  match values? with
  | none => exact h.pure false
  | some [] => exact h.pure true
  | some (_ :: _) => exact h.rejectOperation rfl

theorem replayAssignment (names : List String) (e : Expr) :
    R _ (replayAssignment ctx names e) (replayAssignment ctx' names e) := by
  refine h.bind (h.replayValues _ e) fun values? => ?_
  cases values? with
  | none => exact h.pure false
  | some values => exact h.bind (h.assignAll _) fun _ => h.pure true

theorem replayLet (names : List String) (value? : Option Expr) :
    R _ (replayLet ctx names value?) (replayLet ctx' names value?) := by
  have initial : R _ (initialValues ctx names.length value?)
      (initialValues ctx' names.length value?) := by
    cases value? with
    | some e => exact h.replayValues _ e
    | none => exact h.bind h.readZero fun _ => h.pure _
  refine h.bind initial fun values? => ?_
  cases values? with
  | none => exact h.pure false
  | some values => exact h.bind (h.defineAll _) fun _ => h.pure true

end Congruence

end Replay

end SsaReplay
