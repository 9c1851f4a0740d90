import Mathlib.Data.Nat.Find
import SsaReplay.Proofs.Legibility.Program
import SsaReplay.Proofs.Numbering

namespace SsaReplay.Yul

-- A call that builds up scopes.
inductive ScopeCall
  | make (parent? : Option ScopeId) (functionScope : Bool)
  | var (scope : ScopeId) (name : String)
  | func (scope : ScopeId) (name : String) (parameters returns : Nat)

namespace ScopeCall

-- The scope and the name that a declaration is about.
def target? : ScopeCall → Option (ScopeId × String)
  | .make _ _ => none
  | .var scope name | .func scope name _ _ => some (scope, name)

-- A scope is made inside a scope that there is.
def Proper (s : Scopes) : ScopeCall → Prop
  | .make parent? _ => ∀ outer ∈ parent?, (s.scope? outer).isSome = true
  | .var _ _ | .func _ _ _ _ => True

instance (s : Scopes) (c : ScopeCall) : Decidable (c.Proper s) :=
  match c with
  | .make parent? _ =>
      inferInstanceAs (Decidable (∀ outer ∈ parent?, (s.scope? outer).isSome = true))
  | .var _ _ | .func _ _ _ _ => .isTrue trivial

end ScopeCall

namespace Scopes

def call (s : Scopes) : ScopeCall → Except DeclareError Scopes
  | .make parent? functionScope => .ok (s.make parent? functionScope).2
  | .var scope name => (s.declareVariable scope name).map Prod.snd
  | .func scope name parameters returns =>
      (s.declareFunction scope name parameters returns).map Prod.snd

-- A call that is rejected leaves the scopes as they are.
def after (s : Scopes) (c : ScopeCall) : Scopes := (s.call c).toOption.getD s

-- Scopes that some calls come to, whether or not each of them succeeds.
inductive Reached : Scopes → Prop
  | empty : Reached .empty
  | call {s : Scopes} {c : ScopeCall} (before : Reached s) (proper : c.Proper s) :
      Reached (s.after c)

-- The tables of variables and functions have the symbol, under this name and in this scope.
def Recorded (s : Scopes) (scope : ScopeId) (name : String) : Symbol → Prop
  | .var x => ∃ data, s.declaredVariable? x = some data ∧ data.name = name ∧ data.scope = scope
  | .func f => ∃ data, s.declaredFunction? f = some data ∧ data.name = name ∧ data.scope = scope

-- A scope, and the scopes around it from the inside out.
inductive Chain (s : Scopes) : ScopeId → List ScopeId → Prop
  | outermost {id : ScopeId} {data : Scope} (here : s.scope? id = some data)
      (root : data.parent? = none) : Chain s id [id]
  | inside {id outer : ScopeId} {data : Scope} {further : List ScopeId}
      (here : s.scope? id = some data) (parent : data.parent? = some outer)
      (rest : Chain s outer further) : Chain s id (id :: further)

-- The symbol is declared in the scope at the position of the chain. If it is a variable, no
-- scope before that is a function scope.
def Visible (s : Scopes) (chain : List ScopeId) (name : String) (i : Nat) (symbol : Symbol) :
    Prop :=
  ∃ scope, chain[i]? = some scope ∧ s.Recorded scope name symbol ∧
    ((∃ f, symbol = .func f) ∨
      ∀ inner ∈ chain.take i, ∀ data, s.scope? inner = some data → data.functionScope = false)

-- The walk outwards, however many scopes it comes through.
inductive Walks (s : Scopes) (name : String) : Bool → Option ScopeId → Option Symbol → Prop
  | ended {crossed : Bool} : Walks s name crossed none none
  | absent {crossed : Bool} {id : ScopeId} (gone : s.scope? id = none) :
      Walks s name crossed (some id) none
  | found {crossed : Bool} {id : ScopeId} {data : Scope} {symbol : Symbol}
      (here : s.scope? id = some data) (seen : visible? data crossed name = some symbol) :
      Walks s name crossed (some id) (some symbol)
  | outwards {crossed : Bool} {id : ScopeId} {data : Scope} {found? : Option Symbol}
      (here : s.scope? id = some data) (unseen : visible? data crossed name = none)
      (rest : Walks s name (crossed || data.functionScope) data.parent? found?) :
      Walks s name crossed (some id) found?

-- What a scope declares is what the tables record for it.
structure Kept (s : Scopes) : Prop where
  ordered : s.Ordered
  recorded : ∀ scope name symbol,
    s.own? scope name = some symbol ↔ s.Recorded scope name symbol

variable {s s' : Scopes} {scope id : ScopeId} {name : String} {symbol : Symbol}
  {chain : List ScopeId} {crossed : Bool} {found? : Option Symbol} {c : ScopeCall}

-- Of what a declaration does, all that lookups depend on.
structure Declared (s s' : Scopes) (scope : ScopeId) (name : String) (symbol : Symbol) :
    Prop where
  free : s.checkFree scope name = .ok ()
  scopes : s'.scopes = (s.record scope name symbol).scopes
  recorded : ∀ place word found, s'.Recorded place word found ↔
    s.Recorded place word found ∨ (place = scope ∧ word = name) ∧ found = symbol

section Calls

theorem scope?_make (parent? : Option ScopeId) (functionScope : Bool) (id : ScopeId) :
    (s.make parent? functionScope).2.scope? id =
      if id.index = s.scopes.size then some ⟨parent?, functionScope, []⟩ else s.scope? id :=
  Array.getElem?_push

-- A new scope declares nothing, and nothing was declared in it before.
theorem own?_make (parent? : Option ScopeId) (functionScope : Bool) :
    (s.make parent? functionScope).2.own? scope name = s.own? scope name := by
  rw [own?, own?, scope?_make]
  split
  · next hi =>
    have absent : s.scope? scope = none := Array.getElem?_eq_none (Nat.le_of_eq hi.symm)
    rw [absent]
    rfl
  · rfl

theorem recorded_make {parent? : Option ScopeId} {functionScope : Bool} :
    (s.make parent? functionScope).2.Recorded scope name symbol ↔
      s.Recorded scope name symbol := by
  cases symbol <;> rfl

theorem Ordered.make (h : s.Ordered) {parent? : Option ScopeId} (functionScope : Bool)
    (parents : ∀ outer ∈ parent?, (s.scope? outer).isSome = true) :
    (s.make parent? functionScope).2.Ordered := by
  intro i hi outer ho
  rw [scope?_make] at ho
  split at ho
  · next last =>
    obtain ⟨data, hd⟩ := Option.isSome_iff_exists.mp (parents outer ho)
    exact Nat.lt_of_lt_of_eq (lt_size_of_scope? hd) (Eq.symm last)
  · next old =>
    have size : (s.make parent? functionScope).2.scopes.size = s.scopes.size + 1 :=
      Array.size_push _
    have hlt : i ≠ s.scopes.size := old
    exact h i (by omega) outer ho

theorem Declared.scope? (h : Declared s s' scope name symbol) (id : ScopeId) :
    s'.scope? id =
      if scope.index = id.index then
        (s.scope? id).map fun data => { data with symbols := (name, symbol) :: data.symbols }
      else s.scope? id := by
  rw [← Layout.record_scope?, Scopes.scope?, h.scopes]
  rfl

theorem Declared.own? (h : Declared s s' scope name symbol) (place : ScopeId) (word : String) :
    s'.own? place word =
      if place = scope ∧ word = name then some symbol else s.own? place word := by
  obtain ⟨present, -⟩ := checkFree_eq_ok.mp h.free
  obtain ⟨data, hd⟩ := Option.isSome_iff_exists.mp present
  rw [Scopes.own?, Scopes.own?, h.scope?]
  by_cases hp : place = scope
  · subst hp
    rw [if_pos rfl, hd, Option.map_some, Option.bind_some, Option.bind_some, List.lookup_cons]
    by_cases hw : word = name
    · simp [hw]
    · simp [hw, beq_false_of_ne hw]
  · have hne : scope.index ≠ place.index := fun e => hp (by cases scope; cases place; cases e; rfl)
    rw [if_neg hne, if_neg fun both => hp both.1]

theorem Declared.ordered (h : Declared s s' scope name symbol) (ordered : s.Ordered) :
    s'.Ordered := by
  intro i hi outer ho
  have size : s'.scopes.size = s.scopes.size := by
    rw [h.scopes]
    exact Array.size_modify
  refine ordered i (size ▸ hi) outer ?_
  rw [h.scope?] at ho
  split at ho
  · cases hd : s.scope? ⟨i⟩ with
    | none => simp [hd] at ho
    | some data => simpa [hd] using ho
  · exact ho

theorem getElem?_push_eq_some {α : Type} {table : Array α} {entry found : α} {i : Nat} :
    (table.push entry)[i]? = some found ↔
      table[i]? = some found ∨ i = table.size ∧ found = entry := by
  rw [Array.getElem?_push]
  split
  · next hi => simp [hi, eq_comm]
  · next hi => simp [hi]

theorem declared_of_variable {x : VariableId} (h : s.declareVariable scope name = .ok (x, s')) :
    Declared s s' scope name (.var x) := by
  obtain ⟨free, rfl, scopes, -⟩ := declareVariable_eq_ok h
  refine ⟨free, scopes, fun place word found => ?_⟩
  rw [declareVariable, free] at h
  obtain ⟨-, rfl⟩ := Prod.mk.inj (Except.ok.inj h)
  cases found with
  | func f => simp [Recorded, declaredFunction?, record]
  | var y =>
      simp only [Recorded, declaredVariable?, getElem?_push_eq_some, or_and_right, exists_or]
      refine or_congr_right ?_
      constructor
      · rintro ⟨_, ⟨hy, rfl⟩, rfl, rfl⟩
        exact ⟨⟨rfl, rfl⟩, congrArg (fun n => Symbol.var ⟨n⟩) hy⟩
      · rintro ⟨⟨rfl, rfl⟩, hy⟩
        exact ⟨_, ⟨congrArg VariableId.index (Symbol.var.inj hy), rfl⟩, rfl, rfl⟩

theorem declared_of_function {f : FunctionId} {parameters returns : Nat}
    (h : s.declareFunction scope name parameters returns = .ok (f, s')) :
    Declared s s' scope name (.func f) := by
  obtain ⟨free, scopes, -⟩ := declareFunction_eq_ok h
  refine ⟨free, scopes, fun place word found => ?_⟩
  rw [declareFunction, free] at h
  obtain ⟨rfl, rfl⟩ := Prod.mk.inj (Except.ok.inj h)
  cases found with
  | var y => simp [Recorded, declaredVariable?, record]
  | func g =>
      simp only [Recorded, declaredFunction?, getElem?_push_eq_some, or_and_right, exists_or]
      refine or_congr_right ?_
      constructor
      · rintro ⟨_, ⟨hg, rfl⟩, rfl, rfl⟩
        exact ⟨⟨rfl, rfl⟩, congrArg (fun n => Symbol.func ⟨n⟩) hg⟩
      · rintro ⟨⟨rfl, rfl⟩, hg⟩
        exact ⟨_, ⟨congrArg FunctionId.index (Symbol.func.inj hg), rfl⟩, rfl, rfl⟩

theorem Kept.declared (h : s.Kept) (hd : Declared s s' scope name symbol) : s'.Kept := by
  refine ⟨hd.ordered h.ordered, fun place word found => ?_⟩
  obtain ⟨-, free⟩ := checkFree_eq_ok.mp hd.free
  rw [hd.own?, hd.recorded]
  by_cases here : place = scope ∧ word = name
  · obtain ⟨rfl, rfl⟩ := here
    have unrecorded : ¬s.Recorded place word found := by
      rw [← h.recorded, free]
      simp
    simp [unrecorded, eq_comm]
  · simp [here, h.recorded]

theorem kept_empty : Scopes.empty.Kept := by
  refine ⟨fun i hi => absurd hi (Nat.not_lt_zero i), fun scope name symbol => ?_⟩
  cases symbol <;> simp [own?, scope?, empty, Recorded, declaredVariable?, declaredFunction?]

theorem Kept.call (h : s.Kept) (proper : c.Proper s) (hc : s.call c = .ok s') : s'.Kept := by
  cases c with
  | make parent? functionScope =>
      obtain rfl := Except.ok.inj hc
      refine ⟨h.ordered.make functionScope proper, fun scope name symbol => ?_⟩
      rw [own?_make, recorded_make]
      exact h.recorded scope name symbol
  | var scope name =>
      cases hd : s.declareVariable scope name with
      | error e => simp [Scopes.call, hd, Except.map] at hc
      | ok made =>
          simp only [Scopes.call, hd, Except.map, Except.ok.injEq] at hc
          subst hc
          exact h.declared (declared_of_variable hd)
  | func scope name parameters returns =>
      cases hd : s.declareFunction scope name parameters returns with
      | error e => simp [Scopes.call, hd, Except.map] at hc
      | ok made =>
          simp only [Scopes.call, hd, Except.map, Except.ok.injEq] at hc
          subst hc
          exact h.declared (declared_of_function hd)

theorem after_of_error {e : DeclareError} (h : s.call c = .error e) : s.after c = s := by
  rw [after, h]
  rfl

theorem Reached.kept (h : Reached s) : s.Kept := by
  induction h with
  | empty => exact kept_empty
  | @call s c _ proper ih =>
      cases hc : s.call c with
      | error e =>
          rw [after_of_error hc]
          exact ih
      | ok s' =>
          rw [after, hc]
          exact ih.call proper hc

theorem call_eq_error {e : DeclareError} (h : c.target? = some (scope, name)) :
    s.call c = .error e ↔ s.checkFree scope name = .error e := by
  cases c with
  | make parent? functionScope => simp [ScopeCall.target?] at h
  | var scope name =>
      obtain ⟨rfl, rfl⟩ := Prod.mk.inj (Option.some.inj h)
      cases hf : s.checkFree scope name <;> simp [call, declareVariable, hf, Except.map]
  | func scope name parameters returns =>
      obtain ⟨rfl, rfl⟩ := Prod.mk.inj (Option.some.inj h)
      cases hf : s.checkFree scope name <;> simp [call, declareFunction, hf, Except.map]

theorem checkFree_eq_error {e : DeclareError} (present : (s.scope? scope).isSome = true) :
    s.checkFree scope name = .error e ↔
      e = .alreadyDeclared name ∧ ∃ symbol, s.own? scope name = some symbol := by
  obtain ⟨data, hd⟩ := Option.isSome_iff_exists.mp present
  unfold checkFree own?
  cases hl : data.symbols.lookup name <;> simp [hd, hl, eq_comm]

end Calls

section Lookups

-- A walk is over before it has seen as many scopes as the first number says.
theorem Ordered.walks_search (h : s.Ordered) {n : Nat} (hn : id.index < n) :
    s.Walks name crossed (some id) (s.search name n crossed (some id)) := by
  induction n generalizing id crossed with
  | zero => exact absurd hn (Nat.not_lt_zero _)
  | succ n ih =>
      cases hd : s.scope? id with
      | none =>
          simp only [search, hd]
          exact .absent hd
      | some data =>
          simp only [search, hd]
          cases hv : visible? data crossed name with
          | some symbol => exact .found hd hv
          | none =>
              refine .outwards hd hv ?_
              cases hp : data.parent? with
              | none =>
                  rw [search_none]
                  exact .ended
              | some outer =>
                  have hlt := h.outer_lt hd hp
                  exact ih (by omega)

theorem Ordered.walks_lookup (h : s.Ordered) (scope : ScopeId) (name : String) :
    s.Walks name false (some scope) (s.lookup scope name) := by
  rw [← h.lookup_settled scope name (Nat.le_max_left _ (scope.index + 1))]
  exact h.walks_search (Nat.le_max_right _ _)

theorem Ordered.exists_chain (h : s.Ordered) (present : (s.scope? scope).isSome = true) :
    ∃ chain, s.Chain scope chain := by
  obtain ⟨n, hn⟩ : ∃ n, scope.index < n := ⟨_, Nat.lt_succ_self _⟩
  induction n generalizing scope with
  | zero => exact absurd hn (Nat.not_lt_zero _)
  | succ n ih =>
      obtain ⟨data, hd⟩ := Option.isSome_iff_exists.mp present
      cases hp : data.parent? with
      | none => exact ⟨[scope], .outermost hd hp⟩
      | some outer =>
          have hlt := h.outer_lt hd hp
          have there : outer.index < s.scopes.size := Nat.lt_trans hlt (lt_size_of_scope? hd)
          have present : (s.scope? outer).isSome = true := by
            rw [scope?, Array.getElem?_eq_getElem there]
            rfl
          obtain ⟨further, rest⟩ := ih present (by omega)
          exact ⟨scope :: further, .inside hd hp rest⟩

-- What is visible to one who may have crossed a function scope before.
def VisibleFrom (s : Scopes) (crossed : Bool) (chain : List ScopeId) (name : String) (i : Nat)
    (symbol : Symbol) : Prop :=
  ∃ scope, chain[i]? = some scope ∧ s.Recorded scope name symbol ∧
    ((∃ f, symbol = .func f) ∨ crossed = false ∧
      ∀ inner ∈ chain.take i, ∀ data, s.scope? inner = some data → data.functionScope = false)

-- The innermost of what is visible.
def Nearest (s : Scopes) (crossed : Bool) (chain : List ScopeId) (name : String)
    (symbol : Symbol) : Prop :=
  ∃ i, s.VisibleFrom crossed chain name i symbol ∧
    ∀ j < i, ∀ other, ¬s.VisibleFrom crossed chain name j other

theorem visibleFrom_false {i : Nat} :
    s.VisibleFrom false chain name i symbol ↔ s.Visible chain name i symbol := by
  simp [VisibleFrom, Visible]

section Cons

variable {data : Scope} {further : List ScopeId} (here : s.scope? id = some data)
include here

theorem Kept.visible?_eq_some (h : s.Kept) :
    visible? data crossed name = some symbol ↔
      s.VisibleFrom crossed (id :: further) name 0 symbol := by
  have own : s.own? id name = data.symbols.lookup name := by
    rw [own?, here, Option.bind_some]
  have recorded : s.Recorded id name symbol ↔ data.symbols.lookup name = some symbol := by
    rw [← h.recorded, own]
  have zero : s.VisibleFrom crossed (id :: further) name 0 symbol ↔
      data.symbols.lookup name = some symbol ∧ ((∃ f, symbol = .func f) ∨ crossed = false) := by
    simp [VisibleFrom, recorded]
  rw [zero, visible?]
  cases hl : data.symbols.lookup name with
  | none => simp
  | some found =>
      cases found with
      | func f => cases symbol <;> simp
      | var x => cases crossed <;> cases symbol <;> simp

theorem visibleFrom_succ {i : Nat} :
    s.VisibleFrom crossed (id :: further) name (i + 1) symbol ↔
      s.VisibleFrom (crossed || data.functionScope) further name i symbol := by
  simp [VisibleFrom, here, and_assoc]

-- The nearest is what the first scope shows, or else what is nearest from the next one on.
theorem Kept.nearest_cons (h : s.Kept) :
    s.Nearest crossed (id :: further) name symbol ↔
      visible? data crossed name = some symbol ∨
        visible? data crossed name = none ∧
          s.Nearest (crossed || data.functionScope) further name symbol := by
  constructor
  · rintro ⟨i, hi, least⟩
    cases i with
    | zero => exact .inl ((h.visible?_eq_some here).mpr hi)
    | succ i =>
        refine .inr ⟨?_, i, (visibleFrom_succ here).mp hi, fun j hj other hv => ?_⟩
        · rw [Option.eq_none_iff_forall_ne_some]
          exact fun other hv =>
            least 0 (Nat.succ_pos i) other ((h.visible?_eq_some here).mp hv)
        · exact least (j + 1) (Nat.succ_lt_succ hj) other ((visibleFrom_succ here).mpr hv)
  · rintro (hv | ⟨unseen, i, hi, least⟩)
    · exact ⟨0, (h.visible?_eq_some here).mp hv, fun j hj => absurd hj (Nat.not_lt_zero j)⟩
    · refine ⟨i + 1, (visibleFrom_succ here).mpr hi, fun j hj other hv => ?_⟩
      cases j with
      | zero =>
          rw [(h.visible?_eq_some here).mpr hv] at unseen
          exact absurd unseen (Option.some_ne_none other)
      | succ j => exact least j (Nat.lt_of_succ_lt_succ hj) other ((visibleFrom_succ here).mp hv)

end Cons

theorem not_nearest_nil : ¬s.Nearest crossed [] name symbol := by
  rintro ⟨i, ⟨scope, hi, -⟩, -⟩
  simp at hi

-- A walk along the chain comes to what is nearest on it.
theorem Kept.walks_iff (h : s.Kept) (along : s.Chain id chain)
    (walk : s.Walks name crossed (some id) found?) :
    found? = some symbol ↔ s.Nearest crossed chain name symbol := by
  induction along generalizing crossed with
  | outermost here root =>
      rw [h.nearest_cons here]
      cases walk with
      | absent gone => exact absurd (gone.symm.trans here) (by simp)
      | found here' seen =>
          obtain rfl := Option.some.inj (here'.symm.trans here)
          simp [seen]
      | outwards here' unseen rest =>
          obtain rfl := Option.some.inj (here'.symm.trans here)
          rw [root] at rest
          cases rest
          simp [unseen, not_nearest_nil]
  | inside here parent further ih =>
      rw [h.nearest_cons here]
      cases walk with
      | absent gone => exact absurd (gone.symm.trans here) (by simp)
      | found here' seen =>
          obtain rfl := Option.some.inj (here'.symm.trans here)
          simp [seen]
      | outwards here' unseen rest =>
          obtain rfl := Option.some.inj (here'.symm.trans here)
          rw [parent] at rest
          simp [unseen, ih rest]

-- As soon as something is visible, something is nearest.
theorem exists_nearest {i : Nat} (h : s.VisibleFrom crossed chain name i symbol) :
    ∃ nearest, s.Nearest crossed chain name nearest := by
  classical
  have some : ∃ i symbol, s.VisibleFrom crossed chain name i symbol := ⟨i, symbol, h⟩
  obtain ⟨nearest, hn⟩ := Nat.find_spec some
  exact ⟨nearest, _, hn, fun j hj other hv => Nat.find_min some hj ⟨other, hv⟩⟩

end Lookups

-- A name stands for its nearest visible declaration: a walk outwards comes to an end with it.
-- A scope declares a name at most once, and refuses only to declare it again.
theorem lookup_spec (h : Reached s) :
    (∀ scope name symbol other, s.Recorded scope name symbol → s.Recorded scope name other →
        symbol = other) ∧
      (∀ scope, (s.scope? scope).isSome = true → ∃ chain, s.Chain scope chain) ∧
      (∀ scope name, s.Walks name false (some scope) (s.lookup scope name)) ∧
      (∀ scope chain name, s.Chain scope chain →
        (∀ symbol, s.lookup scope name = some symbol ↔ ∃ i, s.Visible chain name i symbol ∧
          ∀ j < i, ∀ other, ¬s.Visible chain name j other) ∧
        (s.lookup scope name = none ↔ ∀ i symbol, ¬s.Visible chain name i symbol)) ∧
      ∀ c scope name, c.target? = some (scope, name) → (s.scope? scope).isSome = true → ∀ e,
        (s.call c = .error e ↔ e = .alreadyDeclared name ∧ ∃ symbol, s.Recorded scope name symbol) ∧
          (s.call c = .error e → s.after c = s) := by
  have kept := h.kept
  refine ⟨?_, fun scope => kept.ordered.exists_chain, kept.ordered.walks_lookup, ?_, ?_⟩
  · intro scope name symbol other hs ho
    rw [← kept.recorded] at hs ho
    exact Option.some.inj (hs.symm.trans ho)
  · intro scope chain name along
    have nearest : ∀ symbol, s.lookup scope name = some symbol ↔
        s.Nearest false chain name symbol :=
      fun symbol => kept.walks_iff along (kept.ordered.walks_lookup scope name)
    simp only [← visibleFrom_false]
    refine ⟨nearest, fun hnone i symbol hv => ?_, fun nothing => ?_⟩
    · obtain ⟨found, hf⟩ := exists_nearest hv
      rw [(nearest found).mpr hf] at hnone
      exact absurd hnone (Option.some_ne_none found)
    · rw [Option.eq_none_iff_forall_ne_some]
      rintro symbol hs
      obtain ⟨i, hi, -⟩ := (nearest symbol).mp hs
      exact nothing i symbol hi
  · intro c scope name target present e
    refine ⟨?_, after_of_error⟩
    rw [call_eq_error target, checkFree_eq_error present]
    simp only [kept.recorded]

-- A function, a variable of its name in a scope inside, and the scope of another function
-- around where the name is looked up. The last call is rejected.
namespace Hiding

def calls : List ScopeCall :=
  [.make none false, .func ⟨0⟩ "f" 1 1, .make (some ⟨0⟩) false, .var ⟨1⟩ "f",
    .make (some ⟨1⟩) true, .make (some ⟨2⟩) false, .func ⟨1⟩ "f" 0 0]

def scopes : Scopes := calls.foldl after .empty

theorem reached : scopes.Reached := by
  simp only [scopes, calls, List.foldl_cons, List.foldl_nil]
  refine .call (.call (.call (.call (.call (.call (.call .empty ?_) ?_) ?_) ?_) ?_) ?_) ?_
  all_goals decide +kernel

theorem around : scopes.Chain ⟨3⟩ [⟨3⟩, ⟨2⟩, ⟨1⟩, ⟨0⟩] :=
  .inside rfl rfl (.inside rfl rfl (.inside rfl rfl (.outermost rfl rfl)))

-- The variable is nearer, but hidden.
theorem lookup_spec_hidden :
    scopes.Reached ∧ scopes.Chain ⟨3⟩ [⟨3⟩, ⟨2⟩, ⟨1⟩, ⟨0⟩] ∧
      scopes.Recorded ⟨1⟩ "f" (.var ⟨0⟩) ∧
      (∃ i, scopes.Visible [⟨3⟩, ⟨2⟩, ⟨1⟩, ⟨0⟩] "f" i (.func ⟨0⟩) ∧
        ∀ j < i, ∀ other, ¬scopes.Visible [⟨3⟩, ⟨2⟩, ⟨1⟩, ⟨0⟩] "f" j other) ∧
      scopes.call (.var ⟨1⟩ "f") = .error (.alreadyDeclared "f") := by
  obtain ⟨-, -, -, nearest, rejects⟩ := lookup_spec reached
  have recorded : scopes.Recorded ⟨1⟩ "f" (.var ⟨0⟩) := ⟨⟨"f", ⟨1⟩⟩, rfl, rfl, rfl⟩
  have found : scopes.lookup ⟨3⟩ "f" = some (.func ⟨0⟩) := by decide +kernel
  refine ⟨reached, around, recorded, ((nearest _ _ "f" around).1 _).mp found, ?_⟩
  exact (rejects (.var ⟨1⟩ "f") _ _ rfl (by decide +kernel) _).1.mpr ⟨rfl, _, recorded⟩

end Hiding

end Scopes

end SsaReplay.Yul
