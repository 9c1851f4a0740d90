import SsaReplay.Proofs.Mirroring.Declarations

namespace SsaReplay.Yul

-- A scope takes one more name, unless it has the name already.
def addName (seen : List String) (name : String) : Except String (List String) :=
  if name ∈ seen then .error name else .ok (name :: seen)

-- The names of a scope after a statement in it, or the first name that is declared again in
-- its scope, be it this one or one inside. Where a scope begins, no name is taken; a function
-- begins one for its parameters and return variables and one for its body.
mutual
def Draft.addNames (seen : List String) : Draft → Except String (List String)
  | .letDecl names _ => names.foldlM addName seen
  | .funDef name parameters returns body => do
      let seen ← addName seen name
      let _ ← (parameters ++ returns).foldlM addName []
      let _ ← addAllNames [] body
      pure seen
  | .cond _ body => do
      let _ ← addAllNames [] body
      pure seen
  | .switch _ cases => do
      checkCases cases
      pure seen
  | .forLoop pre _ post body => do
      let _ ← addAllNames [] pre
      let _ ← addAllNames [] post
      let _ ← addAllNames [] body
      pure seen
  | .block body => do
      let _ ← addAllNames [] body
      pure seen
  | _ => pure seen
def addAllNames (seen : List String) : List Draft → Except String (List String)
  | [] => pure seen
  | d :: rest => do
      let seen ← d.addNames seen
      addAllNames seen rest
def checkCases : List DraftCase → Except String Unit
  | [] => pure ()
  | .mk _ body :: rest => do
      let _ ← addAllNames [] body
      checkCases rest
end

namespace Scopes

-- The scope declares just the names.
def Holds (s : Scopes) (scope : ScopeId) (names : List String) : Prop :=
  (s.scope? scope).isSome = true ∧ ∀ name, name ∈ names ↔ (s.own? scope name).isSome = true

variable {s s' : Scopes} {scope : ScopeId} {name : String} {names : List String}

theorem Holds.congr (h : s.Holds scope names) (hs : s'.scope? scope = s.scope? scope) :
    s'.Holds scope names := by
  unfold Holds own? at *
  rw [hs]
  exact h

theorem holds_of_empty {outer? : Option ScopeId} {signature : Bool}
    (h : s.scope? scope = some ⟨outer?, signature, []⟩) : s.Holds scope [] := by
  unfold Holds own?
  rw [h]
  exact ⟨rfl, fun name => ⟨nofun, nofun⟩⟩

theorem Holds.record {symbol : Symbol} (h : s.Holds scope names)
    (hs : s'.scopes = (s.record scope name symbol).scopes) : s'.Holds scope (name :: names) := by
  obtain ⟨present, hnames⟩ := h
  obtain ⟨data, hd⟩ := Option.isSome_iff_exists.mp present
  have hscope : s'.scope? scope = some { data with symbols := (name, symbol) :: data.symbols } := by
    have looked : s'.scope? scope = (s.record scope name symbol).scope? scope := by
      unfold scope?
      rw [hs]
    rw [looked, Layout.record_scope?, if_pos rfl, hd, Option.map_some]
  refine ⟨Option.isSome_iff_exists.mpr ⟨_, hscope⟩, fun other => ?_⟩
  have before := hnames other
  unfold own? at before ⊢
  rw [hd, Option.bind_some] at before
  rw [hscope, Option.bind_some, List.lookup_cons, List.mem_cons, before]
  by_cases hn : other = name
  · rw [beq_iff_eq.mpr hn]
    exact iff_of_true (.inl hn) rfl
  · rw [beq_false_of_ne hn]
    exact or_iff_right hn

-- A name is free unless it is one of those that the scope has.
theorem Holds.checkFree (h : s.Holds scope names) (name : String) :
    s.checkFree scope name = if name ∈ names then .error (.alreadyDeclared name) else .ok () := by
  obtain ⟨present, hnames⟩ := h
  obtain ⟨data, hd⟩ := Option.isSome_iff_exists.mp present
  have has := hnames name
  unfold own? at has
  rw [hd, Option.bind_some] at has
  unfold Scopes.checkFree
  rw [hd]
  cases hl : data.symbols.lookup name with
  | none =>
      have hn : name ∉ names := fun hn => absurd (has.mp hn) (by simp [hl])
      simp [hl, hn]
  | some symbol =>
      have hn : name ∈ names := has.mpr (by rw [hl]; rfl)
      simp [hl, hn]

-- What comes of a declaration in a scope that has the names.
inductive Taken {α : Type} (scope : ScopeId) (names : List String) (name : String) :
    Except DeclareError (α × Scopes) → Prop
  | again (h : name ∈ names) : Taken scope names name (.error (.alreadyDeclared name))
  | new (h : name ∉ names) (id : α) (s : Scopes) (hs : s.Holds scope (name :: names)) :
      Taken scope names name (.ok (id, s))

theorem Holds.declareVariable (h : s.Holds scope names) (name : String) :
    Taken scope names name (s.declareVariable scope name) := by
  unfold Scopes.declareVariable
  rw [h.checkFree name]
  by_cases hn : name ∈ names
  · rw [if_pos hn]
    exact .again hn
  · rw [if_neg hn]
    exact .new hn _ _ (h.record rfl)

theorem Holds.declareFunction (h : s.Holds scope names) (name : String) (parameters returns : Nat) :
    Taken scope names name (s.declareFunction scope name parameters returns) := by
  unfold Scopes.declareFunction
  rw [h.checkFree name]
  by_cases hn : name ∈ names
  · rw [if_pos hn]
    exact .again hn
  · rw [if_neg hn]
    exact .new hn _ _ (h.record rfl)

end Scopes

namespace Layout

-- Once there is a failure, it stays the one that is reported.
theorem fails_stepwise : Stepwise fun l m => ∀ e, l.error? = some e → m.error? = some e := by
  have settles : ∀ {α : Type} (l : Layout) (outcome : Except DeclareError (α × Scopes)) e,
      l.error? = some e → (l.settle outcome).2.error? = some e := by
    intro α l outcome e he
    cases outcome with
    | ok result => exact he
    | error e' =>
        change some (l.error?.getD e') = some e
        rw [he]
        rfl
  exact ⟨fun _ _ h => h, fun h k e he => k e (h e he), fun _ _ _ _ h => h, fun _ _ _ h => h,
    fun _ _ _ h => h, fun _ _ l => settles l _, fun _ _ _ _ l => settles l _⟩

-- A layout has failed at the name, or it has not failed and the result is as wanted.
def Ended {α : Type} (m : Layout) (P : α → Prop) : Except String α → Prop
  | .error name => m.error? = some (.alreadyDeclared name)
  | .ok v => m.error? = none ∧ P v

variable {scope : ScopeId} {l m n : Layout} {seen : List String}

theorem Ended.bind {α β : Type} {P : α → Prop} {Q : β → Prop} {x : Except String α}
    {f : α → Except String β} (h : Ended m P x)
    (persists : ∀ e, m.error? = some e → n.error? = some e)
    (hf : ∀ v, m.error? = none → P v → Ended n Q (f v)) : Ended n Q (x >>= f) := by
  cases x with
  | error name => exact persists _ h
  | ok v => exact hf v h.1 h.2

theorem Ended.mono {α : Type} {P Q : α → Prop} {x : Except String α} (h : Ended m P x)
    (hpq : ∀ v, P v → Q v) : Ended m Q x := by
  cases x with
  | error name => exact h
  | ok v => exact ⟨h.1, hpq v h.2⟩

-- The scope takes the names that are declared in it.
def Takes (scope : ScopeId) (m : Layout) : Except String (List String) → Prop :=
  Ended m (m.scopes.Holds scope)

theorem settle_takes {α : Type} {name : String} {outcome : Except DeclareError (α × Scopes)}
    (he : l.error? = none) (h : Scopes.Taken scope seen name outcome) :
    Takes scope (l.settle outcome).2 (addName seen name) := by
  unfold addName
  cases h with
  | again hn =>
      rw [if_pos hn]
      change some (l.error?.getD _) = _
      rw [he]
      rfl
  | new hn id s hs =>
      rw [if_neg hn]
      exact ⟨he, hs⟩

theorem declareVariables_take (names : List String) (he : l.error? = none)
    (hs : l.scopes.Holds scope seen) :
    Takes scope (names.mapM (declareVariable scope) l).2 (names.foldlM addName seen) := by
  induction names generalizing l seen with
  | nil => exact ⟨he, hs⟩
  | cons name rest ih =>
      rw [List.mapM_cons, List.foldlM_cons]
      have first := settle_takes he (hs.declareVariable name)
      exact first.bind (fails_stepwise.declareVariables scope rest _)
        fun _ he hs => ih he hs

-- The parameters and the return variables are declared in one scope, which is new.
theorem signature_ends (scope : ScopeId) (parameters returns : List String) {l₁ l₂ l₃ : Layout}
    {ps rs : List (Option VariableId)} (he : l.error? = none)
    (made : l₁ = (makeScope (some scope) true l).2)
    (hp : parameters.mapM (declareVariable ⟨l.size⟩) l₁ = (ps, l₂))
    (hr : returns.mapM (declareVariable ⟨l.size⟩) l₂ = (rs, l₃)) :
    Ended l₃ (fun _ => True) ((parameters ++ returns).foldlM addName []) := by
  have he₁ : l₁.error? = none := made ▸ he
  have fresh : l₁.scopes.scope? ⟨l.size⟩ = some ⟨some scope, true, []⟩ := by
    rw [made, makeScope_scope?, if_pos rfl]
  have first := declareVariables_take parameters he₁ (Scopes.holds_of_empty fresh)
  have persists := fails_stepwise.declareVariables ⟨l.size⟩ returns l₂
  rw [hp] at first
  rw [hr] at persists
  rw [List.foldlM_append]
  refine first.bind persists fun names he₂ hs₂ => ?_
  have others := declareVariables_take returns he₂ hs₂
  rw [hr] at others
  exact others.mono fun _ _ => trivial

theorem opened_holds (l : Layout) (outer? : Option ScopeId) :
    (l.opened outer?).scopes.Holds ⟨l.size⟩ [] :=
  Scopes.holds_of_empty ((opened_scope? l outer? ⟨l.size⟩).trans (if_pos rfl))

-- The recursion is that of the layout itself.
mutual
theorem lay_takes (scope : ScopeId) (d : Draft) (l : Layout) {seen : List String}
    (hscope : scope.index < l.size) (he : l.error? = none) (hs : l.scopes.Holds scope seen) :
    Takes scope (d.lay scope l).2 (d.addNames seen) := by
  cases d with
  | letDecl names value? => exact declareVariables_take names he hs
  | funDef name parameters returns body =>
      let declared := (declareFunction scope name parameters.length returns.length l).2
      let begun := (parameters.mapM (declareVariable ⟨declared.size⟩)
        (makeScope (some scope) true declared).2).2
      let bound := (returns.mapM (declareVariable ⟨declared.size⟩) begun).2
      have signature : SignatureLaid scope parameters returns _ _ declared bound :=
        signatureLaid scope parameters returns declared rfl rfl
      have laid := layBlock_laid (some ⟨declared.size⟩) body bound
      have persists := fails_stepwise.layBlock (some ⟨declared.size⟩) body bound
      have persists' : ∀ e, declared.error? = some e → bound.error? = some e := fun e h =>
        fails_stepwise.declareVariables ⟨declared.size⟩ returns begun e
          (fails_stepwise.declareVariables ⟨declared.size⟩ parameters _ e h)
      have size : declared.size = l.size :=
        (declareFunction_settles scope name parameters.length returns.length l).size
      have hscope₁ : scope.index < declared.size := size ▸ hscope
      have first := settle_takes he (hs.declareFunction name parameters.length returns.length)
      refine first.bind (fun e h => persists e (persists' e h)) fun names he₁ hs₁ => ?_
      have bounds := signature_ends scope parameters returns he₁ rfl rfl rfl
      refine bounds.bind persists fun _ he₂ _ => ?_
      refine (layBlock_ends _ body bound he₂).bind (fun _ h => h) fun _ he₃ _ => ⟨he₃, ?_⟩
      have kept := signature.kept scope hscope₁
      exact hs₁.congr ((laid.kept scope (Nat.lt_trans hscope₁ signature.size)).trans kept)
  | cond condition body =>
      have kept := (layBlock_laid (some scope) body l).kept scope hscope
      exact (layBlock_ends (some scope) body l he).bind (fun _ h => h)
        fun _ he₁ _ => ⟨he₁, hs.congr kept⟩
  | switch value cases =>
      exact (layCases_ends scope cases l hscope he).bind (fun _ h => h)
        fun _ he₁ kept => ⟨he₁, hs.congr kept⟩
  | forLoop pre condition post body =>
      have kept := (layLoop_laid scope pre post body l).kept hscope
      have persists := fails_stepwise.layBlock (some ⟨l.size⟩) body
        (layBlock (some ⟨l.size⟩) post (layBlock (some scope) pre l).2).2
      refine (layBlock_ends _ pre l he).bind (fun e h => persists e
        (fails_stepwise.layBlock (some ⟨l.size⟩) post _ e h)) fun _ he₁ _ => ?_
      refine (layBlock_ends _ post _ he₁).bind persists fun _ he₂ _ => ?_
      exact (layBlock_ends _ body _ he₂).bind (fun _ h => h) fun _ he₃ _ => ⟨he₃, hs.congr kept⟩
  | block body =>
      have kept := (layBlock_laid (some scope) body l).kept scope hscope
      exact (layBlock_ends (some scope) body l he).bind (fun _ h => h)
        fun _ he₁ _ => ⟨he₁, hs.congr kept⟩
  | _ => exact ⟨he, hs⟩
theorem layBlock_ends (outer? : Option ScopeId) (body : List Draft) (l : Layout)
    (he : l.error? = none) :
    Ended (layBlock outer? body l).2 (fun _ => True) (addAllNames [] body) :=
  Ended.mono (layAll_takes _ body (l.opened outer?)
    (by rw [opened_size]; exact Nat.lt_succ_self _) he (opened_holds l outer?)) fun _ _ => trivial
theorem layAll_takes (scope : ScopeId) (ds : List Draft) (l : Layout) {seen : List String}
    (hscope : scope.index < l.size) (he : l.error? = none) (hs : l.scopes.Holds scope seen) :
    Takes scope (layAll scope ds l).2 (addAllNames seen ds) := by
  cases ds with
  | nil => exact ⟨he, hs⟩
  | cons d rest =>
      have laid := lay_laid scope d l hscope
      have hscope' := Nat.lt_of_lt_of_le hscope laid.grown.size
      exact (lay_takes scope d l hscope he hs).bind (fails_stepwise.layAll scope rest _)
        fun _ he₁ hs₁ => layAll_takes scope rest _ hscope' he₁ hs₁
theorem layCases_ends (scope : ScopeId) (cases : List DraftCase) (l : Layout)
    (hscope : scope.index < l.size) (he : l.error? = none) :
    Ended (layCases scope cases l).2
      (fun _ => (layCases scope cases l).2.scopes.scope? scope = l.scopes.scope? scope)
      (checkCases cases) := by
  cases cases with
  | nil => exact ⟨he, rfl⟩
  | cons c rest =>
      obtain ⟨value?, body⟩ := c
      have laid := layBlock_laid (some scope) body l
      have kept := laid.kept scope hscope
      refine (layBlock_ends (some scope) body l he).bind (fails_stepwise.layCases scope rest _)
        fun _ he₁ _ => ?_
      exact (layCases_ends scope rest _ (Nat.lt_trans hscope laid.size) he₁).mono
        fun _ kept' => kept'.trans kept
end

end Layout

end SsaReplay.Yul
