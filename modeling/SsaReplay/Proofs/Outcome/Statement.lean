import SsaReplay.Proofs.Outcome.Expr

namespace SsaReplay

theorem Bindings.binds_of_define?_eq_none {b : Bindings} {x : VariableId} {values : ValueSet}
    (h : b.define? x values = none) : b.binds x = true := by
  unfold define? at h
  cases hl : b.lookup x with
  | none => simp [hl] at h
  | some held => exact Option.isSome_of_eq_some hl

namespace Replay

open SsaReplay.Yul (Expr Stmt initialNames)

-- Names may be declared one after the other. A name that stands for a variable that is
-- bound by then has to be one that may be found declared again.
def Declarable (scopes : Yul.Scopes) (scope? : Option ScopeId)
    (again : String → VariableId → Prop) : (VariableId → Bool) → List String → Prop
  | _, [] => True
  | bound, name :: rest => ∀ x, scopes.symbol? scope? name = some (.var x) →
      (bound x = true → again name x) ∧
        Declarable scopes scope? again (fun y => decide (y = x) || bound y) rest

theorem Declarable.of_forall {scopes : Yul.Scopes} {scope? : Option ScopeId}
    {again : String → VariableId → Prop} (h : ∀ name x, again name x) {bound : VariableId → Bool}
    {names : List String} : Declarable scopes scope? again bound names := by
  induction names generalizing bound with
  | nil => trivial
  | cons name rest ih => exact fun x _ => ⟨fun _ => h name x, ih⟩

theorem Declarable.mono {scopes : Yul.Scopes} {scope? : Option ScopeId}
    {again : String → VariableId → Prop} {bound bound' : VariableId → Bool} {names : List String}
    (h : Declarable scopes scope? again bound names) (hb : ∀ x, bound' x = true → bound x = true) :
    Declarable scopes scope? again bound' names := by
  induction names generalizing bound bound' with
  | nil => trivial
  | cons name rest ih =>
      intro x hx
      obtain ⟨first, others⟩ := h x hx
      refine ⟨fun hbound => first (hb x hbound), ih others fun y hy => ?_⟩
      rw [Bool.or_eq_true] at hy ⊢
      exact hy.imp_right (hb y)

theorem Declarable.left {scopes : Yul.Scopes} {scope? : Option ScopeId}
    {again : String → VariableId → Prop} {bound : VariableId → Bool} {names others : List String}
    (h : Declarable scopes scope? again bound (names ++ others)) :
    Declarable scopes scope? again bound names := by
  induction names generalizing bound with
  | nil => trivial
  | cons name rest ih => exact fun x hx => ⟨(h x hx).1, ih (h x hx).2⟩

-- Later names are declared on top of the earlier ones.
theorem Declarable.right {scopes : Yul.Scopes} {scope? : Option ScopeId}
    {again : String → VariableId → Prop} {bound bound' : VariableId → Bool}
    {names others : List String} (h : Declarable scopes scope? again bound (names ++ others))
    (resolved : ∀ name ∈ names, ∃ x, scopes.symbol? scope? name = some (.var x))
    (hb : ∀ x, bound' x = true → bound x = true ∨ ∃ name ∈ names,
      scopes.symbol? scope? name = some (.var x)) :
    Declarable scopes scope? again bound' others := by
  induction names generalizing bound with
  | nil =>
      refine h.mono fun x hx => (hb x hx).resolve_right ?_
      rintro ⟨name, hn, -⟩
      exact absurd hn List.not_mem_nil
  | cons name rest ih =>
      obtain ⟨⟨x, hx⟩, hrest⟩ := List.forall_mem_cons.mp resolved
      refine ih (h x hx).2 hrest fun y hy => ?_
      rw [Bool.or_eq_true, decide_eq_true_iff]
      rcases hb y hy with hbound | ⟨other, hn, ho⟩
      · exact .inl (.inr hbound)
      · rcases List.mem_cons.mp hn with rfl | hn
        · rw [hx] at ho
          exact .inl (.inl (Yul.Symbol.var.inj (Option.some.inj ho)).symm)
        · exact .inr ⟨other, hn, ho⟩

namespace Ends

variable {α : Type} {allowed : Mismatch → Prop} {ctx : Context} {s : State}

theorem warnUnreachable {id : NodeId} {rest : List Stmt}
    (hm : ∀ n node, allowed (.unreachable n node)) {Q : Unit → State → Prop}
    (hq : ∀ warnings history, Q () { s with warnings, history }) :
    Ends allowed (warnUnreachable ctx id rest) s Q := by
  refine ite (fun _ => ?_) fun _ => pure (hq _ _)
  refine bind (get (bind (record fun hs => ⟨fun w hw => ?_, hq _ _⟩)))
  rcases List.mem_append.mp hw with hw | hw
  · exact hs w hw
  · obtain rfl := List.mem_singleton.mp hw
    exact hm _ _

variable (lenient : Lenient allowed)

include lenient

theorem assignAll {pairs : List (String × ValueSet)} :
    Ends allowed (assignAll ctx pairs) s fun _ t =>
      ∃ b, Assigned ctx s.scope? s.bindings pairs b ∧ { s with bindings := b } = t := by
  have stops : ∀ {s : State}, Ends allowed (Replay.assignAll ctx pairs) s fun _ _ => True := by
    induction pairs with
    | nil => exact pure trivial
    | cons pair rest ih =>
        exact bind (resolveVariable lenient fun x _ => bind (get (bind (setBindings ih))))
  exact stops.with_run.mono fun _ t ht => assigned_of_ok ht.2

theorem defineAll {names : List String} {values : List ValueSet}
    (declarable : Declarable ctx.scopes s.scope? (fun name _ => allowed (.redeclared name))
      s.bindings.binds names) :
    Ends allowed (defineAll ctx (names.zip values)) s fun _ t =>
      ∃ b, Declared ctx s.scope? s.bindings (names.zip values) b ∧
        { s with bindings := b } = t := by
  have stops : Ends allowed (Replay.defineAll ctx (names.zip values)) s fun _ _ => True := by
    induction names generalizing s values with
    | nil => exact pure trivial
    | cons name rest ih =>
        cases values with
        | nil => exact pure trivial
        | cons held values =>
            refine bind (resolveVariable lenient fun x hx => bind (get ?_))
            obtain ⟨again, others⟩ := declarable x hx
            cases hd : s.bindings.define? x held with
            | none => exact rejectOperation (again (Bindings.binds_of_define?_eq_none hd))
            | some b =>
                obtain ⟨-, rfl⟩ := Bindings.define?_eq_some.mp hd
                refine bind (setBindings (ih ?_))
                rwa [← funext (Bindings.binds_assign s.bindings x · held)] at others
  exact stops.with_run.mono fun _ t ht => declared_of_ok ht.2

theorem bindSignature {pairs : List (VariableId × ValueSet)} {names : List String}
    (declarable : Declarable ctx.scopes s.scope? (fun _ x => allowed (.signatureRedeclared x))
      s.bindings.binds names) :
    Ends allowed (bindSignature ctx (pairs.zip names)) s fun _ t =>
      ∃ b, SignatureBound ctx s.scope? s.bindings (pairs.zip names) b ∧
        { s with bindings := b } = t := by
  have stops : Ends allowed (Replay.bindSignature ctx (pairs.zip names)) s fun _ _ => True := by
    induction names generalizing s pairs with
    | nil =>
        rw [List.zip_nil_right]
        exact pure trivial
    | cons name rest ih =>
        cases pairs with
        | nil => exact pure trivial
        | cons pair pairs =>
            refine bind (resolveVariable lenient fun x hx => ?_)
            refine ite (fun _ => reject (lenient _ rfl rfl)) fun _ => bind (get ?_)
            obtain ⟨again, others⟩ := declarable x hx
            cases hd : s.bindings.define? x pair.2 with
            | none => exact reject (again (Bindings.binds_of_define?_eq_none hd))
            | some b =>
                obtain ⟨-, rfl⟩ := Bindings.define?_eq_some.mp hd
                refine bind (setBindings (ih ?_))
                rwa [← funext (Bindings.binds_assign s.bindings x · pair.2)] at others
  exact stops.with_run.mono fun _ t ht => signatureBound_of_ok ht.2

theorem checkReturned {pairs : List (VariableId × ValueId)}
    (bound : ∀ p ∈ pairs, s.bindings.lookup p.1 = none → allowed (.unboundReturn p.1)) :
    Ends allowed (checkReturned ctx pairs) s fun _ t => Abides s t := by
  induction pairs generalizing s with
  | nil => exact pure (.refl s)
  | cons pair rest ih =>
      obtain ⟨x, v⟩ := pair
      obtain ⟨first, others⟩ := List.forall_mem_cons.mp bound
      refine bind (get (bind (orReject first fun held hl => ?_)))
      refine ite (fun _ => bind (setBindings ?_)) fun _ => rejectOperation (lenient _ rfl rfl)
      have narrowed : Abides s { s with bindings := s.bindings.narrow x v } :=
        ⟨rfl, rfl, rfl, Bindings.binds_narrow hl v⟩
      refine (ih fun p hp hn => others p hp ?_).mono fun _ t ht => narrowed.trans ht
      have hb : (s.bindings.narrow x v).binds p.1 = s.bindings.binds p.1 :=
        congrFun narrowed.bound p.1
      rw [Bindings.binds, hn, Option.isSome_none] at hb
      exact Option.isNone_iff_eq_none.mp (Option.isSome_eq_false_iff.mp hb.symm)

variable (here : ctx.graph.block? s.block = none → allowed (.absentBlock s.block))

include here

theorem replayValues {count : Nat} {e : Expr} (readable : Readable allowed ctx s e.names) :
    Ends allowed (replayValues ctx count e) s fun values? t =>
      Abides s t ∧ ∀ values ∈ values?, values.length = count := by
  have stops : Ends allowed (Replay.replayValues ctx count e) s fun _ t => Abides s t := by
    refine bind ((replayExpr lenient e here readable).mono fun values? t ht => ?_)
    cases values? with
    | none => exact pure ht
    | some values => exact ite (fun _ => rejectOperation (lenient _ rfl rfl)) fun _ => pure ht
  exact stops.with_run.mono fun _ t ht => ⟨ht.1, (replayValues_eq_ok.mp ht.2).2⟩

theorem replayBare {e : Expr} (readable : Readable allowed ctx s e.names) :
    Ends allowed (replayBare ctx e) s fun _ t => Abides s t := by
  refine bind ((replayExpr lenient e here readable).mono fun values? t ht => ?_)
  match values? with
  | none => exact pure ht
  | some [] => exact pure ht
  | some (_ :: _) => exact rejectOperation (lenient _ rfl rfl)

theorem initialValues {count : Nat} {value? : Option Expr}
    (readable : Readable allowed ctx s (initialNames value?)) :
    Ends allowed (initialValues ctx count value?) s fun values? t =>
      Abides s t ∧ ∀ values ∈ values?, values.length = count := by
  cases value? with
  | some e => exact replayValues lenient here readable
  | none =>
      refine bind (readZero lenient fun zero => pure ⟨.refl s, fun values hv => ?_⟩)
      obtain rfl := Option.some.inj hv
      exact List.length_replicate

theorem replayLeave
    (bound : ∀ x ∈ ctx.graph.returns, s.bindings.lookup x = none → allowed (.unboundReturn x)) :
    Ends allowed (replayLeave ctx) s fun r t => r = false ∧ Abides s t := by
  refine bind (leaveByReturn lenient here fun values _ => ?_)
  refine ite (fun _ => bind (get (rejectOperation (lenient _ rfl rfl)))) fun _ => ?_
  refine bind (mono (checkReturned lenient fun p hp hn => ?_) fun _ t ht => ?_)
  · exact bound p.1 (List.of_mem_zip hp).1 hn
  · exact pure ⟨rfl, ((Abides.refl s).log _ _).trans ht⟩

end Ends

end Replay

open Replay

-- A report only has codes of mismatches that are allowed.
theorem Subject.allowed_of_hasCode {s : Subject} {settings : Settings} {report : Report}
    {allowed : Mismatch → Prop}
    (ends : Ends allowed (replayMain (s.context settings) s.program) (State.start s.flow.main)
      fun _ _ => True)
    (h : validate? s settings = some report) {c : Code} (hc : report.hasCode c = true) :
    ∃ m : Mismatch, allowed m ∧ m.code = c := by
  have mild : (State.start s.flow.main).Mild allowed := fun w hw => absurd hw List.not_mem_nil
  have outcome := ends mild
  obtain ⟨f, hf, hcode⟩ := found_of_hasCode h hc
  refine ⟨f.mismatch, ?_, hcode⟩
  unfold run at hf
  cases hm : replayMain (s.context settings) s.program (State.start s.flow.main) with
  | ok u t =>
      rw [hm] at outcome hf
      exact outcome.1 f (hf.resolve_left nofun)
  | error e t =>
      rw [hm] at outcome hf
      rcases hf with hf | hf
      · unfold Run.fatal? at hf
        split at hf
        · next found hh =>
            exact Option.some.inj hf ▸ outcome.2 found (Option.some.inj hh)
        · exact absurd hf nofun
      · exact outcome.1 f hf

end SsaReplay
