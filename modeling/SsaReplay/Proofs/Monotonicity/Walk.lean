import SsaReplay.Proofs.Monotonicity.Order
import SsaReplay.Proofs.Success.Branch

namespace SsaReplay.Replay

open SsaReplay.Graph (Callee Operation)
open SsaReplay.Yul (Expr Literal)

-- The replay gave up on a loop whose bindings were not stable after the passes allowed.
def Unsettled {α : Type} (result : EStateM.Result Halt State α) : Prop :=
  ∃ f t, result = .error (.mismatch f) t ∧ f.mismatch.code = .loopDidNotConverge

theorem not_unsettled_ok {α : Type} {a : α} {t : State} : ¬Unsettled (.ok a t) := by
  rintro ⟨f, u, h, -⟩
  exact absurd h (by simp)

theorem Unsettled.bind {α β : Type} {x : Walk α} {s : State} (h : Unsettled (x s))
    (f : α → Walk β) : Unsettled ((x >>= f) s) := by
  obtain ⟨finding, t, hx, hcode⟩ := h
  refine ⟨finding, t, ?_, hcode⟩
  change EStateM.bind x f s = _
  simp only [EStateM.bind, hx]

theorem Unsettled.closing {α : Type} {x : Walk α} {s : State} (h : Unsettled (x s))
    (close : State → State) : Unsettled (closing close x s) := by
  obtain ⟨finding, t, hx, hcode⟩ := h
  exact ⟨finding, close t, by rw [closing_eq, hx], hcode⟩

theorem bind_of_ok {α β : Type} {x : Walk α} {f : α → Walk β} {s u : State} {a : α}
    (h : x s = .ok a u) : (x >>= f) s = f a u := by
  change EStateM.bind x f s = _
  simp only [EStateM.bind, h]

-- From a state above, the upper walk gets through wherever the lower one does, or gives
-- up on a loop.
def Follows {α β : Type} (R : α → β → Prop) (lower : Walk α) (upper : Walk β) : Prop :=
  ∀ s S a t, s.Below S → lower s = .ok a t →
    Unsettled (upper S) ∨ ∃ A T, upper S = .ok A T ∧ R a A ∧ t.Below T

namespace State.Below

variable {s S : State}

theorem log (h : s.Below S) (site : Site) (e E : Event) : (s.log site e).Below (S.log site E) :=
  ⟨h.scope, h.block, h.op, h.bindings, h.loops⟩

theorem set_bindings (h : s.Below S) {b B : Bindings} (hb : b.Below B) :
    State.Below { s with bindings := b } { S with bindings := B } :=
  ⟨h.scope, h.block, h.op, hb, h.loops⟩

theorem follow (h : s.Below S) (site : Site) (source target : BlockId) {b B : Bindings}
    (hb : b.Below B) : (s.follow site source target b).Below (S.follow site source target B) :=
  ⟨h.scope, rfl, rfl, hb, h.loops⟩

theorem consume (h : s.Below S) (site : Site) (op : Operation) :
    (s.consume site op).Below (S.consume site op) :=
  ⟨h.scope, h.block, congrArg (· + 1) h.op, h.bindings, h.loops⟩

end State.Below

namespace Follows

variable {α β γ δ : Type} {ctx : Context} {R : α → β → Prop} {Q : γ → δ → Prop}
  {x : Walk α} {X : Walk β}

theorem mono {R' : α → β → Prop} (h : Follows R x X) (hR : ∀ a A, R a A → R' a A) :
    Follows R' x X := by
  intro s S a t hs hx
  exact (h s S a t hs hx).imp_right fun ⟨A, T, hX, ha, ht⟩ => ⟨A, T, hX, hR a A ha, ht⟩

theorem pure {a : α} {A : β} (h : R a A) : Follows R (pure a) (pure A) := by
  intro s S b t hs hx
  obtain ⟨rfl, rfl⟩ := pure_eq_ok.mp hx
  exact .inr ⟨A, S, rfl, h, hs⟩

theorem bind {f : α → Walk γ} {F : β → Walk δ} (h : Follows R x X)
    (hf : ∀ a A, R a A → Follows Q (f a) (F A)) : Follows Q (x >>= f) (X >>= F) := by
  intro s S c t hs hx
  obtain ⟨a, u, ha, hc⟩ := bind_eq_ok.mp hx
  rcases h s S a u hs ha with hX | ⟨A, U, hX, hA, hu⟩
  · exact .inl (hX.bind F)
  · rw [bind_of_ok hX]
    exact hf a A hA u U c t hu hc

-- The same where both walks give the same.
theorem bind_eq {X : Walk α} {f : α → Walk γ} {F : α → Walk δ} (h : Follows Eq x X)
    (hf : ∀ a, Follows Q (f a) (F a)) : Follows Q (x >>= f) (X >>= F) := by
  refine h.bind fun a A ha => ?_
  subst ha
  exact hf a

theorem closing {close Close : State → State} (h : Follows R x X)
    (hc : ∀ t T, t.Below T → (close t).Below (Close T)) :
    Follows R (closing close x) (closing Close X) := by
  intro s S a t hs hx
  obtain ⟨u, ha, rfl⟩ := closing_eq_ok.mp hx
  rcases h s S a u hs ha with hun | ⟨A, U, hX, hA, hu⟩
  · exact .inl (hun.closing Close)
  · exact .inr ⟨A, Close U, closing_eq_ok.mpr ⟨U, hX, rfl⟩, hA, hc u U hu⟩

theorem reject {m : Mismatch} {l : Location} : Follows R (reject ctx m l) X :=
  fun _ _ _ _ _ h => absurd h reject_ne_ok

theorem rejectOperation {m : Mismatch} : Follows R (rejectOperation ctx m) X :=
  fun _ _ _ _ _ h => absurd h rejectOperation_ne_ok

theorem rejectBlock {m : Mismatch} : Follows R (rejectBlock ctx m) X :=
  fun _ _ _ _ _ h => absurd h rejectBlock_ne_ok

theorem ite {c C : Prop} [Decidable c] [Decidable C] {y : Walk α} {Y : Walk β} (hc : c ↔ C)
    (hx : c → Follows R x X) (hy : ¬c → Follows R y Y) :
    Follows R (if c then x else y) (if C then X else Y) := by
  by_cases h : c
  · rw [if_pos h, if_pos (hc.mp h)]
    exact hx h
  · rw [if_neg h, if_neg (mt hc.mpr h)]
    exact hy h

theorem get : Follows State.Below get get := by
  intro s S a t hs h
  obtain ⟨rfl, rfl⟩ := get_eq_ok.mp h
  exact .inr ⟨S, S, rfl, hs, hs⟩

theorem record {e E : Event} : Follows Eq (record ctx e) (record ctx E) := by
  intro s S a t hs h
  obtain rfl := record_eq_ok.mp h
  exact .inr ⟨a, _, record_eq_ok.mpr rfl, rfl, hs.log ctx.site e E⟩

theorem setBindings {b B : Bindings} (hb : b.Below B) :
    Follows Eq (setBindings b) (setBindings B) := by
  intro s S a t hs h
  obtain rfl := setBindings_eq_ok.mp h
  exact .inr ⟨a, _, setBindings_eq_ok.mpr rfl, rfl, hs.set_bindings hb⟩

theorem orReject {m M : Mismatch} {o : Option α} {O : Option β}
    (h : ∀ a, o = some a → ∃ A, O = some A ∧ R a A) :
    Follows R (orReject ctx m o) (orReject ctx M O) := by
  intro s S a t hs hx
  obtain ⟨ho, rfl⟩ := orReject_eq_ok.mp hx
  obtain ⟨A, hA, hR⟩ := h a ho
  exact .inr ⟨A, S, orReject_eq_ok.mpr ⟨hA, rfl⟩, hR, hs⟩

-- A walk that only looks at what both states have in common.
theorem reading {x : Walk α} {P : State → α → Prop} (hx : ∀ {s a t}, x s = .ok a t ↔ P s a ∧ s = t)
    (hP : ∀ {s S a}, s.Below S → P s a → P S a) : Follows Eq x x := by
  intro s S a t hs h
  obtain ⟨ha, rfl⟩ := hx.mp h
  exact .inr ⟨a, S, hx.mpr ⟨hP hs ha, rfl⟩, rfl, hs⟩

theorem blockData (b : BlockId) : Follows Eq (blockData ctx b) (blockData ctx b) :=
  reading blockData_eq_ok fun _ h => h

theorem resolveVariable (name : String) :
    Follows Eq (resolveVariable ctx name) (resolveVariable ctx name) :=
  reading resolveVariable_eq_ok fun hs h => hs.scope ▸ h

theorem resolveFunction (name : String) :
    Follows Eq (resolveFunction ctx name) (resolveFunction ctx name) :=
  reading resolveFunction_eq_ok fun hs h => hs.scope ▸ h

theorem readLiteral (l : Literal) : Follows Eq (readLiteral ctx l) (readLiteral ctx l) :=
  reading readLiteral_eq_ok fun _ h => h

theorem readZero : Follows Eq (readZero ctx) (readZero ctx) :=
  reading readZero_eq_ok fun _ h => h

theorem checkEdge (source target : BlockId) :
    Follows Eq (checkEdge ctx source target) (checkEdge ctx source target) :=
  reading checkEdge_eq_ok fun _ h => h

-- An exit of a given kind is the same in both states.
theorem leaving {x : Walk α} {make : α → Graph.Exit}
    (hx : ∀ {s a t}, x s = .ok a t ↔
      AtExit ctx s (make a) ∧ s.log ctx.site (.left s.block (make a)) = t) : Follows Eq x x := by
  intro s S a t hs h
  obtain ⟨ha, rfl⟩ := hx.mp h
  exact .inr ⟨a, _, hx.mpr ⟨ha.congr hs.block hs.op, rfl⟩, rfl, hs.log _ _ _⟩

theorem leaveByJump : Follows Eq (leaveByJump ctx) (leaveByJump ctx) := leaving leaveByJump_eq_ok

theorem leaveByBranch : Follows Eq (leaveByBranch ctx) (leaveByBranch ctx) :=
  leaving leaveByBranch_eq_ok

theorem leaveByReturn : Follows Eq (leaveByReturn ctx) (leaveByReturn ctx) :=
  leaving leaveByReturn_eq_ok

theorem leaveByTermination : Follows Eq (leaveByTermination ctx) (leaveByTermination ctx) :=
  leaving leaveByTermination_eq_ok

theorem advance (source target : BlockId) {b B : Bindings} (hb : b.Below B) :
    Follows Eq (advance ctx source target b) (advance ctx source target B) := by
  intro s S a t hs h
  obtain ⟨he, rfl⟩ := advance_eq_ok.mp h
  exact .inr ⟨a, _, advance_eq_ok.mpr ⟨he, rfl⟩, rfl, hs.follow _ _ _ hb⟩

theorem carry (source target : BlockId) :
    Follows Bindings.Below (carry ctx source target) (carry ctx source target) := by
  intro s S after t hs h
  obtain ⟨⟨data, pairs, hd, hp, rfl⟩, rfl⟩ := carry_eq_ok.mp h
  exact .inr ⟨_, _, carry_eq_ok.mpr ⟨⟨data, pairs, hd, hp, rfl⟩, rfl⟩,
    hs.bindings.acrossEdge _ _, hs.log _ _ _⟩

theorem merge (join : BlockId) {bs cs : List Bindings} (hb : List.Forall₂ Bindings.Below bs cs) :
    Follows Bindings.Below (merge ctx join bs) (merge ctx join cs) := by
  intro s S merged t hs h
  obtain ⟨hm, rfl⟩ := merge_eq_ok.mp h
  obtain ⟨M, hM, hbelow⟩ := Bindings.meet_mono hb hm
  exact .inr ⟨M, _, merge_eq_ok.mpr ⟨hM, rfl⟩, hbelow, hs.log _ _ _⟩

theorem checkPhiOwnership (join : BlockId) {b B : Bindings} (hb : b.Below B) :
    Follows Eq (checkPhiOwnership ctx join b) (checkPhiOwnership ctx join B) := by
  intro s S a t hs h
  obtain ⟨ho, rfl⟩ := checkPhiOwnership_eq_ok.mp h
  refine .inr ⟨a, S, checkPhiOwnership_eq_ok.mpr ⟨fun hc => ?_, rfl⟩, rfl, hs⟩
  obtain ⟨data, hd, hf⟩ := ho hc
  refine ⟨data, hd, ?_⟩
  rw [List.find?_eq_none] at hf ⊢
  intro phi hphi
  have held := hb.holders (by simpa using hf phi hphi)
  simpa using held

theorem consume (op : Operation) : Follows Eq (consume ctx op) (consume ctx op) := by
  intro s S a t hs h
  obtain rfl := consume_eq_ok.mp h
  exact .inr ⟨a, _, consume_eq_ok.mpr rfl, rfl, hs.consume _ _⟩

end Follows

-- Candidates of an expression. Only those of a variable depend on the bindings.
structure CandidatesBelow (e : Expr) (lower upper : ValueSet) : Prop where
  subset : ∀ v ∈ lower, v ∈ upper
  result : (∀ name, e ≠ .ident name) → upper = lower

theorem CandidatesBelow.refl (e : Expr) (c : ValueSet) : CandidatesBelow e c c :=
  ⟨fun _ h => h, fun _ => rfl⟩

abbrev OperandsBelow : List (Expr × ValueSet) → List (Expr × ValueSet) → Prop :=
  List.Forall₂ fun p q => q.1 = p.1 ∧ CandidatesBelow p.1 p.2 q.2

variable {ctx : Context}

theorem reconcile_of_reconciled {s t : State} {e : Expr} {candidates : ValueSet} {v : ValueId}
    (h : Reconciled ctx s e candidates v t) : reconcile ctx e candidates v s = .ok true t := by
  cases h with
  | named resolved bound member =>
      simp only [reconcile, bind_eq_ok, resolveVariable_eq_ok, get_eq_ok, ite_eq_ok,
        setBindings_eq_ok, pure_eq_ok]
      refine ⟨_, s, ⟨resolved, rfl⟩, s, s, ⟨rfl, rfl⟩, .inl ⟨?_, (), _, rfl, trivial, rfl⟩⟩
      rw [bound, Option.any_some]
      exact (ValueSet.contains_iff _ _).mpr member
  | result noName only =>
      cases e with
      | ident name => exact absurd rfl (noName name)
      | literal l => simp [reconcile, only]
      | call name arguments => simp [reconcile, only]

theorem Reconciled.mono {s S t : State} {e : Expr} {c C : ValueSet} {v : ValueId} (hs : s.Below S)
    (hc : CandidatesBelow e c C) (h : Reconciled ctx s e c v t) :
    ∃ T, Reconciled ctx S e C v T ∧ t.Below T := by
  cases h with
  | named resolved bound member =>
      obtain ⟨wider, hw, hsub⟩ := hs.bindings.refines _ _ bound
      exact ⟨_, .named (hs.scope ▸ resolved) hw (hsub v member),
        hs.set_bindings (hs.bindings.narrow _ _)⟩
  | result noName only =>
      rw [hc.result noName]
      exact ⟨S, .result noName only, hs⟩

namespace Follows

variable {α β : Type} {R : α → β → Prop}

-- Where the lower walk goes on only after an expression fits, the upper one does too.
theorem reconciled {e : Expr} {c C : ValueSet} (hc : CandidatesBelow e c C) (v : ValueId)
    {x : Walk α} {X : Walk β} {m M : Mismatch} (hx : Follows R x X) :
    Follows R (do if ← reconcile ctx e c v then x else Replay.rejectOperation ctx m)
      (do if ← reconcile ctx e C v then X else Replay.rejectOperation ctx M) := by
  intro s S a t hs h
  simp only [bind_eq_ok, ite_eq_ok, rejectOperation_ne_ok, and_false, or_false] at h
  obtain ⟨fits, u, hr, rfl, h⟩ := h
  obtain ⟨U, hR, hu⟩ := (reconciled_of_ok hr).mono hs hc
  rw [bind_of_ok (reconcile_of_reconciled hR), if_pos rfl]
  exact hx u U a t hu h

theorem readVariable (name : String) : Follows (fun c C : ValueSet => ∀ v ∈ c, v ∈ C)
    (readVariable ctx name) (readVariable ctx name) := by
  refine bind_eq (resolveVariable name) fun x => ?_
  exact bind get fun s S hs => orReject (hs.bindings.refines x)

theorem reconcileOperands (name : String) {operands uppers : List (Expr × ValueSet)}
    (ho : OperandsBelow operands uppers) {i : Nat} (inputs : List ValueId) :
    Follows Eq (reconcileOperands ctx name i operands inputs)
      (reconcileOperands ctx name i uppers inputs) := by
  induction ho generalizing i inputs with
  | nil => exact pure rfl
  | @cons operand upper operands uppers hp _ ih =>
      obtain ⟨e, c⟩ := operand
      obtain ⟨E, C⟩ := upper
      obtain ⟨rfl, hc⟩ := hp
      cases inputs with
      | nil => exact pure rfl
      | cons input inputs => exact reconciled hc input (ih inputs)

theorem checkCallee (name : String) (callee : Callee) (outputs : Nat) :
    Follows Eq (checkCallee ctx name callee outputs) (checkCallee ctx name callee outputs) := by
  cases callee with
  | builtin b =>
      unfold Replay.checkCallee
      cases ctx.dialect.named? name with
      | none => exact rejectOperation
      | some builtin =>
          refine ite Iff.rfl (fun _ => rejectOperation) fun _ => ?_
          exact ite Iff.rfl (fun _ => rejectOperation) fun _ => pure rfl
  | function f canContinue =>
      refine ite Iff.rfl (fun _ => rejectOperation) fun _ => ?_
      refine bind_eq (resolveFunction name) fun resolved => ?_
      refine ite Iff.rfl (fun _ => rejectOperation) fun _ => ?_
      refine bind_eq (orReject fun graph hg => ⟨graph, hg, rfl⟩) fun graph => ?_
      exact ite Iff.rfl (fun _ => rejectOperation) fun _ => pure rfl

theorem matchCall (name : String) {operands uppers : List (Expr × ValueSet)}
    (ho : OperandsBelow operands uppers) :
    Follows Eq (matchCall ctx name operands) (matchCall ctx name uppers) := by
  refine bind get fun s S hs => ?_
  rw [hs.block, hs.op, ← ho.length_eq]
  refine bind_eq (blockData s.block) fun data => ?_
  refine bind_eq (orReject fun op hop => ⟨op, hop, rfl⟩) fun op => ?_
  refine ite Iff.rfl (fun _ => rejectOperation) fun _ => ?_
  refine bind_eq (reconcileOperands name ho op.inputs) fun _ => ?_
  refine bind_eq (checkCallee name op.callee op.outputs.length) fun canContinue => ?_
  refine bind_eq (consume op) fun _ => ?_
  refine ite Iff.rfl (fun _ => pure rfl) fun _ => ?_
  exact bind_eq leaveByTermination fun _ => pure rfl

theorem oneValue {e : Expr} {values? uppers? : Option (List ValueSet)}
    (h : Option.Rel (List.Forall₂ (CandidatesBelow e)) values? uppers?) :
    Follows (Option.Rel (CandidatesBelow e)) (oneValue ctx values?) (oneValue ctx uppers?) := by
  intro s S value? t hs hv
  obtain ⟨⟨rfl, rfl⟩ | ⟨value, rfl, rfl⟩, rfl⟩ := oneValue_eq_ok.mp hv
  · cases h
    exact .inr ⟨none, S, rfl, .none, hs⟩
  · obtain ⟨hf⟩ | ⟨⟩ := h
    obtain ⟨⟩ | ⟨hc, ⟨⟩⟩ := hf
    exact .inr ⟨some _, S, rfl, .some hc, hs⟩

-- The recursion is that of the expression. What a call gives is fixed by its operation.
mutual
theorem replayExpr (e : Expr) : Follows (Option.Rel (List.Forall₂ (CandidatesBelow e)))
    (replayExpr ctx e) (replayExpr ctx e) := by
  cases e with
  | ident name =>
      refine bind (readVariable name) fun c C hc => pure (.some (.cons ⟨hc, ?_⟩ .nil))
      exact fun hn => absurd rfl (hn name)
  | literal l =>
      refine bind_eq (readLiteral l) fun v => ?_
      exact pure (.some (.cons (.refl _ _) .nil))
  | call name arguments =>
      refine bind (replayArguments _ 0 arguments) ?_
      rintro _ _ (ho | _)
      · refine (matchCall name ho).mono fun results? _ hr => ?_
        subst hr
        cases results? with
        | none => exact .none
        | some results => exact .some (List.forall₂_same.mpr fun c _ => .refl _ c)
      · exact pure .none
theorem replayArguments (skipped : Nat → Bool) (i : Nat) (arguments : List Expr) :
    Follows (Option.Rel OperandsBelow) (replayArguments ctx skipped i arguments)
      (replayArguments ctx skipped i arguments) := by
  cases arguments with
  | nil => exact pure (.some .nil)
  | cons e rest =>
      refine bind (replayArguments skipped (i + 1) rest) ?_
      rintro _ _ (ho | _)
      · refine ite Iff.rfl (fun _ => pure (.some ho)) fun _ => ?_
        refine bind (replayExpr e) fun values? uppers? hv => ?_
        refine bind (oneValue hv) ?_
        rintro _ _ (hc | _)
        · exact pure (.some (.cons ⟨rfl, hc⟩ ho))
        · exact pure .none
      · exact pure .none
end

theorem replayOne (e : Expr) :
    Follows (Option.Rel (CandidatesBelow e)) (replayOne ctx e) (replayOne ctx e) :=
  bind (replayExpr e) fun _ _ hv => oneValue hv

end Follows

end SsaReplay.Replay
