import SsaReplay.Proofs.Acceptance
import SsaReplay.Proofs.Triple

namespace SsaReplay

-- The codes of mismatches that are about how a graph hangs together.
def Code.isStructural : Code → Bool
  | .invalidBlockRef | .invalidValueRef | .brokenEdge | .phiEntryMissing | .invalidPhi => true
  | _ => false

-- The codes of mismatches that are about whether a variable is bound.
def Code.isOfBinding : Code → Bool
  | .unboundVariable | .redeclaredVariable => true
  | _ => false

namespace Replay

open SsaReplay.Graph (BasicBlock Branch Cfg Exit)

-- Whatever was warned about so far is allowed.
def State.Mild (allowed : Mismatch → Prop) (s : State) : Prop :=
  ∀ w ∈ s.warnings, allowed w.mismatch

-- From the state on, a walk gets through with a result as described, or it stops with a
-- mismatch that is allowed. Its warnings are allowed if those before it are.
def Ends {α : Type} (allowed : Mismatch → Prop) (x : Walk α) (s : State)
    (Q : α → State → Prop) : Prop :=
  s.Mild allowed →
    match x s with
    | .ok a t => t.Mild allowed ∧ Q a t
    | .error h t => t.Mild allowed ∧ ∀ f, h = .mismatch f → allowed f.mismatch

-- Mismatches of most kinds are allowed anyway.
def Lenient (allowed : Mismatch → Prop) : Prop :=
  ∀ m : Mismatch, m.code.isStructural = false → m.code.isOfBinding = false → allowed m

-- Nothing is found about an edge that would not be allowed.
structure Vouched (allowed : Mismatch → Prop) (g : Cfg) (source target : BlockId) : Prop where
  start : g.block? source = none → allowed (.absentBlock source)
  finish : g.block? target = none → allowed (.absentBlock target)
  edge : ¬g.HasEdge source target → allowed (.noEdge source target)
  phis : ∀ data m, g.block? target = some data →
    phiArguments g source target data = .error m → allowed m

-- The arguments of phis are missing where the source is no entry, or at one of the phis.
theorem phiArguments_eq_error {g : Cfg} {source target : BlockId} {data : BasicBlock}
    {m : Mismatch} (h : phiArguments g source target data = .error m) :
    (data.entryOffset? source = none ∧ m = .notAnEntry source target) ∨
      ∃ offset phi, data.entryOffset? source = some offset ∧ phi ∈ data.phis ∧
        phiArgument g target data.entries.length offset phi = .error m := by
  unfold phiArguments at h
  split at h
  · exact absurd h (by simp)
  · cases hoffset : data.entryOffset? source with
    | none =>
        simp only [hoffset] at h
        exact .inl ⟨rfl, (Except.error.inj h).symm⟩
    | some offset =>
        simp only [hoffset] at h
        refine .inr ⟨offset, ?_⟩
        generalize data.phis = phis at h
        induction phis with
        | nil => exact absurd h nofun
        | cons phi rest ih =>
            rw [List.mapM_cons] at h
            cases hf : phiArgument g target data.entries.length offset phi with
            | error found =>
                rw [hf] at h
                obtain rfl := Except.error.inj h
                exact ⟨phi, rfl, List.mem_cons_self, hf⟩
            | ok pair =>
                rw [hf] at h
                cases hr : rest.mapM (phiArgument g target data.entries.length offset) with
                | error found =>
                    rw [hr] at h
                    obtain rfl := Except.error.inj h
                    obtain ⟨other, -, hmem, he⟩ := ih hr
                    exact ⟨other, rfl, List.mem_cons_of_mem _ hmem, he⟩
                | ok pairs =>
                    rw [hr] at h
                    exact absurd h nofun

namespace Ends

variable {α β : Type} {allowed : Mismatch → Prop} {ctx : Context} {s : State}
  {Q : α → State → Prop}

section Rules

theorem ends_iff {x : Walk α} : Ends allowed x s Q ↔
    ComesTo (·.Mild allowed) (fun h => ∀ f, h = .mismatch f → allowed f.mismatch) x s Q :=
  Iff.rfl

theorem pure {a : α} (h : Q a s) : Ends allowed (pure a) s Q :=
  ends_iff.mpr (.pure h)

theorem bind {x : Walk β} {f : β → Walk α}
    (h : Ends allowed x s fun b t => Ends allowed (f b) t Q) : Ends allowed (x >>= f) s Q :=
  ends_iff.mpr (.bind h)

theorem mono {x : Walk α} {P : α → State → Prop} (h : Ends allowed x s P)
    (hp : ∀ a t, P a t → Q a t) : Ends allowed x s Q :=
  ends_iff.mpr (.mono h hp)

theorem with_run {x : Walk α} (h : Ends allowed x s Q) :
    Ends allowed x s fun a t => Q a t ∧ x s = .ok a t :=
  ends_iff.mpr (.with_run h)

theorem ite {c : Prop} [Decidable c] {x y : Walk α} (hx : c → Ends allowed x s Q)
    (hy : ¬c → Ends allowed y s Q) : Ends allowed (if c then x else y) s Q :=
  ends_iff.mpr (.ite hx hy)

theorem get {Q : State → State → Prop} (h : Q s s) : Ends allowed get s Q :=
  ends_iff.mpr (.get h)

theorem modify {f : State → State} {Q : Unit → State → Prop}
    (hw : ∀ w ∈ (f s).warnings, w ∈ s.warnings) (h : Q () (f s)) :
    Ends allowed (modify f) s Q :=
  ends_iff.mpr (.modify (fun hs w hm => hs w (hw w hm)) h)

theorem record {e : Event} {Q : Unit → State → Prop} (h : Q () (s.log ctx.site e)) :
    Ends allowed (record ctx e) s Q :=
  modify (fun _ hm => hm) h

theorem setBindings {b : Bindings} {Q : Unit → State → Prop}
    (h : Q () { s with bindings := b }) : Ends allowed (setBindings b) s Q :=
  modify (fun _ hm => hm) h

theorem noOpenLoop : Ends allowed (throw .noOpenLoop) s Q :=
  ends_iff.mpr (.throw fun _ h => Halt.noConfusion h)

theorem reject {m : Mismatch} {l : Location} (hm : allowed m) :
    Ends allowed (reject ctx m l) s Q := by
  refine bind (record fun hs => ⟨hs, ?_⟩)
  rintro f hf
  obtain rfl := Halt.mismatch.inj hf
  exact hm

theorem rejectOperation {m : Mismatch} (hm : allowed m) :
    Ends allowed (rejectOperation ctx m) s Q :=
  bind (get (reject hm))

theorem rejectBlock {m : Mismatch} (hm : allowed m) : Ends allowed (rejectBlock ctx m) s Q :=
  bind (get (reject hm))

theorem orReject {m : Mismatch} {o : Option α} (hm : o = none → allowed m)
    (hq : ∀ a, o = some a → Q a s) : Ends allowed (orReject ctx m o) s Q := by
  cases o with
  | none => exact rejectOperation (hm rfl)
  | some a => exact pure (hq a rfl)

-- In another scope for a while.
theorem inScope {scope : ScopeId} {act : Walk α}
    (h : Ends allowed act { s with scope? := some scope }
      fun a t => Q a { t with scope? := s.scope? }) : Ends allowed (inScope scope act) s Q := by
  exact bind (get (bind (modify (fun _ hm => hm) (ends_iff.mpr (.closing (fun _ ht => ht) h)))))

-- Replaying another graph only adds to the warnings and the history.
theorem apart {graph : Cfg} {act : Walk Unit} {Q : Unit → State → Prop}
    (h : Ends allowed act (s.apartOn graph) fun _ _ => True)
    (hq : ∀ warnings history, Q () { s with warnings, history }) :
    Ends allowed (apart graph act) s Q :=
  ends_iff.mpr (.apart (fun hs => hs) (fun _ ht => ht) h hq)

end Rules

section Edge

variable {source target b : BlockId}

theorem blockData {Q : BasicBlock → State → Prop}
    (hm : ctx.graph.block? b = none → allowed (.absentBlock b))
    (hq : ∀ data, ctx.graph.block? b = some data → Q data s) :
    Ends allowed (blockData ctx b) s Q := by
  unfold Replay.blockData
  cases hd : ctx.graph.block? b with
  | none => exact reject (hm hd)
  | some data => exact pure (hq data hd)

theorem checkEdge {Q : Unit → State → Prop} (vouched : Vouched allowed ctx.graph source target)
    (hq : ctx.graph.HasEdge source target → Q () s) :
    Ends allowed (checkEdge ctx source target) s Q := by
  refine bind (blockData vouched.start fun start hs => ?_)
  refine bind (blockData vouched.finish fun finish hf => ?_)
  refine ite (fun he => pure (hq ⟨start, finish, hs, hf, he⟩)) fun hne => reject ?_
  refine vouched.edge ?_
  rintro ⟨start', finish', hs', hf', he⟩
  obtain rfl := Option.some.inj (hs.symm.trans hs')
  obtain rfl := Option.some.inj (hf.symm.trans hf')
  exact hne he

theorem advance {bindings : Bindings} {Q : Unit → State → Prop}
    (vouched : Vouched allowed ctx.graph source target)
    (hq : ctx.graph.HasEdge source target → Q () (s.follow ctx.site source target bindings)) :
    Ends allowed (advance ctx source target bindings) s Q :=
  bind (checkEdge vouched fun he => bind (record (modify (fun _ hm => hm) (hq he))))

theorem carry {Q : Bindings → State → Prop} (vouched : Vouched allowed ctx.graph source target)
    (hq : ∀ after, Carries ctx.graph source target s.bindings after →
      Q after (s.log ctx.site (.carried source target s.bindings after))) :
    Ends allowed (carry ctx source target) s Q := by
  refine bind (blockData vouched.finish fun data hd => ?_)
  cases hp : phiArguments ctx.graph source target data with
  | error m => exact reject (vouched.phis data m hd hp)
  | ok pairs =>
      exact bind (get (bind (record (pure (hq _ ⟨data, pairs, hd, hp, rfl⟩)))))

variable (lenient : Lenient allowed)

include lenient

theorem merge {contributions : List Bindings} {Q : Bindings → State → Prop}
    (hq : ∀ merged, Bindings.meet contributions = .ok merged →
      Q merged (s.log ctx.site (.merged target merged))) :
    Ends allowed (merge ctx target contributions) s Q := by
  unfold Replay.merge
  cases hm : Bindings.meet contributions with
  | error conflict => exact reject (lenient _ rfl rfl)
  | ok merged => exact bind (record (pure (hq merged hm)))

theorem checkPhiOwnership {bindings : Bindings} {Q : Unit → State → Prop}
    (hm : ctx.graph.block? target = none → allowed (.absentBlock target)) (hq : Q () s) :
    Ends allowed (checkPhiOwnership ctx target bindings) s Q := by
  refine ite (fun _ => bind (blockData hm fun data _ => ?_)) fun _ => pure hq
  cases data.phis.find? (fun phi => (bindings.holders phi).isEmpty) with
  | none => exact pure hq
  | some phi => exact reject (lenient _ rfl rfl)

variable (here : ctx.graph.block? s.block = none → allowed (.absentBlock s.block))

include here

theorem currentExit {Q : Exit → State → Prop} (hq : ∀ exit, AtExit ctx s exit → Q exit s) :
    Ends allowed (currentExit ctx) s Q := by
  refine bind (get (bind (blockData here fun data hd => ?_)))
  refine ite (fun _ => rejectOperation (lenient _ rfl rfl)) fun hle => pure (hq _ ?_)
  exact ⟨data, hd, Nat.le_of_not_lt hle, rfl⟩

theorem leaveBy {demand : ExitDemand} {view : Exit → Option α} (make : α → Exit)
    (hview : ∀ exit a, view exit = some a → exit = make a)
    (hq : ∀ a, AtExit ctx s (make a) → Q a (s.log ctx.site (.left s.block (make a)))) :
    Ends allowed (leaveBy ctx demand view) s Q := by
  refine bind (currentExit lenient here fun exit hx => bind (get ?_))
  cases hv : view exit with
  | none => exact rejectOperation (lenient _ rfl rfl)
  | some a =>
      obtain rfl := hview exit a hv
      exact bind (record (pure (hq a hx)))

theorem leaveByJump {Q : BlockId → State → Prop}
    (hq : ∀ target, AtExit ctx s (.jump target) →
      Q target (s.log ctx.site (.left s.block (.jump target)))) :
    Ends allowed (leaveByJump ctx) s Q :=
  leaveBy lenient here .jump (by intro exit a; cases exit <;> simp) hq

theorem leaveByBranch {Q : Branch → State → Prop}
    (hq : ∀ branch, AtExit ctx s (.branch branch) →
      Q branch (s.log ctx.site (.left s.block (.branch branch)))) :
    Ends allowed (leaveByBranch ctx) s Q :=
  leaveBy lenient here .branch (by intro exit a; cases exit <;> simp) hq

theorem leaveByReturn {Q : List ValueId → State → Prop}
    (hq : ∀ values, AtExit ctx s (.functionReturn values) →
      Q values (s.log ctx.site (.left s.block (.functionReturn values)))) :
    Ends allowed (leaveByReturn ctx) s Q :=
  leaveBy lenient here .functionReturn (by intro exit a; cases exit <;> simp) hq

theorem leaveByMainExit {Q : Unit → State → Prop}
    (hq : Q () (s.log ctx.site (.left s.block .mainExit))) :
    Ends allowed (leaveByMainExit ctx) s Q :=
  leaveBy lenient here (fun _ => .mainExit) (by intro exit a; cases exit <;> simp) fun _ _ => hq

theorem leaveByTermination {Q : Unit → State → Prop}
    (hq : Q () (s.log ctx.site (.left s.block .terminated))) :
    Ends allowed (leaveByTermination ctx) s Q :=
  leaveBy lenient here (fun _ => .terminated) (by intro exit a; cases exit <;> simp) fun _ _ => hq

end Edge

end Ends

end Replay

end SsaReplay
