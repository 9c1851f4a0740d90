import SsaReplay.Graph.Construction
import SsaReplay.Proofs.Frame
import SsaReplay.Validation
import SsaReplay.Yul.Draft

namespace SsaReplay

open SsaReplay.Yul (Block Case Expr Literal Stmt)

-- Statements after which several paths meet.
def Yul.Stmt.Branches : Stmt → Prop
  | .cond .. => True
  | .forLoop .. => True
  | .switch _ cases => ∃ value body, Case.mk (some value) body ∈ cases
  | _ => False

theorem Yul.Stmt.branches_switch_iff {e : Expr} {cases : List Case} :
    (Stmt.switch e cases).Branches ↔ cases.any (fun | .mk value? _ => value?.isSome) = true := by
  rw [List.any_eq_true]
  constructor
  · rintro ⟨value, body, hc⟩
    exact ⟨_, hc, rfl⟩
  · rintro ⟨⟨value?, body⟩, hc, h⟩
    obtain ⟨value, rfl⟩ := Option.isSome_iff_exists.mp h
    exact ⟨value, body, hc⟩

instance : DecidablePred Yul.Stmt.Branches
  | .cond .. => .isTrue trivial
  | .forLoop .. => .isTrue trivial
  | .switch .. => decidable_of_iff _ Yul.Stmt.branches_switch_iff.symm
  | .expr _ | .assign .. | .letDecl .. | .funDef .. | .breakLoop | .continueLoop | .leave
  | .block _ => .isFalse id

namespace Replay

-- The state in which the replay of a switch's default comes to an end, whether or not
-- control falls through it.
inductive DefaultStops (ctx : Context) (s : State) : Stmt → State → Prop
  | mk {e : Expr} {cases : List Case} {candidates : ValueSet} {valued : List Arm}
      {body : Walk Bool} {join : SwitchJoin} {u v w : State} {falls : Bool}
      (value : replayOne ctx e s = .ok (some candidates) u)
      (split : splitDefault (replayArms ctx cases) = (valued, some body))
      (run : replayCases ctx e candidates valued .none u = .ok join v)
      (stops : body v = .ok falls w) : DefaultStops ctx s (.switch e cases) w

variable {ctx : Context} {s t : State}

theorem IfReplayed.op_eq {condition : Expr} {body : Walk Bool}
    (h : IfReplayed ctx condition body s true t) : t.op = 0 := by
  cases h <;> rfl

theorem LoopLeft.op_eq {exits : LoopEdges} (h : LoopLeft ctx exits s true t) : t.op = 0 := by
  cases h
  rfl

theorem IterateReplayed.op_eq {header : BlockId} {warnings iteration : Nat} {parts : LoopParts}
    {entry : Bindings} {r : Bool}
    (h : IterateReplayed ctx header warnings parts iteration entry s r t) (hr : r = true) :
    t.op = 0 := by
  induction h with
  | settled pass stable owned left =>
      subst hr
      exact left.op_eq
  | again pass refines next ih => exact ih hr

theorem ForReplayed.op_eq {pre : Walk Bool} {condition : Expr} {body : Walk Bool}
    {postEmpty : Bool} {post : Walk Bool}
    (h : ForReplayed ctx pre condition body postEmpty post s true t) : t.op = 0 := by
  cases h with
  | never => rfl
  | loop run exit carries edge unlessZero iterate => exact iterate.op_eq rfl

-- What remains of a switch after a case starts with a block of its own.
theorem CasesReplayed.op_eq {e : Expr} {candidates : ValueSet} {arms : List Arm}
    {join last : SwitchJoin} (h : CasesReplayed ctx e candidates arms join s last t)
    (hs : arms ≠ [] ∨ s.op = 0) : t.op = 0 := by
  induction h with
  | nil => exact hs.resolve_left (absurd rfl)
  | cons first others ih =>
      refine ih (.inr ?_)
      cases first
      rfl

theorem Settled.op_eq {join : SwitchJoin} (h : Settled ctx join s true t) :
    t.op = 0 ∧ s.block ≠ t.block ∨ t.block = s.block ∧ t.op = s.op := by
  cases h with
  | advanced found meets owned elsewhere edge => exact .inl ⟨rfl, elsewhere⟩
  | there => exact .inr ⟨rfl, rfl⟩

theorem ArmReplayed.stops {body : Walk Bool} {join next : SwitchJoin}
    (h : ArmReplayed ctx body join s next t) :
    ∃ falls w, body s = .ok falls w ∧ t.block = w.block ∧ t.op = w.op := by
  cases h with
  | left run => exact ⟨false, t, run, rfl, rfl⟩
  | @joined _ _ w run => exact ⟨true, w, run, rfl, rfl⟩

theorem FallbackReplayed.op_eq {join : SwitchJoin}
    (h : FallbackReplayed ctx none join s true t) (hs : s.op = 0) : t.op = 0 := by
  cases h with
  | unjoined noEdge => exact hs
  | direct found here settled =>
      rcases settled.op_eq with ⟨ht, -⟩ | ⟨-, ht⟩
      · exact ht
      · exact ht.trans hs
  | through found elsewhere arm settled =>
      rcases settled.op_eq with ⟨ht, -⟩ | ⟨-, ht⟩
      · exact ht
      · obtain ⟨falls, w, hw, -, ho⟩ := arm.stops
        obtain ⟨-, rfl⟩ := pure_eq_ok.mp hw
        exact (ht.trans ho).trans hs

theorem mem_replayArms {cases : List Case} {value? : Option Literal} {body : Block}
    (h : Case.mk value? body ∈ cases) : (value?, replayBlock ctx body) ∈ replayArms ctx cases := by
  induction cases with
  | nil => exact absurd h List.not_mem_nil
  | cons c rest ih =>
      obtain ⟨value', body'⟩ := c
      rw [replayArms]
      rcases List.mem_cons.mp h with h | h
      · obtain ⟨rfl, rfl⟩ := Case.mk.inj h
        exact List.mem_cons_self
      · exact List.mem_cons_of_mem _ (ih h)

-- A case with a value is none that is set apart as the default.
theorem splitDefault_ne_nil {arms valued : List Arm} {default? : Option (Walk Bool)}
    {value : Literal} {body : Walk Bool} (h : splitDefault arms = (valued, default?))
    (hm : (some value, body) ∈ arms) : valued ≠ [] := by
  unfold splitDefault at h
  split at h
  · next other hl =>
    obtain ⟨rfl, -⟩ := Prod.mk.inj h
    obtain ⟨init, rfl⟩ := List.getLast?_eq_some_iff.mp hl
    rintro hn
    rw [List.dropLast_concat] at hn
    subst hn
    simp at hm
  · obtain ⟨rfl, -⟩ := Prod.mk.inj h
    exact List.ne_nil_of_mem hm

theorem replaySwitch_op_eq {e : Expr} {cases : List Case}
    (hb : ∃ value body, Case.mk (some value) body ∈ cases)
    (h : replaySwitch ctx e (replayArms ctx cases) s = .ok true t) :
    t.op = 0 ↔ ∀ w, DefaultStops ctx s (.switch e cases) w → w.block = t.block → w.op = 0 := by
  obtain ⟨value, arm, hm⟩ := hb
  simp only [replaySwitch, bind_eq_ok] at h
  obtain ⟨candidates?, u, hv, h⟩ := h
  cases candidates? with
  | none => simp at h
  | some candidates =>
      cases hs : splitDefault (replayArms ctx cases) with
      | mk valued default? =>
          have hne := splitDefault_ne_nil hs (mem_replayArms hm)
          obtain ⟨first, rest, rfl⟩ := List.exists_cons_of_ne_nil hne
          simp only [hs, bind_eq_ok] at h
          obtain ⟨join, v, hc, hf⟩ := h
          have hop := (casesReplayed_of_ok hc).op_eq (.inl hne)
          cases default? with
          | none =>
              refine ⟨fun _ w hw => ?_, fun _ => (fallbackReplayed_of_ok hf).op_eq hop⟩
              cases hw with
              | mk value' split' run' stops' =>
                  exact absurd (Prod.mk.inj (hs.symm.trans split')).2 (by simp)
          | some body =>
              cases fallbackReplayed_of_ok hf with
              | default reached settled =>
                  obtain ⟨falls, w, hw, hblock, hw0⟩ := reached.stops
                  -- The default stops in just one state.
                  have only : ∀ x, DefaultStops ctx s (.switch e cases) x → x = w := by
                    intro x hx
                    cases hx with
                    | mk value' split' run' stops' =>
                        obtain ⟨rfl, hbody⟩ := Prod.mk.inj (hs.symm.trans split')
                        obtain rfl := Option.some.inj hbody
                        obtain ⟨hcand, rfl⟩ := EStateM.Result.ok.inj (hv.symm.trans value')
                        obtain rfl := Option.some.inj hcand
                        obtain ⟨rfl, rfl⟩ := EStateM.Result.ok.inj (hc.symm.trans run')
                        exact (EStateM.Result.ok.inj (stops'.symm.trans hw)).2
                  rcases settled.op_eq with ⟨ht, hne⟩ | ⟨hsame, ht⟩
                  · refine ⟨fun _ x hx hxb => ?_, fun _ => ht⟩
                    obtain rfl := only x hx
                    exact absurd (hblock.trans hxb) hne
                  · rw [ht, hw0]
                    refine ⟨fun h0 x hx _ => only x hx ▸ h0, fun hall => ?_⟩
                    exact hall w (.mk hv hs hc hw) (hsame.trans hblock).symm

-- Where a statement with several paths is fallen through, what follows starts with the
-- first operation of the block in which the paths meet. The one exception is a switch
-- whose default ends in that very block, past some of its operations.
theorem op_eq_zero_iff {statement : Stmt} (hb : statement.Branches)
    (h : replayStmt ctx statement s = .ok true t) :
    t.op = 0 ↔ ∀ w, DefaultStops ctx s statement w → w.block = t.block → w.op = 0 := by
  cases statement with
  | cond condition body =>
      rw [replayStmt] at h
      exact ⟨fun _ _ hw => (nomatch hw), fun _ => (ifReplayed_of_ok h).op_eq⟩
  | forLoop pre condition post body =>
      refine ⟨fun _ _ hw => (nomatch hw), fun _ => ?_⟩
      cases pre with
      | mk id statements =>
          rw [replayStmt] at h
          obtain ⟨scope, u, -, hu, rfl⟩ := inBlock_eq_ok.mp h
          exact (forReplayed_of_ok hu).op_eq
  | switch e cases =>
      rw [replayStmt] at h
      exact replaySwitch_op_eq hb h
  | _ => exact absurd hb id

end Replay

-- A function that does nothing when its argument is one, and otherwise stores and leaves.
-- In its graph, both ways meet in the block that stores and returns.
namespace Leaving

open SsaReplay.Graph (Cfg)
open SsaReplay.Replay

def draft : List Yul.Draft :=
  [.funDef "f" ["x"] []
    [.switch (.ident "x")
      [.mk (some 1) [],
        .mk none [.expr (.call "sstore" [.literal (.number 0), .literal (.number 0)]), .leave]]]]

def graph : Cfg :=
  Cfg.ofSteps (some ⟨0⟩) [.argument ⟨0⟩, .literal 0, .literal 1,
    .operation (.builtin ⟨11⟩) [⟨2⟩, ⟨0⟩] 1, .block, .block, .exit (.branch ⟨⟨3⟩, ⟨1⟩, ⟨2⟩⟩),
    .moveTo ⟨1⟩, .exit (.jump ⟨2⟩), .moveTo ⟨2⟩, .operation (.builtin ⟨29⟩) [⟨1⟩, ⟨1⟩] 0,
    .exit (.functionReturn [])]

def program : Yul.Block × Yul.Analysis := Yul.laidOut draft

def subject : Subject := ⟨program.1, program.2, .evm, ⟨Cfg.start none, [(⟨0⟩, graph)]⟩⟩

def context : Context := (subject.context .default).within ⟨0⟩ graph

def function : Stmt := program.1.statements.headD .leave

-- Irreducible, since to see what statement it is takes a run of the layout.
@[irreducible]
def switch : Stmt := function.body.statements.headD .leave

-- The state in which the replay comes to the switch.
def start : State :=
  { State.start graph with scope? := some ⟨2⟩, bindings := Bindings.empty.assign ⟨0⟩ (.single ⟨0⟩) }

theorem branches : switch.Branches := by decide +kernel

-- The program is accepted, although the graph stores where the argument is one: after
-- the switch, the replay takes the store of the common block as done.
theorem operation_skipped :
    judge subject .default = .accepted ∧ switch.Branches ∧
      ∃ t, replayStmt context switch start = .ok true t ∧ t.op = 1 := by
  refine ⟨by decide +kernel, branches, ?_⟩
  have hsome : (after? (replayStmt context switch) start).any (fun t => t.op = 1) = true := by
    decide +kernel
  obtain ⟨t, ht, hop⟩ := (Option.any_eq_true _ _).mp hsome
  exact ⟨t, after?_eq_some.mp ht, of_decide_eq_true hop⟩

theorem op_eq_zero_iff_here :
    switch.Branches ∧ ∃ t, replayStmt context switch start = .ok true t ∧
      (t.op = 0 ↔ ∀ w, DefaultStops context start switch w → w.block = t.block → w.op = 0) := by
  obtain ⟨t, passed⟩ : ∃ t, replayStmt context switch start = .ok true t :=
    exists_ok_of_isSome_after? (by decide +kernel)
  exact ⟨branches, t, passed, op_eq_zero_iff branches passed⟩

end Leaving

end SsaReplay
