import SsaReplay.Proofs.Warnings.Loop

namespace SsaReplay

open SsaReplay.Replay
open SsaReplay.Yul (Block Case Literal Stmt blockIds)
open SsaReplay.Replay.Quiet (looping)

namespace Yul

theorem stmtBlocks_subset {a : Stmt} {statements : List Stmt} (h : a ∈ statements) :
    stmtBlocks a ⊆ stmtsBlocks statements := by
  induction statements with
  | nil => exact absurd h List.not_mem_nil
  | cons first rest ih =>
      rcases List.mem_cons.mp h with rfl | h
      · exact List.subset_append_left _ _
      · exact List.Subset.trans (ih h) (List.subset_append_right _ _)

theorem stmtBlocks_subset_block {a : Stmt} (id : NodeId) {statements : List Stmt}
    (h : a ∈ statements) : stmtBlocks a ⊆ stmtBlocks (.block (.mk id statements)) :=
  List.Subset.trans (stmtBlocks_subset h) (List.subset_cons_self _ _)

theorem casesBlocks_subset {value? : Option Literal} {body : Block} {cases : List Case}
    (h : .mk value? body ∈ cases) : body.subBlocks ⊆ casesBlocks cases := by
  induction cases with
  | nil => exact absurd h List.not_mem_nil
  | cons first rest ih =>
      obtain ⟨first?, inside⟩ := first
      rcases List.mem_cons.mp h with same | h
      · obtain ⟨rfl, rfl⟩ := Case.mk.inj same
        exact List.subset_append_left _ _
      · exact List.Subset.trans (ih h) (List.subset_append_right _ _)

end Yul

section Blocks

variable {subject : Subject} {settings : Settings} {ctx : Context} {a b : Stmt} {s t : State}

theorem Replay.StepsInto.blocks_subset (h : StepsInto ctx a s b t) :
    Yul.stmtBlocks b ⊆ Yul.stmtBlocks a := by
  cases h with
  | block opened definitions before other =>
      exact Yul.stmtBlocks_subset_block _ (List.mem_append_right _ List.mem_cons_self)
  | cond tested into => exact List.Subset.refl _
  | case tests before compared exit zero into =>
      exact Yul.casesBlocks_subset (List.mem_append_right _ List.mem_cons_self)
  | default tests before =>
      exact Yul.casesBlocks_subset (List.mem_append_right _ List.mem_cons_self)
  | pre => exact List.Subset.trans (List.subset_append_left _ _) (List.subset_append_left _ _)

-- The run comes to no block that is not in the program.
theorem Subject.Undertakes.blocks_subset (h : subject.Undertakes settings ctx a s) :
    Yul.stmtBlocks a ⊆ subject.program.subBlocks := by
  induction h with
  | program => exact List.Subset.refl _
  | inside begun step ih => exact List.Subset.trans step.blocks_subset ih
  | @definition _ _ id earlier later d _ _ _ _ begun opened before enters ih =>
      have member : Stmt.funDef d.name d.parameters d.returns d.body ∈
          earlier ++ .funDef d.name d.parameters d.returns d.body :: later :=
        List.mem_append_right _ List.mem_cons_self
      have within := Yul.stmtBlocks_subset_block id member
      exact List.Subset.trans within ih
  | body begun pass tested ih => exact (List.append_subset.mp ih).2
  | post begun pass enters ih =>
      have parts := (List.append_subset.mp ih).1
      exact (List.append_subset.mp parts).2

end Blocks

section Accounts

variable {subject : Subject} {settings : Settings}

-- The recursion is that of the replay. A definition is accounted for by its body.
mutual
theorem accounts_stmt (a : Stmt) : Accounts subject settings a.core := by
  cases a with
  | expr e => exact fun _ _ _ => .quiet (looping.replayBare e)
  | assign names e => exact fun _ _ _ => .quiet (looping.replayAssignment names e)
  | letDecl names value? => exact fun _ _ _ => .quiet (looping.replayLet names value?)
  | funDef name parameters returns body => exact accounts_block body
  | cond condition body => exact fun _ _ begun => .replayIf (accounts_block body) begun
  | switch e cases => exact fun _ _ begun => .replaySwitch (accounts_cases cases) begun
  | forLoop pre condition post body =>
      cases pre with
      | mk id statements =>
          refine fun _ _ begun => .inBlock fun scope opened => ?_
          exact .replayFor (accounts_all statements) (accounts_block body) (accounts_block post)
            begun opened
  | breakLoop => exact fun _ _ _ => .quiet (looping.replayLoopJump .exits)
  | continueLoop => exact fun _ _ _ => .quiet (looping.replayLoopJump .continues)
  | leave => exact fun _ _ _ => .quiet .replayLeave
  | block body => exact accounts_block body
theorem accounts_block (b : Block) : Accounts subject settings (.block b) := by
  cases b with
  | mk id statements =>
      exact fun _ _ begun => .inBlock fun _ opened => .inside (accounts_all statements) begun opened
theorem accounts_all (statements : List Stmt) :
    ∀ a ∈ statements, Accounts subject settings a.core := by
  cases statements with
  | nil => exact fun _ h => absurd h List.not_mem_nil
  | cons first rest =>
      exact List.forall_mem_cons.mpr ⟨accounts_stmt first, accounts_all rest⟩
theorem accounts_cases (cases : List Case) :
    ∀ value? body, .mk value? body ∈ cases → Accounts subject settings (.block body) := by
  cases cases with
  | nil => exact fun _ _ h => absurd h List.not_mem_nil
  | cons first rest =>
      obtain ⟨first?, inside⟩ := first
      intro value? body h
      rcases List.mem_cons.mp h with same | h
      · obtain ⟨rfl, rfl⟩ := Case.mk.inj same
        exact accounts_block body
      · exact accounts_cases rest value? body h
end

end Accounts

-- The main graph is left without a warning.
theorem Subject.added_run (subject : Subject) (settings : Settings) :
    Added subject settings (blockIds [.block subject.program]) []
      (subject.run settings).warnings := by
  have whole : Adds subject settings (blockIds [.block subject.program])
      (replayMain (subject.context settings) subject.program) (State.start subject.flow.main) := by
    refine .after (.record _) fun _ t ht => ?_
    obtain rfl := record_eq_ok.mp ht
    refine .before (accounts_block subject.program _ _ .program) fun falls => ?_
    exact .ite (Quiet.unmoved.leaveBy fun _ _ _ _ => .record _) (.pure ())
  have same : (ending (replayMain (subject.context settings) subject.program)
      (State.start subject.flow.main)).warnings = (subject.run settings).warnings := by
    unfold ending Subject.run
    cases replayMain (subject.context settings) subject.program (State.start subject.flow.main) <;>
      rfl
  exact same ▸ whole

-- A program that was laid out names each of its blocks once.
theorem Yul.nodup_blockIds {draft : List Yul.Draft} {program : Block} {a : Yul.Analysis}
    (built : Yul.program? draft = .ok (program, a)) : (blockIds [.block program]).Nodup := by
  have whole : blockIds [.block program] = program.subBlocks.map Block.id := by
    simp [blockIds, Yul.stmtsBlocks, Yul.stmtBlocks]
  rw [whole, (Yul.Layout.mirrors_of_ok built).numbered]
  exact List.nodup_range.map fun _ _ same => NodeId.mk.inj same

-- However often its loops are replayed, and the definitions inside them: a run that is over,
-- accepted or not, warns of a block at most once, and only of statements that are never
-- reached. The block is one of the program that the run came to. There control got past all
-- statements up to one that it did not get past, and as many as the warning says come after it.
theorem warned_once {draft : List Yul.Draft} {program : Block} {a : Yul.Analysis}
    (built : Yul.program? draft = .ok (program, a)) (dialect : Yul.Dialect)
    (flow : Graph.ControlFlow) (settings : Settings) :
    let subject : Subject := ⟨program, a, dialect, flow⟩
    ((subject.run settings).warnings.map Finding.node?).Nodup ∧
      ∀ f ∈ (subject.run settings).warnings, ∃ ctx b s count w, b ∈ program.subBlocks ∧
        subject.Undertakes settings ctx (.block b) s ∧ StopsShort ctx b s count w ∧ 0 < count ∧
        f = ⟨.unreachable count b.id, ctx.blockAt w.block, ctx.site⟩ := by
  intro subject
  obtain ⟨warnings, hw, bears, counts⟩ := subject.added_run settings
  rw [List.nil_append] at hw
  rw [hw]
  refine ⟨List.nodup_iff_count_le_one.mpr fun id? => ?_, fun f hf => ?_⟩
  · cases id? with
    | none =>
        have named : none ∉ warnings.map Finding.node? := by
          intro hm
          obtain ⟨f, hf, unnamed⟩ := List.mem_map.mp hm
          obtain ⟨ctx, b, s, count, w, -, -, -, rfl⟩ := bears f hf
          exact nomatch unnamed
        rw [List.count_eq_zero.mpr named]
        exact Nat.zero_le 1
    | some id =>
        have once := List.nodup_iff_count_le_one.mp (Yul.nodup_blockIds built) id
        exact Nat.le_trans (counts id) once
  · obtain ⟨ctx, b, s, count, w, begun, short, some, rfl⟩ := bears f hf
    exact ⟨ctx, b, s, count, w, begun.blocks_subset b.mem_subBlocks, begun, short, some, rfl⟩

-- A loop is passed over twice. On either pass, statements in its body are never reached, and
-- neither is one in the function defined there, which has a function in turn.
namespace Recounting

open SsaReplay.Graph (Cfg)

def draft : List Yul.Draft :=
  [.letDecl ["n"] (some (.call "calldatasize" [])),
    .forLoop [] (.ident "n") [.assign ["n"] (.call "sub" [.ident "n", .literal (.number 1)])]
      [.funDef "f" [] [] [.leave, .expr (.call "f" []), .funDef "g" [] [] []],
        .expr (.call "sstore" [.ident "n", .ident "n"]), .continueLoop,
        .block [.leave], .expr (.call "f" [])]]

def callee (f : FunctionId) : Cfg := Cfg.ofSteps (some f) [.exit (.functionReturn [])]

def program : Block × Yul.Analysis := Yul.laidOut draft

def flow : Graph.ControlFlow := ⟨Counting.graph, [(⟨0⟩, callee ⟨0⟩), (⟨1⟩, callee ⟨1⟩)]⟩

def subject : Subject := ⟨program.1, program.2, .evm, flow⟩

def settings : Settings := { Settings.default with reportUnreachable := true }

theorem laid : Yul.program? draft = .ok (program.1, program.2) :=
  Yul.program?_eq_laidOut (by decide +kernel)

-- What is found on the way, the passes that are taken back among it.
def found : List (Option NodeId) :=
  (subject.run settings).history.filterMap fun e =>
    match e.event with
    | .found m l => some (Finding.node? ⟨m, l, e.site⟩)
    | _ => none

theorem warned_once_here :
    (subject.run settings).halt?.isNone = true ∧
    found = [some ⟨4⟩, some ⟨3⟩, some ⟨4⟩, some ⟨3⟩] ∧
    (subject.run settings).warnings.map Finding.node? = [some ⟨4⟩, some ⟨3⟩] ∧
    ((subject.run settings).warnings.map Finding.node?).Nodup ∧
    ∀ f ∈ (subject.run settings).warnings, ∃ ctx b s count w, b ∈ program.1.subBlocks ∧
      subject.Undertakes settings ctx (.block b) s ∧ StopsShort ctx b s count w ∧ 0 < count ∧
      f = ⟨.unreachable count b.id, ctx.blockAt w.block, ctx.site⟩ := by
  refine ⟨by decide +kernel, by decide +kernel, by decide +kernel, ?_⟩
  exact warned_once laid .evm flow settings

end Recounting

end SsaReplay
