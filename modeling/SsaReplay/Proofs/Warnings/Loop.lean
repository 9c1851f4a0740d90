import SsaReplay.Proofs.Warnings.Statement

namespace SsaReplay.Replay

open SsaReplay.Yul (Block Expr Stmt blockIds)
open Quiet (looping)

variable {subject : Subject} {settings : Settings} {ctx : Context} {ids ids' : List NodeId}
  {s t u v w x : State} {header : BlockId}

-- One more pass that is not stable.
theorem Reaches.snoc {warnings : Nat} {parts : LoopParts} {i j : Nat} {m m' refined : Bindings}
    {frame : LoopFrame} (h : Reaches ctx header warnings parts i m s j m' t)
    (run : passOver ctx header warnings parts j m' t = .ok frame u)
    (meets : Bindings.meet (m' :: frame.backEdges) = .ok refined) (unstable : refined ≠ m') :
    Reaches ctx header warnings parts i m s (j + 1) refined
      (u.log ctx.site (.merged header refined)) := by
  induction h with
  | here => exact .pass run meets unstable .here
  | pass first first_meets first_unstable _ ih =>
      exact .pass first first_meets first_unstable (ih run meets unstable)

namespace Adds

theorem replayPost {post : Walk Bool} (hp : Adds subject settings ids post s) :
    Adds subject settings ids (replayPost ctx header post) s := by
  refine .before hp fun _ => .ite (.bind .get fun _ => ?_) (.pure ())
  refine .bind looping.leaveByJump fun _ => .ite (Quiet.rejectOperation _) ?_
  refine .bind (looping.checkEdge _ _) fun _ => .bind (looping.carry _ _) fun _ => ?_
  exact .bind .innermost fun _ => .setInnermost _

theorem replayContinues {postEmpty : Bool} {post : Walk Bool}
    (hp : ∀ p, (∀ post, replayContinues ctx header postEmpty post s =
        Replay.replayPost ctx header post p) → Adds subject settings ids post p) :
    Adds subject settings ids (replayContinues ctx header postEmpty post) s := by
  refine .after .innermost fun frame _ hf => ?_
  obtain ⟨⟨outer, opened⟩, rfl⟩ := innermost_eq_ok.mp hf
  cases found : frame.continues.first? with
  | none => exact .quiet (.pure ())
  | some edge =>
      obtain ⟨source, target⟩ := edge
      dsimp only
      refine .ite (fun _ => .ite (fun _ => .quiet (.setInnermost _)) fun _ => .quiet (.reject _ _))
        fun elsewhere => ?_
      refine .after (.setInnermost _) fun _ _ h => .after (looping.merge _ _) fun merged _ hm => ?_
      refine .after (looping.checkPhiOwnership _ _) fun _ _ ho => ?_
      refine .after (looping.advance _ _ _) fun _ _ ha => ?_
      obtain ⟨old, outer', opened', rfl⟩ := setInnermost_eq_ok.mp h
      obtain ⟨rfl, rfl⟩ := List.cons.inj (opened.symm.trans opened')
      obtain ⟨meets, rfl⟩ := merge_eq_ok.mp hm
      obtain ⟨owned, rfl⟩ := checkPhiOwnership_eq_ok.mp ho
      obtain ⟨into, rfl⟩ := advance_eq_ok.mp ha
      refine replayPost (hp _ fun post => ?_)
      rw [found]
      exact replayContinues_of_post opened found elsewhere meets owned into post

-- The post block is looked for where the body leaves off.
theorem replayPass {parts : LoopParts}
    (hb : ∀ u, replayLoopCondition ctx parts.condition? s = .ok true u →
      Adds subject settings ids parts.body u)
    (hp : ∀ p, EntersPost ctx header parts s p → Adds subject settings ids' parts.post p) :
    Adds subject settings (ids ++ ids') (replayPass ctx header parts) s := by
  refine .after (looping.replayLoopCondition _) fun tests u condition =>
    .ite (fun h => ?_) fun _ => ?_
  · subst h
    refine .bind (hb u condition) fun falls v body => ?_
    have pass : ∀ post, Replay.replayPass ctx header { parts with post } s = (do
        if falls then jumpInLoop ctx .continues
        Replay.replayContinues ctx header parts.postEmpty post) v := fun post => by
      rw [Replay.replayPass, bind_of_ok condition, if_pos rfl]
      exact bind_of_ok body
    cases falls with
    | true =>
        refine .after (looping.jumpInLoop _) fun _ w jump => replayContinues fun p enters => hp p ?_
        intro post
        rw [pass, ← enters]
        exact bind_of_ok jump
    | false =>
        refine replayContinues fun p enters => hp p fun post => ?_
        rw [pass, ← enters]
        rfl
  · exact .quiet (.pure ())

-- A pass first takes back the warnings of the passes before it.
theorem passOver {warnings : Nat} {parts : LoopParts} {i : Nat} {m : Bindings}
    (pass : Adds subject settings ids (Replay.replayPass ctx header parts)
      (s.beginPass ctx.site header warnings i m)) :
    Added subject settings ids (s.warnings.take warnings)
      (ending (passOver ctx header warnings parts i m) s).warnings := by
  have whole : Adds subject settings ids
      (Replay.closing (fun s => { s with loops := s.loops.tail }) do
        Replay.replayPass ctx header parts
        innermost) (s.beginPass ctx.site header warnings i m) :=
    .closing (fun _ => rfl) (.before pass fun _ => .innermost)
  exact whole

variable {pre post body : Block} {condition : Expr}

-- Each pass starts with the warnings from before the loop, so the last one counts, whether
-- or not it comes to its end. The induction is on the passes that are left.
theorem iterate (entered : EntersLoop ctx pre condition s w)
    (passes : ∀ p, BeginsPass ctx pre condition post body s w.block p →
      Adds subject settings ids
        (Replay.replayPass ctx w.block (.ofLoop ctx condition post body)) p)
    {remaining i : Nat} {m : Bindings}
    (reached : Reaches ctx w.block w.warnings.length (.ofLoop ctx condition post body) 0
      w.bindings w i m x)
    (left : i + remaining = ctx.settings.maxLoopIterations)
    (added : Added subject settings ids w.warnings x.warnings) :
    Added subject settings ids w.warnings
      (ending (iterate ctx w.block w.warnings.length (.ofLoop ctx condition post body)
        remaining i m) x).warnings := by
  induction remaining generalizing i m x with
  | zero =>
      have rejected : Quiet (Replay.iterate ctx w.block w.warnings.length
        (.ofLoop ctx condition post body) 0 i m) := .reject _ _
      rwa [rejected x]
  | succ remaining ih =>
      have first : Added subject settings ids w.warnings
          (ending (Replay.passOver ctx w.block w.warnings.length
            (.ofLoop ctx condition post body) i m) x).warnings := by
        have rewound : x.warnings.take w.warnings.length = w.warnings := by
          obtain ⟨more, hx, -⟩ := added
          rw [hx, List.take_left]
        have passed := passOver (passes _ (.mk entered reached (by omega)))
        rwa [rewound] at passed
      rw [iterate_succ]
      refine ending_bind (P := fun t => Added subject settings ids w.warnings t.warnings)
        (fun _ _ => first) fun frame run => ?_
      generalize ending (Replay.passOver ctx w.block w.warnings.length
        (.ofLoop ctx condition post body) i m) x = u at first run
      have merged : Added subject settings ids w.warnings
          (ending (Replay.merge ctx w.block (m :: frame.backEdges)) u).warnings := by
        rwa [(looping.merge _ _) u]
      refine ending_bind (P := fun t => Added subject settings ids w.warnings t.warnings)
        (fun _ _ => merged) fun refined joined => ?_
      split
      · have left : Quiet (do checkPhiOwnership ctx w.block m; leaveLoop ctx frame.exits) :=
          .bind (looping.checkPhiOwnership _ _) fun _ => looping.leaveLoop _
        rwa [left]
      · next unstable =>
        obtain ⟨meets, hu⟩ := merge_eq_ok.mp joined
        rw [← hu] at merged ⊢
        exact ih (reached.snoc run meets unstable) (by omega) merged

theorem replayLoop (entered : EntersLoop ctx pre condition s w)
    (passes : ∀ p, BeginsPass ctx pre condition post body s w.block p →
      Adds subject settings ids
        (Replay.replayPass ctx w.block (.ofLoop ctx condition post body)) p) :
    Adds subject settings ids (replayLoop ctx (.ofLoop ctx condition post body)) w :=
  iterate entered passes .here (Nat.zero_add _) .refl

theorem replayFor {id : NodeId} {statements : List Stmt} {scope : ScopeId}
    (hp : ∀ a ∈ statements, Accounts subject settings a.core)
    (hb : Accounts subject settings (.block body)) (hq : Accounts subject settings (.block post))
    (begun : subject.Undertakes settings ctx (.forLoop (.mk id statements) condition post body) s)
    (opened : ctx.analysis.scopeOf? id = some scope) :
    Adds subject settings (blockIds [.forLoop (.mk id statements) condition post body])
      (replayFor ctx (inTurn (Replay.replayDefinitions ctx statements)
        (replayOthers ctx id statements)) condition (replayBlock ctx body) post.statements.isEmpty
        (replayBlock ctx post)) { s with scope? := some scope } := by
  have passes : ∀ w, EntersLoop ctx (.mk id statements) condition s w →
      Adds subject settings (blockIds [.block body] ++ blockIds [.block post])
        (Replay.replayLoop ctx (.ofLoop ctx condition post body)) w := by
    refine fun w entered => replayLoop entered fun p pass => replayPass (fun u tested => ?_) ?_
    · exact hb ctx u (.body begun pass tested)
    · exact fun q enters => hq ctx q (.post begun pass enters)
  have whole : Adds subject settings (blockIds [.block (.mk id statements)] ++
      (blockIds [.block body] ++ blockIds [.block post]))
      (Replay.replayFor ctx (inTurn (Replay.replayDefinitions ctx statements)
        (replayOthers ctx id statements)) condition (replayBlock ctx body) post.statements.isEmpty
        (replayBlock ctx post)) { s with scope? := some scope } := by
    refine .bind (inside hp (.inside begun .pre) opened) fun falls u run => .ite (fun h => ?_)
      fun _ => .quiet (.pure false)
    subst h
    refine .after .get fun _ _ hg => .after looping.leaveByJump fun header _ hx => ?_
    refine .after (looping.carry _ _) fun entry _ hc =>
      .after (looping.advance _ _ _) fun _ _ ha => ?_
    obtain ⟨rfl, rfl⟩ := get_eq_ok.mp hg
    obtain ⟨exit, rfl⟩ := leaveByJump_eq_ok.mp hx
    obtain ⟨carries, rfl⟩ := carry_eq_ok.mp hc
    obtain ⟨edge, rfl⟩ := advance_eq_ok.mp ha
    cases condition with
    | literal l =>
        refine .after (looping.readLiteral _) fun v _ hv => ?_
        refine .ite (fun _ => .quiet (.pure true)) fun hz => ?_
        obtain ⟨literal, rfl⟩ := readLiteral_eq_ok.mp hv
        refine passes _ (.mk opened run exit carries edge fun l' hl => ?_)
        obtain rfl := Expr.literal.inj hl
        exact ⟨by simpa using hz, Option.isSome_of_eq_some literal⟩
    | ident name => exact passes _ (.mk opened run exit carries edge fun _ hl => nomatch hl)
    | call name arguments =>
        exact passes _ (.mk opened run exit carries edge fun _ hl => nomatch hl)
  refine whole.mono fun other => Nat.le_of_eq ?_
  simp only [blockIds, Yul.stmtsBlocks, Yul.stmtBlocks, List.append_nil, List.map_append,
    List.count_append]
  omega

end Adds

end SsaReplay.Replay
