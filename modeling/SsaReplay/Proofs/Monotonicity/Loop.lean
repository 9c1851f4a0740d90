import SsaReplay.Proofs.Monotonicity.Branch

namespace SsaReplay.Replay

open SsaReplay.Yul (Expr)

-- What a loop keeps from one pass to the next is at the same place, with bindings below.
structure State.Around (lower upper : State) : Prop where
  scope : upper.scope? = lower.scope?
  loops : List.Forall₂ LoopFrame.Below lower.loops upper.loops

namespace LoopFrame.Below

variable {f F : LoopFrame}

theorem start (header : BlockId) : (LoopFrame.start header).Below (.start header) :=
  ⟨rfl, fun way => by cases way <;> exact ⟨rfl, .nil⟩, .nil⟩

theorem setEdges (h : f.Below F) {e E : LoopEdges} (he : e.Below E) (way : LoopWay) :
    (f.setEdges e way).Below (F.setEdges E way) := by
  cases way with
  | exits =>
      refine ⟨h.header, fun other => ?_, h.backEdges⟩
      cases other with
      | exits => exact he
      | continues => exact h.edges .continues
  | continues =>
      refine ⟨h.header, fun other => ?_, h.backEdges⟩
      cases other with
      | exits => exact h.edges .exits
      | continues => exact he

theorem set_backEdges (h : f.Below F) {bs cs : List Bindings}
    (hb : List.Forall₂ Bindings.Below bs cs) :
    LoopFrame.Below { f with backEdges := bs } { F with backEdges := cs } :=
  ⟨h.header, fun | .exits => h.edges .exits | .continues => h.edges .continues, hb⟩

end LoopFrame.Below

namespace Follows

variable {ctx : Context}

theorem modify {f F : State → State} (hf : ∀ s S, s.Below S → (f s).Below (F S)) :
    Follows Eq (modify f) (modify F) := by
  intro s S a t hs h
  obtain rfl := modify_eq_ok.mp h
  exact .inr ⟨a, F S, rfl, rfl, hf s S hs⟩

theorem innermost : Follows LoopFrame.Below innermost innermost := by
  intro s S frame t hs h
  obtain ⟨⟨outer, hl⟩, rfl⟩ := innermost_eq_ok.mp h
  have hloops := hs.loops
  rw [hl] at hloops
  obtain ⟨F, others, hF, -, hL⟩ := List.forall₂_cons_left_iff.mp hloops
  exact .inr ⟨F, S, innermost_eq_ok.mpr ⟨⟨others, hL⟩, rfl⟩, hF, hs⟩

theorem setInnermost {f F : LoopFrame} (hf : f.Below F) :
    Follows Eq (setInnermost f) (setInnermost F) := by
  intro s S a t hs h
  obtain ⟨old, outer, hl, rfl⟩ := setInnermost_eq_ok.mp h
  have hloops := hs.loops
  rw [hl] at hloops
  obtain ⟨Old, others, -, ho, hL⟩ := List.forall₂_cons_left_iff.mp hloops
  exact .inr ⟨a, _, setInnermost_eq_ok.mpr ⟨Old, others, hL, rfl⟩, rfl,
    hs.scope, hs.block, hs.op, hs.bindings, .cons hf ho⟩

theorem withLoop (header : BlockId) {act : Walk Unit} (ha : Follows Eq act act) :
    Follows LoopFrame.Below (withLoop header act) (withLoop header act) := by
  refine bind_eq (modify fun s S hs => ?_) fun _ =>
    (bind_eq ha fun _ => innermost).closing fun t T ht => ?_
  · exact ⟨hs.scope, hs.block, hs.op, hs.bindings, .cons (.start header) hs.loops⟩
  · refine ⟨ht.scope, ht.block, ht.op, ht.bindings, ?_⟩
    simpa only [List.drop_one] using List.forall₂_drop 1 ht.loops

theorem recordEdge (way : LoopWay) (source target : BlockId) {b B : Bindings} (hb : b.Below B) :
    Follows Eq (recordEdge ctx way source target b) (recordEdge ctx way source target B) := by
  refine bind_eq (checkEdge source target) fun _ => ?_
  refine bind innermost fun f F hf => ?_
  have hedges := hf.edges way
  dsimp only
  rw [hedges.first]
  refine ite Iff.rfl (fun _ => reject) fun _ => ?_
  refine bind_eq record fun _ => setInnermost (hf.setEdges ?_ way)
  exact ⟨rfl, List.rel_append hedges.bindings (.cons hb .nil)⟩

theorem jumpInLoop (way : LoopWay) : Follows Eq (jumpInLoop ctx way) (jumpInLoop ctx way) := by
  refine bind get fun s S hs => ?_
  rw [hs.block]
  refine bind_eq leaveByJump fun target => ?_
  exact bind (carry s.block target) fun b B hb => recordEdge way s.block target hb

theorem replayLoopJump (way : LoopWay) :
    Follows Eq (replayLoopJump ctx way) (replayLoopJump ctx way) := by
  refine bind get fun s S hs => ?_
  have hempty : s.loops.isEmpty = true ↔ S.loops.isEmpty = true := by
    rw [List.isEmpty_iff_length_eq_zero, List.isEmpty_iff_length_eq_zero, hs.loops.length_eq]
  refine ite hempty (fun _ => rejectOperation) fun _ => ?_
  exact bind_eq (jumpInLoop way) fun _ => pure rfl

theorem replayLoopCondition (condition? : Option Expr) :
    Follows Eq (replayLoopCondition ctx condition?) (replayLoopCondition ctx condition?) := by
  cases condition? with
  | none => exact pure rfl
  | some e =>
      refine bind (replayOne e) ?_
      rintro _ _ (hc | _)
      · refine bind_eq leaveByBranch fun branch => ?_
        refine bind_eq (reconcileCondition hc branch.condition) fun _ => ?_
        refine bind get fun s S hs => ?_
        rw [hs.block]
        refine bind (carry s.block branch.zero) fun b B hb => ?_
        refine bind_eq (recordEdge .exits s.block branch.zero hb) fun _ => ?_
        refine bind get fun u U hu => ?_
        exact bind_eq (advance s.block branch.nonZero hu.bindings) fun _ => pure rfl
      · exact pure rfl

theorem replayPost (header : BlockId) {post : Walk Bool} (hp : Follows Eq post post) :
    Follows Eq (replayPost ctx header post) (replayPost ctx header post) := by
  refine bind_eq hp fun falls => ?_
  refine ite Iff.rfl (fun _ => ?_) fun _ => pure rfl
  refine bind get fun s S hs => ?_
  rw [hs.block]
  refine bind_eq leaveByJump fun target => ?_
  refine ite Iff.rfl (fun _ => rejectOperation) fun _ => ?_
  refine bind_eq (checkEdge s.block header) fun _ => ?_
  refine bind (carry s.block header) fun b B hb => ?_
  refine bind innermost fun f F hf => setInnermost (hf.set_backEdges ?_)
  exact List.rel_append hf.backEdges (.cons hb .nil)

theorem replayContinues (header : BlockId) (postEmpty : Bool) {post : Walk Bool}
    (hp : Follows Eq post post) :
    Follows Eq (replayContinues ctx header postEmpty post)
      (replayContinues ctx header postEmpty post) := by
  refine bind innermost fun f F hf => ?_
  have hedges := hf.edges .continues
  have hfirst : F.continues.first? = f.continues.first? := hedges.first
  have hrest := hf.setEdges (e := ⟨f.continues.first?, []⟩) (E := ⟨F.continues.first?, []⟩)
    ⟨hfirst, .nil⟩ .continues
  rw [hfirst]
  rcases f.continues.first? with _ | ⟨source, target⟩
  · exact pure rfl
  · refine ite Iff.rfl (fun _ => ?_) fun _ => ?_
    · refine ite Iff.rfl (fun _ => ?_) fun _ => reject
      exact setInnermost (hrest.set_backEdges hedges.bindings)
    · refine bind_eq (setInnermost hrest) fun _ => ?_
      refine bind (merge target hedges.bindings) fun merged M hm => ?_
      refine bind_eq (checkPhiOwnership target hm) fun _ => ?_
      exact bind_eq (advance source target hm) fun _ => replayPost header hp

theorem replayPass (header : BlockId) {parts : LoopParts} (hb : Follows Eq parts.body parts.body)
    (hp : Follows Eq parts.post parts.post) :
    Follows Eq (replayPass ctx header parts) (replayPass ctx header parts) := by
  refine bind_eq (replayLoopCondition parts.condition?) fun tested => ?_
  refine ite Iff.rfl (fun _ => ?_) fun _ => pure rfl
  refine bind_eq hb fun falls => ?_
  refine ite Iff.rfl (fun _ => ?_) fun _ => replayContinues header parts.postEmpty hp
  exact bind_eq (jumpInLoop .continues) fun _ => replayContinues header parts.postEmpty hp

theorem leaveLoop {e E : LoopEdges} (he : e.Below E) :
    Follows Eq (leaveLoop ctx e) (leaveLoop ctx E) := by
  unfold Replay.leaveLoop
  rw [he.first]
  rcases e.first? with _ | ⟨source, target⟩
  · exact pure rfl
  · refine bind (merge target he.bindings) fun merged M hm => ?_
    refine bind_eq (checkPhiOwnership target hm) fun _ => ?_
    exact bind_eq (advance source target hm) fun _ => pure rfl

end Follows

variable {ctx : Context} {header : BlockId} {parts : LoopParts} {e E : Bindings}
  {s S t u U : State} {frame F : LoopFrame} {r : Bool}

-- A pass leaves alone what is around the loop.
theorem around_passOver (hb : Frames True ctx parts.body) (hp : Frames True ctx parts.post)
    {warnings iteration : Nat}
    (h : passOver ctx header warnings parts iteration e s = .ok frame u) :
    u.scope? = s.scope? ∧ u.loops = s.loops := by
  have passed := loopPassed_of_ok h
  exact ⟨(passed.framed hb hp).scope, passed.loops_eq hb hp⟩

-- A pass starts over at the header, wherever the replay is.
theorem passOver_mono (hb : Follows Eq parts.body parts.body)
    (hp : Follows Eq parts.post parts.post) (he : e.Below E) (hs : s.Around S)
    {warnings iteration : Nat}
    (h : passOver ctx header warnings parts iteration e s = .ok frame u)
    (warnings' iteration' : Nat) :
    Unsettled (passOver ctx header warnings' parts iteration' E S) ∨
      ∃ F U, passOver ctx header warnings' parts iteration' E S = .ok F U ∧
        frame.Below F ∧ u.Below U := by
  have onward : Follows LoopFrame.Below
      (do record ctx (.loopPass header iteration e); withLoop header (replayPass ctx header parts))
      (do record ctx (.loopPass header iteration' E)
          withLoop header (replayPass ctx header parts)) :=
    .bind_eq .record fun _ => .withLoop header (.replayPass header hb hp)
  have rewound : State.Below
      { s with block := header, op := 0, bindings := e, warnings := s.warnings.take warnings }
      { S with block := header, op := 0, bindings := E, warnings := S.warnings.take warnings' } :=
    ⟨hs.scope, rfl, rfl, he, hs.loops⟩
  exact onward _ _ _ _ rewound h

-- How a loop ends once the bindings at its header are stable.
def settle (ctx : Context) (header : BlockId) (entry : Bindings) (frame : LoopFrame) :
    Walk Bool := do
  checkPhiOwnership ctx header entry
  leaveLoop ctx frame.exits

theorem settle_mono (he : e.Below E) (hf : frame.Below F) :
    Follows Eq (settle ctx header e frame) (settle ctx header E F) :=
  .bind_eq (.checkPhiOwnership header he) fun _ => .leaveLoop (hf.edges .exits)

-- What a further pass is made of, where it succeeds.
theorem iterate_succ_eq_ok {warnings remaining iteration : Nat} :
    iterate ctx header warnings parts (remaining + 1) iteration e s = .ok r t ↔
      ∃ frame u refined, passOver ctx header warnings parts iteration e s = .ok frame u ∧
        Bindings.meet (e :: frame.backEdges) = .ok refined ∧
          (refined = e ∧ settle ctx header e frame (u.log ctx.site (.merged header e)) = .ok r t ∨
            refined ≠ e ∧ iterate ctx header warnings parts remaining (iteration + 1) refined
              (u.log ctx.site (.merged header refined)) = .ok r t) := by
  simp only [iterate_succ, bind_eq_ok, merge_eq_ok, ite_eq_ok, settle]
  constructor
  · rintro ⟨frame, u, hp, refined, _, ⟨hm, rfl⟩, ⟨rfl, h⟩ | ⟨hne, h⟩⟩
    · exact ⟨frame, u, _, hp, hm, .inl ⟨rfl, h⟩⟩
    · exact ⟨frame, u, refined, hp, hm, .inr ⟨hne, h⟩⟩
  · rintro ⟨frame, u, refined, hp, hm, ⟨rfl, h⟩ | ⟨hne, h⟩⟩
    · exact ⟨frame, u, hp, _, _, ⟨hm, rfl⟩, .inl ⟨rfl, h⟩⟩
    · exact ⟨frame, u, hp, refined, _, ⟨hm, rfl⟩, .inr ⟨hne, h⟩⟩

section Iterate

variable (hbf : Frames True ctx parts.body) (hpf : Frames True ctx parts.post)
  (hb : Follows Eq parts.body parts.body) (hp : Follows Eq parts.post parts.post)

include hbf hpf hb hp

-- Once the upper bindings are stable, the lower ones stay below them until they are
-- stable too: for each lower pass, the upper one that is already made stands above it.
theorem settle_above {warnings warnings' remaining iteration iteration' : Nat} (he : e.Below E)
    (hs : s.Around S) (pass : passOver ctx header warnings' parts iteration' E S = .ok F U)
    (stable : Bindings.meet (E :: F.backEdges) = .ok E)
    (h : iterate ctx header warnings parts remaining iteration e s = .ok r t) :
    Unsettled (settle ctx header E F (U.log ctx.site (.merged header E))) ∨
      ∃ T, settle ctx header E F (U.log ctx.site (.merged header E)) = .ok r T ∧ t.Below T := by
  induction remaining generalizing iteration e s with
  | zero => exact absurd h reject_ne_ok
  | succ remaining ih =>
      obtain ⟨frame, u, refined, hpass, hmeet, h⟩ := iterate_succ_eq_ok.mp h
      have above := passOver_mono hb hp he hs hpass warnings' iteration'
      rw [pass] at above
      obtain ⟨F', U', hF, hframe, hu⟩ := above.resolve_left not_unsettled_ok
      obtain ⟨rfl, rfl⟩ := EStateM.Result.ok.inj hF
      rcases h with ⟨rfl, h⟩ | ⟨-, h⟩
      · rcases settle_mono he hframe _ _ _ _ (hu.log _ _ _) h with hun | ⟨_, T, hT, rfl, ht⟩
        · exact .inl hun
        · exact .inr ⟨T, hT, ht⟩
      · obtain ⟨M, hM, hbelow⟩ := Bindings.meet_mono (.cons he hframe.backEdges) hmeet
        obtain rfl := Except.ok.inj (stable.symm.trans hM)
        obtain ⟨hscope, hloops⟩ := around_passOver hbf hpf hpass
        have around : (u.log ctx.site (.merged header refined)).Around S :=
          ⟨hs.scope.trans hscope.symm, hloops ▸ hs.loops⟩
        exact ih hbelow around h

-- The upper replay makes passes until its bindings are stable. As long as they are not,
-- they stay above those of the lower replay, which may be stable earlier or later.
theorem iterate_mono {warnings warnings' remaining remaining' iteration iteration' : Nat}
    (he : e.Below E) (hs : s.Around S)
    (h : iterate ctx header warnings parts remaining iteration e s = .ok r t) :
    Unsettled (iterate ctx header warnings' parts remaining' iteration' E S) ∨
      ∃ T, iterate ctx header warnings' parts remaining' iteration' E S = .ok r T ∧
        t.Below T := by
  induction remaining' generalizing remaining iteration iteration' e E s S with
  | zero => exact .inl ⟨_, _, rfl, rfl⟩
  | succ remaining' ih =>
      cases remaining with
      | zero => exact absurd h reject_ne_ok
      | succ remaining =>
          have hwhole := h
          obtain ⟨frame, u, refined, hpass, hmeet, h⟩ := iterate_succ_eq_ok.mp h
          rw [iterate_succ]
          rcases passOver_mono hb hp he hs hpass warnings' iteration' with hun | ⟨F, U, pass, hF, -⟩
          · exact .inl (hun.bind _)
          obtain ⟨M, hM, hbelow⟩ := Bindings.meet_mono (.cons he hF.backEdges) hmeet
          rw [bind_of_ok pass, bind_of_ok (merge_eq_ok.mpr ⟨hM, rfl⟩)]
          by_cases hME : M = E
          · subst hME
            rw [if_pos rfl]
            exact settle_above hbf hpf hb hp he hs pass hM hwhole
          rw [if_neg hME]
          obtain ⟨hscope, hloops⟩ := around_passOver hbf hpf pass
          rcases h with ⟨rfl, -⟩ | ⟨-, h⟩
          · exact ih hbelow ⟨hscope.trans hs.scope, hloops ▸ hs.loops⟩ hwhole
          · obtain ⟨hscope', hloops'⟩ := around_passOver hbf hpf hpass
            refine ih hbelow ⟨?_, ?_⟩ h
            · exact (hscope.trans hs.scope).trans hscope'.symm
            · change List.Forall₂ _ u.loops U.loops
              rw [hloops, hloops']
              exact hs.loops

end Iterate

end SsaReplay.Replay
