import SsaReplay.Proofs.Success.Branch
import SsaReplay.Replay.Loop

namespace SsaReplay.Replay

open SsaReplay.Graph (Branch)
open SsaReplay.Yul (Expr)

namespace LoopFrame

-- The frame once an edge is noted. The first edge of a way stays.
def note (f : LoopFrame) (way : LoopWay) (source target : BlockId) (bindings : Bindings) :
    LoopFrame :=
  f.setEdges ⟨some ((f.edges way).first?.getD (source, target)),
    (f.edges way).bindings ++ [bindings]⟩ way

variable (f : LoopFrame) (way : LoopWay) (source target : BlockId) (bindings : Bindings)

@[simp] theorem note_header : (f.note way source target bindings).header = f.header := by
  cases way <;> rfl

@[simp] theorem note_backEdges :
    (f.note way source target bindings).backEdges = f.backEdges := by
  cases way <;> rfl

@[simp] theorem edges_note :
    (f.note way source target bindings).edges way =
      ⟨some ((f.edges way).first?.getD (source, target)),
        (f.edges way).bindings ++ [bindings]⟩ := by
  cases way <;> rfl

theorem edges_note_of_ne {other : LoopWay} (h : other ≠ way) :
    (f.note way source target bindings).edges other = f.edges other := by
  cases way <;> cases other <;> first | rfl | exact absurd rfl h

variable {f way source target bindings}

-- The first edge is one of before, or else the edge that is noted.
theorem first?_note {other : LoopWay} {edge : BlockId × BlockId}
    (h : ((f.note way source target bindings).edges other).first? = some edge) :
    (f.edges other).first? = some edge ∨ edge = (source, target) := by
  by_cases hw : other = way
  · subst hw
    rw [edges_note] at h
    cases hf : (f.edges other).first? with
    | none =>
        rw [hf] at h
        exact .inr (Option.some.inj h).symm
    | some first =>
        rw [hf] at h
        exact .inl h
  · rw [edges_note_of_ne _ _ _ _ _ hw] at h
    exact .inl h

-- It goes where the noted edge goes, if they agree.
theorem first?_note_of_agrees (agrees : ((f.edges way).first?.getD (source, target)).2 = target) :
    ((f.note way source target bindings).edges way).first? =
      some (((f.edges way).first?.getD (source, target)).1, target) := by
  rw [edges_note, Option.some.injEq, Prod.ext_iff]
  exact ⟨rfl, agrees⟩

theorem mem_bindings_note :
    bindings ∈ ((f.note way source target bindings).edges way).bindings := by
  rw [edges_note]
  exact List.mem_append_right _ (List.mem_singleton_self bindings)

end LoopFrame

-- An edge is noted on the innermost loop, and agrees with the earlier ones.
inductive EdgeRecorded (ctx : Context) (way : LoopWay) (source target : BlockId)
    (bindings : Bindings) (s : State) : State → Prop
  | mk {frame : LoopFrame} {outer : List LoopFrame} (opened : s.loops = frame :: outer)
      (edge : ctx.graph.HasEdge source target)
      (agrees : ((frame.edges way).first?.getD (source, target)).2 = target) :
      EdgeRecorded ctx way source target bindings s
        { s.log ctx.site (.loopEdge way frame.header source target) with
          loops := frame.note way source target bindings :: outer }

-- A jump to where the innermost loop is left or continued.
inductive LoopJumped (ctx : Context) (way : LoopWay) (s : State) : State → Prop
  | mk {target : BlockId} {bindings : Bindings} {t : State} (exit : AtExit ctx s (.jump target))
      (carries : Carries ctx.graph s.block target s.bindings bindings)
      (recorded : EdgeRecorded ctx way s.block target bindings
        ((s.log ctx.site (.left s.block (.jump target))).log ctx.site
          (.carried s.block target s.bindings bindings)) t) :
      LoopJumped ctx way s t

inductive ConditionReplayed (ctx : Context) (s : State) : Option Expr → Bool → State → Prop
  | untested : ConditionReplayed ctx s none true s
  | stuck {e : Expr} {t : State} (value : replayOne ctx e s = .ok none t) :
      ConditionReplayed ctx s (some e) false t
  | tested {e : Expr} {branch : Branch} {leaving : Bindings} {v w : State}
      (tested : Tested ctx e s branch leaving v)
      (recorded : EdgeRecorded ctx .exits v.block branch.zero leaving v w)
      (into : ctx.graph.HasEdge v.block branch.nonZero) :
      ConditionReplayed ctx s (some e) true
        (w.follow ctx.site v.block branch.nonZero v.bindings)

inductive PostReplayed (ctx : Context) (header : BlockId) (post : Walk Bool) (s : State) :
    State → Prop
  | stopped {t : State} (run : post s = .ok false t) : PostReplayed ctx header post s t
  | latched {bindings : Bindings} {frame : LoopFrame} {outer : List LoopFrame} {w : State}
      (run : post s = .ok true w) (exit : AtExit ctx w (.jump header))
      (edge : ctx.graph.HasEdge w.block header)
      (carries : Carries ctx.graph w.block header w.bindings bindings)
      (opened : w.loops = frame :: outer) :
      PostReplayed ctx header post s
        { (w.log ctx.site (.left w.block (.jump header))).log ctx.site
            (.carried w.block header w.bindings bindings) with
          loops := { frame with backEdges := frame.backEdges ++ [bindings] } :: outer }

-- The edges to where the body continues are taken up: they are back edges, or lead to
-- the post block.
inductive ContinuesReplayed (ctx : Context) (header : BlockId) (postEmpty : Bool)
    (post : Walk Bool) (s : State) : State → Prop
  | nowhere {frame : LoopFrame} {outer : List LoopFrame} (opened : s.loops = frame :: outer)
      (noEdge : frame.continues.first? = none) : ContinuesReplayed ctx header postEmpty post s s
  | direct {frame : LoopFrame} {outer : List LoopFrame} {source : BlockId}
      (opened : s.loops = frame :: outer)
      (found : frame.continues.first? = some (source, header)) (empty : postEmpty = true) :
      ContinuesReplayed ctx header postEmpty post s
        { s with loops := { frame with
            continues := ⟨some (source, header), []⟩
            backEdges := frame.continues.bindings } :: outer }
  | post {frame : LoopFrame} {outer : List LoopFrame} {source target : BlockId}
      {merged : Bindings} {t : State} (opened : s.loops = frame :: outer)
      (found : frame.continues.first? = some (source, target)) (elsewhere : target ≠ header)
      (meets : Bindings.meet frame.continues.bindings = .ok merged)
      (owned : PhisOwned ctx target merged) (edge : ctx.graph.HasEdge source target)
      (run : PostReplayed ctx header post
        (({ s with loops := { frame with continues := ⟨some (source, target), []⟩ } :: outer }.log
          ctx.site (.merged target merged)).follow ctx.site source target merged) t) :
      ContinuesReplayed ctx header postEmpty post s t

inductive PassReplayed (ctx : Context) (header : BlockId) (parts : LoopParts) (s : State) :
    State → Prop
  | stuck {t : State} (condition : ConditionReplayed ctx s parts.condition? false t) :
      PassReplayed ctx header parts s t
  | stopped {u v t : State} (condition : ConditionReplayed ctx s parts.condition? true u)
      (body : parts.body u = .ok false v)
      (continues : ContinuesReplayed ctx header parts.postEmpty parts.post v t) :
      PassReplayed ctx header parts s t
  | fallen {u v w t : State} (condition : ConditionReplayed ctx s parts.condition? true u)
      (body : parts.body u = .ok true v) (jump : LoopJumped ctx .continues v w)
      (continues : ContinuesReplayed ctx header parts.postEmpty parts.post w t) :
      PassReplayed ctx header parts s t

namespace State

-- The state in which a pass over a loop begins.
def beginPass (s : State) (site : Site) (header : BlockId) (warnings iteration : Nat)
    (entry : Bindings) : State :=
  { s with
    block := header, op := 0, bindings := entry, loops := .start header :: s.loops
    warnings := s.warnings.take warnings
    history := ⟨site, .loopPass header iteration entry⟩ :: s.history }

end State

-- One pass of a loop, from bindings at its header to what is then known of it.
def passOver (ctx : Context) (header : BlockId) (warnings : Nat) (parts : LoopParts)
    (iteration : Nat) (entry : Bindings) : Walk LoopFrame := do
  rewind header warnings entry
  record ctx (.loopPass header iteration entry)
  withLoop header (replayPass ctx header parts)

theorem iterate_succ (ctx : Context) (header : BlockId) (warnings : Nat) (parts : LoopParts)
    (remaining iteration : Nat) (entry : Bindings) :
    iterate ctx header warnings parts (remaining + 1) iteration entry = (do
      let frame ← passOver ctx header warnings parts iteration entry
      let refined ← merge ctx header (entry :: frame.backEdges)
      if refined = entry then
        checkPhiOwnership ctx header entry
        leaveLoop ctx frame.exits
      else
        iterate ctx header warnings parts remaining (iteration + 1) refined) := by
  simp only [iterate, passOver, bind_assoc]

-- A pass from bindings at the header on ends with what is then known of the loop.
inductive LoopPassed (ctx : Context) (header : BlockId) (warnings : Nat) (parts : LoopParts)
    (iteration : Nat) (entry : Bindings) (s : State) : LoopFrame → State → Prop
  | mk {frame : LoopFrame} {outer : List LoopFrame} {t : State}
      (run : PassReplayed ctx header parts
        (s.beginPass ctx.site header warnings iteration entry) t)
      (opened : t.loops = frame :: outer) :
      LoopPassed ctx header warnings parts iteration entry s frame { t with loops := outer }

inductive LoopLeft (ctx : Context) (exits : LoopEdges) (s : State) : Bool → State → Prop
  | never (noEdge : exits.first? = none) : LoopLeft ctx exits s false s
  | left {source target : BlockId} {merged : Bindings}
      (found : exits.first? = some (source, target))
      (meets : Bindings.meet exits.bindings = .ok merged) (owned : PhisOwned ctx target merged)
      (edge : ctx.graph.HasEdge source target) :
      LoopLeft ctx exits s true
        ((s.log ctx.site (.merged target merged)).follow ctx.site source target merged)

-- Passes are made until the bindings at the header are stable.
inductive IterateReplayed (ctx : Context) (header : BlockId) (warnings : Nat)
    (parts : LoopParts) : Nat → Bindings → State → Bool → State → Prop
  | settled {iteration : Nat} {entry : Bindings} {frame : LoopFrame} {s u t : State} {r : Bool}
      (pass : LoopPassed ctx header warnings parts iteration entry s frame u)
      (stable : Bindings.meet (entry :: frame.backEdges) = .ok entry)
      (owned : PhisOwned ctx header entry)
      (left : LoopLeft ctx frame.exits (u.log ctx.site (.merged header entry)) r t) :
      IterateReplayed ctx header warnings parts iteration entry s r t
  | again {iteration : Nat} {entry refined : Bindings} {frame : LoopFrame} {s u t : State}
      {r : Bool} (pass : LoopPassed ctx header warnings parts iteration entry s frame u)
      (refines : Bindings.meet (entry :: frame.backEdges) = .ok refined)
      (next : IterateReplayed ctx header warnings parts (iteration + 1) refined
        (u.log ctx.site (.merged header refined)) r t) :
      IterateReplayed ctx header warnings parts iteration entry s r t

-- The condition that is tested on every pass.
def testedCondition? : Expr → Option Expr
  | .literal _ => none
  | e => some e

inductive ForReplayed (ctx : Context) (pre : Walk Bool) (condition : Expr) (body : Walk Bool)
    (postEmpty : Bool) (post : Walk Bool) (s : State) : Bool → State → Prop
  | stuck {t : State} (run : pre s = .ok false t) :
      ForReplayed ctx pre condition body postEmpty post s false t
  | never {header : BlockId} {entry : Bindings} {u : State} {l : Yul.Literal} {v : ValueId}
      (run : pre s = .ok true u) (exit : AtExit ctx u (.jump header))
      (carries : Carries ctx.graph u.block header u.bindings entry)
      (edge : ctx.graph.HasEdge u.block header) (constant : condition = .literal l)
      (literal : ctx.graph.literal? l.value = some v) (zero : l.isZero = true) :
      ForReplayed ctx pre condition body postEmpty post s true
        (((u.log ctx.site (.left u.block (.jump header))).log ctx.site
          (.carried u.block header u.bindings entry)).follow ctx.site u.block header entry)
  | loop {header : BlockId} {entry : Bindings} {u t : State} {r : Bool}
      (run : pre s = .ok true u) (exit : AtExit ctx u (.jump header))
      (carries : Carries ctx.graph u.block header u.bindings entry)
      (edge : ctx.graph.HasEdge u.block header)
      (unlessZero : ∀ l, condition = .literal l → l.isZero = false)
      (iterate : IterateReplayed ctx header u.warnings.length
        ⟨testedCondition? condition, body, postEmpty, post⟩ 0 entry
        (((u.log ctx.site (.left u.block (.jump header))).log ctx.site
          (.carried u.block header u.bindings entry)).follow ctx.site u.block header entry) r t) :
      ForReplayed ctx pre condition body postEmpty post s r t

variable {ctx : Context} {s t : State}

@[simp] theorem innermost_eq_ok {frame : LoopFrame} :
    innermost s = .ok frame t ↔ (∃ outer, s.loops = frame :: outer) ∧ s = t := by
  simp only [innermost, bind_eq_ok, get_eq_ok]
  constructor
  · rintro ⟨_, _, ⟨rfl, rfl⟩, h⟩
    cases hl : s.loops with
    | nil => simp [hl] at h
    | cons found outer =>
        simp only [hl, pure_eq_ok] at h
        obtain ⟨rfl, rfl⟩ := h
        exact ⟨⟨outer, rfl⟩, rfl⟩
  · rintro ⟨⟨outer, hl⟩, rfl⟩
    exact ⟨s, s, ⟨rfl, rfl⟩, by simp [hl]⟩

@[simp] theorem setInnermost_eq_ok {frame : LoopFrame} {u : Unit} :
    setInnermost frame s = .ok u t ↔
      ∃ old outer, s.loops = old :: outer ∧ { s with loops := frame :: outer } = t := by
  simp only [setInnermost, bind_eq_ok, get_eq_ok]
  constructor
  · rintro ⟨_, _, ⟨rfl, rfl⟩, h⟩
    cases hl : s.loops with
    | nil => simp [hl] at h
    | cons old outer =>
        simp only [hl, modify_eq_ok] at h
        exact ⟨old, outer, rfl, h⟩
  · rintro ⟨old, outer, hl, rfl⟩
    exact ⟨s, s, ⟨rfl, rfl⟩, by simp [hl]⟩

theorem withLoop_eq_ok {header : BlockId} {act : Walk Unit} {frame : LoopFrame} :
    withLoop header act s = .ok frame t ↔
      ∃ u outer, act { s with loops := .start header :: s.loops } = .ok () u ∧
        u.loops = frame :: outer ∧ { u with loops := outer } = t := by
  simp only [withLoop, bind_eq_ok, modify_eq_ok, closing_eq_ok, innermost_eq_ok]
  constructor
  · rintro ⟨_, _, rfl, u, ⟨_, _, h, ⟨outer, hl⟩, rfl⟩, rfl⟩
    exact ⟨_, outer, h, hl, by rw [hl, List.tail_cons]⟩
  · rintro ⟨u, outer, h, hl, rfl⟩
    exact ⟨(), _, rfl, u, ⟨(), u, h, ⟨outer, hl⟩, rfl⟩, by rw [hl, List.tail_cons]⟩

theorem edgeRecorded_of_ok {way : LoopWay} {source target : BlockId} {bindings : Bindings}
    {u : Unit} (h : recordEdge ctx way source target bindings s = .ok u t) :
    EdgeRecorded ctx way source target bindings s t := by
  simp only [recordEdge, bind_eq_ok, checkEdge_eq_ok, innermost_eq_ok, ite_eq_ok, reject_ne_ok,
    and_false, false_or, not_not, record_eq_ok, setInnermost_eq_ok] at h
  obtain ⟨_, _, ⟨he, rfl⟩, frame, _, ⟨⟨outer, hl⟩, rfl⟩, ha, _, _, rfl, old, outer', hl', rfl⟩ := h
  have hll := hl.symm.trans hl'
  obtain ⟨rfl, rfl⟩ := List.cons.inj hll
  exact .mk hl he ha

theorem loopJumped_of_ok {way : LoopWay} {u : Unit} (h : jumpInLoop ctx way s = .ok u t) :
    LoopJumped ctx way s t := by
  simp only [jumpInLoop, bind_eq_ok, get_eq_ok, leaveByJump_eq_ok, carry_eq_ok] at h
  obtain ⟨_, _, ⟨rfl, rfl⟩, target, _, ⟨hx, rfl⟩, bindings, _, ⟨hc, rfl⟩, hr⟩ := h
  exact .mk hx hc (edgeRecorded_of_ok hr)

theorem replayLoopJump_eq_ok {way : LoopWay} {r : Bool} (h : replayLoopJump ctx way s = .ok r t) :
    LoopJumped ctx way s t ∧ r = false := by
  simp only [replayLoopJump, bind_eq_ok, get_eq_ok, ite_eq_ok, rejectOperation_ne_ok, and_false,
    false_or, pure_eq_ok] at h
  obtain ⟨_, _, ⟨rfl, rfl⟩, -, _, _, hj, rfl, rfl⟩ := h
  exact ⟨loopJumped_of_ok hj, rfl⟩

theorem conditionReplayed_of_ok {condition? : Option Expr} {r : Bool}
    (h : replayLoopCondition ctx condition? s = .ok r t) :
    ConditionReplayed ctx s condition? r t := by
  cases condition? with
  | none =>
      obtain ⟨rfl, rfl⟩ := pure_eq_ok.mp h
      exact .untested
  | some e =>
      simp only [replayLoopCondition, bind_eq_ok] at h
      obtain ⟨candidates?, u, hv, h⟩ := h
      cases candidates? with
      | none =>
          obtain ⟨rfl, rfl⟩ := pure_eq_ok.mp h
          exact .stuck hv
      | some candidates =>
          simp only [bind_eq_ok, leaveByBranch_eq_ok, get_eq_ok, carry_eq_ok, advance_eq_ok,
            pure_eq_ok] at h
          obtain ⟨branch, _, ⟨hx, rfl⟩, _, v, hr, _, _, ⟨rfl, rfl⟩, leaving, _, ⟨hc, rfl⟩, _, w,
            he, _, _, ⟨rfl, rfl⟩, _, _, ⟨hi, rfl⟩, rfl, rfl⟩ := h
          have ht : Tested ctx e s branch leaving _ :=
            .mk hv hx (reconcileCondition_eq_ok hr) hc
          have hrec := edgeRecorded_of_ok he
          have hb : w.bindings = v.bindings := by
            cases hrec
            rfl
          have hdone := ConditionReplayed.tested ht hrec hi
          rw [hb]
          exact hdone

theorem postReplayed_of_ok {header : BlockId} {post : Walk Bool} {u : Unit}
    (h : replayPost ctx header post s = .ok u t) : PostReplayed ctx header post s t := by
  simp only [replayPost, bind_eq_ok, ite_eq_ok, get_eq_ok, leaveByJump_eq_ok,
    rejectOperation_ne_ok, and_false, false_or, not_not, checkEdge_eq_ok, carry_eq_ok,
    innermost_eq_ok, setInnermost_eq_ok, pure_eq_ok] at h
  obtain ⟨falls, w, hp, h⟩ := h
  rcases h with ⟨rfl, _, _, ⟨rfl, rfl⟩, target, _, ⟨hx, rfl⟩, rfl, _, _, ⟨he, rfl⟩, bindings, _,
    ⟨hc, rfl⟩, frame, _, ⟨⟨outer, hl⟩, rfl⟩, old, outer', hl', rfl⟩ | ⟨hf, -, rfl⟩
  · have hll := hl.symm.trans hl'
    obtain ⟨rfl, rfl⟩ := List.cons.inj hll
    exact .latched hp hx he hc hl
  · obtain rfl : falls = false := by simpa using hf
    exact .stopped hp

theorem continuesReplayed_of_ok {header : BlockId} {postEmpty : Bool} {post : Walk Bool}
    {u : Unit} (h : replayContinues ctx header postEmpty post s = .ok u t) :
    ContinuesReplayed ctx header postEmpty post s t := by
  simp only [replayContinues, bind_eq_ok, innermost_eq_ok] at h
  obtain ⟨frame, _, ⟨⟨outer, hl⟩, rfl⟩, h⟩ := h
  cases hf : frame.continues.first? with
  | none =>
      simp only [hf] at h
      obtain ⟨-, rfl⟩ := pure_eq_ok.mp h
      exact .nowhere hl hf
  | some edge =>
      obtain ⟨source, target⟩ := edge
      simp only [hf, ite_eq_ok, setInnermost_eq_ok, reject_ne_ok, and_false, or_false, bind_eq_ok,
        merge_eq_ok, checkPhiOwnership_eq_ok, advance_eq_ok] at h
      rcases h with ⟨rfl, he, old, outer', hl', rfl⟩ |
        ⟨hne, _, _, ⟨old, outer', hl', rfl⟩, merged, _, ⟨hm, rfl⟩, _, _, ⟨ho, rfl⟩, _, _,
          ⟨hj, rfl⟩, hp⟩
      · have hll := hl.symm.trans hl'
        obtain ⟨rfl, rfl⟩ := List.cons.inj hll
        exact .direct hl hf he
      · have hll := hl.symm.trans hl'
        obtain ⟨rfl, rfl⟩ := List.cons.inj hll
        exact .post hl hf hne hm ho hj (postReplayed_of_ok hp)

theorem passReplayed_of_ok {header : BlockId} {parts : LoopParts} {u : Unit}
    (h : replayPass ctx header parts s = .ok u t) : PassReplayed ctx header parts s t := by
  simp only [replayPass, bind_eq_ok, ite_eq_ok, pure_eq_ok] at h
  obtain ⟨tests, v, hc, h⟩ := h
  have hcond := conditionReplayed_of_ok hc
  rcases h with ⟨rfl, falls, w, hb, h⟩ | ⟨hf, -, rfl⟩
  · rcases h with ⟨rfl, _, x, hj, hk⟩ | ⟨hf, hk⟩
    · exact .fallen hcond hb (loopJumped_of_ok hj) (continuesReplayed_of_ok hk)
    · obtain rfl : falls = false := by simpa using hf
      exact .stopped hcond hb (continuesReplayed_of_ok hk)
  · obtain rfl : tests = false := by simpa using hf
    exact .stuck hcond

theorem loopLeft_of_ok {exits : LoopEdges} {r : Bool} (h : leaveLoop ctx exits s = .ok r t) :
    LoopLeft ctx exits s r t := by
  unfold leaveLoop at h
  cases hf : exits.first? with
  | none =>
      simp only [hf] at h
      obtain ⟨rfl, rfl⟩ := pure_eq_ok.mp h
      exact .never hf
  | some edge =>
      obtain ⟨source, target⟩ := edge
      simp only [hf, bind_eq_ok, merge_eq_ok, checkPhiOwnership_eq_ok, advance_eq_ok,
        pure_eq_ok] at h
      obtain ⟨merged, _, ⟨hm, rfl⟩, _, _, ⟨ho, rfl⟩, _, _, ⟨he, rfl⟩, rfl, rfl⟩ := h
      exact .left hf hm ho he

theorem loopPassed_of_ok {header : BlockId} {warnings : Nat} {parts : LoopParts}
    {iteration : Nat} {entry : Bindings} {frame : LoopFrame}
    (h : passOver ctx header warnings parts iteration entry s = .ok frame t) :
    LoopPassed ctx header warnings parts iteration entry s frame t := by
  simp only [passOver, rewind, bind_eq_ok, modify_eq_ok, record_eq_ok, withLoop_eq_ok] at h
  obtain ⟨_, _, rfl, _, _, rfl, u, outer, hp, hl, rfl⟩ := h
  exact .mk (passReplayed_of_ok hp) hl

theorem iterateReplayed_of_ok {header : BlockId} {warnings : Nat} {parts : LoopParts}
    {remaining iteration : Nat} {entry : Bindings} {r : Bool}
    (h : iterate ctx header warnings parts remaining iteration entry s = .ok r t) :
    IterateReplayed ctx header warnings parts iteration entry s r t := by
  induction remaining generalizing iteration entry s with
  | zero => exact absurd h reject_ne_ok
  | succ remaining ih =>
      rw [iterate_succ] at h
      simp only [bind_eq_ok, merge_eq_ok, ite_eq_ok, checkPhiOwnership_eq_ok] at h
      obtain ⟨frame, u, hp, refined, _, ⟨hm, rfl⟩, h⟩ := h
      have hpass := loopPassed_of_ok hp
      rcases h with ⟨rfl, _, _, ⟨ho, rfl⟩, h⟩ | ⟨-, h⟩
      · exact .settled hpass hm ho (loopLeft_of_ok h)
      · exact .again hpass hm (ih h)

theorem forReplayed_of_ok {pre : Walk Bool} {condition : Expr} {body : Walk Bool}
    {postEmpty : Bool} {post : Walk Bool} {r : Bool}
    (h : replayFor ctx pre condition body postEmpty post s = .ok r t) :
    ForReplayed ctx pre condition body postEmpty post s r t := by
  simp only [replayFor, bind_eq_ok, ite_eq_ok, get_eq_ok, leaveByJump_eq_ok, carry_eq_ok,
    advance_eq_ok, pure_eq_ok] at h
  obtain ⟨falls, u, hp, h⟩ := h
  rcases h with ⟨rfl, _, _, ⟨rfl, rfl⟩, header, _, ⟨hx, rfl⟩, entry, _, ⟨hc, rfl⟩, _, _, ⟨he, rfl⟩,
    h⟩ | ⟨hf, rfl, rfl⟩
  · cases condition with
    | literal l =>
        simp only [bind_eq_ok, readLiteral_eq_ok, ite_eq_ok, pure_eq_ok] at h
        obtain ⟨v, _, ⟨hv, rfl⟩, ⟨hz, rfl, rfl⟩ | ⟨hz, h⟩⟩ := h
        · exact .never hp hx hc he rfl hv hz
        · simp only [replayLoop, bind_eq_ok, get_eq_ok] at h
          obtain ⟨_, _, ⟨rfl, rfl⟩, h⟩ := h
          refine .loop hp hx hc he ?_ (iterateReplayed_of_ok h)
          intro l' hl
          cases hl
          simpa using hz
    | ident name =>
        simp only [replayLoop, bind_eq_ok, get_eq_ok] at h
        obtain ⟨_, _, ⟨rfl, rfl⟩, h⟩ := h
        exact .loop hp hx hc he (by simp) (iterateReplayed_of_ok h)
    | call name arguments =>
        simp only [replayLoop, bind_eq_ok, get_eq_ok] at h
        obtain ⟨_, _, ⟨rfl, rfl⟩, h⟩ := h
        exact .loop hp hx hc he (by simp) (iterateReplayed_of_ok h)
  · obtain rfl : falls = false := by simpa using hf
    exact .stuck hp

end SsaReplay.Replay
