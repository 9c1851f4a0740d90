import SsaReplay.Proofs.Execution.Branch

namespace SsaReplay.Execution.Setup

open SsaReplay.Replay
open SsaReplay.Yul (Expr)

variable {x : Setup} {s t u : State} {memory memory' : Memory} {start c c' : Config}
  {scope? : Option ScopeId}

-- What the condition of a loop comes to: the run ends, leaves the loop, or gets to its
-- body.
inductive Tests (x : Setup) (start : Config) (r : Bool) (t : State) (memory : Memory) :
    Option Word → Prop
  | stopped (stuck : r = false)
      (finishes : x.graph.Finishes x.oracle start .terminated memory.calls) :
      Tests x start r t memory none
  | away (tested : r = true) (escapes : x.Escapes .exits start t.loops memory) :
      Tests x start r t memory (some 0)
  | inside {w : Word} {c : Config} (nonZero : w ≠ 0) (falls : r = true)
      (reaches : x.graph.Reaches x.oracle start c) (aligned : x.Aligned t memory c) :
      Tests x start r t memory (some w)

theorem tests_of_condition (hx : x.Orderly) {condition : Expr} {r : Bool}
    (h : ConditionReplayed x.ctx s (testedCondition? condition) r t)
    (unlessZero : ∀ l, condition = .literal l → l.isZero = false) (ha : x.Aligned s memory c) :
    ∃ w? memory', x.machine.evalOne s.scope? condition memory = some (w?, memory') ∧
      x.Tests c r t memory' w? := by
  -- A constant is not tested, and known not to be zero.
  by_cases hl : ∃ l, condition = .literal l
  · obtain ⟨l, rfl⟩ := hl
    cases h with
    | untested =>
        have hne : l.value ≠ 0 := by
          have hz := unlessZero l rfl
          simpa [Yul.Literal.isZero] using hz
        exact ⟨some l.value, memory, rfl, .inside hne rfl .refl ha⟩
  · have htested : testedCondition? condition = some condition := by
      cases condition with
      | literal l => exact absurd ⟨l, rfl⟩ hl
      | _ => rfl
    rw [htested] at h
    cases h with
    | stuck value =>
        obtain ⟨memory', -, h⟩ := evaluated_of_replayOne hx value ha
        rcases h with ⟨-, he, hfin⟩ | ⟨values, w, c', hv, -⟩
        · exact ⟨none, memory', he, .stopped rfl hfin⟩
        · exact absurd hv (by simp)
    | @tested _ branch leaving v w' tested recorded into =>
        obtain ⟨w, memory', he, hzero, hne⟩ := evaluated_of_tested hx tested ha
        refine ⟨some w, memory', he, ?_⟩
        by_cases hw : w = 0
        · obtain ⟨c', hr, hlt, hat⟩ := hzero hw
          have hescapes : x.Escapes .exits c w'.loops memory' := .of_recorded recorded hr hlt hat
          exact hw ▸ .away rfl hescapes
        · obtain ⟨c', hr, -, hat⟩ := hne hw (isSome_of_hasEdge into)
          exact .inside hw rfl hr hat

-- The post block is run to where it ends otherwise than by falling through: from its end,
-- an edge would lead back to the header, and none leads to a lesser rank.
theorem runs_post (hx : x.Orderly) {header : BlockId} {post : Walk Bool} {action : Action}
    (hp : x.Simulates scope? post action) (h : PostReplayed x.ctx header post s t)
    (hscope : s.scope? = scope?) {frame : LoopFrame} {outer : List LoopFrame}
    {source : BlockId} (opened : s.loops = frame :: outer)
    (found : frame.continues.first? = some (source, s.block)) (hs : x.Reached start)
    (hh : start.block = header) (hr : x.graph.Reaches x.oracle start c)
    (ha : x.Aligned s memory c) :
    ∃ flow memory', action memory = some (flow, memory') ∧ flow ≠ .next ∧ flow ≠ .continued ∧
      x.Outcome start false t memory' flow := by
  -- Nothing leads back to where the post block begins either.
  have again : ∀ {w : State} {memory' : Memory}, LoopsExtend s.loops w.loops →
      ¬x.Escapes .continues c w.loops memory' := by
    intro w memory' hl escapes
    cases escapes with
    | mk opened' found' member reaches ahead there =>
        obtain ⟨frame', hframe, hextends⟩ := LoopsExtend.of_cons (opened ▸ hl)
        obtain ⟨rfl, -⟩ := List.cons.inj (opened'.symm.trans hframe)
        obtain ⟨-, rfl⟩ := Prod.mk.inj
          (Option.some.inj (found'.symm.trans ((hextends.edges .continues).first _ found)))
        rw [there.block, ha.block] at ahead
        exact Nat.lt_irrefl _ ahead
  cases h with
  | stopped run =>
      obtain ⟨flow, memory', he, ho⟩ := hp.runs run hscope ha
      refine ⟨flow, memory', he, ?_, ?_, Outcome.before hx hs hr ho⟩
      · rintro rfl
        cases ho with
        | next falls => exact absurd falls (by simp)
      · rintro rfl
        cases ho with
        | continued escapes => exact again (hp.framed run).loops escapes
  | @latched bindings frame' outer' w run exit edge carries opened' =>
      obtain ⟨flow, memory', he, ho⟩ := hp.runs run hscope ha
      have hnext : flow ≠ .next := by
        rintro rfl
        cases ho with
        | next _ reaches aligned =>
            obtain ⟨c'', hr', hlt, hat⟩ := hx.followJump aligned exit carries
            have hback := hx.rank_le hs (hr.trans reaches)
            rw [hh] at hback
            rw [hat.block] at hlt
            exact absurd hlt (Nat.not_lt.mpr hback)
      refine ⟨flow, memory', he, hnext, ?_, ?_⟩
      · rintro rfl
        cases ho with
        | continued escapes => exact again (hp.framed run).loops escapes
      · refine Outcome.before hx hs hr ?_
        cases ho with
        | next => exact absurd rfl hnext
        | continued escapes => exact absurd escapes (again (hp.framed run).loops)
        | broken escapes =>
            refine .broken (escapes.kept fun f o hf => ?_)
            obtain ⟨rfl, rfl⟩ := List.cons.inj (opened'.symm.trans hf)
            exact ⟨_, rfl, .refl _⟩
        | left returns finishes => exact .left returns finishes
        | stopped finishes => exact .stopped finishes

-- How the body of a loop ended: it goes on to where it continues, or not.
def BodyEnded (x : Setup) (start : Config) (s : State) (memory : Memory) (flow : Flow) : Prop :=
  (flow = .next ∨ flow = .continued) ∧ x.Escapes .continues start s.loops memory ∨
    (flow ≠ .next ∧ flow ≠ .continued) ∧ x.Outcome start false s memory flow

-- The code leaves the loop, to where the graph is.
def LoopEnds (x : Setup) (start : Config) (t : State) (result : Option (Flow × Memory)) : Prop :=
  ∃ flow memory, result = some (flow.pastLoop, memory) ∧ flow ≠ .next ∧ flow ≠ .continued ∧
    x.Outcome start false t memory flow

theorem runs_afterBody (hx : x.Orderly) {header : BlockId} {postEmpty : Bool} {post : Walk Bool}
    {action again : Action} {flow : Flow} (hp : x.Simulates scope? post action)
    (h : ContinuesReplayed x.ctx header postEmpty post s t) (hscope : s.scope? = scope?)
    (hs : x.Reached start) (hh : start.block = header) (hb : x.BodyEnded start s memory flow) :
    x.LoopEnds start t (afterBody action again flow memory) := by
  rcases hb with ⟨hflow, escapes⟩ | ⟨⟨hnext, hcontinued⟩, ho⟩
  · obtain ⟨flow', memory', he, hnext, hcontinued, ho⟩ :
        ∃ flow' memory', action memory = some (flow', memory') ∧ flow' ≠ .next ∧
          flow' ≠ .continued ∧ x.Outcome start false t memory' flow' := by
      cases escapes with
      | @mk frame outer source target b c opened found member reaches ahead there =>
          cases h with
          | nowhere opened' noEdge =>
              obtain ⟨rfl, rfl⟩ := List.cons.inj (opened.symm.trans opened')
              exact absurd (noEdge.symm.trans found) (by simp)
          | direct opened' found' empty =>
              obtain ⟨rfl, rfl⟩ := List.cons.inj (opened.symm.trans opened')
              obtain ⟨-, rfl⟩ := Prod.mk.inj (Option.some.inj (found'.symm.trans found))
              rw [hh, there.block] at ahead
              exact absurd ahead (Nat.lt_irrefl _)
          | @post _ _ _ _ merged _ opened' found' elsewhere meets owned edge run =>
              obtain ⟨rfl, rfl⟩ := List.cons.inj (opened.symm.trans opened')
              obtain ⟨rfl, rfl⟩ := Prod.mk.inj (Option.some.inj (found'.symm.trans found))
              exact runs_post hx hp run hscope rfl rfl hs hh reaches
                (there.refine (Bindings.refines_of_meet meets member))
    refine ⟨flow', memory', ?_, hnext, hcontinued, ho⟩
    have hafter : afterBody action again flow = afterBody action again .continued := by
      rcases hflow with rfl | rfl <;> rfl
    rw [hafter]
    simp only [afterBody, he, Option.bind_eq_bind, Option.bind_some]
  · refine ⟨flow, memory, ?_, hnext, hcontinued, ?_⟩
    · cases flow <;> first | rfl | exact absurd rfl hnext | exact absurd rfl hcontinued
    · cases ho with
      | next => exact absurd rfl hnext
      | continued => exact absurd rfl hcontinued
      | broken escapes => exact .broken (escapes.kept fun f o hf => h.exits_kept hp.framed hf)
      | left returns finishes => exact .left returns finishes
      | stopped finishes => exact .stopped finishes

theorem BodyEnded.of_outcome {r : Bool} {flow : Flow} (h : x.Outcome start r s memory flow)
    (hf : flow ≠ .next) (hl : LoopsExtend s.loops t.loops) : x.BodyEnded start t memory flow := by
  have ho := h.later (q := false) (u := t) hf hl
  by_cases hc : flow = .continued
  · subst hc
    cases ho with
    | continued escapes => exact .inl ⟨.inr rfl, escapes⟩
  · exact .inr ⟨⟨hf, hc⟩, ho⟩

-- The body, and what comes after it.
theorem runs_body (hx : x.Orderly) {header : BlockId} {body post : Walk Bool} {postEmpty : Bool}
    {action postAction again : Action} (hb : x.Simulates scope? body action)
    (hp : x.Simulates scope? post postAction) {r : Bool} {v w : State} (run : body u = .ok r v)
    (h : ContinuesReplayed x.ctx header postEmpty post w t) (hl : LoopsExtend v.loops w.loops)
    (hfalls : r = true → ∀ {memory c}, x.Aligned v memory c → x.Escapes .continues c w.loops memory)
    (hu : u.scope? = scope?) (hw : w.scope? = scope?) (hs : x.Reached start)
    (hh : start.block = header) (hr : x.graph.Reaches x.oracle start c)
    (ha : x.Aligned u memory c) :
    x.LoopEnds start t ((action memory).bind fun p => afterBody postAction again p.1 p.2) := by
  obtain ⟨flow, memory', hbody, ho⟩ := hb.runs run hu ha
  have hended : x.BodyEnded start w memory' flow := by
    by_cases hn : flow = .next
    · subst hn
      cases ho with
      | next falls reaches aligned =>
          exact .inl ⟨.inl rfl, (hfalls falls aligned).before hx hs (hr.trans reaches)⟩
    · exact .of_outcome (ho.before hx hs hr) hn hl
  rw [hbody]
  exact runs_afterBody hx hp h hw hs hh hended

-- A single pass is all that a loop makes.
theorem runs_pass (hx : x.Orderly) {header : BlockId} {condition : Expr} {body post : Walk Bool}
    {postEmpty : Bool} {action postAction : Action} (hb : x.Simulates scope? body action)
    (hp : x.Simulates scope? post postAction)
    (h : PassReplayed x.ctx header ⟨testedCondition? condition, body, postEmpty, post⟩ s t)
    (unlessZero : ∀ l, condition = .literal l → l.isZero = false) (hscope : s.scope? = scope?)
    (hh : s.block = header) (ha : x.Aligned s memory start) (n : Nat) :
    x.LoopEnds start t
      (repeatLoop (x.machine.evalOne scope? condition) action postAction (n + 1) memory) := by
  have hstart : start.block = header := ha.block.trans hh
  have leaves : ∀ {memory' : Memory},
      x.machine.evalOne scope? condition memory = some (some 0, memory') →
        x.Escapes .exits start t.loops memory' → x.LoopEnds start t
          (repeatLoop (x.machine.evalOne scope? condition) action postAction (n + 1) memory) :=
    fun he escapes => ⟨.broken, _, repeatLoop_of_zero he, by simp, by simp, .broken escapes⟩
  cases h with
  | stuck condition =>
      obtain ⟨w?, memory', he, ht⟩ := tests_of_condition hx condition unlessZero ha
      rw [hscope] at he
      cases ht with
      | stopped _ finishes =>
          exact ⟨.stopped, memory', repeatLoop_of_none he, by simp, by simp, .stopped finishes⟩
      | away tested => exact absurd tested (by simp)
      | inside _ falls => exact absurd falls (by simp)
  | @stopped u v _ condition run continues =>
      obtain ⟨w?, memory', he, ht⟩ := tests_of_condition hx condition unlessZero ha
      rw [hscope] at he
      have hu : Framed False x.ctx s u := condition.framed
      have hv := hb.framed run
      cases ht with
      | stopped stuck => exact absurd stuck (by simp)
      | away _ escapes =>
          exact leaves he ((escapes.extends hv.loops).kept fun f o hf =>
            continues.exits_kept hp.framed hf)
      | inside hw _ reaches aligned =>
          rw [repeatLoop_of_ne he hw]
          exact runs_body hx hb hp run continues (.refl _) (by simp) (hu.scope.trans hscope)
            ((hv.scope.trans hu.scope).trans hscope) ha.reached hstart reaches aligned
  | @fallen u v w' _ condition run jump continues =>
      obtain ⟨w?, memory', he, ht⟩ := tests_of_condition hx condition unlessZero ha
      rw [hscope] at he
      have hu : Framed False x.ctx s u := condition.framed
      have hv := hb.framed run
      have hw' : Framed False x.ctx v w' := jump.framed
      cases ht with
      | stopped stuck => exact absurd stuck (by simp)
      | away _ escapes =>
          exact leaves he ((escapes.extends (hv.loops.trans hw'.loops)).kept fun f o hf =>
            continues.exits_kept hp.framed hf)
      | inside hw _ reaches aligned =>
          rw [repeatLoop_of_ne he hw]
          exact runs_body hx hb hp run continues hw'.loops
            (fun _ {memory c} hav => Escapes.of_jump hx jump hav) (hu.scope.trans hscope)
            (((hw'.scope.trans hv.scope).trans hu.scope).trans hscope) ha.reached hstart reaches
            aligned

-- The last pass over the header is the one that the code makes.
theorem runs_loop (hx : x.Orderly) {header : BlockId} {condition : Expr} {body post : Walk Bool}
    {postEmpty : Bool} {action postAction : Action} {entry : Bindings} {r : Bool}
    (hb : x.Simulates scope? body action) (hp : x.Simulates scope? post postAction)
    (h : LastPass x.ctx header ⟨testedCondition? condition, body, postEmpty, post⟩ entry s r t)
    (unlessZero : ∀ l, condition = .literal l → l.isZero = false) (hscope : s.scope? = scope?)
    (ha : x.At header 0 entry memory start) (n : Nat) :
    ∃ flow memory', repeatLoop (x.machine.evalOne scope? condition) action postAction (n + 1)
        memory = some (flow, memory') ∧ x.Outcome start r t memory' flow := by
  cases h with
  | @mk _ _ stable frame before after pass fixed refines left scope loops =>
      cases pass with
      | mk run opened =>
          obtain ⟨flow, memory', he, hn, hc, ho⟩ := runs_pass hx hb hp run unlessZero
            (scope.trans hscope) rfl (ha.refine refines) n
          refine ⟨flow.pastLoop, memory', he, ?_⟩
          cases ho with
          | next => exact absurd rfl hn
          | continued => exact absurd rfl hc
          | left returns finishes => exact .left returns finishes
          | stopped finishes => exact .stopped finishes
          | broken escapes =>
              cases escapes with
              | mk opened' found member reaches ahead there =>
                  obtain ⟨rfl, rfl⟩ := List.cons.inj (opened.symm.trans opened')
                  cases left with
                  | never noEdge => exact absurd (noEdge.symm.trans found) (by simp)
                  | left found' meets owned edge =>
                      obtain ⟨rfl, rfl⟩ :=
                        Prod.mk.inj (Option.some.inj (found'.symm.trans found))
                      exact .next rfl reaches
                        (there.refine (Bindings.refines_of_meet meets member))

theorem simulates_for (hx : x.Orderly) {pre body post : Walk Bool} {condition : Expr}
    {postEmpty : Bool} {preAction action postAction : Action}
    (hpre : x.Simulates scope? pre preAction) (hb : x.Simulates scope? body action)
    (hp : x.Simulates scope? post postAction) (n : Nat) :
    x.Simulates scope? (replayFor x.ctx pre condition body postEmpty post)
      (andThen preAction
        (repeatLoop (x.machine.evalOne scope? condition) action postAction (n + 1))) where
  framed := framed_compositional.forLoop x.ctx pre condition body postEmpty post hpre.framed
    hb.framed hp.framed
  runs {s r t} h hscope memory c ha := by
    -- Control gets past the pre block, or the loop has no part in the outcome.
    have enter : ∀ {header : BlockId} {entry : Bindings} {u : State}, pre s = .ok true u →
        AtExit x.ctx u (.jump header) → Carries x.ctx.graph u.block header u.bindings entry →
          LoopsExtend u.loops t.loops →
            (∀ {memory c}, x.At header 0 entry memory c → ∃ flow memory',
              repeatLoop (x.machine.evalOne scope? condition) action postAction (n + 1) memory =
                some (flow, memory') ∧ x.Outcome c r t memory' flow) →
              ∃ flow memory', andThen preAction (repeatLoop (x.machine.evalOne scope? condition)
                action postAction (n + 1)) memory = some (flow, memory') ∧
                  x.Outcome c r t memory' flow := by
      intro header entry u run exit carries hl hloop
      obtain ⟨flow, memory', he, ho⟩ := hpre.runs run hscope ha
      by_cases hn : flow = .next
      · subst hn
        cases ho with
        | next _ reaches aligned =>
            obtain ⟨c', hr, -, hat⟩ := hx.followJump aligned exit carries
            obtain ⟨flow', memory'', he', ho'⟩ := hloop hat
            exact ⟨flow', memory'', (andThen_of_next he).trans he',
              ho'.before hx ha.reached (reaches.trans hr)⟩
      · exact ⟨flow, memory', andThen_of_ne he hn, ho.later hn hl⟩
    cases forReplayed_of_ok h with
    | stuck run =>
        obtain ⟨flow, memory', he, ho⟩ := hpre.runs run hscope ha
        have hn : flow ≠ .next := by
          rintro rfl
          cases ho with
          | next falls => exact absurd falls (by simp)
        exact ⟨flow, memory', andThen_of_ne he hn, ho⟩
    | @never header entry u l _ run exit carries edge constant literal zero =>
        refine enter run exit carries (.refl _) fun {memory c} hat => ?_
        have he : x.machine.evalOne scope? condition memory = some (some 0, memory) := by
          subst constant
          have hz : l.value = 0 := by simpa [Yul.Literal.isZero] using zero
          simp only [Machine.evalOne, Machine.eval, Option.bind_eq_bind, Option.bind_some, hz]
        exact ⟨.next, memory, repeatLoop_of_zero he, .next rfl .refl hat⟩
    | @loop header entry u _ _ run exit carries edge unlessZero iterate =>
        have hlast := iterate.lastPass hb.framed hp.framed
        have hf : Framed False x.ctx _ t := iterate.framed hb.framed hp.framed
        refine enter run exit carries hf.loops fun hat => ?_
        exact runs_loop hx hb hp hlast unlessZero ((hpre.framed run).scope.trans hscope) hat n

end SsaReplay.Execution.Setup
