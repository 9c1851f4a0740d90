import SsaReplay.Proofs.Execution.Expr

namespace SsaReplay.Execution.Setup

open SsaReplay.Graph (Branch Cfg Exit)
open SsaReplay.Replay
open SsaReplay.Yul (Expr Stmt)

-- The run goes on where an edge leads that was noted on the innermost loop.
inductive Escapes (x : Setup) (way : LoopWay) (start : Config) (loops : List LoopFrame)
    (memory : Memory) : Prop
  | mk {frame : LoopFrame} {outer : List LoopFrame} {source target : BlockId} {b : Bindings}
      {c : Config} (opened : loops = frame :: outer)
      (found : (frame.edges way).first? = some (source, target))
      (member : b ∈ (frame.edges way).bindings) (reaches : x.graph.Reaches x.oracle start c)
      (ahead : x.rank start.block < x.rank c.block) (there : x.At target 0 b memory c) :
      Escapes x way start loops memory

-- Every variable that the graph returns has the word that is returned for it.
def Returns (x : Setup) (memory : Memory) (words : List Word) : Prop :=
  List.Forall₂ (fun y w => memory.words y = some w) x.graph.returns words

-- What the run of the graph makes of the way in which code ends.
inductive Outcome (x : Setup) (start : Config) (r : Bool) (t : State) (memory : Memory) :
    Flow → Prop
  | next {c : Config} (falls : r = true) (reaches : x.graph.Reaches x.oracle start c)
      (aligned : x.Aligned t memory c) : Outcome x start r t memory .next
  | broken (escapes : x.Escapes .exits start t.loops memory) : Outcome x start r t memory .broken
  | continued (escapes : x.Escapes .continues start t.loops memory) :
      Outcome x start r t memory .continued
  | left {words : List Word} (returns : x.Returns memory words)
      (finishes : x.graph.Finishes x.oracle start (.returned words) memory.calls) :
      Outcome x start r t memory .left
  | stopped (finishes : x.graph.Finishes x.oracle start .terminated memory.calls) :
      Outcome x start r t memory .stopped

-- Where a replay goes through, the code can be run, and the graph runs alike.
structure Simulates (x : Setup) (scope? : Option ScopeId) (body : Walk Bool) (action : Action) :
    Prop where
  framed : Frames False x.ctx body
  runs : ∀ {s r t}, body s = .ok r t → s.scope? = scope? → ∀ {memory c}, x.Aligned s memory c →
    ∃ flow memory', action memory = some (flow, memory') ∧ x.Outcome c r t memory' flow

variable {x : Setup} {s t u : State} {memory memory' : Memory} {c c' : Config}
  {scope? : Option ScopeId}

theorem Escapes.before {way : LoopWay} {loops : List LoopFrame} (hx : x.Orderly)
    (hc : x.Reached c) (h : x.graph.Reaches x.oracle c c') (k : x.Escapes way c' loops memory) :
    x.Escapes way c loops memory := by
  cases k with
  | mk opened found member reaches ahead there =>
      exact .mk opened found member (h.trans reaches)
        (Nat.lt_of_le_of_lt (hx.rank_le hc h) ahead) there

theorem Escapes.kept {way : LoopWay} {loops loops' : List LoopFrame}
    (h : x.Escapes way c loops memory)
    (hk : ∀ frame outer, loops = frame :: outer →
      ∃ last, loops' = last :: outer ∧ (frame.edges way).Extends (last.edges way)) :
    x.Escapes way c loops' memory := by
  cases h with
  | mk opened found member reaches ahead there =>
      obtain ⟨last, hl, hx⟩ := hk _ _ opened
      obtain ⟨more, hm⟩ := hx.bindings
      exact .mk hl (hx.first _ found) (hm ▸ List.mem_append_left _ member) reaches ahead there

theorem Escapes.extends {way : LoopWay} {loops loops' : List LoopFrame}
    (h : x.Escapes way c loops memory) (hl : LoopsExtend loops loops') :
    x.Escapes way c loops' memory := by
  refine h.kept fun frame outer ho => ?_
  obtain ⟨last, hlast, hx⟩ := LoopsExtend.of_cons (ho ▸ hl)
  exact ⟨last, hlast, hx.edges way⟩

theorem Escapes.of_recorded {way : LoopWay} {source target : BlockId} {b : Bindings}
    (h : EdgeRecorded x.ctx way source target b s t) (hr : x.graph.Reaches x.oracle c c')
    (ha : x.rank c.block < x.rank c'.block) (ht : x.At target 0 b memory c') :
    x.Escapes way c t.loops memory := by
  cases h with
  | @mk frame outer opened edge agrees =>
      exact .mk rfl (LoopFrame.first?_note_of_agrees agrees) LoopFrame.mem_bindings_note hr ha ht

theorem Outcome.before {r : Bool} {flow : Flow} (hx : x.Orderly) (hc : x.Reached c)
    (h : x.graph.Reaches x.oracle c c') (k : x.Outcome c' r t memory flow) :
    x.Outcome c r t memory flow := by
  cases k with
  | next falls reaches aligned => exact .next falls (h.trans reaches) aligned
  | broken escapes => exact .broken (escapes.before hx hc h)
  | continued escapes => exact .continued (escapes.before hx hc h)
  | left returns finishes => exact .left returns (finishes.before h)
  | stopped finishes => exact .stopped (finishes.before h)

-- A replay that goes on, although the code does not, has no part in the outcome.
theorem Outcome.later {r q : Bool} {flow : Flow} (h : x.Outcome c r t memory flow)
    (hf : flow ≠ .next) (hl : LoopsExtend t.loops u.loops) : x.Outcome c q u memory flow := by
  cases h with
  | next => exact absurd rfl hf
  | broken escapes => exact .broken (escapes.extends hl)
  | continued escapes => exact .continued (escapes.extends hl)
  | left returns finishes => exact .left returns finishes
  | stopped finishes => exact .stopped finishes

-- One piece of code after the other, the second of which is replayed only if control
-- gets past the first.
theorem Simulates.runs_andThen {first second : Walk Bool} {action next : Action} {q r : Bool}
    (hx : x.Orderly) (hf : x.Simulates scope? first action)
    (hs : x.Simulates scope? second next) (h : first s = .ok q u)
    (hq : q = true → second u = .ok r t) (hl : LoopsExtend u.loops t.loops)
    (hscope : s.scope? = scope?) (ha : x.Aligned s memory c) :
    ∃ flow memory', andThen action next memory = some (flow, memory') ∧
      x.Outcome c r t memory' flow := by
  obtain ⟨flow, memory', he, ho⟩ := hf.runs h hscope ha
  by_cases hn : flow = .next
  · subst hn
    cases ho with
    | next falls reaches aligned =>
        obtain ⟨flow', memory'', he', ho'⟩ :=
          hs.runs (hq falls) ((hf.framed h).scope.trans hscope) aligned
        exact ⟨flow', memory'', (andThen_of_next he).trans he', ho'.before hx ha.reached reaches⟩
  · exact ⟨flow, memory', andThen_of_ne he hn, ho.later hn hl⟩

theorem simulates_thenOthers (hx : x.Orderly) {id : NodeId} {rest : List Stmt}
    {first others : Walk Bool} {action next : Action} (hf : x.Simulates scope? first action)
    (ho : x.Simulates scope? others next) :
    x.Simulates scope? (thenOthers x.ctx id rest first others) (andThen action next) where
  framed := framed_compositional.next x.ctx id rest first others hf.framed ho.framed
  runs h hscope memory c ha := by
    obtain ⟨falls, u, hu, ht⟩ := bind_eq_ok.mp h
    rcases ite_eq_ok.mp ht with ⟨rfl, ht⟩ | ⟨hn, ht⟩
    · exact hf.runs_andThen hx ho hu (fun _ => ht) (ho.framed ht).loops hscope ha
    · obtain ⟨_, v, hw, hp⟩ := bind_eq_ok.mp ht
      obtain ⟨rfl, rfl⟩ := pure_eq_ok.mp hp
      have hwarned : Framed False x.ctx u v := (warned_of_ok hw).framed
      exact hf.runs_andThen hx ho hu (fun hq => absurd hq hn) hwarned.loops hscope ha

theorem simulates_bare (hx : x.Orderly) (passes : Nat) (e : Expr) :
    x.Simulates scope? (replayBare x.ctx e) (x.machine.exec passes scope? (.expr e)) where
  framed := framed_compositional.expr x.ctx e
  runs h hscope memory c ha := by
    rcases replayBare_eq_ok.mp h with ⟨he, rfl⟩ | ⟨he, rfl⟩
    · obtain ⟨words?, memory', heval, -, hk⟩ := evaluated_of_replayExpr hx e he ha
      rw [hscope] at heval
      cases hk with
      | stuck finishes =>
          refine ⟨.stopped, memory', ?_, .stopped finishes⟩
          simp only [Machine.exec, Option.bind_eq_bind, heval, Option.bind_some]
    · obtain ⟨words?, memory', heval, -, hk⟩ := evaluated_of_replayExpr hx e he ha
      rw [hscope] at heval
      cases hk with
      | values reaches aligned all =>
          cases all with
          | nil =>
              refine ⟨.next, memory', ?_, .next rfl reaches aligned⟩
              simp only [Machine.exec, Option.bind_eq_bind, heval, Option.bind_some]

section Assign

-- Names are given words, and their variables candidates that stand for them.
theorem assignAll_of_assigned {b b' : Bindings} {names : List String} {sets : List ValueSet}
    {words : List Word} {env : ValueId → Option Word}
    (h : Assigned x.ctx scope? b (names.zip sets) b') (ha : b.Agrees memory.words env)
    (hs : List.Forall₂ (StandsFor env) sets words) :
    ∃ memory', x.machine.assignAll scope? (names.zip words) memory = some memory' ∧
      b'.Agrees memory'.words env ∧ memory'.calls = memory.calls := by
  induction hs generalizing names b memory with
  | nil =>
      rw [List.zip_nil_right] at h ⊢
      cases h
      exact ⟨memory, rfl, ha, rfl⟩
  | @cons set w sets words hset _ ih =>
      cases names with
      | nil =>
          cases h
          exact ⟨memory, rfl, ha, rfl⟩
      | cons name names =>
          rw [List.zip_cons_cons] at h ⊢
          cases h with
          | @cons _ _ _ _ y _ resolved others =>
              obtain ⟨memory', hm, hb, hc⟩ := ih others (ha.assign hset)
              refine ⟨memory', ?_, hb, hc⟩
              simp only [Machine.assignAll, var?_eq_some.mpr resolved, Option.bind_eq_bind,
                Option.bind_some, hm]

-- A value that stands for zero does so for as many names as there are.
theorem standsFor_zeros (hx : x.Orderly) (hc : x.Reached c) {v : ValueId}
    (hv : x.graph.zero? = some v) (n : Nat) :
    List.Forall₂ (StandsFor c.env) (List.replicate n (.single v)) (List.replicate n 0) := by
  induction n with
  | zero => exact .nil
  | succ n ih =>
      refine .cons (fun u hu => ?_) ih
      obtain rfl := (ValueSet.mem_single _ _).mp hu
      exact hx.literal hc hv

theorem At.assign {names : List String} {sets : List ValueSet} {words : List Word} {b : Bindings}
    (h : Assigned x.ctx scope? s.bindings (names.zip sets) b) (ha : x.Aligned s memory c)
    (hs : List.Forall₂ (StandsFor c.env) sets words) :
    ∃ memory', x.machine.assignAll scope? (names.zip words) memory = some memory' ∧
      x.Aligned { s with bindings := b } memory' c := by
  obtain ⟨memory', hm, hb, hc⟩ := assignAll_of_assigned h ha.agrees hs
  exact ⟨memory', hm, ha.reached, ha.block, ha.op, ha.calls.trans hc.symm, hb⟩

-- The code of an assignment, or of a declaration with a value.
theorem runs_execAssign (hx : x.Orderly) {names : List String} {e : Expr}
    {values? : Option (List ValueSet)} (he : replayExpr x.ctx e s = .ok values? u)
    (hscope : s.scope? = scope?) (ha : x.Aligned s memory c)
    (hn : ∀ values ∈ values?, values.length = names.length) :
    (values? = none ∧ ∃ memory', x.machine.execAssign scope? names e memory =
        some (.stopped, memory') ∧ x.graph.Finishes x.oracle c .terminated memory'.calls) ∨
      ∃ values, values? = some values ∧ ∀ b,
        Assigned x.ctx u.scope? u.bindings (names.zip values) b →
          ∃ memory' c', x.machine.execAssign scope? names e memory = some (.next, memory') ∧
            x.graph.Reaches x.oracle c c' ∧ x.Aligned { u with bindings := b } memory' c' := by
  have hstays : Stays False x.ctx s u := replayExpr_stays he
  obtain ⟨words?, memory', heval, -, hk⟩ := evaluated_of_replayExpr hx e he ha
  rw [hscope] at heval
  cases hk with
  | stuck finishes =>
      refine .inl ⟨rfl, memory', ?_, finishes⟩
      simp only [Machine.execAssign, Option.bind_eq_bind, heval, Option.bind_some]
  | @values c' values words reaches aligned all =>
      refine .inr ⟨values, rfl, fun b hb => ?_⟩
      rw [hstays.scope, hscope] at hb
      obtain ⟨memory'', hm, hb⟩ := At.assign hb aligned all
      refine ⟨memory'', c', ?_, reaches, hb⟩
      have hlength : words.length = names.length := all.length_eq.symm.trans (hn values rfl)
      simp only [Machine.execAssign, Option.bind_eq_bind, heval, Option.bind_some, if_pos hlength,
        hm, Option.map_some]

theorem simulates_assign (hx : x.Orderly) (passes : Nat) (names : List String) (e : Expr) :
    x.Simulates scope? (replayAssignment x.ctx names e)
      (x.machine.exec passes scope? (.assign names e)) where
  framed := framed_compositional.assign x.ctx names e
  runs h hscope memory c ha := by
    simp only [Machine.exec]
    rcases replayAssignment_of_ok h with ⟨he, rfl⟩ | ⟨values, u, b, he, hl, hb, rfl, rfl⟩
    · rcases runs_execAssign hx he hscope ha (by simp) with
        ⟨-, memory', hrun, hfin⟩ | ⟨values, hv, -⟩
      · exact ⟨.stopped, memory', hrun, .stopped hfin⟩
      · exact absurd hv (by simp)
    · have fits : ∀ found ∈ some values, found.length = names.length := by simpa using hl
      rcases runs_execAssign hx he hscope ha fits with ⟨hv, -⟩ | ⟨found, hv, hall⟩
      · exact absurd hv (by simp)
      · obtain rfl := Option.some.inj hv
        obtain ⟨memory', c', hrun, hreaches, haligned⟩ := hall b hb
        exact ⟨.next, memory', hrun, .next rfl hreaches haligned⟩

theorem simulates_let (hx : x.Orderly) (passes : Nat) (names : List String)
    (value? : Option Expr) :
    x.Simulates scope? (replayLet x.ctx names value?)
      (x.machine.exec passes scope? (.letDecl names value?)) where
  framed := framed_compositional.letDecl x.ctx names value?
  runs h hscope memory c ha := by
    rcases replayLet_of_ok h with ⟨hi, rfl⟩ | ⟨values, u, b, hi, hd, rfl, rfl⟩
    · cases hi with
      | given he fits =>
          rcases runs_execAssign hx he hscope ha fits with
            ⟨-, memory', hrun, hfin⟩ | ⟨values, hv, -⟩
          · exact ⟨.stopped, memory', by simpa only [Machine.exec] using hrun, .stopped hfin⟩
          · exact absurd hv (by simp)
    · cases hi with
      | given he fits =>
          rcases runs_execAssign hx he hscope ha fits with ⟨hv, -⟩ | ⟨found, hv, hall⟩
          · exact absurd hv (by simp)
          · obtain rfl := Option.some.inj hv
            obtain ⟨memory', c', hrun, hreaches, haligned⟩ := hall b hd.assigned
            exact ⟨.next, memory', by simpa only [Machine.exec] using hrun,
              .next rfl hreaches haligned⟩
      | @zero v found =>
          have hzero := standsFor_zeros hx ha.reached found names.length
          rw [hscope] at hd
          obtain ⟨memory', hm, hb⟩ := At.assign hd.assigned ha hzero
          refine ⟨.next, memory', ?_, .next rfl .refl hb⟩
          simp only [Machine.exec, Machine.execZeros, hm, Option.map_some]

end Assign

-- The branch tests what the condition of the code comes to.
theorem evaluated_of_tested (hx : x.Orderly) {e : Expr} {branch : Branch} {zero : Bindings}
    (h : Tested x.ctx e s branch zero t) (ha : x.Aligned s memory c) :
    ∃ w memory', x.machine.evalOne s.scope? e memory = some (some w, memory') ∧
      (w = 0 → ∃ c', x.graph.Reaches x.oracle c c' ∧ x.rank c.block < x.rank c'.block ∧
        x.At branch.zero 0 zero memory' c') ∧
      (w ≠ 0 → (x.graph.block? branch.nonZero).isSome →
        ∃ c', x.graph.Reaches x.oracle c c' ∧ x.rank c.block < x.rank c'.block ∧
          x.At branch.nonZero 0 t.bindings memory' c') := by
  cases h with
  | @mk candidates _ _ u v value exit fits carries =>
      obtain ⟨memory', hw, h⟩ := evaluated_of_replayOne hx value ha
      rcases h with ⟨hv, -⟩ | ⟨values, w, c', hv, heval, hreaches, haligned, hstands⟩
      · exact absurd hv (by simp)
      · obtain rfl := Option.some.inj hv
        have hstays : Stays False x.ctx s u := replayOne_stays value
        obtain ⟨hb, hop⟩ := fits.position
        rw [← hstays.scope] at hstands
        obtain ⟨hcond, hv⟩ := stands_of_reconciled fits haligned hstands
        have hexit : AtExit x.ctx v (.branch branch) := exit.congr hb hop
        have hrank := hx.rank_le ha.reached hreaches
        have hleave : x.graph.leave? c' (.branch branch) =
            (x.graph.enter? c' (if w = 0 then branch.zero else branch.nonZero)).map .going := by
          simp only [Cfg.leave?, hcond, Option.bind_eq_bind, Option.bind_some]
        refine ⟨w, memory', heval, fun hzero => ?_, fun hne hblock => ?_⟩
        · rw [if_pos hzero] at hleave
          have hblock : (x.graph.block? branch.zero).isSome := by
            obtain ⟨data, -, hd, -⟩ := carries
            rw [show x.graph.block? branch.zero = some data from hd]
            rfl
          obtain ⟨c'', hr, hlt, -, hcarried⟩ :=
            hx.follow hv hexit (by simp [Exit.targets]) hblock hleave
          exact ⟨c'', hreaches.trans hr, Nat.lt_of_le_of_lt hrank hlt, hcarried zero carries⟩
        · rw [if_neg hne] at hleave
          obtain ⟨c'', hr, hlt, hentered, -⟩ :=
            hx.follow hv hexit (by simp [Exit.targets]) hblock hleave
          exact ⟨c'', hreaches.trans hr, Nat.lt_of_le_of_lt hrank hlt, hentered⟩

theorem isSome_of_hasEdge {source target : BlockId} (h : x.ctx.graph.HasEdge source target) :
    (x.graph.block? target).isSome := by
  obtain ⟨start, finish, -, hf, -⟩ := h
  rw [show x.graph.block? target = some finish from hf]
  rfl

theorem simulates_cond (hx : x.Orderly) (passes : Nat) (condition : Expr) {body : Yul.Block}
    {walk : Walk Bool} (hb : ∀ scope?, x.Simulates scope? walk (x.machine.execBlock passes body)) :
    x.Simulates scope? (replayIf x.ctx condition walk)
      (x.machine.exec passes scope? (.cond condition body)) where
  framed := framed_compositional.cond x.ctx condition walk (hb scope?).framed
  runs h hscope memory c ha := by
    have run : ∀ {w : Word} {memory' : Memory},
        x.machine.evalOne scope? condition memory = some (some w, memory') →
          x.machine.exec passes scope? (.cond condition body) memory =
            if w = 0 then some (.next, memory') else x.machine.execBlock passes body memory' := by
      intro w memory' he
      simp only [Machine.exec, Option.bind_eq_bind, he, Option.bind_some]
    cases ifReplayed_of_ok h with
    | stuck value =>
        obtain ⟨memory', -, h⟩ := evaluated_of_replayOne hx value ha
        rcases h with ⟨-, he, hfin⟩ | ⟨values, w, c', hv, -⟩
        · rw [hscope] at he
          refine ⟨.stopped, memory', ?_, .stopped hfin⟩
          simp only [Machine.exec, Option.bind_eq_bind, he, Option.bind_some]
        · exact absurd hv (by simp)
    | @joined branch skipping running merged v w' tested into falls exit back meets owned edge =>
        obtain ⟨w, memory', he, hzero, hne⟩ := evaluated_of_tested hx tested ha
        rw [hscope] at he
        by_cases hw : w = 0
        · obtain ⟨c', hr, -, hat⟩ := hzero hw
          refine ⟨.next, memory', (run he).trans (if_pos hw), .next rfl hr ?_⟩
          exact hat.refine (Bindings.refines_of_meet meets List.mem_cons_self)
        · obtain ⟨c', hr, -, hat⟩ := hne hw (isSome_of_hasEdge into)
          obtain ⟨flow, memory'', hbody, ho⟩ := (hb _).runs falls rfl hat
          refine ⟨flow, memory'', ((run he).trans (if_neg hw)).trans hbody, ?_⟩
          refine Outcome.before hx ha.reached hr ?_
          by_cases hn : flow = .next
          · subst hn
            cases ho with
            | next _ reaches aligned =>
                obtain ⟨c'', hr', -, hjoin⟩ := hx.followJump aligned exit back
                exact .next rfl (reaches.trans hr')
                  (hjoin.refine (Bindings.refines_of_meet meets (by simp)))
          · exact ho.later hn (.refl _)
    | @skipped branch skipping v w' tested into stops edge =>
        obtain ⟨w, memory', he, hzero, hne⟩ := evaluated_of_tested hx tested ha
        rw [hscope] at he
        by_cases hw : w = 0
        · obtain ⟨c', hr, -, hat⟩ := hzero hw
          exact ⟨.next, memory', (run he).trans (if_pos hw), .next rfl hr hat⟩
        · obtain ⟨c', hr, -, hat⟩ := hne hw (isSome_of_hasEdge into)
          obtain ⟨flow, memory'', hbody, ho⟩ := (hb _).runs stops rfl hat
          refine ⟨flow, memory'', ((run he).trans (if_neg hw)).trans hbody, ?_⟩
          refine Outcome.before hx ha.reached hr (ho.later ?_ (.refl _))
          rintro rfl
          cases ho with
          | next falls => exact absurd falls (by simp)

theorem Returns.of_held {returns : List VariableId} {values : List ValueId} {b b' : Bindings}
    {env : ValueId → Option Word} (h : ReturnsHeld b (returns.zip values) b')
    (hl : values.length = returns.length) (ha : b.Agrees memory.words env) :
    ∃ words, List.Forall₂ (fun v w => env v = some w) values words ∧
      List.Forall₂ (fun y w => memory.words y = some w) returns words := by
  induction returns generalizing values b with
  | nil =>
      obtain rfl := List.length_eq_zero_iff.mp hl
      exact ⟨[], .nil, .nil⟩
  | cons y returns ih =>
      cases values with
      | nil => simp at hl
      | cons v values =>
          rw [List.zip_cons_cons] at h
          cases h with
          | @cons _ _ _ _ held _ bound member others =>
              obtain ⟨w, hw, hv⟩ := ha y held bound
              obtain ⟨words, hvalues, hreturns⟩ := ih others (by simpa using hl)
                ((Bindings.refines_narrow bound member).agrees ha)
              exact ⟨w :: words, .cons (hv v member) hvalues, .cons hw hreturns⟩

theorem Outcome.of_functionLeft {r : Bool} (h : FunctionLeft x.ctx s t)
    (ha : x.Aligned s memory c) : x.Outcome c r u memory .left := by
  cases h with
  | @mk values b exit count held =>
      obtain ⟨words, hvalues, hreturns⟩ := Returns.of_held held count ha.agrees
      refine .left hreturns ⟨c, .refl, ?_⟩
      rw [ha.step?_eq exit]
      simp only [Cfg.leave?, mapM_eq_some_of_forall₂ hvalues, Option.bind_eq_bind,
        Option.bind_some, ha.calls]

theorem simulates_leave (passes : Nat) :
    x.Simulates scope? (replayLeave x.ctx) (x.machine.exec passes scope? .leave) where
  framed := framed_compositional.leave x.ctx
  runs h _ memory c ha :=
    ⟨.left, memory, by simp only [Machine.exec], .of_functionLeft (functionLeft_of_ok h).1 ha⟩

theorem Escapes.of_jump {way : LoopWay} (hx : x.Orderly) (h : LoopJumped x.ctx way s t)
    (ha : x.Aligned s memory c) : x.Escapes way c t.loops memory := by
  cases h with
  | mk exit carries recorded =>
      obtain ⟨c', hr, hlt, hat⟩ := hx.followJump ha exit carries
      exact .of_recorded recorded hr hlt hat

theorem simulates_break (hx : x.Orderly) (passes : Nat) :
    x.Simulates scope? (replayLoopJump x.ctx .exits)
      (x.machine.exec passes scope? .breakLoop) where
  framed := framed_compositional.loopJump x.ctx .exits
  runs h _ memory c ha :=
    ⟨.broken, memory, by simp only [Machine.exec],
      .broken (.of_jump hx (replayLoopJump_eq_ok h).1 ha)⟩

theorem simulates_continue (hx : x.Orderly) (passes : Nat) :
    x.Simulates scope? (replayLoopJump x.ctx .continues)
      (x.machine.exec passes scope? .continueLoop) where
  framed := framed_compositional.loopJump x.ctx .continues
  runs h _ memory c ha :=
    ⟨.continued, memory, by simp only [Machine.exec],
      .continued (.of_jump hx (replayLoopJump_eq_ok h).1 ha)⟩

-- A replay in a scope of its own, of code that is run in that scope.
theorem simulates_inBlock {id : NodeId} {body : Walk Bool} {action : Option ScopeId → Action}
    (hb : ∀ inner, x.Simulates inner body (action inner)) :
    x.Simulates scope? (inBlock x.ctx id body) (fun memory => do
      let scope ← x.machine.analysis.scopeOf? id
      action (some scope) memory) where
  framed := framed_compositional.block x.ctx id body (hb none).framed
  runs {s _ _} h _ memory c ha := by
    obtain ⟨scope, u, hs, hu, rfl⟩ := inBlock_eq_ok.mp h
    have ha : x.Aligned { s with scope? := some scope } memory c := ha
    obtain ⟨flow, memory', he, ho⟩ := (hb (some scope)).runs hu rfl ha
    refine ⟨flow, memory', ?_, ?_⟩
    · have hs : x.machine.analysis.scopeOf? id = some scope := hs
      simpa only [hs, Option.bind_eq_bind, Option.bind_some] using he
    · cases ho with
      | next falls reaches aligned => exact .next falls reaches aligned
      | broken escapes => exact .broken escapes
      | continued escapes => exact .continued escapes
      | left returns finishes => exact .left returns finishes
      | stopped finishes => exact .stopped finishes

-- The replay of a definition leaves the position alone, and the code does nothing.
theorem simulates_definition {d : Yul.Definition} {others : Walk Bool} {action : Action}
    (free : d.body.switchFree = true) (ho : x.Simulates scope? others action) :
    x.Simulates scope? (inTurn (replayDefinition x.ctx d (replayBlock · d.body)) others)
      action where
  framed := framed_compositional.definition x.ctx d others (.inr free)
    (fun inner => framed_compositional.ofBlock inner d.body (.inr free)) ho.framed
  runs h hscope memory c ha := by
    obtain ⟨_, u, hu, ht⟩ := bind_eq_ok.mp h
    obtain ⟨warnings, more, rfl, -⟩ := (definitionReplayed_of_ok hu).apart
    exact ho.runs ht hscope ha

end SsaReplay.Execution.Setup
