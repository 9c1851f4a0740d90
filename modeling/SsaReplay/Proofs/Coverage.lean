import Mathlib.Logic.Relation
import SsaReplay.Proofs.Visits

namespace SsaReplay

open SsaReplay.Graph (Branch Cfg Exit)
open SsaReplay.Yul (Expr Literal)

-- Exits lead there from the entry of the graph.
def Graph.Cfg.Reachable (g : Cfg) (b : BlockId) : Prop := Relation.ReflTransGen g.Leads g.entry b

namespace Replay

-- The block is entered, and so is whatever is reached from it along fewer edges than
-- the number.
def Covered (history : List Entry) (site : Site) : Nat → BlockId → Prop
  | 0, _ => True
  | n + 1, b => (∃ e ∈ history, e.Enters site b) ∧
      ∀ target, site.graph.Leads b target → Covered history site n target

-- The same for the targets of a block's exit.
def Onward (history : List Entry) (site : Site) (n : Nat) (b : BlockId) : Prop :=
  ∀ target, site.graph.Leads b target → Covered history site n target

-- A target of edges that are noted on the innermost loop.
def Pending (loops : List LoopFrame) (target : BlockId) : Prop :=
  ∃ frame outer way source, loops = frame :: outer ∧
    (frame.edges way).first? = some (source, target)

section Covered

variable {history : List Entry} {site : Site} {b : BlockId}

theorem Covered.pred {n : Nat} (h : Covered history site (n + 1) b) : Covered history site n b := by
  induction n generalizing b with
  | zero => trivial
  | succ n ih => exact ⟨h.1, fun target ht => ih (h.2 target ht)⟩

theorem Covered.le {m n : Nat} (h : Covered history site n b) (hm : m ≤ n) :
    Covered history site m b := by
  induction hm with
  | refl => exact h
  | step _ ih => exact ih h.pred

theorem Onward.le {m n : Nat} (h : Onward history site n b) (hm : m ≤ n) :
    Onward history site m b := fun target ht => (h target ht).le hm

theorem Covered.of_onward {n : Nat} (he : ∃ e ∈ history, e.Enters site b)
    (h : Onward history site n b) : Covered history site n b := by
  cases n with
  | zero => trivial
  | succ n => exact ⟨he, h.le (Nat.le_succ n)⟩

-- Where covering the block itself is all that is missing, for instance at the header of
-- a loop, edges back to it can be counted down.
theorem Covered.of_step {n : Nat} (he : ∃ e ∈ history, e.Enters site b)
    (step : ∀ m ≤ n, Covered history site m b → Onward history site m b) :
    Covered history site n b := by
  have all : ∀ m ≤ n, Covered history site m b := by
    intro m
    induction m with
    | zero => exact fun _ => trivial
    | succ m ih =>
        intro hm
        have hm' := Nat.le_of_succ_le hm
        exact ⟨he, step m hm' (ih hm')⟩
  exact all n (Nat.le_refl n)

theorem entered_of_reachable (h : ∀ n, Covered history site n site.graph.entry)
    (hb : site.graph.Reachable b) : ∃ e ∈ history, e.Enters site b := by
  have hc : ∀ n, Covered history site n b := by
    induction hb with
    | refl => exact h
    | tail _ hl ih => exact fun n => (ih (n + 1)).2 _ hl
  exact (hc 1).1

end Covered

variable {ctx : Context} {s t u : State} {history : List Entry} {n : Nat}

theorem AtExit.onward {exit : Exit} (h : AtExit ctx s exit)
    (ht : ∀ target ∈ exit.targets, Covered history ctx.site n target) :
    Onward history ctx.site n s.block := by
  obtain ⟨data, hd, -, rfl⟩ := h
  rintro target ⟨found, hf, hm⟩
  obtain rfl := Option.some.inj (hd.symm.trans hf)
  exact ht target hm

theorem AtExit.onward_jump {target : BlockId} (h : AtExit ctx s (.jump target))
    (ht : Covered history ctx.site n target) : Onward history ctx.site n s.block := by
  refine h.onward fun other hm => ?_
  obtain rfl := List.mem_singleton.mp hm
  exact ht

theorem LoopsExtend.pending {a b : List LoopFrame} (h : LoopsExtend a b) {target : BlockId}
    (hp : Pending a target) : Pending b target := by
  obtain ⟨frame, outer, way, source, rfl, hf⟩ := hp
  obtain ⟨g, rfl, hg⟩ := h.of_cons
  exact ⟨g, outer, way, source, rfl, (hg.edges way).first _ hf⟩

-- What the rest of a replay makes of a state: all its history is kept, the current
-- block leads to what is covered, and so do the edges noted so far.
structure Continued (history : List Entry) (site : Site) (n : Nat) (r : Bool) (t : State) :
    Prop where
  kept : ∀ e ∈ t.history, e ∈ history
  onward : r = true → Onward history site n t.block
  pending : ∀ target, Pending t.loops target → Covered history site n target

-- The state before a part of a replay is continued by that part and what follows it.
theorem Continued.before {q r : Bool} (h : Continued history ctx.site n r t)
    (hf : Framed True ctx s t) (ho : q = true → Onward history ctx.site n s.block) :
    Continued history ctx.site n q s :=
  ⟨fun e he => h.kept e (hf.history.mem he), ho,
    fun target hp => h.pending target (hf.loops.pending hp)⟩

theorem Continued.congr {q r : Bool} (h : Continued history ctx.site n r t)
    (hh : ∀ e ∈ s.history, e ∈ t.history) (hl : s.loops = t.loops)
    (ho : q = true → Onward history ctx.site n s.block) :
    Continued history ctx.site n q s :=
  ⟨fun e he => h.kept e (hh e he), ho, fun target hp => h.pending target (hl ▸ hp)⟩

def EnteredAt (ctx : Context) (s : State) : Prop := ∃ e ∈ s.history, e.Enters ctx.site s.block

theorem EnteredAt.framed (h : EnteredAt ctx s) (hf : Framed True ctx s t) : EnteredAt ctx t := by
  rcases hf.block with hb | he
  · obtain ⟨e, he, hs⟩ := h
    exact ⟨e, hf.history.mem he, hb ▸ hs⟩
  · exact he

theorem State.enteredAt_follow (source target : BlockId) (bindings : Bindings) :
    EnteredAt ctx (s.follow ctx.site source target bindings) :=
  ⟨_, List.mem_cons_self, rfl, rfl⟩

theorem Continued.covered {r : Bool} (h : Continued history ctx.site n r t)
    (he : EnteredAt ctx t) (ho : Onward history ctx.site n t.block) :
    Covered history ctx.site n t.block := by
  obtain ⟨e, he, hb⟩ := he
  exact .of_onward ⟨e, h.kept e he, hb⟩ ho

theorem Continued.covered_follow {source target : BlockId} {b : Bindings}
    (h : Continued history ctx.site n true (s.follow ctx.site source target b)) :
    Covered history ctx.site n target :=
  h.covered (State.enteredAt_follow _ _ _) (h.onward rfl)

-- A replay leaves no target of an exit behind: what it does not enter itself is left to
-- what follows it, or to the loop around it.
structure Covers (ctx : Context) (body : Walk Bool) : Prop where
  framed : Frames True ctx body
  onward : ∀ {s r t}, body s = .ok r t → EnteredAt ctx s → ∀ {history n},
    Continued history ctx.site n r t → Onward history ctx.site n s.block

theorem Covers.continued {body : Walk Bool} (h : Covers ctx body) {r : Bool}
    (hb : body s = .ok r t) (he : EnteredAt ctx s) (hc : Continued history ctx.site n r t) :
    Continued history ctx.site n true s :=
  hc.before (h.framed hb) fun _ => h.onward hb he hc

-- Where control stops in a call, the block ends.
theorem replayExpr_terminated {e : Expr} (h : replayExpr ctx e s = .ok none t) :
    AtExit ctx t .terminated := by
  have hc : Callwise ctx fun _ _ => True := ⟨fun _ => trivial, fun _ _ => trivial, fun _ => trivial⟩
  obtain ⟨name, operands, u, -, hm⟩ := hc.stuck e h
  cases hm with
  | final block atOp inputs callee ends => exact ends.congr rfl rfl

theorem replayExpr_onward {e : Expr} {values? : Option (List ValueSet)}
    (h : replayExpr ctx e s = .ok values? t)
    (ht : values? ≠ none → Onward history ctx.site n t.block) :
    Onward history ctx.site n s.block := by
  have hstays : Stays True ctx s t := replayExpr_stays h
  rw [← hstays.block]
  cases values? with
  | none => exact (replayExpr_terminated h).onward (by simp [Exit.targets])
  | some values => exact ht (by simp)

theorem replayOne_onward {e : Expr} {value? : Option ValueSet}
    (h : replayOne ctx e s = .ok value? t)
    (ht : value? ≠ none → Onward history ctx.site n t.block) :
    Onward history ctx.site n s.block := by
  obtain ⟨values?, he, hv⟩ := replayOne_eq_ok.mp h
  refine replayExpr_onward he fun hne => ht ?_
  rcases hv with ⟨rfl, -⟩ | ⟨value, -, rfl⟩
  · exact absurd rfl hne
  · simp

theorem Tested.onward {e : Expr} {branch : Branch} {zero : Bindings}
    (h : Tested ctx e s branch zero t) (hz : Covered history ctx.site n branch.zero)
    (hn : Covered history ctx.site n branch.nonZero) : Onward history ctx.site n s.block := by
  cases h with
  | mk value exit fits carries =>
      exact replayOne_onward value fun _ => exit.onward (by simp [Exit.targets, hz, hn])

theorem EdgeRecorded.pending {way : LoopWay} {source target : BlockId} {b : Bindings}
    (h : EdgeRecorded ctx way source target b s t) : Pending t.loops target := by
  cases h with
  | @mk frame outer opened edge agrees =>
      exact ⟨_, outer, way, _, rfl, LoopFrame.first?_note_of_agrees agrees⟩

theorem LoopJumped.onward {way : LoopWay} {r : Bool} (h : LoopJumped ctx way s t)
    (hc : Continued history ctx.site n r t) : Onward history ctx.site n s.block := by
  cases h with
  | mk exit carries recorded =>
      exact exit.onward_jump (hc.pending _ recorded.pending)

theorem IfReplayed.onward {condition : Expr} {body : Walk Bool} {r : Bool}
    (hb : Covers ctx body) (h : IfReplayed ctx condition body s r t)
    (hc : Continued history ctx.site n r t) : Onward history ctx.site n s.block := by
  cases h with
  | stuck value => exact replayOne_onward value (absurd rfl)
  | @joined branch skipping running merged v w tested into run exit back meets owned edge =>
      have hz := hc.covered_follow
      have hw : Continued history ctx.site n true w :=
        hc.before (Framed.refl w).joined fun _ => exit.onward_jump hz
      have hv := hb.continued run (State.enteredAt_follow _ _ _) hw
      exact tested.onward hz hv.covered_follow
  | @skipped branch skipping v w tested into run edge =>
      have hz := hc.covered_follow
      have hw : Continued history ctx.site n false w :=
        hc.before ((Framed.refl w).follow _ _ _) (by simp)
      have hv := hb.continued run (State.enteredAt_follow _ _ _) hw
      exact tested.onward hz hv.covered_follow

-- The join that an arm found is the join of all that follow.
def SwitchJoin.Keeps (join next : SwitchJoin) : Prop :=
  ∀ edge ∈ join.edge?, ∃ edge' ∈ next.edge?, edge'.2 = edge.2

-- Whatever join is known is covered.
def SwitchJoin.Covered (join : SwitchJoin) (history : List Entry) (site : Site) (n : Nat) : Prop :=
  ∀ edge ∈ join.edge?, Replay.Covered history site n edge.2

theorem SwitchJoin.Keeps.covered {join next : SwitchJoin} (h : join.Keeps next)
    (hn : next.Covered history ctx.site n) : join.Covered history ctx.site n := by
  intro edge he
  obtain ⟨edge', hm, heq⟩ := h edge he
  exact heq ▸ hn edge' hm

theorem ArmReplayed.keeps {body : Walk Bool} {join next : SwitchJoin}
    (h : ArmReplayed ctx body join s next t) : join.Keeps next := by
  cases h with
  | left run => exact fun edge he => ⟨edge, he, rfl⟩
  | joined run exit agrees carries => exact fun edge he => ⟨_, rfl, (agrees edge he).symm⟩

theorem ArmReplayed.onward {body : Walk Bool} {join next : SwitchJoin} {r : Bool}
    (hb : Covers ctx body) (h : ArmReplayed ctx body join s next t) (he : EnteredAt ctx s)
    (hc : Continued history ctx.site n r t) (hj : next.Covered history ctx.site n) :
    Onward history ctx.site n s.block := by
  cases h with
  | left run => exact hb.onward run he (hc.congr (fun _ h => h) rfl (by simp))
  | @joined target bindings w run exit agrees carries =>
      have ht := hj (w.block, target) rfl
      exact hb.onward run he (hc.before (Framed.refl w).carried fun _ => exit.onward_jump ht)

theorem CaseReplayed.onward {e : Expr} {candidates : ValueSet} {value : Literal}
    {body : Walk Bool} {join next : SwitchJoin} {r : Bool} (hb : Covers ctx body)
    (h : CaseReplayed ctx e candidates value body join s next t)
    (hc : Continued history ctx.site n r t) (ho : Onward history ctx.site n t.block)
    (hj : next.Covered history ctx.site n) : Onward history ctx.site n s.block := by
  cases h with
  | @mk branch otherwise _ u w compared exit zero into arm edge =>
      have hz := hc.covered (State.enteredAt_follow _ _ _) ho
      have hw : Continued history ctx.site n false w :=
        hc.before ((Framed.refl w).follow _ _ _) (by simp)
      have hn := (hw.before (q := false) (arm.framed hb.framed) (by simp)).covered
        (State.enteredAt_follow _ _ _) (arm.onward hb (State.enteredAt_follow _ _ _) hw hj)
      have hstays : Stays True ctx s u := compared.stays
      rw [← hstays.block]
      exact exit.onward (by
        simp only [Exit.targets, List.mem_cons, List.not_mem_nil, or_false]
        rintro target (rfl | rfl)
        · exact hn
        · exact hz)

theorem CaseReplayed.keeps {e : Expr} {candidates : ValueSet} {value : Literal}
    {body : Walk Bool} {join next : SwitchJoin}
    (h : CaseReplayed ctx e candidates value body join s next t) : join.Keeps next := by
  cases h with
  | mk compared exit zero into arm edge => exact arm.keeps

theorem CasesReplayed.keeps {e : Expr} {candidates : ValueSet} {arms : List Arm}
    {join last : SwitchJoin} (h : CasesReplayed ctx e candidates arms join s last t) :
    join.Keeps last := by
  induction h with
  | nil => exact fun edge he => ⟨edge, he, rfl⟩
  | cons first others ih =>
      intro edge he
      obtain ⟨edge', hm, heq⟩ := first.keeps edge he
      obtain ⟨edge'', hm', heq'⟩ := ih edge' hm
      exact ⟨edge'', hm', heq'.trans heq⟩

theorem CasesReplayed.onward {e : Expr} {candidates : ValueSet} {arms : List Arm}
    {join last : SwitchJoin} {r : Bool} (hb : ∀ arm ∈ arms, Covers ctx arm.2)
    (h : CasesReplayed ctx e candidates arms join s last t)
    (hc : Continued history ctx.site n r t) (ho : Onward history ctx.site n t.block)
    (hj : last.Covered history ctx.site n) : Onward history ctx.site n s.block := by
  induction h with
  | nil => exact ho
  | cons first others ih =>
      obtain ⟨hf, hr⟩ := List.forall_mem_cons.mp hb
      have hu := ih hr hc ho hj
      have hframed := others.framed fun arm ha => (hr arm ha).framed
      exact first.onward hf (hc.before (q := false) hframed (by simp)) hu
        (others.keeps.covered hj)

theorem Settled.covered {join : SwitchJoin} {r : Bool} (h : Settled ctx join s r t)
    (he : EnteredAt ctx s) (hc : Continued history ctx.site n r t) :
    join.Covered history ctx.site n := by
  cases h with
  | nowhere noEdge =>
      intro edge hm
      exact absurd (noEdge.symm.trans hm) (by simp)
  | advanced found meets owned elsewhere edge =>
      intro edge hm
      obtain rfl := Option.some.inj (found.symm.trans hm)
      exact hc.covered_follow
  | @there source target merged found meets owned here =>
      intro edge hm
      obtain rfl := Option.some.inj (found.symm.trans hm)
      have hf : Framed True ctx s _ :=
        ((Framed.refl s).log (.merged target merged) nofun).bindings merged
      exact here ▸ hc.covered (he.framed hf) (hc.onward rfl)

theorem FallbackReplayed.onward {default? : Option (Walk Bool)} {join : SwitchJoin} {r : Bool}
    (hb : ∀ body ∈ default?, Covers ctx body) (h : FallbackReplayed ctx default? join s r t)
    (he : EnteredAt ctx s) (hc : Continued history ctx.site n r t) :
    Onward history ctx.site n s.block ∧ join.Covered history ctx.site n := by
  -- An arm leads to the join that is settled after it.
  have through : ∀ {body : Walk Bool} {join next : SwitchJoin} {s u t : State},
      Covers ctx body → EnteredAt ctx s → ArmReplayed ctx body join s next u →
        Settled ctx next u r t → Continued history ctx.site n r t →
          Onward history ctx.site n s.block ∧ join.Covered history ctx.site n := by
    intro body join next s u t hb he arm settled hc
    have hn := settled.covered (he.framed (arm.framed hb.framed)) hc
    exact ⟨arm.onward hb he (hc.before (q := false) settled.framed (by simp)) hn,
      arm.keeps.covered hn⟩
  cases h with
  | default arm settled => exact through (hb _ rfl) he arm settled hc
  | unjoined noEdge =>
      refine ⟨hc.onward rfl, fun edge hm => ?_⟩
      exact absurd (noEdge.symm.trans hm) (by simp)
  | direct found here settled =>
      have hj := settled.covered he hc
      refine ⟨?_, hj⟩
      cases settled with
      | nowhere noEdge => exact absurd (found.symm.trans noEdge) (by simp)
      | advanced found' meets owned elsewhere edge =>
          obtain rfl := Option.some.inj (found.symm.trans found')
          exact absurd here elsewhere
      | there => exact hc.onward rfl
  | through found elsewhere arm settled =>
      refine through ⟨fun h => ?_, fun h _ _ _ hc => ?_⟩ he arm settled hc
      · obtain ⟨-, rfl⟩ := pure_eq_ok.mp h
        exact .refl _
      · obtain ⟨rfl, rfl⟩ := pure_eq_ok.mp h
        exact hc.onward rfl

theorem SwitchReplayed.onward {e : Expr} {arms : List Arm} {r : Bool}
    (hb : ∀ arm ∈ arms, Covers ctx arm.2) (h : SwitchReplayed ctx e arms s r t)
    (he : EnteredAt ctx s) (hc : Continued history ctx.site n r t) :
    Onward history ctx.site n s.block := by
  cases h with
  | stuck value => exact replayOne_onward value (absurd rfl)
  | noArms value split => exact replayOne_onward value fun _ => hc.onward rfl
  | onlyDefault value split run =>
      have hd := hb _ ((mem_of_splitDefault split).2 _ rfl)
      exact replayOne_onward value fun _ =>
        hd.onward run (he.framed (replayOne_stays value).framed) hc
  | cases value split some_case run fallback =>
      obtain ⟨hcases, hdefault⟩ := mem_of_splitDefault split
      have hcov := fun arm ha => hb arm (hcases arm ha)
      have hu := he.framed (replayOne_stays value).framed
      have hv := hu.framed (run.framed fun arm ha => (hcov arm ha).framed)
      have hfall := fun body hm => hb _ (hdefault body hm)
      obtain ⟨ho, hj⟩ := fallback.onward hfall hv hc
      have hframed := fallback.framed fun body hm => (hfall body hm).framed
      exact replayOne_onward value fun _ =>
        run.onward hcov (hc.before (q := false) hframed (by simp)) ho hj

theorem ConditionReplayed.onward {condition? : Option Expr} {r : Bool}
    (h : ConditionReplayed ctx s condition? r t) (hc : Continued history ctx.site n r t) :
    Onward history ctx.site n s.block := by
  cases h with
  | untested => exact hc.onward rfl
  | stuck value => exact replayOne_onward value (absurd rfl)
  | @tested _ branch leaving v w tested recorded into =>
      have hn := hc.covered_follow
      exact tested.onward (hc.pending _ recorded.pending) hn

-- What is to be covered after a pass over a loop: its header and where it is left to.
structure Enclosed (history : List Entry) (site : Site) (n : Nat) (header : BlockId) (t : State) :
    Prop where
  kept : ∀ e ∈ t.history, e ∈ history
  header : Covered history site n header
  exits : ∀ frame outer source target, t.loops = frame :: outer →
    frame.exits.first? = some (source, target) → Covered history site n target

theorem Enclosed.le {m : Nat} {header : BlockId} (h : Enclosed history ctx.site n header t)
    (hm : m ≤ n) : Enclosed history ctx.site m header t :=
  ⟨h.kept, h.header.le hm, fun f o a b hl hf => (h.exits f o a b hl hf).le hm⟩

theorem PostReplayed.onward {header : BlockId} {post : Walk Bool} (hp : Covers ctx post)
    (h : PostReplayed ctx header post s t) (he : EnteredAt ctx s)
    (hc : Enclosed history ctx.site n header t)
    (hpend : ∀ target, Pending t.loops target → Covered history ctx.site n target) :
    Onward history ctx.site n s.block := by
  cases h with
  | stopped run => exact hp.onward run he ⟨hc.kept, by simp, hpend⟩
  | @latched bindings frame outer w run exit edge carries opened =>
      refine hp.onward run he ⟨fun e hm => ?_, fun _ => ?_, fun target hm => ?_⟩
      · exact hc.kept e (List.mem_cons_of_mem _ (List.mem_cons_of_mem _ hm))
      · exact exit.onward_jump hc.header
      · obtain ⟨f, o, way, source, hl, hf⟩ := hm
        obtain ⟨rfl, rfl⟩ := List.cons.inj (opened.symm.trans hl)
        refine hpend target ⟨_, outer, way, source, rfl, ?_⟩
        cases way <;> exact hf

-- The post block may be continued to from within itself, so it is covered step by step.
theorem ContinuesReplayed.covered {header : BlockId} {postEmpty : Bool} {post : Walk Bool}
    (hp : Covers ctx post) (h : ContinuesReplayed ctx header postEmpty post s t)
    (hc : Enclosed history ctx.site n header t) {target : BlockId}
    (hpend : Pending s.loops target) : Covered history ctx.site n target := by
  obtain ⟨f, o, way, source, hl, hf⟩ := hpend
  cases h with
  | nowhere opened noEdge =>
      obtain ⟨rfl, rfl⟩ := List.cons.inj (opened.symm.trans hl)
      cases way with
      | exits => exact hc.exits _ _ _ _ hl hf
      | continues => exact absurd (noEdge.symm.trans hf) (by simp)
  | direct opened found empty =>
      obtain ⟨rfl, rfl⟩ := List.cons.inj (opened.symm.trans hl)
      cases way with
      | exits => exact hc.exits _ _ source target rfl hf
      | continues =>
          obtain ⟨-, rfl⟩ := Prod.mk.inj (Option.some.inj (found.symm.trans hf))
          exact hc.header
  | @post frame outer start into merged _ opened found elsewhere meets owned edge run =>
      obtain ⟨rfl, rfl⟩ := List.cons.inj (opened.symm.trans hl)
      obtain ⟨last, hlast, hkept⟩ := run.edges_kept hp.framed rfl
      cases way with
      | exits => exact hc.exits last outer source target hlast ((hkept .exits).first _ hf)
      | continues =>
          obtain ⟨rfl, rfl⟩ := Prod.mk.inj (Option.some.inj (found.symm.trans hf))
          have hg := (run.framed hp.framed).history
          refine .of_step ⟨_, hc.kept _ (hg.mem List.mem_cons_self), rfl, rfl⟩ fun m hm ih => ?_
          refine run.onward hp (State.enteredAt_follow _ _ _) (hc.le hm) fun target hpend => ?_
          obtain ⟨g, o, way, source, hl', hf'⟩ := hpend
          obtain ⟨rfl, rfl⟩ := List.cons.inj (hlast.symm.trans hl')
          cases way with
          | exits => exact (hc.le hm).exits _ _ _ _ hl' hf'
          | continues =>
              obtain ⟨-, rfl⟩ :=
                Prod.mk.inj (Option.some.inj (((hkept .continues).first _ rfl).symm.trans hf'))
              exact ih

theorem PassReplayed.onward {header : BlockId} {parts : LoopParts} (hb : Covers ctx parts.body)
    (hp : Covers ctx parts.post) (h : PassReplayed ctx header parts s t) (he : EnteredAt ctx s)
    (hc : Enclosed history ctx.site n header t) : Onward history ctx.site n s.block := by
  cases h with
  | stuck condition =>
      generalize parts.condition? = condition? at condition
      cases condition with
      | stuck value => exact replayOne_onward value (absurd rfl)
  | @stopped u v _ condition body continues =>
      have hv : Continued history ctx.site n false v :=
        ⟨fun e hm => hc.kept e ((continues.framed hp.framed).history.mem hm), by simp,
          fun target => continues.covered hp hc⟩
      exact condition.onward (hb.continued body (he.framed condition.framed) hv)
  | @fallen u v w _ condition body jump continues =>
      have hw : Continued history ctx.site n false w :=
        ⟨fun e hm => hc.kept e ((continues.framed hp.framed).history.mem hm), by simp,
          fun target => continues.covered hp hc⟩
      have hv : Continued history ctx.site n true v :=
        hw.before jump.framed fun _ => jump.onward hw
      exact condition.onward (hb.continued body (he.framed condition.framed) hv)

theorem LastPass.covered {header : BlockId} {parts : LoopParts} {entry : Bindings} {r : Bool}
    (hb : Covers ctx parts.body) (hp : Covers ctx parts.post)
    (h : LastPass ctx header parts entry s r t) (hc : Continued history ctx.site n r t) :
    Covered history ctx.site n header := by
  cases h with
  | @mk _ _ stable frame before after pass fixed refines left scope loops =>
      have hg : Grown True ctx after.history t.history :=
        ((Grown.refl _).step (.merged header stable) (by nofun)).trans left.framed.history
      have hexits : ∀ source target, frame.exits.first? = some (source, target) →
          Covered history ctx.site n target := by
        intro source target hf
        cases left with
        | never noEdge => exact absurd (noEdge.symm.trans hf) (by simp)
        | left found meets owned edge =>
            obtain ⟨rfl, rfl⟩ := Prod.mk.inj (Option.some.inj (found.symm.trans hf))
            exact hc.covered_follow
      cases pass with
      | mk run opened =>
          have hkept : ∀ e ∈ State.history _, e ∈ history := fun e he => hc.kept e (hg.mem he)
          refine .of_step ⟨_, hkept _ ((run.framed hb.framed hp.framed).history.mem
            List.mem_cons_self), rfl, rfl⟩ fun m hm ih => ?_
          refine run.onward hb hp ⟨_, List.mem_cons_self, rfl, rfl⟩ ⟨hkept, ih, ?_⟩
          intro f o source target hl hf
          obtain ⟨rfl, rfl⟩ := List.cons.inj (opened.symm.trans hl)
          exact (hexits source target hf).le hm

theorem ForReplayed.onward {pre : Walk Bool} {condition : Expr} {body : Walk Bool}
    {postEmpty : Bool} {post : Walk Bool} {r : Bool} (hpre : Covers ctx pre)
    (hb : Covers ctx body) (hp : Covers ctx post)
    (h : ForReplayed ctx pre condition body postEmpty post s r t) (he : EnteredAt ctx s)
    (hc : Continued history ctx.site n r t) : Onward history ctx.site n s.block := by
  cases h with
  | stuck run => exact hpre.onward run he hc
  | @never header entry u _ _ run exit carries edge constant literal zero =>
      have hh := hc.covered_follow
      exact hpre.onward run he (hc.before (Framed.refl u).jumped fun _ => exit.onward_jump hh)
  | @loop header entry u _ _ run exit carries edge unlessZero iterate =>
      have hh := (iterate.lastPass hb.framed hp.framed).covered hb hp hc
      have passes := (Framed.refl u).jumped.trans (iterate.framed hb.framed hp.framed)
      exact hpre.onward run he (hc.before passes fun _ => exit.onward_jump hh)

theorem covers_compositional : Compositional True Covers where
  done ctx := ⟨framed_compositional.done ctx, fun h _ _ _ hc => by
    obtain ⟨rfl, rfl⟩ := pure_eq_ok.mp h
    exact hc.onward rfl⟩
  expr ctx e := ⟨framed_compositional.expr ctx e, fun h _ _ _ hc => by
    rcases replayBare_eq_ok.mp h with ⟨he, rfl⟩ | ⟨he, rfl⟩
    · exact replayExpr_onward he (absurd rfl)
    · exact replayExpr_onward he fun _ => hc.onward rfl⟩
  assign ctx names e := ⟨framed_compositional.assign ctx names e, fun h _ _ _ hc => by
    rcases replayAssignment_of_ok h with ⟨he, rfl⟩ | ⟨values, u, b, he, -, -, rfl, rfl⟩
    · exact replayExpr_onward he (absurd rfl)
    · exact replayExpr_onward he fun _ => hc.onward rfl⟩
  letDecl ctx names value? := ⟨framed_compositional.letDecl ctx names value?,
    fun h _ _ _ hc => by
    rcases replayLet_of_ok h with ⟨hi, rfl⟩ | ⟨values, u, b, hi, -, rfl, rfl⟩
    · cases hi with
      | given value fits => exact replayExpr_onward value (absurd rfl)
    · cases hi with
      | given value fits => exact replayExpr_onward value fun _ => hc.onward rfl
      | zero found => exact hc.onward rfl⟩
  leave ctx := ⟨framed_compositional.leave ctx, fun h _ _ _ hc => by
    obtain ⟨left, rfl⟩ := functionLeft_of_ok h
    cases left with
    | mk exit count held => exact exit.onward (by simp [Exit.targets])⟩
  loopJump ctx way := ⟨framed_compositional.loopJump ctx way, fun h _ _ _ hc => by
    obtain ⟨jump, rfl⟩ := replayLoopJump_eq_ok h
    exact jump.onward hc⟩
  cond ctx condition body hb := ⟨framed_compositional.cond ctx condition body hb.framed,
    fun h _ _ _ hc => (ifReplayed_of_ok h).onward hb hc⟩
  switch hs ctx e arms ha := ⟨framed_compositional.switch hs ctx e arms fun arm hm =>
    (ha arm hm).framed, fun h he _ _ hc => (switchReplayed_of_ok h).onward ha he hc⟩
  forLoop ctx pre condition body postEmpty post hpre hb hp :=
    ⟨framed_compositional.forLoop ctx pre condition body postEmpty post hpre.framed hb.framed
      hp.framed, fun h he _ _ hc => (forReplayed_of_ok h).onward hpre hb hp he hc⟩
  block ctx id body hb := ⟨framed_compositional.block ctx id body hb.framed,
    fun h he _ _ hc => by
    obtain ⟨scope, u, -, hu, rfl⟩ := inBlock_eq_ok.mp h
    exact hb.onward hu he (hc.congr (fun _ h => h) rfl hc.onward)⟩
  definition ctx d others hs hd ho := ⟨framed_compositional.definition ctx d others hs
    (fun inner => (hd inner).framed) ho.framed, fun h he _ _ hc => by
    obtain ⟨_, u, hu, ht⟩ := bind_eq_ok.mp h
    have hf := (definitionReplayed_of_ok hu).framed hs fun inner => (hd inner).framed
    have hn := ho.onward ht (he.framed hf) hc
    obtain ⟨warnings, more, rfl, -⟩ := (definitionReplayed_of_ok hu).apart
    exact hn⟩
  next ctx id rest first others hf ho := ⟨framed_compositional.next ctx id rest first others
    hf.framed ho.framed, fun h he _ _ hc => by
    obtain ⟨falls, u, hu, ht⟩ := bind_eq_ok.mp h
    rcases ite_eq_ok.mp ht with ⟨rfl, ht⟩ | ⟨hn, ht⟩
    · exact hf.onward hu he (ho.continued ht (he.framed (hf.framed hu)) hc)
    · obtain rfl : falls = false := by simpa using hn
      obtain ⟨_, v, hw, hp⟩ := bind_eq_ok.mp ht
      obtain ⟨rfl, rfl⟩ := pure_eq_ok.mp hp
      exact hf.onward hu he (hc.before (warned_of_ok hw).framed (by simp))⟩

theorem GraphReplayed.entered_of_reachable {d? : Option Yul.Definition} {body : Yul.Block}
    {base final : List Entry} (hs : Begins ctx d? base s) (h : GraphReplayed ctx body s final)
    {b : BlockId} (hb : ctx.graph.Reachable b) : ∃ e ∈ final, e.Enters ctx.site b := by
  have hcov : Covers ctx (replayBlock ctx body) :=
    covers_compositional.ofBlock ctx body (.inl trivial)
  have he : EnteredAt ctx s := ⟨_, hs.history ▸ List.mem_cons_self, rfl, hs.block.symm⟩
  have outside : ∀ {r t}, replayBlock ctx body s = .ok r t → ∀ target, ¬Pending t.loops target := by
    rintro r t hrun target ⟨frame, outer, way, source, hl, -⟩
    exact absurd (hl.symm.trans (hs.loops ▸ (hcov.framed hrun).loops).eq_nil) (by simp)
  refine Replay.entered_of_reachable (fun n => ?_) hb
  have ho : Onward final ctx.site n s.block := by
    cases h with
    | stopped run =>
        exact hcov.onward run he ⟨fun _ h => h, by simp, fun target hp => absurd hp (outside run _)⟩
    | ended run atExit noTargets =>
        refine hcov.onward run he ⟨fun _ h => List.mem_cons_of_mem _ h, fun _ => ?_,
          fun target hp => absurd hp (outside run _)⟩
        exact atExit.onward (by simp [noTargets])
  obtain ⟨e, hm, hx⟩ := he
  exact hs.block ▸ .of_onward ⟨e, (h.grown (.inl trivial)).mem hm, hx⟩ ho

theorem GraphReplayed.visited {d? : Option Yul.Definition} {body : Yul.Block}
    {base final : List Entry} (hs : Begins ctx d? base s) (h : GraphReplayed ctx body s final) :
    ∃ steps, final.reverse = base.reverse ++ steps ∧ ∀ before e after b,
      steps = before ++ e :: after → e.Enters ctx.site b → VisitedFrom ctx.site b after := by
  have hvisit : Visiting ctx (replayBlock ctx body) :=
    visiting_compositional.ofBlock ctx body (.inl trivial)
  have hstart : AtWork ctx base.reverse s := by
    refine .inl ⟨[⟨ctx.site, .entered d?⟩], by rw [hs.history, List.reverse_cons], ?_⟩
    rw [hs.block, hs.op]
    exact .entered d?
  have hover : ∃ steps, final.reverse = base.reverse ++ steps ∧ Tracked ctx.site steps none := by
    cases h with
    | stopped run => exact (hvisit run hstart : Over ctx _ _).tracked
    | ended run atExit noTargets =>
        exact (AtWork.leave (hvisit run hstart : AtWork ctx _ _) atExit).tracked
  obtain ⟨steps, hsteps, htracked⟩ := hover
  refine ⟨steps, hsteps, fun before e after b hsplit he => ?_⟩
  rcases htracked.visited hsplit he with hv | ⟨k, hk, -⟩
  · exact hv
  · exact absurd hk (by simp)

-- A history in which every block that is entered at a site is visited to its end, and
-- every block that exits lead to is entered.
structure Complete (history : List Entry) (site : Site) : Prop where
  reached : ∀ b, site.graph.Reachable b → ∃ e ∈ history, e.Enters site b
  visited : ∀ b, (∃ e ∈ history, e.Enters site b) →
    ∃ before e after, history = before ++ e :: after ∧ e.Enters site b ∧ VisitedFrom site b after

-- The graph of a site is the one that the program has for its owner.
def Site.Owned (site : Site) (flow : Graph.ControlFlow) : Prop :=
  match site.owner? with
  | none => site.graph = flow.main
  | some f => flow.graphOf? f = some site.graph

end Replay

open Replay

section

variable {ctx : Context} {s : State} {d? : Option Yul.Definition} {body : Yul.Block}
  {base final history : List Entry}

-- The same within a longer history.
theorem Replay.GraphReplayed.complete (hs : Begins ctx d? base s)
    (h : GraphReplayed ctx body s final) (hf : final <:+ history) :
    (∀ b, ctx.graph.Reachable b → ∃ e ∈ history.reverse, e.Enters ctx.site b) ∧
      ∀ e b new, final = new ++ base → e ∈ new → e.Enters ctx.site b →
        ∃ before after, history.reverse = before ++ e :: after ∧
          VisitedFrom ctx.site b after := by
  refine ⟨fun b hb => ?_, fun e b new hnew he hb => ?_⟩
  · obtain ⟨e, he, hb⟩ := h.entered_of_reachable hs hb
    exact ⟨e, List.mem_reverse.mpr (hf.mem he), hb⟩
  · obtain ⟨more, rfl⟩ := hf
    obtain ⟨steps, hsteps, hvisited⟩ := h.visited hs
    have hrev : steps = new.reverse := by
      rw [hnew, List.reverse_append] at hsteps
      exact (List.append_cancel_left hsteps).symm
    obtain ⟨before, after, hsplit⟩ := List.append_of_mem (List.mem_reverse.mpr he)
    refine ⟨base.reverse ++ before, after ++ more.reverse, ?_,
      (hvisited before e after b (hrev.trans hsplit) hb).append _⟩
    rw [List.reverse_append, hsteps, hrev, hsplit]
    simp

theorem Replay.Told.complete {e : Entry} (h : Told True ctx history e) :
    (∀ b, e.site.graph.Reachable b → ∃ e' ∈ history.reverse, e'.Enters e.site b) ∧
      ∀ b, e.Enters e.site b → ∃ before after, history.reverse = before ++ e :: after ∧
        VisitedFrom e.site b after := by
  obtain ⟨d, before, after, new, -, hrun, hnew, he, hsuffix, -⟩ := h
  obtain ⟨start, hs, hreplay⟩ := hrun.graphReplayed
  obtain ⟨hreached, hvisited⟩ := hreplay.complete hs hsuffix
  exact ⟨hreached, fun b hb => hvisited e b new hnew he hb⟩

end

-- A replay without an error goes through all the code of the main graph, and of the graph
-- of every function whose definition it comes to: no block that can be reached is left
-- out, and each visit of a block takes in all its operations and its exit.
theorem complete_of_accepted (s : Subject) (settings : Settings)
    (h : judge s settings = .accepted) :
    ⟨(s.context settings).site, .entered none⟩ ∈ (s.run settings).history ∧
      ∀ site d?, ⟨site, .entered d?⟩ ∈ (s.run settings).history →
        site.Owned s.flow ∧ Complete (s.run settings).history site := by
  refine ⟨Subject.mainEntered_of_accepted h, fun site d? hentered => ?_⟩
  obtain ⟨t, hrun, hhistory⟩ := Subject.replayMain_of_accepted h
  rw [hhistory] at hentered ⊢
  obtain ⟨start, hstart, hreplay⟩ := graphReplayed_of_main hrun
  obtain ⟨hreached, hvisited⟩ := hreplay.complete hstart List.suffix_rfl
  rcases told_of_main (.inl trivial) hrun (List.mem_reverse.mp hentered) with
    ⟨rfl, -⟩ | ⟨hdepth, htold⟩
  · refine ⟨rfl, hreached, ?_⟩
    rintro b ⟨e, he, hb⟩
    obtain ⟨before, after, hsplit, hv⟩ :=
      hvisited e b t.history (by simp) (List.mem_reverse.mp he) hb
    exact ⟨before, e, after, hsplit, hb, hv⟩
  · refine ⟨?_, htold.complete.1, ?_⟩
    · obtain ⟨d, before, after, new, -, hdef, -⟩ := htold
      obtain ⟨f, hf, hg⟩ := hdef.graph
      unfold Site.Owned
      rw [show site.owner? = some f from hf]
      exact hg
    · rintro b ⟨e, he, hb⟩
      rcases told_of_main (.inl trivial) hrun (List.mem_reverse.mp he) with
        ⟨hsite, -⟩ | ⟨-, htold'⟩
      · exact absurd (hsite.symm.trans hb.1 ▸ hdepth) (Nat.lt_irrefl _)
      · obtain rfl := hb.1
        obtain ⟨before, after, hsplit, hv⟩ := htold'.complete.2 b hb
        exact ⟨before, e, after, hsplit, hb, hv⟩

theorem Counting.complete_here :
    judge subject .default = .accepted ∧
      Complete (subject.run .default).history (subject.context .default).site := by
  obtain ⟨entered, complete⟩ := complete_of_accepted subject .default accepted
  exact ⟨accepted, (complete _ none entered).2⟩

end SsaReplay
