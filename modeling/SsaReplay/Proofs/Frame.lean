import SsaReplay.Proofs.Composition
import SsaReplay.Proofs.Refinement

namespace SsaReplay.Replay

open SsaReplay.Graph (Branch Exit)
open SsaReplay.Yul (Definition Expr Literal)

-- The same surroundings at another site.
def Context.on (ctx : Context) (site : Site) : Context := { ctx with site }

-- A definition of the program is replayed against the graph of its function.
structure DefinitionRun (ctx : Context) (d : Definition) (before after : State) : Prop where
  graph : ∃ f, ctx.site.owner? = some f ∧ ctx.flow.graphOf? f = some ctx.graph
  parameters : ctx.graph.arguments.length = d.parameters.length
  returns : ctx.graph.returns.length = d.returns.length
  starts : ∃ outer : State, before = outer.apartOn ctx.graph
  run : replayFunction ctx d (replayBlock ctx d.body) before = .ok () after

-- An entry stems from the replay of a definition that the history contains as a whole.
def Told (switches : Prop) (ctx : Context) (history : List Entry) (e : Entry) : Prop :=
  ∃ d before after new, (switches ∨ d.body.switchFree = true) ∧
    DefinitionRun (ctx.on e.site) d before after ∧ after.history = new ++ before.history ∧
      e ∈ new ∧ after.history <:+ history ∧ ∀ d?, e.event = .entered d? → d? = some d

-- The history goes on by steps at the site and by whole replays of definitions.
def Grown (switches : Prop) (ctx : Context) (old new : List Entry) : Prop :=
  ∃ more, new = more ++ old ∧ ∀ e ∈ more,
    (e.site = ctx.site ∧ ∀ d?, e.event ≠ .entered d?) ∨
      (ctx.site.depth < e.site.depth ∧ Told switches ctx new e)

-- The history tells that a block is entered: at the start of its graph, along an edge,
-- or for another pass over a loop.
def Entry.Enters (e : Entry) (site : Site) (b : BlockId) : Prop :=
  e.site = site ∧
    match e.event with
    | .entered _ => site.graph.entry = b
    | .advanced _ target _ => target = b
    | .loopPass header _ _ => header = b
    | _ => False

-- What is known of edges is never given up, only added to.
structure LoopEdges.Extends (old new : LoopEdges) : Prop where
  first : ∀ edge, old.first? = some edge → new.first? = some edge
  bindings : ∃ more, new.bindings = old.bindings ++ more

structure LoopFrame.Extends (old new : LoopFrame) : Prop where
  header : new.header = old.header
  backEdges : new.backEdges = old.backEdges
  edges : ∀ way, (old.edges way).Extends (new.edges way)

-- Edges are noted on the innermost loop only.
inductive LoopsExtend : List LoopFrame → List LoopFrame → Prop
  | nil : LoopsExtend [] []
  | cons {old new : LoopFrame} {outer : List LoopFrame} (innermost : old.Extends new) :
      LoopsExtend (old :: outer) (new :: outer)

-- What a replay leaves alone, and how it leaves its traces.
structure Framed (switches : Prop) (ctx : Context) (s t : State) : Prop where
  scope : t.scope? = s.scope?
  block : t.block = s.block ∨ ∃ e ∈ t.history, e.Enters ctx.site t.block
  loops : LoopsExtend s.loops t.loops
  history : Grown switches ctx s.history t.history

-- The same while the position stays in its block.
structure Stays (switches : Prop) (ctx : Context) (s t : State) : Prop where
  scope : t.scope? = s.scope?
  block : t.block = s.block
  op : s.op ≤ t.op
  loops : t.loops = s.loops
  history : Grown switches ctx s.history t.history

-- Whatever a replay does, where it goes through.
def Frames (switches : Prop) (ctx : Context) (body : Walk Bool) : Prop :=
  ∀ {s r t}, body s = .ok r t → Framed switches ctx s t

variable {switches : Prop} {ctx : Context} {s t u : State}

section History

variable {old new newer : List Entry}

theorem Told.mono {e : Entry} (h : Told switches ctx old e) (hs : old <:+ new) :
    Told switches ctx new e := by
  obtain ⟨d, before, after, more, hf, hr, hm, he, ha, hd⟩ := h
  exact ⟨d, before, after, more, hf, hr, hm, he, ha.trans hs, hd⟩

theorem Grown.suffix (h : Grown switches ctx old new) : old <:+ new := by
  obtain ⟨more, rfl, -⟩ := h
  exact List.suffix_append more old

theorem Grown.refl (h : List Entry) : Grown switches ctx h h := ⟨[], rfl, by simp⟩

theorem Grown.trans (h : Grown switches ctx old new) (k : Grown switches ctx new newer) :
    Grown switches ctx old newer := by
  have hs := k.suffix
  obtain ⟨first, rfl, hf⟩ := h
  obtain ⟨second, rfl, hk⟩ := k
  refine ⟨second ++ first, by simp, fun e he => ?_⟩
  rcases List.mem_append.mp he with he | he
  · exact hk e he
  · exact (hf e he).imp_right fun ⟨hd, ht⟩ => ⟨hd, ht.mono hs⟩

theorem Grown.step (h : Grown switches ctx old new) (e : Event) (he : ∀ d?, e ≠ .entered d?) :
    Grown switches ctx old (⟨ctx.site, e⟩ :: new) :=
  h.trans ⟨[⟨ctx.site, e⟩], rfl, fun x hx => by
    obtain rfl := List.mem_singleton.mp hx
    exact .inl ⟨rfl, he⟩⟩

end History

section Loops

theorem LoopEdges.Extends.refl (e : LoopEdges) : e.Extends e := ⟨fun _ h => h, [], by simp⟩

theorem LoopEdges.Extends.trans {a b c : LoopEdges} (h : a.Extends b) (k : b.Extends c) :
    a.Extends c := by
  obtain ⟨first, hf⟩ := h.bindings
  obtain ⟨second, hs⟩ := k.bindings
  exact ⟨fun e he => k.first e (h.first e he), first ++ second, by rw [hs, hf, List.append_assoc]⟩

theorem LoopFrame.Extends.refl (f : LoopFrame) : f.Extends f := ⟨rfl, rfl, fun _ => .refl _⟩

theorem LoopFrame.Extends.trans {a b c : LoopFrame} (h : a.Extends b) (k : b.Extends c) :
    a.Extends c :=
  ⟨k.header.trans h.header, k.backEdges.trans h.backEdges,
    fun way => (h.edges way).trans (k.edges way)⟩

theorem LoopFrame.extends_note (f : LoopFrame) (way : LoopWay) (source target : BlockId)
    (bindings : Bindings) : f.Extends (f.note way source target bindings) := by
  refine ⟨by simp, by simp, fun other => ?_⟩
  by_cases h : other = way
  · subst h
    rw [edges_note]
    exact ⟨fun edge he => by simp [he], [bindings], rfl⟩
  · rw [edges_note_of_ne _ _ _ _ _ h]
    exact .refl _

theorem LoopsExtend.refl (loops : List LoopFrame) : LoopsExtend loops loops := by
  cases loops with
  | nil => exact .nil
  | cons f outer => exact .cons (.refl f)

theorem LoopsExtend.trans {a b c : List LoopFrame} (h : LoopsExtend a b) (k : LoopsExtend b c) :
    LoopsExtend a c := by
  cases h with
  | nil => exact k
  | cons h =>
      cases k with
      | cons k => exact .cons (h.trans k)

theorem LoopsExtend.tail {a b : List LoopFrame} (h : LoopsExtend a b) : b.tail = a.tail := by
  cases h <;> rfl

theorem LoopsExtend.eq_nil {loops : List LoopFrame} (h : LoopsExtend [] loops) : loops = [] := by
  cases h
  rfl

theorem LoopsExtend.of_cons {f : LoopFrame} {outer loops : List LoopFrame}
    (h : LoopsExtend (f :: outer) loops) : ∃ g, loops = g :: outer ∧ f.Extends g := by
  cases h with
  | cons h => exact ⟨_, rfl, h⟩

end Loops

theorem Grown.mem {old new : List Entry} (h : Grown switches ctx old new) {e : Entry}
    (he : e ∈ old) :
    e ∈ new :=
  h.suffix.mem he

-- Where the position moves, it moves into a block that is entered.
theorem moved_trans {old new : List Entry} {a b c : BlockId} (hg : Grown switches ctx old new)
    (h : b = a ∨ ∃ e ∈ old, e.Enters ctx.site b) (k : c = b ∨ ∃ e ∈ new, e.Enters ctx.site c) :
    c = a ∨ ∃ e ∈ new, e.Enters ctx.site c := by
  rcases k with rfl | k
  · exact h.imp_right fun ⟨e, he, hb⟩ => ⟨e, hg.mem he, hb⟩
  · exact .inr k

theorem Framed.refl (s : State) : Framed switches ctx s s := ⟨rfl, .inl rfl, .refl _, .refl _⟩

theorem Framed.trans (h : Framed switches ctx s t) (k : Framed switches ctx t u) :
    Framed switches ctx s u :=
  ⟨k.scope.trans h.scope, moved_trans k.history h.block k.block, h.loops.trans k.loops,
    h.history.trans k.history⟩

theorem Stays.refl (s : State) : Stays switches ctx s s := ⟨rfl, rfl, Nat.le_refl _, rfl, .refl _⟩

theorem Stays.trans (h : Stays switches ctx s t) (k : Stays switches ctx t u) :
    Stays switches ctx s u :=
  ⟨k.scope.trans h.scope, k.block.trans h.block, Nat.le_trans h.op k.op, k.loops.trans h.loops,
    h.history.trans k.history⟩

theorem Stays.framed (h : Stays switches ctx s t) : Framed switches ctx s t :=
  ⟨h.scope, .inl h.block, h.loops ▸ .refl _, h.history⟩

-- A step at the site that only shows in the history.
theorem Stays.log (h : Stays switches ctx s t) (e : Event) (he : ∀ d?, e ≠ .entered d?) :
    Stays switches ctx s (t.log ctx.site e) :=
  ⟨h.scope, h.block, h.op, h.loops, h.history.step e he⟩

theorem Stays.bindings (h : Stays switches ctx s t) (b : Bindings) :
    Stays switches ctx s { t with bindings := b } :=
  ⟨h.scope, h.block, h.op, h.loops, h.history⟩

theorem Framed.log (h : Framed switches ctx s t) (e : Event) (he : ∀ d?, e ≠ .entered d?) :
    Framed switches ctx s (t.log ctx.site e) :=
  ⟨h.scope, h.block.imp_right fun ⟨x, hx, hb⟩ => ⟨x, List.mem_cons_of_mem _ hx, hb⟩, h.loops,
    h.history.step e he⟩

theorem Framed.follow (h : Framed switches ctx s t) (source target : BlockId) (b : Bindings) :
    Framed switches ctx s (t.follow ctx.site source target b) :=
  ⟨h.scope, .inr ⟨_, List.mem_cons_self, rfl, rfl⟩, h.loops, h.history.step _ nofun⟩

theorem Framed.bindings (h : Framed switches ctx s t) (b : Bindings) :
    Framed switches ctx s { t with bindings := b } :=
  ⟨h.scope, h.block, h.loops, h.history⟩

section Jump

variable {exit : Exit} {source target : BlockId} {before after merged : Bindings}

-- A block is left, and the bindings are carried along the edge.
theorem Framed.carried (h : Framed switches ctx s t) :
    Framed switches ctx s ((t.log ctx.site (.left source exit)).log ctx.site
      (.carried source target before after)) :=
  (h.log _ (by nofun)).log _ (by nofun)

-- And the edge is followed.
theorem Framed.jumped (h : Framed switches ctx s t) :
    Framed switches ctx s (((t.log ctx.site (.left source exit)).log ctx.site
      (.carried source target before after)).follow ctx.site source target merged) :=
  h.carried.follow source target merged

-- The same where the bindings meet others.
theorem Framed.joined (h : Framed switches ctx s t) :
    Framed switches ctx s ((((t.log ctx.site (.left source exit)).log ctx.site
      (.carried source target before after)).log ctx.site (.merged target merged)).follow ctx.site
        source target merged) :=
  (h.carried.log _ (by nofun)).follow source target merged

end Jump

section Expr

-- A relation between states that holds over whole expressions once it holds over calls.
structure Callwise (ctx : Context) (R : State → State → Prop) : Prop where
  refl (s : State) : R s s
  trans {s t u : State} (first : R s t) (second : R t u) : R s u
  call {name : String} {operands : List (Expr × ValueSet)} {s t : State}
    {results? : Option (List ValueSet)} (matched : CallMatched ctx name operands s results? t) :
    R s t

namespace Callwise

variable {R : State → State → Prop}

mutual
theorem ofExpr (hc : Callwise ctx R) (e : Expr) {s t : State} {values? : Option (List ValueSet)}
    (h : replayExpr ctx e s = .ok values? t) : R s t := by
  cases e with
  | ident name =>
      obtain ⟨-, rfl⟩ := replayExpr_ident_eq_ok.mp h
      exact hc.refl s
  | literal l =>
      obtain ⟨-, rfl⟩ := replayExpr_literal_eq_ok.mp h
      exact hc.refl s
  | call name arguments =>
      rcases replayExpr_call_of_ok h with ⟨-, ha⟩ | ⟨operands, u, ha, hm⟩
      · exact hc.ofArguments arguments ha
      · exact hc.trans (hc.ofArguments arguments ha) (hc.call hm)
theorem ofArguments (hc : Callwise ctx R) (arguments : List Expr) {skipped : Nat → Bool} {i : Nat}
    {s t : State} {operands? : Option (List (Expr × ValueSet))}
    (h : replayArguments ctx skipped i arguments s = .ok operands? t) : R s t := by
  cases arguments with
  | nil =>
      obtain ⟨-, rfl⟩ := replayArguments_nil_eq_ok.mp h
      exact hc.refl s
  | cons e rest =>
      rcases replayArguments_cons_of_ok h with ⟨-, ha⟩ | ⟨operands, u, ha, hm⟩
      · exact hc.ofArguments rest ha
      · have hr := hc.ofArguments rest ha
        rcases hm with ⟨-, -, rfl⟩ | ⟨-, he, -⟩ | ⟨-, values, he, -⟩
        · exact hr
        · exact hc.trans hr (hc.ofExpr e he)
        · exact hc.trans hr (hc.ofExpr e he)
end

-- Control only ever stops in a call.
mutual
theorem stuck (hc : Callwise ctx R) (e : Expr) {s t : State}
    (h : replayExpr ctx e s = .ok none t) :
    ∃ name operands u, R s u ∧ CallMatched ctx name operands u none t := by
  cases e with
  | ident name =>
      obtain ⟨⟨_, _, _, _, hn⟩, -⟩ := replayExpr_ident_eq_ok.mp h
      exact absurd hn (by simp)
  | literal l =>
      obtain ⟨⟨_, _, hn⟩, -⟩ := replayExpr_literal_eq_ok.mp h
      exact absurd hn (by simp)
  | call name arguments =>
      rcases replayExpr_call_of_ok h with ⟨-, ha⟩ | ⟨operands, u, ha, hm⟩
      · exact hc.argumentsStuck arguments ha
      · exact ⟨name, operands, u, hc.ofArguments arguments ha, hm⟩
theorem argumentsStuck (hc : Callwise ctx R) (arguments : List Expr) {skipped : Nat → Bool}
    {i : Nat} {s t : State} (h : replayArguments ctx skipped i arguments s = .ok none t) :
    ∃ name operands u, R s u ∧ CallMatched ctx name operands u none t := by
  cases arguments with
  | nil => exact absurd (replayArguments_nil_eq_ok.mp h).1 (by simp)
  | cons e rest =>
      rcases replayArguments_cons_of_ok h with ⟨-, ha⟩ | ⟨operands, u, ha, hm⟩
      · exact hc.argumentsStuck rest ha
      · rcases hm with ⟨-, hn, -⟩ | ⟨-, he, -⟩ | ⟨-, _, -, hn⟩
        · exact absurd hn (by simp)
        · obtain ⟨name, found, v, hr, hm⟩ := hc.stuck e he
          exact ⟨name, found, v, hc.trans (hc.ofArguments rest ha) hr, hm⟩
        · exact absurd hn (by simp)
end

end Callwise

end Expr

theorem Reconciled.stays {e : Expr} {candidates : ValueSet} {v : ValueId}
    (h : Reconciled ctx s e candidates v t) : Stays switches ctx s t := by
  cases h with
  | named => exact (Stays.refl s).bindings _
  | result => exact .refl s

theorem OperandsReconciled.stays {operands : List (Expr × ValueSet)} {inputs : List ValueId}
    (h : OperandsReconciled ctx s operands inputs t) : Stays switches ctx s t :=
  h.invariant (fun first before => before.trans first.stays) (.refl s)

theorem State.stays_consume (s : State) (op : Graph.Operation) :
    Stays switches ctx s (s.consume ctx.site op) :=
  ⟨rfl, rfl, Nat.le_succ _, rfl, (Grown.refl _).step _ nofun⟩

theorem CallMatched.stays {name : String} {operands : List (Expr × ValueSet)}
    {results? : Option (List ValueSet)} (h : CallMatched ctx name operands s results? t) :
    Stays switches ctx s t := by
  cases h with
  | returning block atOp inputs callee => exact inputs.stays.trans (State.stays_consume _ _)
  | final block atOp inputs callee ends =>
      exact (inputs.stays.trans (State.stays_consume _ _)).log _ (by nofun)

theorem stays_callwise : Callwise ctx (Stays switches ctx) := ⟨.refl, .trans, CallMatched.stays⟩

theorem replayExpr_stays {e : Expr} {values? : Option (List ValueSet)}
    (h : replayExpr ctx e s = .ok values? t) : Stays switches ctx s t :=
  stays_callwise.ofExpr e h

theorem replayArguments_stays {arguments : List Expr} {skipped : Nat → Bool} {i : Nat}
    {operands? : Option (List (Expr × ValueSet))}
    (h : replayArguments ctx skipped i arguments s = .ok operands? t) : Stays switches ctx s t :=
  stays_callwise.ofArguments arguments h

theorem replayOne_stays {e : Expr} {value? : Option ValueSet}
    (h : replayOne ctx e s = .ok value? t) : Stays switches ctx s t := by
  obtain ⟨values?, he, -⟩ := replayOne_eq_ok.mp h
  exact replayExpr_stays he

theorem Tested.stays {e : Expr} {branch : Branch} {zero : Bindings}
    (h : Tested ctx e s branch zero t) : Stays switches ctx s t := by
  cases h with
  | mk value exit fits carries =>
      exact ((((replayOne_stays value).log _ (by nofun)).trans fits.stays).log _ (by nofun))

theorem EdgeRecorded.framed {way : LoopWay} {source target : BlockId} {b : Bindings}
    (h : EdgeRecorded ctx way source target b s t) : Framed switches ctx s t := by
  cases h with
  | mk opened edge agrees =>
      exact ⟨rfl, .inl rfl, opened ▸ .cons (LoopFrame.extends_note _ _ _ _ _),
        (Grown.refl _).step _ nofun⟩

theorem LoopJumped.framed {way : LoopWay} (h : LoopJumped ctx way s t) :
    Framed switches ctx s t := by
  cases h with
  | mk exit carries recorded =>
      exact (Framed.refl s).carried.trans recorded.framed

theorem IfReplayed.framed {condition : Expr} {body : Walk Bool} {r : Bool}
    (hb : Frames switches ctx body)
    (h : IfReplayed ctx condition body s r t) : Framed switches ctx s t := by
  cases h with
  | stuck value => exact (replayOne_stays value).framed
  | joined tested into run exit back meets owned edge =>
      have inside := (tested.stays.framed.follow _ _ _).trans (hb run)
      exact inside.joined
  | skipped tested into run edge =>
      exact ((tested.stays.framed.follow _ _ _).trans (hb run)).follow _ _ _

theorem Compared.stays {e : Expr} {candidates : ValueSet} {value : Literal} {result : ValueId}
    (h : Compared ctx e candidates value s result t) : Stays switches ctx s t := by
  cases h with
  | mk block last compares literal fits => exact fits.stays.trans (State.stays_consume _ _)

theorem ArmReplayed.framed {body : Walk Bool} {join next : SwitchJoin}
    (hb : Frames switches ctx body)
    (h : ArmReplayed ctx body join s next t) : Framed switches ctx s t := by
  cases h with
  | left run => exact hb run
  | joined run exit agrees carries => exact (hb run).carried

theorem CaseReplayed.framed {e : Expr} {candidates : ValueSet} {value : Literal}
    {body : Walk Bool} {join next : SwitchJoin}
    (hb : Frames switches ctx body)
    (h : CaseReplayed ctx e candidates value body join s next t) : Framed switches ctx s t := by
  cases h with
  | mk compared exit zero into arm edge =>
      have inside := arm.framed hb
      exact ((((compared.stays.framed.log _ (by nofun)).log _ (by nofun)).follow _ _ _).trans
        inside).follow _ _ _

theorem CasesReplayed.framed {e : Expr} {candidates : ValueSet} {arms : List Arm}
    {join last : SwitchJoin}
    (hb : ∀ arm ∈ arms, Frames switches ctx arm.2)
    (h : CasesReplayed ctx e candidates arms join s last t) : Framed switches ctx s t :=
  h.invariant hb (P := fun _ => Framed switches ctx s)
    (fun hf first before => before.trans (first.framed hf)) (.refl s)

theorem Settled.framed {join : SwitchJoin} {r : Bool} (h : Settled ctx join s r t) :
    Framed switches ctx s t := by
  cases h with
  | nowhere => exact .refl s
  | advanced found meets owned elsewhere edge =>
      exact ((Framed.refl s).log _ (by nofun)).follow _ _ _
  | there found meets owned here => exact ((Framed.refl s).log _ (by nofun)).bindings _

theorem FallbackReplayed.framed {default? : Option (Walk Bool)} {join : SwitchJoin} {r : Bool}
    (hb : ∀ body ∈ default?, Frames switches ctx body)
    (h : FallbackReplayed ctx default? join s r t) : Framed switches ctx s t := by
  cases h with
  | default arm settled => exact (arm.framed (hb _ rfl)).trans settled.framed
  | unjoined noEdge => exact .refl s
  | direct found here settled => exact settled.framed
  | through found elsewhere arm settled =>
      refine (arm.framed fun {s r t} h => ?_).trans settled.framed
      obtain ⟨-, rfl⟩ := pure_eq_ok.mp h
      exact .refl s

-- The arms of a switch are those that its cases and its default consist of.
theorem mem_of_splitDefault {arms cases : List Arm} {default? : Option (Walk Bool)}
    (h : splitDefault arms = (cases, default?)) :
    (∀ arm ∈ cases, arm ∈ arms) ∧ ∀ body ∈ default?, (none, body) ∈ arms := by
  unfold splitDefault at h
  split at h
  · next body hl =>
    obtain ⟨rfl, rfl⟩ := Prod.mk.inj h
    refine ⟨fun arm ha => List.dropLast_subset _ ha, fun b hb => ?_⟩
    obtain rfl := Option.some.inj hb
    exact List.mem_of_getLast? hl
  · obtain ⟨rfl, rfl⟩ := Prod.mk.inj h
    exact ⟨fun _ h => h, by simp⟩

theorem SwitchReplayed.framed {e : Expr} {arms : List Arm} {r : Bool}
    (hb : ∀ arm ∈ arms, Frames switches ctx arm.2)
    (h : SwitchReplayed ctx e arms s r t) : Framed switches ctx s t := by
  cases h with
  | stuck value => exact (replayOne_stays value).framed
  | noArms value split => exact (replayOne_stays value).framed
  | onlyDefault value split run =>
      exact (replayOne_stays value).framed.trans
        (hb _ ((mem_of_splitDefault split).2 _ rfl) run)
  | cases value split some_case run fallback =>
      obtain ⟨hc, hd⟩ := mem_of_splitDefault split
      have cases := run.framed fun arm ha => hb arm (hc arm ha)
      have last := fallback.framed fun body hm => hb _ (hd body hm)
      exact ((replayOne_stays value).framed.trans cases).trans last

theorem ConditionReplayed.framed {condition? : Option Expr} {r : Bool}
    (h : ConditionReplayed ctx s condition? r t) : Framed switches ctx s t := by
  cases h with
  | untested => exact .refl s
  | stuck value => exact (replayOne_stays value).framed
  | tested tested recorded into => exact (tested.stays.framed.trans recorded.framed).follow _ _ _

-- Inside a pass the innermost frame is also spoken for by its back edges.
structure FramedInside (switches : Prop) (ctx : Context) (s t : State) : Prop where
  scope : t.scope? = s.scope?
  block : t.block = s.block ∨ ∃ e ∈ t.history, e.Enters ctx.site t.block
  outer : t.loops.tail = s.loops.tail
  history : Grown switches ctx s.history t.history

theorem Framed.inside (h : Framed switches ctx s t) : FramedInside switches ctx s t :=
  ⟨h.scope, h.block, h.loops.tail, h.history⟩

theorem FramedInside.trans (h : FramedInside switches ctx s t) (k : FramedInside switches ctx t u) :
    FramedInside switches ctx s u :=
  ⟨k.scope.trans h.scope, moved_trans k.history h.block k.block, k.outer.trans h.outer,
    h.history.trans k.history⟩

theorem PostReplayed.framed {header : BlockId} {post : Walk Bool}
    (hp : Frames switches ctx post)
    (h : PostReplayed ctx header post s t) :
    FramedInside switches ctx s t := by
  cases h with
  | stopped run => exact (hp run).inside
  | latched run exit edge carries opened =>
      refine (hp run).inside.trans ⟨rfl, .inl rfl, by rw [opened]; rfl, ?_⟩
      exact ((Grown.refl _).step _ (by nofun)).step _ (by nofun)

theorem PostReplayed.edges_kept {header : BlockId} {post : Walk Bool}
    (hp : Frames switches ctx post)
    (h : PostReplayed ctx header post s t) {frame : LoopFrame} {outer : List LoopFrame}
    (hl : s.loops = frame :: outer) :
    ∃ last, t.loops = last :: outer ∧ ∀ way, (frame.edges way).Extends (last.edges way) := by
  cases h with
  | stopped run =>
      obtain ⟨last, hlast, hx⟩ := LoopsExtend.of_cons (hl ▸ (hp run).loops)
      exact ⟨last, hlast, hx.edges⟩
  | latched run exit edge carries opened =>
      obtain ⟨last, hlast, hx⟩ := LoopsExtend.of_cons (hl ▸ (hp run).loops)
      obtain ⟨rfl, rfl⟩ := List.cons.inj (opened.symm.trans hlast)
      refine ⟨_, rfl, fun way => ?_⟩
      have hw := hx.edges way
      cases way <;> exact hw

-- Nothing that comes after the body takes back an exit of the loop.
theorem ContinuesReplayed.exits_kept {header : BlockId} {postEmpty : Bool} {post : Walk Bool}
    (hp : Frames switches ctx post)
    (h : ContinuesReplayed ctx header postEmpty post s t) {frame : LoopFrame}
    {outer : List LoopFrame} (hl : s.loops = frame :: outer) :
    ∃ last, t.loops = last :: outer ∧ frame.exits.Extends last.exits := by
  cases h with
  | nowhere opened noEdge => exact ⟨frame, hl, .refl _⟩
  | direct opened found empty =>
      obtain ⟨rfl, rfl⟩ := List.cons.inj (opened.symm.trans hl)
      exact ⟨_, rfl, .refl _⟩
  | post opened found elsewhere meets owned edge run =>
      obtain ⟨rfl, rfl⟩ := List.cons.inj (opened.symm.trans hl)
      obtain ⟨last, hlast, hkept⟩ := run.edges_kept hp rfl
      exact ⟨last, hlast, hkept .exits⟩

theorem ContinuesReplayed.framed {header : BlockId} {postEmpty : Bool} {post : Walk Bool}
    (hp : Frames switches ctx post)
    (h : ContinuesReplayed ctx header postEmpty post s t) : FramedInside switches ctx s t := by
  cases h with
  | nowhere opened noEdge => exact (Framed.refl s).inside
  | direct opened found empty => exact ⟨rfl, .inl rfl, by rw [opened]; rfl, .refl _⟩
  | post opened found elsewhere meets owned edge run =>
      refine FramedInside.trans ⟨?_, ?_, ?_, ?_⟩ (run.framed hp)
      · rfl
      · exact .inr ⟨_, List.mem_cons_self, rfl, rfl⟩
      · rw [opened]
        rfl
      · exact ((Grown.refl _).step _ (by nofun)).step _ (by nofun)

theorem PassReplayed.framed {header : BlockId} {parts : LoopParts}
    (hb : Frames switches ctx parts.body) (hp : Frames switches ctx parts.post)
    (h : PassReplayed ctx header parts s t) : FramedInside switches ctx s t := by
  cases h with
  | stuck condition => exact condition.framed.inside
  | stopped condition body continues =>
      exact (condition.framed.trans (hb body)).inside.trans (continues.framed hp)
  | fallen condition body jump continues =>
      have fallen := (condition.framed.trans (hb body)).trans jump.framed
      exact fallen.inside.trans (continues.framed hp)

theorem LoopPassed.framed {header : BlockId} {warnings iteration : Nat} {parts : LoopParts}
    {entry : Bindings} {frame : LoopFrame}
    (hb : Frames switches ctx parts.body) (hp : Frames switches ctx parts.post)
    (h : LoopPassed ctx header warnings parts iteration entry s frame t) :
    Framed switches ctx s t := by
  cases h with
  | mk run opened =>
      have hf := run.framed hb hp
      have ho := hf.outer
      rw [opened] at ho
      obtain rfl := ho
      have hg : Grown switches ctx s.history _ :=
        (Grown.refl _).step (.loopPass header iteration entry) nofun
      refine ⟨hf.scope, ?_, .refl _, hg.trans hf.history⟩
      exact moved_trans hf.history (.inr ⟨_, List.mem_cons_self, rfl, rfl⟩) hf.block

theorem LoopPassed.loops_eq {header : BlockId} {warnings iteration : Nat} {parts : LoopParts}
    {entry : Bindings} {frame : LoopFrame}
    (hb : Frames switches ctx parts.body) (hp : Frames switches ctx parts.post)
    (h : LoopPassed ctx header warnings parts iteration entry s frame t) : t.loops = s.loops := by
  cases h with
  | mk run opened =>
      have ho := (run.framed hb hp).outer
      rwa [opened] at ho

theorem LoopLeft.framed {exits : LoopEdges} {r : Bool} (h : LoopLeft ctx exits s r t) :
    Framed switches ctx s t := by
  cases h with
  | never noEdge => exact .refl s
  | left found meets owned edge => exact ((Framed.refl s).log _ (by nofun)).follow _ _ _

theorem IterateReplayed.framed {header : BlockId} {warnings iteration : Nat} {parts : LoopParts}
    {entry : Bindings} {r : Bool} (hb : Frames switches ctx parts.body)
    (hp : Frames switches ctx parts.post)
    (h : IterateReplayed ctx header warnings parts iteration entry s r t) :
    Framed switches ctx s t := by
  induction h with
  | settled pass stable owned left =>
      exact ((pass.framed hb hp).log _ (by nofun)).trans left.framed
  | again pass refines next ih => exact ((pass.framed hb hp).log _ (by nofun)).trans ih

-- The last pass over a loop begins with bindings that its back edges agree with, and
-- the loop is left by the exits that are known after it.
inductive LastPass (ctx : Context) (header : BlockId) (parts : LoopParts) (entry : Bindings)
    (s : State) (r : Bool) (t : State) : Prop
  | mk {warnings iteration : Nat} {stable : Bindings} {frame : LoopFrame} {before after : State}
      (pass : LoopPassed ctx header warnings parts iteration stable before frame after)
      (fixed : Bindings.meet (stable :: frame.backEdges) = .ok stable)
      (refines : stable.Refines entry)
      (left : LoopLeft ctx frame.exits (after.log ctx.site (.merged header stable)) r t)
      (scope : before.scope? = s.scope?) (loops : before.loops = s.loops) :
      LastPass ctx header parts entry s r t

theorem IterateReplayed.lastPass {header : BlockId} {warnings iteration : Nat}
    {parts : LoopParts} {entry : Bindings} {r : Bool}
    (hb : Frames switches ctx parts.body) (hp : Frames switches ctx parts.post)
    (h : IterateReplayed ctx header warnings parts iteration entry s r t) :
    LastPass ctx header parts entry s r t := by
  induction h with
  | settled pass stable owned left =>
      exact .mk pass stable (.refl _) left rfl rfl
  | again pass refines next ih =>
      have hs := (pass.framed hb hp).scope
      have hl := pass.loops_eq hb hp
      cases ih with
      | mk last fixed refined left scope loops =>
          exact .mk last fixed
            (refined.trans (Bindings.refines_of_meet refines List.mem_cons_self)) left
            (scope.trans hs) (loops.trans hl)

theorem ForReplayed.framed {pre : Walk Bool} {condition : Expr} {body : Walk Bool}
    {postEmpty : Bool} {post : Walk Bool} {r : Bool}
    (hpre : Frames switches ctx pre)
    (hb : Frames switches ctx body) (hp : Frames switches ctx post)
    (h : ForReplayed ctx pre condition body postEmpty post s r t) : Framed switches ctx s t := by
  cases h with
  | stuck run => exact hpre run
  | never run exit carries edge constant literal zero =>
      exact (hpre run).jumped
  | loop run exit carries edge unlessZero iterate =>
      exact (hpre run).jumped.trans (iterate.framed hb hp)

theorem FunctionLeft.framed (h : FunctionLeft ctx s t) : Framed switches ctx s t := by
  cases h with
  | mk exit count held => exact ((Framed.refl s).log _ (by nofun)).bindings _

theorem Warned.framed (h : Warned ctx s t) : Framed switches ctx s t := by
  cases h with
  | silent => exact .refl s
  | warned m location => exact ⟨rfl, .inl rfl, .refl _, (Grown.refl _).step _ nofun⟩

-- All that a function's replay adds to the history is of its own site or below.
theorem FunctionReplayed.grown {d : Definition} {body : Walk Bool}
    (hb : Frames switches ctx body)
    (h : FunctionReplayed ctx d body s t) :
    Grown switches ctx (⟨ctx.site, .entered (some d)⟩ :: s.history) t.history := by
  cases h with
  | mk parameters returns run ends =>
      rcases ends with ⟨-, rfl⟩ | ⟨-, left⟩
      · exact (hb run).history
      · exact (hb run).history.trans left.framed.history

theorem DefinitionReplayed.framed {d : Definition} (hfree : switches ∨ d.body.switchFree = true)
    (hb : ∀ inner, Frames switches inner (replayBlock inner d.body))
    (h : DefinitionReplayed ctx d (replayBlock · d.body) s t) : Framed switches ctx s t := by
  cases h with
  | @mk f graph u resolved defined parameters returns run =>
      have hrun : DefinitionRun (ctx.within f graph) d (s.apartOn graph) u :=
        ⟨⟨f, rfl, defined⟩, parameters, returns, ⟨s, rfl⟩, run⟩
      refine ⟨rfl, .inl rfl, .refl _, ?_⟩
      obtain ⟨more, hm, ht⟩ := (functionReplayed_of_ok run).grown (hb _)
      have hnew : u.history = (more ++ [⟨(ctx.within f graph).site, .entered (some d)⟩]) ++
          s.history := by
        rw [hm, List.append_assoc]
        rfl
      refine ⟨_, hnew, fun e he => .inr ?_⟩
      rcases List.mem_append.mp he with hmem | hmem
      · rcases ht e hmem with ⟨hs, hne⟩ | ⟨hd, htold⟩
        · refine ⟨hs ▸ Nat.lt_succ_self _, d, s.apartOn graph, u, _, hfree, hs ▸ hrun, hnew, he,
            List.suffix_rfl, ?_⟩
          exact fun d? hd? => absurd hd? (hne d?)
        · exact ⟨Nat.lt_trans (Nat.lt_succ_self _) hd, htold⟩
      · obtain rfl := List.mem_singleton.mp hmem
        refine ⟨Nat.lt_succ_self _, d, _, u, _, hfree, hrun, hnew, he, List.suffix_rfl, ?_⟩
        rintro d? hd
        exact (Event.entered.inj hd).symm

theorem framed_compositional : Compositional switches (Frames switches) where
  done ctx s r t h := by
    obtain ⟨-, rfl⟩ := pure_eq_ok.mp h
    exact .refl s
  expr ctx e s r t h := by
    rcases replayBare_eq_ok.mp h with ⟨he, -⟩ | ⟨he, -⟩ <;> exact (replayExpr_stays he).framed
  assign ctx names e s r t h := by
    rcases replayAssignment_of_ok h with ⟨he, -⟩ | ⟨values, u, b, he, -, -, rfl, -⟩
    · exact (replayExpr_stays he).framed
    · exact (replayExpr_stays he).framed.bindings b
  letDecl ctx names value? s r t h := by
    have initial : ∀ {values? u}, InitialValues ctx names.length s value? values? u →
        Framed switches ctx s u := by
      intro values? u hi
      cases hi with
      | given value fits => exact (replayExpr_stays value).framed
      | zero found => exact .refl s
    rcases replayLet_of_ok h with ⟨hi, -⟩ | ⟨values, u, b, hi, -, rfl, -⟩
    · exact initial hi
    · exact (initial hi).bindings b
  leave ctx s r t h := (functionLeft_of_ok h).1.framed
  loopJump ctx way s r t h := (replayLoopJump_eq_ok h).1.framed
  cond ctx condition body hb s r t h := (ifReplayed_of_ok h).framed hb
  switch _ ctx e arms ha s r t h := (switchReplayed_of_ok h).framed ha
  forLoop ctx pre condition body postEmpty post hpre hb hp s r t h :=
    (forReplayed_of_ok h).framed hpre hb hp
  block ctx id body hb s r t h := by
    obtain ⟨scope, u, hs, hu, rfl⟩ := inBlock_eq_ok.mp h
    have hf := hb hu
    exact ⟨rfl, hf.block, hf.loops, hf.history⟩
  definition ctx d others hs hd ho s r t h := by
    obtain ⟨_, u, hu, ht⟩ := bind_eq_ok.mp h
    exact ((definitionReplayed_of_ok hu).framed hs hd).trans (ho ht)
  next ctx id rest first others hf ho s r t h := by
    obtain ⟨falls, u, hu, ht⟩ := bind_eq_ok.mp h
    rcases ite_eq_ok.mp ht with ⟨-, ht⟩ | ⟨-, ht⟩
    · exact (hf hu).trans (ho ht)
    · obtain ⟨_, v, hw, hv⟩ := bind_eq_ok.mp ht
      obtain ⟨-, rfl⟩ := pure_eq_ok.mp hv
      exact (hf hu).trans (warned_of_ok hw).framed

theorem replayBlock_framed {b : Yul.Block} {r : Bool} (hs : switches ∨ b.switchFree = true)
    (h : replayBlock ctx b s = .ok r t) : Framed switches ctx s t :=
  framed_compositional.ofBlock ctx b hs h

-- The replay of a definition leaves the position alone.
theorem DefinitionReplayed.apart {d : Definition}
    (h : DefinitionReplayed ctx d (replayBlock · d.body) s t) :
    ∃ warnings more, t = { s with warnings, history := more ++ s.history } ∧
      ∀ e ∈ more, ctx.site.depth < e.site.depth := by
  cases h with
  | @mk f graph u resolved defined parameters returns run =>
      obtain ⟨more, hm, ht⟩ :=
        (functionReplayed_of_ok run).grown (replayBlock_framed (.inl trivial))
      refine ⟨u.warnings, more ++ [⟨(ctx.within f graph).site, .entered (some d)⟩], ?_, ?_⟩
      · rw [hm, List.append_assoc]
        rfl
      · intro e he
        rcases List.mem_append.mp he with he | he
        · rcases ht e he with ⟨hs, -⟩ | ⟨hd, -⟩
          · exact hs ▸ Nat.lt_succ_self _
          · exact Nat.lt_trans (Nat.lt_succ_self _) hd
        · obtain rfl := List.mem_singleton.mp he
          exact Nat.lt_succ_self _

end SsaReplay.Replay
