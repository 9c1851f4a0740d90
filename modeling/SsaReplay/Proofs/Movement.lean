import SsaReplay.Proofs.Construction
import SsaReplay.Proofs.Coverage

namespace SsaReplay

open SsaReplay.Graph (BasicBlock Branch Cfg Exit)
open SsaReplay.Yul (Definition Expr Literal)

-- The argument that a phi of the target takes when the target is entered from the source.
def Graph.Cfg.phiArgument? (g : Cfg) (source target : BlockId) (phi : ValueId) :
    Option ValueId := do
  let data ← g.block? target
  let offset ← data.entryOffset? source
  match g.origin? phi with
  | some (.phi _ arguments) => arguments[offset]?
  | _ => none

-- A value is a candidate of the variable.
def Bindings.Offers (b : Bindings) (x : VariableId) (v : ValueId) : Prop :=
  ∃ held, b.lookup x = some held ∧ v ∈ held

-- Whatever phi of the target a variable may hold at the start of it, it might have held
-- the phi's argument at the end of the source.
def Graph.Cfg.Renews (g : Cfg) (source target : BlockId) (before start : Bindings) : Prop :=
  ∀ data, g.block? target = some data → ∀ phi ∈ data.phis, ∀ x, start.Offers x phi →
    ∃ argument, g.phiArgument? source target phi = some argument ∧ before.Offers x argument

theorem Bindings.Refines.offers {fine coarse : Bindings} (h : fine.Refines coarse)
    {x : VariableId} {v : ValueId} (hv : fine.Offers x v) : coarse.Offers x v := by
  obtain ⟨held, hx, hm⟩ := hv
  obtain ⟨wider, hw, hall⟩ := h x held hx
  exact ⟨wider, hw, hall v hm⟩

theorem Graph.Cfg.HasEdge.leads {g : Cfg} {source target : BlockId} (h : g.HasEdge source target) :
    g.Leads source target := by
  obtain ⟨start, finish, hs, ht, he⟩ := h
  exact ⟨start, hs, he.1⟩

namespace Replay

-- A variable that holds a phi after the edge held its argument before.
theorem Carries.renews {g : Cfg} {source target : BlockId} {before after : Bindings}
    (h : Carries g source target before after) : g.Renews source target before after := by
  obtain ⟨data, pairs, hd, hp, rfl⟩ := h
  obtain ⟨-, hfed⟩ := phiArguments_eq_ok hp
  rintro found hf phi hphi x ⟨held, hx, hm⟩
  obtain rfl := Option.some.inj (hd.symm.trans hf)
  rw [Bindings.lookup_acrossEdge, Option.map_eq_some_iff] at hx
  obtain ⟨values, hvalues, rfl⟩ := hx
  rcases Bindings.mem_carried.mp hm with ⟨-, stale⟩ | ⟨argument, ha, hm⟩
  · exact absurd hphi stale
  · obtain ⟨offset, b, arguments, hoffset, horigin, hargument⟩ := hfed _ (mem_phisFedBy.mp hm)
    refine ⟨argument, ?_, values, hvalues, ha⟩
    simp only [Cfg.phiArgument?, Option.bind_eq_bind, hd, Option.bind_some, hoffset, horigin,
      hargument]

-- An edge is followed after its source was replayed to the end. What is known at the
-- target is at most what came along the edge. Only the non-zero edge of a condition is
-- followed with what is known at the end of its source, as carried along the zero edge.
inductive Taken (history : List Entry) (site : Site) (source target : BlockId)
    (start : Bindings) : Prop
  | carried {before after : Bindings}
      (brought : ⟨site, .carried source target before after⟩ ∈ history)
      (refines : start.Refines after)
  | unchanged {data : BasicBlock} {branch : Branch} {after : Bindings}
      (block : site.graph.block? source = some data) (exit : data.exit = .branch branch)
      (nonZero : branch.nonZero = target)
      (brought : ⟨site, .carried source branch.zero start after⟩ ∈ history)

-- What an event says agrees with the graph and with what is told before.
def Event.Backed (site : Site) (history : List Entry) : Event → Prop
  | .consumed b i op _ =>
      site.graph.Reachable b ∧ ∃ data, site.graph.block? b = some data ∧
        data.operations[i]? = some op ∧ ∀ f, op.callee = .function f false →
          data.operations.length = i + 1 ∧ data.exit = .terminated
  | .left b exit =>
      site.graph.Reachable b ∧ ∃ data, site.graph.block? b = some data ∧ data.exit = exit
  | .carried source target before after =>
      site.graph.Reachable source ∧ Carries site.graph source target before after
  | .advanced source target start =>
      site.graph.HasEdge source target ∧ Taken history site source target start
  | _ => True

-- The events of a history, the latest first, agree with the graphs and with each other.
def Backed : List Entry → Prop
  | [] => True
  | e :: earlier => e.event.Backed e.site earlier ∧ Backed earlier

-- The first edge found is one that some of the bindings came along.
def Brought (history : List Entry) (site : Site) (edge? : Option (BlockId × BlockId))
    (found : List Bindings) : Prop :=
  ∀ source target, edge? = some (source, target) → ∃ before, ∃ after ∈ found,
    ⟨site, .carried source target before after⟩ ∈ history

-- The edges that are noted on the innermost loop.
def Noted (ctx : Context) (way : LoopWay) (s : State) : Prop :=
  ∀ frame outer, s.loops = frame :: outer →
    Brought s.history ctx.site (frame.edges way).first? (frame.edges way).bindings

structure OnTrack (ctx : Context) (s : State) : Prop where
  history : Backed s.history
  reached : ctx.graph.Reachable s.block

-- Going on keeps to the graph. Of the edges noted on the innermost loop, each way is
-- spoken of by itself: in the post block, those to it are taken up already.
def GoesOn (ctx : Context) (s t : State) : Prop :=
  OnTrack ctx s → OnTrack ctx t ∧ ∀ way, Noted ctx way s → Noted ctx way t

-- However a replay goes, it goes on from where it starts.
structure Keeps (ctx : Context) (body : Walk Bool) : Prop where
  framed : Frames True ctx body
  goesOn : ∀ {s r t}, body s = .ok r t → GoesOn ctx s t

section History

variable {site : Site} {history more : List Entry} {source target : BlockId} {start : Bindings}

theorem Backed.of_mem {e : Entry} (h : Backed history) (he : e ∈ history) :
    ∃ earlier, e.event.Backed e.site earlier := by
  induction history with
  | nil => exact absurd he List.not_mem_nil
  | cons x earlier ih =>
      rcases List.mem_cons.mp he with rfl | he
      · exact ⟨earlier, h.1⟩
      · exact ih h.2 he

theorem Backed.of_append {earlier later : List Entry} {e : Entry}
    (h : Backed (later ++ e :: earlier)) : e.event.Backed e.site earlier ∧ Backed earlier := by
  induction later with
  | nil => exact h
  | cons x later ih => exact ih h.2

theorem Backed.carried {before after : Bindings} (h : Backed history)
    (hm : ⟨site, .carried source target before after⟩ ∈ history) :
    site.graph.Reachable source ∧ Carries site.graph source target before after := by
  obtain ⟨_, hb⟩ := h.of_mem hm
  exact hb

theorem Taken.mono (h : Taken history site source target start)
    (hs : ∀ e ∈ history, e ∈ more) : Taken more site source target start := by
  cases h with
  | carried brought refines => exact .carried (hs _ brought) refines
  | unchanged block exit nonZero brought => exact .unchanged block exit nonZero (hs _ brought)

theorem Taken.reachable (h : Taken history site source target start)
    (hb : Backed history) : site.graph.Reachable source := by
  cases h with
  | carried brought refines => exact (hb.carried brought).1
  | unchanged block exit nonZero brought => exact (hb.carried brought).1

theorem Brought.mono {edge? : Option (BlockId × BlockId)} {found : List Bindings}
    (h : Brought history site edge? found) (hs : ∀ e ∈ history, e ∈ more) :
    Brought more site edge? found := by
  intro source target he
  obtain ⟨before, after, hm, hc⟩ := h source target he
  exact ⟨before, after, hm, hs _ hc⟩

theorem brought_none {found : List Bindings} : Brought history site none found := nofun

-- What all the paths agree on is what came along the first edge, or less.
theorem Brought.followed {edge? : Option (BlockId × BlockId)} {found : List Bindings}
    {merged : Bindings} (h : Brought history site edge? found)
    (he : edge? = some (source, target)) (meets : Bindings.meet found = .ok merged) :
    Taken history site source target merged := by
  obtain ⟨before, after, hm, hc⟩ := h source target he
  exact .carried hc (Bindings.refines_of_meet meets hm)

end History

variable {ctx : Context} {s t u : State}

theorem Noted.mono {way : LoopWay} (h : Noted ctx way s) (hl : t.loops = s.loops)
    (hh : ∀ e ∈ s.history, e ∈ t.history) : Noted ctx way t :=
  fun frame outer ht => (h frame outer (hl ▸ ht)).mono hh

-- A loop's exits stay noted while only its other edges change.
theorem Noted.exits {frame other : LoopFrame} {outer : List LoopFrame} (h : Noted ctx .exits s)
    (opened : s.loops = frame :: outer) (hl : t.loops = other :: outer)
    (he : other.exits = frame.exits) (hh : ∀ e ∈ s.history, e ∈ t.history) :
    Noted ctx .exits t := by
  intro g o hg
  obtain ⟨rfl, rfl⟩ := List.cons.inj (hl.symm.trans hg)
  change Brought t.history ctx.site other.exits.first? other.exits.bindings
  rw [he]
  exact (h frame outer opened).mono hh

theorem GoesOn.refl (s : State) : GoesOn ctx s s := fun hs => ⟨hs, fun _ hn => hn⟩

theorem GoesOn.trans (h : GoesOn ctx s t) (k : GoesOn ctx t u) : GoesOn ctx s u := by
  intro hs
  obtain ⟨ht, hn⟩ := h hs
  obtain ⟨hu, kn⟩ := k ht
  exact ⟨hu, fun way hw => kn way (hn way hw)⟩

-- Where only scope, bindings, warnings and the position within the block change.
theorem GoesOn.congr (h : GoesOn ctx s t) (hb : u.block = t.block) (hl : u.loops = t.loops)
    (hh : u.history = t.history) : GoesOn ctx s u := by
  intro hs
  obtain ⟨ht, hn⟩ := h hs
  exact ⟨⟨hh ▸ ht.history, hb ▸ ht.reached⟩, fun way hw => (hn way hw).mono hl fun e he => hh ▸ he⟩

theorem GoesOn.log (h : GoesOn ctx s t) (e : Event)
    (backed : OnTrack ctx t → e.Backed ctx.site t.history) :
    GoesOn ctx s (t.log ctx.site e) := by
  intro hs
  obtain ⟨ht, hn⟩ := h hs
  exact ⟨⟨⟨backed ht, ht.history⟩, ht.reached⟩, fun way hw =>
    (hn way hw).mono rfl fun _ he => List.mem_cons_of_mem _ he⟩

theorem GoesOn.leave {exit : Exit} (h : GoesOn ctx s t) (atExit : AtExit ctx t exit) :
    GoesOn ctx s (t.log ctx.site (.left t.block exit)) := by
  obtain ⟨data, hd, -, hx⟩ := atExit
  exact h.log _ fun ht => ⟨ht.reached, data, hd, hx⟩

theorem GoesOn.carry {target : BlockId} {after : Bindings} (h : GoesOn ctx s t)
    (carries : Carries ctx.graph t.block target t.bindings after) :
    GoesOn ctx s (t.log ctx.site (.carried t.block target t.bindings after)) :=
  h.log _ fun ht => ⟨ht.reached, carries⟩

-- A block is left, and the bindings are carried along one of its edges.
theorem GoesOn.depart {exit : Exit} {target : BlockId} {after : Bindings} (h : GoesOn ctx s t)
    (atExit : AtExit ctx t exit) (carries : Carries ctx.graph t.block target t.bindings after) :
    GoesOn ctx s ((t.log ctx.site (.left t.block exit)).log ctx.site
      (.carried t.block target t.bindings after)) :=
  (h.leave atExit).carry carries

theorem GoesOn.merge {join : BlockId} {merged : Bindings} (h : GoesOn ctx s t) :
    GoesOn ctx s (t.log ctx.site (.merged join merged)) :=
  h.log _ fun _ => trivial

theorem GoesOn.follow {source target : BlockId} {start : Bindings} (h : GoesOn ctx s t)
    (edge : ctx.graph.HasEdge source target)
    (followed : OnTrack ctx t → Taken t.history ctx.site source target start) :
    GoesOn ctx s (t.follow ctx.site source target start) := by
  intro hs
  obtain ⟨ht, hn⟩ := h hs
  have hf := followed ht
  exact ⟨⟨⟨⟨edge, hf⟩, ht.history⟩, (hf.reachable ht.history).tail edge.leads⟩, fun way hw =>
    (hn way hw).mono rfl fun _ he => List.mem_cons_of_mem _ he⟩

-- The bindings come along the edge that is followed at once.
theorem Taken.head {history : List Entry} {site : Site} {source target : BlockId}
    {before after : Bindings} :
    Taken (⟨site, .carried source target before after⟩ :: history) site source target after :=
  .carried List.mem_cons_self (.refl _)

section Expr

theorem Reconciled.goesOn {e : Expr} {candidates : ValueSet} {v : ValueId}
    (h : Reconciled ctx s e candidates v t) : GoesOn ctx s t := by
  cases h with
  | named => exact (GoesOn.refl s).congr rfl rfl rfl
  | result => exact .refl s

theorem OperandsReconciled.goesOn {operands : List (Expr × ValueSet)} {inputs : List ValueId}
    (h : OperandsReconciled ctx s operands inputs t) : GoesOn ctx s t :=
  h.invariant (fun first before => before.trans first.goesOn) (.refl s)

theorem GoesOn.consume {data : BasicBlock} {op : Graph.Operation} (h : GoesOn ctx s t)
    (block : ctx.graph.block? t.block = some data) (atOp : data.operations[t.op]? = some op)
    (flagged : ∀ f, op.callee = .function f false →
      data.operations.length = t.op + 1 ∧ data.exit = .terminated) :
    GoesOn ctx s (t.consume ctx.site op) :=
  (h.log (.consumed t.block t.op op t.bindings) fun ht =>
    ⟨ht.reached, data, block, atOp, flagged⟩).congr rfl rfl rfl

-- Of a function, the operation says itself whether control comes back.
theorem Callable.flag {scope? : Option ScopeId} {name : String} {f : FunctionId}
    {c canContinue : Bool} {outputs : Nat}
    (h : Callable ctx scope? name (.function f c) outputs canContinue) : c = canContinue := by
  cases h with
  | function => rfl

theorem CallMatched.goesOn {name : String} {operands : List (Expr × ValueSet)}
    {results? : Option (List ValueSet)} (h : CallMatched ctx name operands s results? t) :
    GoesOn ctx s t := by
  cases h with
  | @returning data op u block atOp inputs callee =>
      obtain ⟨block, atOp⟩ := inputs.nextOperation block atOp
      refine inputs.goesOn.consume block atOp fun f hf => ?_
      exact absurd (hf ▸ callee).flag Bool.false_ne_true
  | @final data op u block atOp inputs callee ends =>
      obtain ⟨block, atOp⟩ := inputs.nextOperation block atOp
      have last : data.operations.length = u.op + 1 ∧ data.exit = .terminated := by
        obtain ⟨found, hf, hl, hx⟩ := ends
        obtain rfl := Option.some.inj (block.symm.trans hf)
        exact ⟨Nat.le_antisymm hl (List.getElem?_eq_some_iff.mp atOp).1, hx⟩
      exact (inputs.goesOn.consume block atOp fun _ _ => last).leave ends

theorem goesOn_callwise : Callwise ctx (GoesOn ctx) := ⟨.refl, .trans, CallMatched.goesOn⟩

theorem replayOne_goesOn {e : Expr} {value? : Option ValueSet}
    (h : replayOne ctx e s = .ok value? t) : GoesOn ctx s t := by
  obtain ⟨values?, he, -⟩ := replayOne_eq_ok.mp h
  exact goesOn_callwise.ofExpr e he

end Expr

section Branch

-- The bindings at the end of a condition's block are on record for its zero edge.
theorem AtExit.taken_nonZero {branch : Branch} {zero : Bindings}
    (h : AtExit ctx s (.branch branch)) :
    Taken (⟨ctx.site, .carried s.block branch.zero s.bindings zero⟩ :: t.history) ctx.site
      s.block branch.nonZero s.bindings := by
  obtain ⟨data, hd, -, hx⟩ := h
  exact .unchanged hd hx rfl List.mem_cons_self

theorem Tested.goesOn {e : Expr} {branch : Branch} {zero : Bindings}
    (h : Tested ctx e s branch zero t) : GoesOn ctx s t := by
  cases h with
  | mk value exit fits carries =>
      exact (((replayOne_goesOn value).leave exit).trans fits.goesOn).carry carries

theorem Tested.taken_nonZero {e : Expr} {branch : Branch} {zero : Bindings}
    (h : Tested ctx e s branch zero t) :
    Taken t.history ctx.site t.block branch.nonZero t.bindings := by
  cases h with
  | @mk _ _ _ u v value exit fits carries =>
      obtain ⟨hb, ho⟩ := fits.position
      have atExit : AtExit ctx v (.branch branch) := exit.congr hb ho
      exact atExit.taken_nonZero

theorem Tested.carried_zero {e : Expr} {branch : Branch} {zero : Bindings}
    (h : Tested ctx e s branch zero t) :
    ⟨ctx.site, .carried t.block branch.zero t.bindings zero⟩ ∈ t.history := by
  cases h with
  | mk value exit fits carries => exact List.mem_cons_self

theorem IfReplayed.goesOn {condition : Expr} {body : Walk Bool} {r : Bool} (hb : Keeps ctx body)
    (h : IfReplayed ctx condition body s r t) : GoesOn ctx s t := by
  cases h with
  | stuck value => exact replayOne_goesOn value
  | joined tested into run exit back meets owned edge =>
      have inside := (tested.goesOn.follow into fun _ => tested.taken_nonZero).trans
        (hb.goesOn run)
      refine (inside.depart exit back).merge.follow edge fun _ => ?_
      exact .carried (List.mem_cons_of_mem _ List.mem_cons_self)
        (Bindings.refines_of_meet meets (by simp))
  | @skipped branch skipping v w tested into run edge =>
      have inside := (tested.goesOn.follow into fun _ => tested.taken_nonZero).trans
        (hb.goesOn run)
      have kept := (hb.framed run).history.suffix
      refine inside.follow edge fun _ => ?_
      exact .carried (kept.mem (List.mem_cons_of_mem _ tested.carried_zero)) (.refl _)

theorem Compared.goesOn {e : Expr} {candidates : ValueSet} {value : Literal} {result : ValueId}
    (h : Compared ctx e candidates value s result t) : GoesOn ctx s t := by
  obtain ⟨data, op, against, read, u, fits, block, atOp, compares, rfl⟩ := h.matched
  refine fits.goesOn.consume block atOp fun f hf => ?_
  simp [comparison?, hf] at compares

-- What is known of the join has been found on the way.
def SwitchJoin.Brought (join : SwitchJoin) (ctx : Context) (s : State) : Prop :=
  Replay.Brought s.history ctx.site join.edge? join.contributions

theorem ArmReplayed.goesOn {body : Walk Bool} {join next : SwitchJoin} (hb : Keeps ctx body)
    (h : ArmReplayed ctx body join s next t) : GoesOn ctx s t := by
  cases h with
  | left run => exact hb.goesOn run
  | joined run exit agrees carries => exact (hb.goesOn run).depart exit carries

theorem ArmReplayed.brought {body : Walk Bool} {join next : SwitchJoin} (hb : Keeps ctx body)
    (h : ArmReplayed ctx body join s next t) (hj : join.Brought ctx s) : next.Brought ctx t := by
  cases h with
  | left run => exact hj.mono fun _ he => (hb.framed run).history.mem he
  | @joined target bindings w run exit agrees carries =>
      intro source found he
      obtain ⟨rfl, rfl⟩ := Prod.mk.inj (Option.some.inj he)
      exact ⟨_, bindings, List.mem_append_right _ List.mem_cons_self, List.mem_cons_self⟩

theorem CaseReplayed.goesOn {e : Expr} {candidates : ValueSet} {value : Literal}
    {body : Walk Bool} {join next : SwitchJoin} (hb : Keeps ctx body)
    (h : CaseReplayed ctx e candidates value body join s next t) : GoesOn ctx s t := by
  cases h with
  | mk compared exit zero into arm edge =>
      have entered := (compared.goesOn.depart exit zero).follow into fun _ => exit.taken_nonZero
      have kept := (arm.framed hb.framed).history.suffix
      refine (entered.trans (arm.goesOn hb)).follow edge fun _ => ?_
      exact Taken.head.mono fun e he => kept.mem (List.mem_cons_of_mem _ he)

theorem CaseReplayed.brought {e : Expr} {candidates : ValueSet} {value : Literal}
    {body : Walk Bool} {join next : SwitchJoin} (hb : Keeps ctx body)
    (h : CaseReplayed ctx e candidates value body join s next t) (hj : join.Brought ctx s) :
    next.Brought ctx t := by
  cases h with
  | mk compared exit zero into arm edge =>
      have hs : Stays True ctx s _ := compared.stays
      have entered := arm.brought hb (hj.mono fun e he => List.mem_cons_of_mem _
        (List.mem_cons_of_mem _ (List.mem_cons_of_mem _ (hs.history.mem he))))
      exact entered.mono fun e he => List.mem_cons_of_mem _ he

theorem CasesReplayed.goesOn {e : Expr} {candidates : ValueSet} {arms : List Arm}
    {join last : SwitchJoin} (hb : ∀ arm ∈ arms, Keeps ctx arm.2)
    (h : CasesReplayed ctx e candidates arms join s last t) : GoesOn ctx s t :=
  h.invariant hb (P := fun _ => GoesOn ctx s)
    (fun hf first before => before.trans (first.goesOn hf)) (.refl s)

theorem CasesReplayed.brought {e : Expr} {candidates : ValueSet} {arms : List Arm}
    {join last : SwitchJoin} (hb : ∀ arm ∈ arms, Keeps ctx arm.2)
    (h : CasesReplayed ctx e candidates arms join s last t) (hj : join.Brought ctx s) :
    last.Brought ctx t :=
  h.invariant hb (P := fun here => here.Brought ctx) (fun hf first => first.brought hf) hj

theorem Settled.goesOn {join : SwitchJoin} {r : Bool} (h : Settled ctx join s r t)
    (hj : join.Brought ctx s) : GoesOn ctx s t := by
  cases h with
  | nowhere noEdge => exact .refl s
  | advanced found meets owned elsewhere edge =>
      refine (GoesOn.refl s).merge.follow edge fun _ => ?_
      exact (hj.followed found meets).mono fun _ he => List.mem_cons_of_mem _ he
  | there found meets owned here => exact (GoesOn.refl s).merge.congr rfl rfl rfl

theorem keeps_done : Keeps ctx (pure true) :=
  ⟨framed_compositional.done ctx, fun h => by
    obtain ⟨-, rfl⟩ := pure_eq_ok.mp h
    exact .refl _⟩

theorem FallbackReplayed.goesOn {default? : Option (Walk Bool)} {join : SwitchJoin} {r : Bool}
    (hb : ∀ body ∈ default?, Keeps ctx body) (h : FallbackReplayed ctx default? join s r t)
    (hj : join.Brought ctx s) : GoesOn ctx s t := by
  cases h with
  | default arm settled =>
      exact (arm.goesOn (hb _ rfl)).trans (settled.goesOn (arm.brought (hb _ rfl) hj))
  | unjoined noEdge => exact .refl s
  | direct found here settled =>
      refine settled.goesOn fun source target he => ?_
      obtain ⟨before, after, hm, hc⟩ := hj source target he
      exact ⟨before, after, List.mem_append_left _ hm, hc⟩
  | through found elsewhere arm settled =>
      exact (arm.goesOn keeps_done).trans (settled.goesOn (arm.brought keeps_done hj))

theorem SwitchReplayed.goesOn {e : Expr} {arms : List Arm} {r : Bool}
    (hb : ∀ arm ∈ arms, Keeps ctx arm.2) (h : SwitchReplayed ctx e arms s r t) :
    GoesOn ctx s t := by
  cases h with
  | stuck value => exact replayOne_goesOn value
  | noArms value split => exact replayOne_goesOn value
  | onlyDefault value split run =>
      exact (replayOne_goesOn value).trans ((hb _ ((mem_of_splitDefault split).2 _ rfl)).goesOn run)
  | cases value split some_case run fallback =>
      obtain ⟨hcases, hdefault⟩ := mem_of_splitDefault split
      have hc := fun arm ha => hb arm (hcases arm ha)
      have hd := fun body hm => hb _ (hdefault body hm)
      have first := (replayOne_goesOn value).trans (run.goesOn hc)
      exact first.trans (fallback.goesOn hd (run.brought hc nofun))

end Branch

section Loop

theorem EdgeRecorded.goesOn {way : LoopWay} {source target : BlockId} {before bindings : Bindings}
    (h : EdgeRecorded ctx way source target bindings s t)
    (carried : ⟨ctx.site, .carried source target before bindings⟩ ∈ s.history) :
    GoesOn ctx s t := by
  cases h with
  | @mk frame outer opened edge agrees =>
      intro hs
      refine ⟨⟨⟨trivial, hs.history⟩, hs.reached⟩, fun other hn g o hl => ?_⟩
      obtain ⟨rfl, rfl⟩ := List.cons.inj hl
      have known := (hn frame outer opened).mono fun e he =>
        List.mem_cons_of_mem ⟨ctx.site, .loopEdge way frame.header source target⟩ he
      by_cases hw : other = way
      · subst hw
        rw [LoopFrame.edges_note]
        intro a b hab
        cases hf : (frame.edges other).first? with
        | none =>
            rw [hf, Option.getD_none] at hab
            obtain ⟨rfl, rfl⟩ := Prod.mk.inj (Option.some.inj hab)
            exact ⟨before, bindings, List.mem_append_right _ List.mem_cons_self,
              List.mem_cons_of_mem _ carried⟩
        | some first =>
            rw [hf, Option.getD_some] at hab
            obtain ⟨x, after, hm, hc⟩ := known a b (hf.trans hab)
            exact ⟨x, after, List.mem_append_left _ hm, hc⟩
      · rw [LoopFrame.edges_note_of_ne _ _ _ _ _ hw]
        exact known

theorem LoopJumped.goesOn {way : LoopWay} (h : LoopJumped ctx way s t) : GoesOn ctx s t := by
  cases h with
  | mk exit carries recorded =>
      exact ((GoesOn.refl s).depart exit carries).trans (recorded.goesOn List.mem_cons_self)

theorem ConditionReplayed.goesOn {condition? : Option Expr} {r : Bool}
    (h : ConditionReplayed ctx s condition? r t) : GoesOn ctx s t := by
  cases h with
  | untested => exact .refl s
  | stuck value => exact replayOne_goesOn value
  | tested tested recorded into =>
      have kept : Framed True ctx _ _ := recorded.framed
      refine (tested.goesOn.trans (recorded.goesOn tested.carried_zero)).follow into fun _ => ?_
      exact tested.taken_nonZero.mono fun _ he => kept.history.mem he

-- The edges to the post block are no longer spoken of once they are taken up.
theorem PostReplayed.goesOn {header : BlockId} {post : Walk Bool} (hp : Keeps ctx post)
    (h : PostReplayed ctx header post s t) (hs : OnTrack ctx s) (hn : Noted ctx .exits s) :
    OnTrack ctx t ∧ Noted ctx .exits t := by
  cases h with
  | stopped run =>
      obtain ⟨ht, noted⟩ := hp.goesOn run hs
      exact ⟨ht, noted .exits hn⟩
  | latched run exit edge carries opened =>
      obtain ⟨ht, noted⟩ := ((hp.goesOn run).depart exit carries) hs
      exact ⟨⟨ht.history, ht.reached⟩, (noted .exits hn).exits opened rfl rfl fun _ he => he⟩

theorem ContinuesReplayed.goesOn {header : BlockId} {postEmpty : Bool} {post : Walk Bool}
    (hp : Keeps ctx post) (h : ContinuesReplayed ctx header postEmpty post s t)
    (hs : OnTrack ctx s) (hn : ∀ way, Noted ctx way s) : OnTrack ctx t ∧ Noted ctx .exits t := by
  cases h with
  | nowhere opened noEdge => exact ⟨hs, hn .exits⟩
  | direct opened found empty =>
      exact ⟨⟨hs.history, hs.reached⟩, (hn .exits).exits opened rfl rfl fun _ he => he⟩
  | @post frame outer source target merged _ opened found elsewhere meets owned edge run =>
      have followed := (hn .continues _ _ opened).followed found meets
      let taken : State := { s with
        loops := { frame with continues := ⟨some (source, target), []⟩ } :: outer }
      have entered : GoesOn ctx taken (taken.log ctx.site (.merged target merged)) :=
        (GoesOn.refl taken).merge
      obtain ⟨ht, noted⟩ := (entered.follow edge fun _ =>
        followed.mono fun _ he => List.mem_cons_of_mem _ he) ⟨hs.history, hs.reached⟩
      exact run.goesOn hp ht
        (noted .exits ((hn .exits).exits (t := taken) opened rfl rfl fun _ he => he))

theorem PassReplayed.goesOn {header : BlockId} {parts : LoopParts} (hb : Keeps ctx parts.body)
    (hp : Keeps ctx parts.post) (h : PassReplayed ctx header parts s t) (hs : OnTrack ctx s)
    (hn : ∀ way, Noted ctx way s) : OnTrack ctx t ∧ Noted ctx .exits t := by
  cases h with
  | stuck condition =>
      obtain ⟨ht, noted⟩ := condition.goesOn hs
      exact ⟨ht, noted .exits (hn .exits)⟩
  | stopped condition body continues =>
      obtain ⟨ht, noted⟩ := (condition.goesOn.trans (hb.goesOn body)) hs
      exact continues.goesOn hp ht fun way => noted way (hn way)
  | fallen condition body jump continues =>
      obtain ⟨ht, noted⟩ := ((condition.goesOn.trans (hb.goesOn body)).trans jump.goesOn) hs
      exact continues.goesOn hp ht fun way => noted way (hn way)

theorem LoopPassed.goesOn {header : BlockId} {warnings iteration : Nat} {parts : LoopParts}
    {entry : Bindings} {frame : LoopFrame} (hb : Keeps ctx parts.body) (hp : Keeps ctx parts.post)
    (hh : ctx.graph.Reachable header)
    (h : LoopPassed ctx header warnings parts iteration entry s frame t) (hs : OnTrack ctx s) :
    OnTrack ctx t ∧ (∀ way, Noted ctx way s → Noted ctx way t) ∧
      Brought t.history ctx.site frame.exits.first? frame.exits.bindings := by
  have hloops := h.loops_eq hb.framed hp.framed
  have hframed := h.framed hb.framed hp.framed
  cases h with
  | mk run opened =>
      have begun : OnTrack ctx (s.beginPass ctx.site header warnings iteration entry) :=
        ⟨⟨trivial, hs.history⟩, hh⟩
      obtain ⟨ht, noted⟩ := run.goesOn hb hp begun fun way g o hl => by
        obtain ⟨rfl, rfl⟩ := List.cons.inj hl
        cases way <;> exact brought_none
      exact ⟨⟨ht.history, ht.reached⟩, fun way hw => hw.mono hloops fun e he =>
        hframed.history.mem he, noted _ _ opened⟩

theorem LoopLeft.goesOn {exits : LoopEdges} {r : Bool} (h : LoopLeft ctx exits s r t)
    (hn : Brought s.history ctx.site exits.first? exits.bindings) : GoesOn ctx s t := by
  cases h with
  | never noEdge => exact .refl s
  | left found meets owned edge =>
      refine (GoesOn.refl s).merge.follow edge fun _ => ?_
      exact (hn.followed found meets).mono fun _ he => List.mem_cons_of_mem _ he

-- Every pass begins at the header anew.
theorem IterateReplayed.goesOn {header : BlockId} {warnings iteration : Nat} {parts : LoopParts}
    {entry : Bindings} {r : Bool} (hb : Keeps ctx parts.body) (hp : Keeps ctx parts.post)
    (hh : ctx.graph.Reachable header)
    (h : IterateReplayed ctx header warnings parts iteration entry s r t) : GoesOn ctx s t := by
  induction h with
  | settled pass stable owned left =>
      intro hs
      obtain ⟨hu, noted, exits⟩ := pass.goesOn hb hp hh hs
      have merged := (GoesOn.refl _).merge.trans
        (left.goesOn (exits.mono fun _ he => List.mem_cons_of_mem _ he))
      obtain ⟨ht, later⟩ := merged hu
      exact ⟨ht, fun way hw => later way (noted way hw)⟩
  | again pass refines next ih =>
      intro hs
      obtain ⟨hu, noted, -⟩ := pass.goesOn hb hp hh hs
      obtain ⟨ht, later⟩ := ((GoesOn.refl _).merge.trans ih) hu
      exact ⟨ht, fun way hw => later way (noted way hw)⟩

theorem ForReplayed.goesOn {pre : Walk Bool} {condition : Expr} {body : Walk Bool}
    {postEmpty : Bool} {post : Walk Bool} {r : Bool} (hpre : Keeps ctx pre) (hb : Keeps ctx body)
    (hp : Keeps ctx post) (h : ForReplayed ctx pre condition body postEmpty post s r t) :
    GoesOn ctx s t := by
  cases h with
  | stuck run => exact hpre.goesOn run
  | never run exit carries edge constant literal zero =>
      exact ((hpre.goesOn run).depart exit carries).follow edge fun _ => .head
  | loop run exit carries edge unlessZero iterate =>
      have entered := ((hpre.goesOn run).depart exit carries).follow edge fun _ => .head
      intro hs
      obtain ⟨hu, noted⟩ := entered hs
      obtain ⟨ht, later⟩ := iterate.goesOn hb hp hu.reached hu
      exact ⟨ht, fun way hw => later way (noted way hw)⟩

end Loop

theorem FunctionLeft.goesOn (h : FunctionLeft ctx s t) : GoesOn ctx s t := by
  cases h with
  | mk exit count held => exact ((GoesOn.refl s).leave exit).congr rfl rfl rfl

theorem Warned.goesOn (h : Warned ctx s t) : GoesOn ctx s t := by
  cases h with
  | silent => exact .refl s
  | warned m location =>
      exact ((GoesOn.refl s).log (.found m location) fun _ => trivial).congr rfl rfl rfl

-- A definition is replayed from the entry of its own graph, outside of all loops.
theorem FunctionReplayed.backed {d : Definition} {body : Walk Bool} (hb : Keeps ctx body)
    (h : FunctionReplayed ctx d body s t) (hs : Backed s.history)
    (entry : s.block = ctx.graph.entry) : Backed t.history := by
  cases h with
  | @mk bound all falls u _ parameters returns run ends =>
      have begun : OnTrack ctx s := ⟨hs, entry ▸ .refl⟩
      have entered : GoesOn ctx s (s.inFunction ctx d all) :=
        ((GoesOn.refl s).log (.entered (some d)) fun _ => trivial).congr rfl rfl rfl
      rcases ends with ⟨-, rfl⟩ | ⟨-, left⟩
      · exact ((entered.trans (hb.goesOn run)) begun).1.history
      · exact (((entered.trans (hb.goesOn run)).trans left.goesOn) begun).1.history

theorem DefinitionReplayed.goesOn {d : Definition}
    (hb : ∀ inner, Keeps inner (replayBlock inner d.body))
    (h : DefinitionReplayed ctx d (replayBlock · d.body) s t) : GoesOn ctx s t := by
  have kept := (h.framed (.inl trivial) fun inner => (hb inner).framed).history.suffix
  cases h with
  | @mk f graph u resolved defined parameters returns run =>
      intro hs
      have inside := (functionReplayed_of_ok run).backed (hb _) hs.history rfl
      exact ⟨⟨inside, hs.reached⟩, fun way hw => hw.mono rfl fun e he => kept.mem he⟩

theorem keeps_compositional : Compositional True Keeps where
  done ctx := keeps_done
  expr ctx e := ⟨framed_compositional.expr ctx e, fun h => by
    rcases replayBare_eq_ok.mp h with ⟨he, -⟩ | ⟨he, -⟩ <;> exact goesOn_callwise.ofExpr e he⟩
  assign ctx names e := ⟨framed_compositional.assign ctx names e, fun h => by
    rcases replayAssignment_of_ok h with ⟨he, -⟩ | ⟨values, u, b, he, -, -, rfl, -⟩
    · exact goesOn_callwise.ofExpr e he
    · exact (goesOn_callwise.ofExpr e he).congr rfl rfl rfl⟩
  letDecl ctx names value? := ⟨framed_compositional.letDecl ctx names value?, fun {s _ _} h => by
    have initial : ∀ {values? u}, InitialValues ctx names.length s value? values? u →
        GoesOn ctx s u := by
      intro values? u hi
      cases hi with
      | given value fits => exact goesOn_callwise.ofExpr _ value
      | zero found => exact .refl s
    rcases replayLet_of_ok h with ⟨hi, -⟩ | ⟨values, u, b, hi, -, rfl, -⟩
    · exact initial hi
    · exact (initial hi).congr rfl rfl rfl⟩
  leave ctx := ⟨framed_compositional.leave ctx, fun h => (functionLeft_of_ok h).1.goesOn⟩
  loopJump ctx way := ⟨framed_compositional.loopJump ctx way, fun h =>
    (replayLoopJump_eq_ok h).1.goesOn⟩
  cond ctx condition body hb := ⟨framed_compositional.cond ctx condition body hb.framed, fun h =>
    (ifReplayed_of_ok h).goesOn hb⟩
  switch hs ctx e arms ha := ⟨framed_compositional.switch hs ctx e arms fun arm hm =>
    (ha arm hm).framed, fun h => (switchReplayed_of_ok h).goesOn ha⟩
  forLoop ctx pre condition body postEmpty post hpre hb hp :=
    ⟨framed_compositional.forLoop ctx pre condition body postEmpty post hpre.framed hb.framed
      hp.framed, fun h => (forReplayed_of_ok h).goesOn hpre hb hp⟩
  block ctx id body hb := ⟨framed_compositional.block ctx id body hb.framed, fun {s _ _} h => by
    obtain ⟨scope, u, -, hu, rfl⟩ := inBlock_eq_ok.mp h
    have opened : GoesOn ctx s { s with scope? := some scope } :=
      (GoesOn.refl s).congr rfl rfl rfl
    exact (opened.trans (hb.goesOn hu)).congr rfl rfl rfl⟩
  definition ctx d others hs hd ho := ⟨framed_compositional.definition ctx d others hs
    (fun inner => (hd inner).framed) ho.framed, fun h => by
    obtain ⟨_, u, hu, ht⟩ := bind_eq_ok.mp h
    exact ((definitionReplayed_of_ok hu).goesOn hd).trans (ho.goesOn ht)⟩
  next ctx id rest first others hf ho := ⟨framed_compositional.next ctx id rest first others
    hf.framed ho.framed, fun h => by
    obtain ⟨falls, u, hu, ht⟩ := bind_eq_ok.mp h
    rcases ite_eq_ok.mp ht with ⟨-, ht⟩ | ⟨-, ht⟩
    · exact (hf.goesOn hu).trans (ho.goesOn ht)
    · obtain ⟨_, v, hw, hv⟩ := bind_eq_ok.mp ht
      obtain ⟨-, rfl⟩ := pure_eq_ok.mp hv
      exact (hf.goesOn hu).trans (warned_of_ok hw).goesOn⟩

theorem backed_of_main {program : Yul.Block} {v : Unit}
    (h : replayMain ctx program (State.start ctx.graph) = .ok v t) : Backed t.history := by
  obtain ⟨start, hs, hr⟩ := graphReplayed_of_main h
  have begun : OnTrack ctx start := by
    refine ⟨?_, hs.block ▸ .refl⟩
    rw [hs.history]
    exact ⟨trivial, trivial⟩
  have whole : Keeps ctx (replayBlock ctx program) :=
    keeps_compositional.ofBlock ctx program (.inl trivial)
  generalize t.history = final at hr
  cases hr with
  | stopped run => exact (whole.goesOn run begun).1.history
  | ended run atExit noTargets =>
      exact ((whole.goesOn run).leave atExit begun).1.history

end Replay

open Replay

-- In an accepted run, wherever the position moves along an edge, a variable holds a phi
-- of the target at its start only if it held the phi's argument for the edge at the end of
-- the source. The exception is the non-zero edge of a condition, along which every
-- variable keeps its candidates.
theorem phis_renewed_of_accepted (s : Subject) (settings : Settings)
    (h : judge s settings = .accepted) {earlier later : List Entry} {site : Site}
    {source target : BlockId} {start : Bindings}
    (moved : (s.run settings).history =
      earlier ++ ⟨site, .advanced source target start⟩ :: later) :
    (∃ before after, ⟨site, .carried source target before after⟩ ∈ earlier ∧
      site.graph.Renews source target before start) ∨
      ∃ data branch after, site.graph.block? source = some data ∧ data.exit = .branch branch ∧
        branch.nonZero = target ∧ ⟨site, .carried source branch.zero start after⟩ ∈ earlier := by
  obtain ⟨t, hrun, hhistory⟩ := Subject.replayMain_of_accepted h
  have hsplit : t.history =
      later.reverse ++ ⟨site, .advanced source target start⟩ :: earlier.reverse := by
    rw [← List.reverse_reverse t.history, ← hhistory, moved]
    simp
  have backed : Backed t.history := backed_of_main hrun
  rw [hsplit] at backed
  obtain ⟨⟨-, followed⟩, before⟩ := backed.of_append
  cases followed with
  | carried brought refines =>
      refine .inl ⟨_, _, List.mem_reverse.mp brought, ?_⟩
      intro data hd phi hphi x hx
      exact (before.carried brought).2.renews data hd phi hphi x (refines.offers hx)
  | unchanged block exit nonZero brought =>
      exact .inr ⟨_, _, _, block, exit, nonZero, List.mem_reverse.mp brought⟩

-- A loop whose body is the very block in which a condition before it joins. Each pass
-- gives the phi of that block the value five, which the variable never has.
namespace Rejoining

open SsaReplay.Graph (ConstructionStep)

def draft : List Yul.Draft :=
  [.letDecl ["x"] (some (.literal (.number 0))),
    .cond (.call "calldatasize" []) [.assign ["x"] (.literal (.number 1))],
    .forLoop [] (.call "callvalue" []) [] [],
    .expr (.call "sstore" [.literal (.number 0), .ident "x"])]

def steps : List ConstructionStep :=
  [.literal 0, .operation (.builtin ⟨23⟩) [] 1, .literal 1, .literal 5, .block, .block, .block,
    .block, .exit (.branch ⟨⟨1⟩, ⟨1⟩, ⟨2⟩⟩),
    .moveTo ⟨1⟩, .exit (.jump ⟨2⟩),
    .moveTo ⟨2⟩, .phi ⟨2⟩, .exit (.jump ⟨3⟩),
    .moveTo ⟨3⟩, .operation (.builtin ⟨21⟩) [] 1, .exit (.branch ⟨⟨5⟩, ⟨2⟩, ⟨4⟩⟩),
    .moveTo ⟨4⟩, .operation (.builtin ⟨29⟩) [⟨0⟩, ⟨4⟩] 0, .exit .mainExit,
    .phiArguments ⟨4⟩ [⟨0⟩, ⟨2⟩, ⟨3⟩]]

def graph : Cfg := Cfg.ofSteps none steps

def program : Yul.Block × Yul.Analysis := Yul.laidOut draft

def subject : Subject := ⟨program.1, program.2, .evm, ⟨graph, []⟩⟩

def site : Site := (subject.context .default).site

theorem accepted : judge subject .default = .accepted := by decide +kernel

-- What the run tells of an edge, with the bindings found there.
theorem exists_advanced (source target : BlockId) (p : Bindings → Bool)
    (h : (subject.run .default).history.any (fun e => e.site.depth = 0 &&
      match e.event with
      | .advanced a b start => a = source && b = target && p start
      | _ => false) = true) :
    ∃ start, ⟨site, .advanced source target start⟩ ∈ (subject.run .default).history ∧
      p start = true := by
  obtain ⟨⟨at', event⟩, he, hevent⟩ := List.any_eq_true.mp h
  obtain ⟨hd, hevent⟩ := Bool.and_eq_true_iff.mp hevent
  obtain rfl : at' = site := Subject.site_eq_of_depth accepted he (of_decide_eq_true hd)
  cases event with
  | advanced a b start =>
      simp only [Bool.and_eq_true, decide_eq_true_eq] at hevent
      obtain ⟨⟨rfl, rfl⟩, hp⟩ := hevent
      exact ⟨start, he, hp⟩
  | _ => exact absurd hevent Bool.false_ne_true

-- The variable enters the body with the phi as its candidate, though the phi's argument
-- for this edge is never a candidate at the end of the header.
theorem phi_kept :
    judge subject .default = .accepted ∧ graph.Built ∧
      ∃ start, ⟨site, .advanced ⟨3⟩ ⟨2⟩ start⟩ ∈ (subject.run .default).history ∧
        ∀ target before after,
          ⟨site, .carried ⟨3⟩ target before after⟩ ∈ (subject.run .default).history →
            ¬graph.Renews ⟨3⟩ ⟨2⟩ before start := by
  refine ⟨accepted, Graph.Cfg.built_of_steps (by decide +kernel), ?_⟩
  obtain ⟨start, hm, hstart⟩ :=
    exists_advanced ⟨3⟩ ⟨2⟩ (fun b => b.lookup ⟨0⟩ = some (.single ⟨4⟩)) (by decide +kernel)
  refine ⟨start, hm, fun target before after hc renews => ?_⟩
  have only : (subject.run .default).history.all (fun e =>
      match e.event with
      | .carried source _ before _ => source ≠ ⟨3⟩ || before.lookup ⟨0⟩ = some (.single ⟨4⟩)
      | _ => true) = true := by decide +kernel
  have hbefore : before.lookup ⟨0⟩ = some (.single ⟨4⟩) := by
    simpa using List.all_eq_true.mp only _ hc
  have argued : graph.phiArgument? ⟨3⟩ ⟨2⟩ ⟨4⟩ = some ⟨3⟩ := by decide +kernel
  have listed : (graph.block? ⟨2⟩).any (fun data => ⟨4⟩ ∈ data.phis) = true := by decide +kernel
  obtain ⟨data, hd, hphi⟩ := (Option.any_eq_true _ _).mp listed
  obtain ⟨argument, ha, held, hx, hheld⟩ := renews data hd ⟨4⟩ (of_decide_eq_true hphi) ⟨0⟩
    ⟨_, of_decide_eq_true hstart, (ValueSet.mem_single _ _).mpr rfl⟩
  obtain rfl := Option.some.inj (argued.symm.trans ha)
  obtain rfl := Option.some.inj (hbefore.symm.trans hx)
  exact absurd ((ValueSet.mem_single _ _).mp hheld) (by decide)

theorem phis_renewed_here :
    judge subject .default = .accepted ∧ ∃ earlier later start,
      (subject.run .default).history = earlier ++ ⟨site, .advanced ⟨1⟩ ⟨2⟩ start⟩ :: later ∧
        ((∃ before after, ⟨site, .carried ⟨1⟩ ⟨2⟩ before after⟩ ∈ earlier ∧
          site.graph.Renews ⟨1⟩ ⟨2⟩ before start) ∨
          ∃ data branch after, site.graph.block? ⟨1⟩ = some data ∧ data.exit = .branch branch ∧
            branch.nonZero = ⟨2⟩ ∧ ⟨site, .carried ⟨1⟩ branch.zero start after⟩ ∈ earlier) := by
  obtain ⟨start, hm, -⟩ := exists_advanced ⟨1⟩ ⟨2⟩ (fun _ => true) (by decide +kernel)
  obtain ⟨earlier, later, moved⟩ := List.append_of_mem hm
  exact ⟨accepted, earlier, later, start, moved,
    phis_renewed_of_accepted subject .default accepted moved⟩

end Rejoining

end SsaReplay
