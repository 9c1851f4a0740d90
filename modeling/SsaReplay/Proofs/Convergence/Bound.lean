import SsaReplay.Proofs.Frame
import SsaReplay.Proofs.Outcome.Branch

namespace SsaReplay

namespace Bindings

-- All that the other bindings bind is bound.
def Covers (b m : Bindings) : Prop := ∀ x, m.binds x = true → b.binds x = true

variable {a b m : Bindings}

theorem Covers.refl (b : Bindings) : b.Covers b := fun _ hx => hx

theorem Covers.trans (h : a.Covers b) (k : b.Covers m) : a.Covers m := fun x hx => h x (k x hx)

theorem covers_assign (b : Bindings) (x : VariableId) (values : ValueSet) :
    (b.assign x values).Covers b := by
  intro y hy
  rw [binds_assign, hy, Bool.or_true]

theorem Covers.acrossEdge (h : b.Covers m) (fed : ValueId → ValueSet) (redefined : List ValueId) :
    (b.acrossEdge fed redefined).Covers m := by
  intro x hx
  rw [binds_acrossEdge]
  exact h x hx

-- What is bound on all paths into a join is bound behind it, if there is a path at all.
theorem covers_of_meet {contributions : List Bindings} {merged : Bindings}
    (h : meet contributions = .ok merged) (some : contributions ≠ [])
    (all : ∀ b ∈ contributions, b.Covers m) : merged.Covers m := by
  cases contributions with
  | nil => exact absurd rfl some
  | cons first rest =>
      exact fun x hx => (binds_of_meet h x).mpr fun b hb => all b hb x hx

end Bindings

namespace Replay

open SsaReplay.Graph (Branch)
open SsaReplay.Yul (Expr Literal)

-- The edges bind what the bindings do, and there are bindings once there is an edge.
structure LoopEdges.Cover (e : LoopEdges) (m : Bindings) : Prop where
  some : e.first? ≠ none → e.bindings ≠ []
  all : ∀ b ∈ e.bindings, b.Covers m

-- The same of the paths that a switch has found into its join.
structure SwitchJoin.Cover (join : SwitchJoin) (m : Bindings) : Prop where
  some : join.edge? ≠ Option.none → join.contributions ≠ []
  all : ∀ b ∈ join.contributions, b.Covers m

-- The edges of one way of the innermost loop do.
def EdgesCover (m : Bindings) (way : LoopWay) (s : State) : Prop :=
  ∀ frame outer, s.loops = frame :: outer → (frame.edges way).Cover m

-- What was bound is bound where control falls through, and on all further edges of the
-- innermost loop.
def Lasts (r : Bool) (s t : State) : Prop :=
  ∀ m, s.bindings.Covers m → (r = true → t.bindings.Covers m) ∧
    ∀ way, EdgesCover m way s → EdgesCover m way t

structure Lasting (ctx : Context) (body : Walk Bool) : Prop where
  framed : Frames True ctx body
  lasts : ∀ {s r t}, body s = .ok r t → Lasts r s t

variable {ctx : Context} {s t u : State} {r : Bool}

namespace Lasts

theorem of_loops (covers : r = true → t.bindings.Covers s.bindings) (loops : t.loops = s.loops) :
    Lasts r s t := by
  intro m hm
  refine ⟨fun hr => (covers hr).trans hm, fun way edges frame outer hl => ?_⟩
  exact edges frame outer (loops ▸ hl)

theorem refl (s : State) : Lasts r s s := of_loops (fun _ => .refl _) rfl

theorem trans (h : Lasts true s t) (k : Lasts r t u) : Lasts r s u := by
  intro m hm
  obtain ⟨bound, edges⟩ := h m hm
  obtain ⟨bound', edges'⟩ := k m (bound rfl)
  exact ⟨bound', fun way he => edges' way (edges way he)⟩

end Lasts

-- An expression commits variables that are bound, and leaves the loops alone.
theorem Reconciled.abides {e : Expr} {candidates : ValueSet} {v : ValueId}
    (h : Reconciled ctx s e candidates v t) : Abides s t := by
  cases h with
  | named resolved bound member => exact ⟨rfl, rfl, rfl, Bindings.binds_narrow bound _⟩
  | result noName only => exact .refl s

theorem OperandsReconciled.abides {operands : List (Expr × ValueSet)} {inputs : List ValueId}
    (h : OperandsReconciled ctx s operands inputs t) : Abides s t :=
  h.invariant (fun first before => before.trans first.abides) (.refl s)

theorem CallMatched.abides {name : String} {operands : List (Expr × ValueSet)}
    {results? : Option (List ValueSet)} (h : CallMatched ctx name operands s results? t) :
    Abides s t := by
  cases h with
  | returning block atOp inputs callee =>
      exact inputs.abides.trans ⟨rfl, rfl, rfl, rfl⟩
  | final block atOp inputs callee ends =>
      exact inputs.abides.trans ⟨rfl, rfl, rfl, rfl⟩

theorem Abides.lasts (h : Abides s t) : Lasts r s t :=
  .of_loops (fun _ _ hx => h.bound ▸ hx) h.loops

theorem replayExpr_abides {e : Expr} {values? : Option (List ValueSet)}
    (h : replayExpr ctx e s = .ok values? t) : Abides s t :=
  Callwise.ofExpr ⟨.refl, .trans, CallMatched.abides⟩ e h

theorem replayOne_abides {e : Expr} {value? : Option ValueSet}
    (h : replayOne ctx e s = .ok value? t) : Abides s t := by
  obtain ⟨values?, he, -⟩ := replayOne_eq_ok.mp h
  exact replayExpr_abides he

theorem Carries.covers {source target : BlockId} {before after m : Bindings}
    (h : Carries ctx.graph source target before after) (hb : before.Covers m) : after.Covers m := by
  obtain ⟨data, pairs, -, -, rfl⟩ := h
  exact hb.acrossEdge _ _

theorem Tested.abides {e : Expr} {branch : Branch} {skipping : Bindings}
    (h : Tested ctx e s branch skipping t) : Abides s t ∧ skipping.Covers t.bindings := by
  cases h with
  | mk value exit fits zero =>
      have fitted := ((replayOne_abides value).log _ _).trans fits.abides
      exact ⟨fitted.log _ _, zero.covers (.refl _)⟩

theorem lasting_done : Lasting ctx (pure true) :=
  ⟨framed_compositional.done ctx, fun h => by
    obtain ⟨-, rfl⟩ := pure_eq_ok.mp h
    exact .refl _⟩

section Branch

theorem IfReplayed.lasts {condition : Expr} {body : Walk Bool} (hb : Lasting ctx body)
    (h : IfReplayed ctx condition body s r t) : Lasts r s t := by
  cases h with
  | stuck value => exact (replayOne_abides value).lasts
  | @joined branch skipping running merged v w tested into run exit back meets owned edge =>
      obtain ⟨here, past⟩ := tested.abides
      refine here.lasts.trans fun m hm => ?_
      obtain ⟨bound, edges⟩ := hb.lasts run m hm
      refine ⟨fun _ => Bindings.covers_of_meet meets (by simp) ?_, edges⟩
      simp only [List.mem_cons, List.not_mem_nil, or_false, forall_eq_or_imp, forall_eq]
      exact ⟨past.trans hm, back.covers (bound rfl)⟩
  | @skipped branch skipping v w tested into run edge =>
      obtain ⟨here, past⟩ := tested.abides
      refine here.lasts.trans fun m hm => ?_
      obtain ⟨-, edges⟩ := hb.lasts run m hm
      exact ⟨fun _ => past.trans hm, edges⟩

variable {m : Bindings} {join next : SwitchJoin}

-- What is kept from one arm to the next is what the edges into the join bind as well.
theorem ArmReplayed.lasts {body : Walk Bool} (hb : Lasting ctx body)
    (h : ArmReplayed ctx body join s next t) (hm : s.bindings.Covers m) (hj : join.Cover m) :
    next.Cover m ∧ ∀ way, EdgesCover m way s → EdgesCover m way t := by
  cases h with
  | left run => exact ⟨hj, (hb.lasts run m hm).2⟩
  | joined run exit agrees carries =>
      obtain ⟨bound, edges⟩ := hb.lasts run m hm
      refine ⟨⟨by simp, fun b hmem => ?_⟩, edges⟩
      rcases List.mem_append.mp hmem with hmem | hmem
      · exact hj.all b hmem
      · obtain rfl := List.mem_singleton.mp hmem
        exact carries.covers (bound rfl)

theorem Compared.abides {e : Expr} {candidates : ValueSet} {value : Literal} {result : ValueId}
    (h : Compared ctx e candidates value s result t) : Abides s t := by
  cases h with
  | mk block last compares literal fits => exact fits.abides.trans ⟨rfl, rfl, rfl, rfl⟩

theorem CaseReplayed.lasts {e : Expr} {candidates : ValueSet} {value : Literal}
    {body : Walk Bool} (hb : Lasting ctx body)
    (h : CaseReplayed ctx e candidates value body join s next t) (hm : s.bindings.Covers m)
    (hj : join.Cover m) :
    t.bindings.Covers m ∧ next.Cover m ∧ ∀ way, EdgesCover m way s → EdgesCover m way t := by
  cases h with
  | mk compared exit zero into arm edge =>
      obtain ⟨bound, edges⟩ := compared.abides.lasts (r := true) m hm
      obtain ⟨joined, edges'⟩ := arm.lasts hb (bound rfl) hj
      exact ⟨zero.covers (bound rfl), joined, fun way he => edges' way (edges way he)⟩

theorem CasesReplayed.lasts {e : Expr} {candidates : ValueSet} {arms : List Arm}
    (hb : ∀ arm ∈ arms, Lasting ctx arm.2)
    (h : CasesReplayed ctx e candidates arms join s next t) (hm : s.bindings.Covers m)
    (hj : join.Cover m) :
    t.bindings.Covers m ∧ next.Cover m ∧ ∀ way, EdgesCover m way s → EdgesCover m way t := by
  refine h.invariant hb (P := fun here u => u.bindings.Covers m ∧ here.Cover m ∧
    ∀ way, EdgesCover m way s → EdgesCover m way u) ?_ ⟨hm, hj, fun _ he => he⟩
  rintro value body here there u v kept first ⟨bound, joined, edges⟩
  obtain ⟨bound', joined', edges'⟩ := first.lasts kept bound joined
  exact ⟨bound', joined', fun way he => edges' way (edges way he)⟩

theorem Settled.lasts (h : Settled ctx join s r t) (hj : join.Cover m) :
    (r = true → t.bindings.Covers m) ∧ ∀ way, EdgesCover m way s → EdgesCover m way t := by
  cases h with
  | nowhere => exact ⟨by simp, fun _ he => he⟩
  | advanced found meets owned elsewhere edge =>
      exact ⟨fun _ => Bindings.covers_of_meet meets (hj.some (by simp [found])) hj.all,
        fun _ he => he⟩
  | there found meets owned here =>
      exact ⟨fun _ => Bindings.covers_of_meet meets (hj.some (by simp [found])) hj.all,
        fun _ he => he⟩

theorem FallbackReplayed.lasts {default? : Option (Walk Bool)}
    (hb : ∀ body ∈ default?, Lasting ctx body) (h : FallbackReplayed ctx default? join s r t)
    (hm : s.bindings.Covers m) (hj : join.Cover m) :
    (r = true → t.bindings.Covers m) ∧ ∀ way, EdgesCover m way s → EdgesCover m way t := by
  cases h with
  | default arm settled =>
      obtain ⟨joined, edges⟩ := arm.lasts (hb _ rfl) hm hj
      obtain ⟨bound, edges'⟩ := settled.lasts joined
      exact ⟨bound, fun way he => edges' way (edges way he)⟩
  | unjoined noEdge => exact ⟨fun _ => hm, fun _ he => he⟩
  | direct found here settled =>
      refine settled.lasts ⟨by simp, fun b hmem => ?_⟩
      rcases List.mem_append.mp hmem with hmem | hmem
      · exact hj.all b hmem
      · exact List.mem_singleton.mp hmem ▸ hm
  | through found elsewhere arm settled =>
      obtain ⟨joined, edges⟩ := arm.lasts lasting_done hm hj
      obtain ⟨bound, edges'⟩ := settled.lasts joined
      exact ⟨bound, fun way he => edges' way (edges way he)⟩

theorem SwitchReplayed.lasts {e : Expr} {arms : List Arm} (hb : ∀ arm ∈ arms, Lasting ctx arm.2)
    (h : SwitchReplayed ctx e arms s r t) : Lasts r s t := by
  cases h with
  | stuck value => exact (replayOne_abides value).lasts
  | noArms value split => exact (replayOne_abides value).lasts
  | onlyDefault value split run =>
      exact (replayOne_abides value).lasts.trans
        ((hb _ ((mem_of_splitDefault split).2 _ rfl)).lasts run)
  | cases value split some_case run fallback =>
      obtain ⟨hc, hd⟩ := mem_of_splitDefault split
      refine (replayOne_abides value).lasts.trans fun m hm => ?_
      obtain ⟨bound, joined, edges⟩ := run.lasts (fun arm ha => hb arm (hc arm ha)) hm
        ⟨by simp [SwitchJoin.none], by simp [SwitchJoin.none]⟩
      obtain ⟨bound', edges'⟩ := fallback.lasts (fun body hmem => hb _ (hd body hmem)) bound joined
      exact ⟨bound', fun way he => edges' way (edges way he)⟩

end Branch

section Loop

theorem LoopFrame.edges_start (header : BlockId) (m : Bindings) (way : LoopWay) :
    ((LoopFrame.start header).edges way).Cover m := by
  cases way <;> exact ⟨fun h => absurd rfl h, by simp [edges, start, LoopEdges.empty]⟩

theorem EdgeRecorded.covers {m : Bindings} {way other : LoopWay} {source target : BlockId}
    {b : Bindings} (h : EdgeRecorded ctx way source target b s t) (hb : b.Covers m)
    (he : EdgesCover m other s) : EdgesCover m other t := by
  cases h with
  | mk opened edge agrees =>
      intro found outer hl
      obtain ⟨rfl, rfl⟩ := List.cons.inj hl
      have known := he _ _ opened
      by_cases hw : other = way
      · subst hw
        rw [LoopFrame.edges_note]
        refine ⟨by simp, fun c hc => ?_⟩
        rcases List.mem_append.mp hc with hc | hc
        · exact known.all c hc
        · exact List.mem_singleton.mp hc ▸ hb
      · rwa [LoopFrame.edges_note_of_ne _ _ _ _ _ hw]

theorem LoopJumped.lasts {way : LoopWay} (h : LoopJumped ctx way s t) : Lasts false s t := by
  cases h with
  | mk exit carries recorded =>
      exact fun m hm => ⟨by simp, fun other he => recorded.covers (carries.covers hm) he⟩

theorem ConditionReplayed.lasts {condition? : Option Expr}
    (h : ConditionReplayed ctx s condition? r t) : Lasts r s t := by
  cases h with
  | untested => exact .refl s
  | stuck value => exact (replayOne_abides value).lasts
  | tested tested recorded into =>
      obtain ⟨here, past⟩ := tested.abides
      refine here.lasts.trans fun m hm => ⟨fun _ => hm, fun other he => ?_⟩
      exact recorded.covers (past.trans hm) he

-- The back edges that the post block ends in.
theorem PostReplayed.lasts {header : BlockId} {post : Walk Bool} {m : Bindings}
    (hp : Lasting ctx post) (h : PostReplayed ctx header post s t) (hm : s.bindings.Covers m)
    (exits : EdgesCover m .exits s) {frame : LoopFrame} {outer : List LoopFrame}
    (opened : s.loops = frame :: outer) (back : ∀ b ∈ frame.backEdges, b.Covers m) :
    ∃ last, t.loops = last :: outer ∧ last.exits.Cover m ∧ ∀ b ∈ last.backEdges, b.Covers m := by
  cases h with
  | stopped run =>
      obtain ⟨last, hl, longer⟩ := (opened ▸ (hp.framed run).loops).of_cons
      have edges := (hp.lasts run m hm).2 .exits exits
      exact ⟨last, hl, edges last outer hl, longer.backEdges ▸ back⟩
  | latched run exit edge carries opened' =>
      obtain ⟨last, hl, longer⟩ := (opened ▸ (hp.framed run).loops).of_cons
      obtain ⟨rfl, rfl⟩ := List.cons.inj (opened'.symm.trans hl)
      obtain ⟨bound, edges⟩ := hp.lasts run m hm
      have kept := edges .exits exits _ _ hl
      refine ⟨_, rfl, kept, fun b hb => ?_⟩
      rcases List.mem_append.mp hb with hb | hb
      · exact back b (longer.backEdges ▸ hb)
      · exact List.mem_singleton.mp hb ▸ carries.covers (bound rfl)

-- The same of all that comes after the body.
theorem ContinuesReplayed.lasts {header : BlockId} {postEmpty : Bool} {post : Walk Bool}
    {m : Bindings} (hp : Lasting ctx post) (h : ContinuesReplayed ctx header postEmpty post s t)
    (edges : ∀ way, EdgesCover m way s) {frame : LoopFrame} {outer : List LoopFrame}
    (opened : s.loops = frame :: outer) (back : frame.backEdges = []) :
    ∃ last, t.loops = last :: outer ∧ last.exits.Cover m ∧ ∀ b ∈ last.backEdges, b.Covers m := by
  cases h with
  | nowhere opened' noEdge =>
      exact ⟨frame, opened, edges .exits frame outer opened, by simp [back]⟩
  | direct opened' found empty =>
      obtain ⟨rfl, rfl⟩ := List.cons.inj (opened.symm.trans opened')
      exact ⟨_, rfl, edges .exits frame outer opened, (edges .continues frame outer opened).all⟩
  | post opened' found elsewhere meets owned edge run =>
      obtain ⟨rfl, rfl⟩ := List.cons.inj (opened.symm.trans opened')
      have continues := edges .continues frame outer opened
      have bound :=
        Bindings.covers_of_meet meets (continues.some (by simp [LoopFrame.edges, found]))
        continues.all
      refine run.lasts hp bound (fun f o hl => ?_) rfl (by simp [back])
      obtain ⟨rfl, rfl⟩ := List.cons.inj hl
      exact edges .exits frame outer opened

-- Inside of a loop, no variable is lost that is bound at the header.
theorem LoopPassed.covers {header : BlockId} {warnings iteration : Nat} {parts : LoopParts}
    {entry m : Bindings} {frame : LoopFrame} (hb : Lasting ctx parts.body)
    (hp : Lasting ctx parts.post) (hm : entry.Covers m)
    (h : LoopPassed ctx header warnings parts iteration entry s frame t) :
    frame.exits.Cover m ∧ ∀ b ∈ frame.backEdges, b.Covers m := by
  obtain ⟨run, opened⟩ := h
  have begun : ∀ way, EdgesCover m way (s.beginPass ctx.site header warnings iteration entry) := by
    intro way f outer hl
    obtain ⟨rfl, rfl⟩ := List.cons.inj hl
    exact LoopFrame.edges_start header m way
  -- The part of a pass up to where the body ends.
  have inside : ∀ {u : State} {r : Bool},
      Framed True ctx (s.beginPass ctx.site header warnings iteration entry) u →
      Lasts r (s.beginPass ctx.site header warnings iteration entry) u →
        ∃ last, u.loops = last :: s.loops ∧ last.backEdges = [] ∧ ∀ way, EdgesCover m way u := by
    intro u r framed keeps
    obtain ⟨last, hl, longer⟩ := framed.loops.of_cons
    exact ⟨last, hl, longer.backEdges, fun way => (keeps m hm).2 way (begun way)⟩
  cases run with
  | stuck condition =>
      obtain ⟨last, hl, back, edges⟩ := inside condition.framed condition.lasts
      obtain ⟨rfl, rfl⟩ := List.cons.inj (opened.symm.trans hl)
      exact ⟨edges .exits _ _ hl, by simp [back]⟩
  | stopped condition body continues =>
      obtain ⟨last, hl, back, edges⟩ := inside (condition.framed.trans (hb.framed body))
        (condition.lasts.trans (hb.lasts body))
      obtain ⟨last, hl, done⟩ := continues.lasts hp edges hl back
      obtain ⟨rfl, rfl⟩ := List.cons.inj (opened.symm.trans hl)
      exact done
  | fallen condition body jump continues =>
      obtain ⟨last, hl, back, edges⟩ := inside
        ((condition.framed.trans (hb.framed body)).trans jump.framed)
        ((condition.lasts.trans (hb.lasts body)).trans jump.lasts)
      obtain ⟨last, hl, done⟩ := continues.lasts hp edges hl back
      obtain ⟨rfl, rfl⟩ := List.cons.inj (opened.symm.trans hl)
      exact done

theorem LoopLeft.covers {exits : LoopEdges} {m : Bindings} (h : LoopLeft ctx exits s r t)
    (he : exits.Cover m) : r = true → t.bindings.Covers m := by
  cases h with
  | never => simp
  | left found meets owned edge =>
      exact fun _ => Bindings.covers_of_meet meets (he.some (by simp [found])) he.all

theorem LoopLeft.loops_eq {exits : LoopEdges} (h : LoopLeft ctx exits s r t) :
    t.loops = s.loops := by
  cases h <;> rfl

-- What the mapping at the header is narrowed to binds the same, so that this holds from
-- pass to pass.
theorem IterateReplayed.lasts {header : BlockId} {warnings iteration : Nat} {parts : LoopParts}
    {entry : Bindings} (hb : Lasting ctx parts.body) (hp : Lasting ctx parts.post)
    (h : IterateReplayed ctx header warnings parts iteration entry s r t) :
    (∀ m, entry.Covers m → r = true → t.bindings.Covers m) ∧ t.loops = s.loops := by
  induction h with
  | settled pass stable owned left =>
      have loops := pass.loops_eq hb.framed hp.framed
      exact ⟨fun m hm => left.covers (pass.covers hb hp hm).1, left.loops_eq.trans loops⟩
  | again pass refines next ih =>
      have loops := pass.loops_eq hb.framed hp.framed
      refine ⟨fun m hm => ih.1 m (Bindings.covers_of_meet refines (by simp) ?_), ih.2.trans loops⟩
      exact List.forall_mem_cons.mpr ⟨hm, (pass.covers hb hp hm).2⟩

theorem ForReplayed.lasts {pre : Walk Bool} {condition : Expr} {body : Walk Bool}
    {postEmpty : Bool} {post : Walk Bool} (hpre : Lasting ctx pre) (hb : Lasting ctx body)
    (hp : Lasting ctx post) (h : ForReplayed ctx pre condition body postEmpty post s r t) :
    Lasts r s t := by
  cases h with
  | stuck run => exact hpre.lasts run
  | never run exit carries edge constant literal zero =>
      refine (hpre.lasts run).trans (.of_loops (fun _ => ?_) rfl)
      exact carries.covers (.refl _)
  | loop run exit carries edge unlessZero iterate =>
      obtain ⟨bound, loops⟩ := iterate.lasts hb hp
      refine (hpre.lasts run).trans (.of_loops (bound _ ?_) loops)
      exact carries.covers (.refl _)

end Loop

theorem Assigned.covers {scope? : Option ScopeId} {b b' : Bindings}
    {pairs : List (String × ValueSet)} (h : Assigned ctx scope? b pairs b') : b'.Covers b := by
  induction h with
  | nil => exact .refl _
  | cons resolved others ih => exact ih.trans (Bindings.covers_assign _ _ _)

theorem lasting_compositional : Compositional True Lasting where
  done ctx := lasting_done
  expr ctx e := ⟨framed_compositional.expr ctx e, fun h => by
    rcases replayBare_eq_ok.mp h with ⟨he, -⟩ | ⟨he, -⟩ <;> exact (replayExpr_abides he).lasts⟩
  assign ctx names e := ⟨framed_compositional.assign ctx names e, fun h => by
    rcases replayAssignment_of_ok h with ⟨he, -⟩ | ⟨values, u, b, he, -, hb, rfl, -⟩
    · exact (replayExpr_abides he).lasts
    · exact (replayExpr_abides he).lasts.trans (.of_loops (fun _ => hb.covers) rfl)⟩
  letDecl ctx names value? := ⟨framed_compositional.letDecl ctx names value?, fun {s r _} h => by
    have initial : ∀ {values? u r}, InitialValues ctx names.length s value? values? u →
        Lasts r s u := by
      intro values? u r hi
      cases hi with
      | given value fits => exact (replayExpr_abides value).lasts
      | zero found => exact .refl s
    rcases replayLet_of_ok h with ⟨hi, -⟩ | ⟨values, u, b, hi, hd, rfl, -⟩
    · exact initial hi
    · exact (initial hi).trans (.of_loops (fun _ => hd.assigned.covers) rfl)⟩
  leave ctx := ⟨framed_compositional.leave ctx, fun h => by
    obtain ⟨left, rfl⟩ := functionLeft_of_ok h
    cases left with
    | mk exit count held => exact .of_loops (by simp) rfl⟩
  loopJump ctx way := ⟨framed_compositional.loopJump ctx way, fun h => by
    obtain ⟨jumped, rfl⟩ := replayLoopJump_eq_ok h
    exact jumped.lasts⟩
  cond ctx condition body hb := ⟨framed_compositional.cond ctx condition body hb.framed, fun h =>
    (ifReplayed_of_ok h).lasts hb⟩
  switch hs ctx e arms ha := ⟨framed_compositional.switch hs ctx e arms fun arm hm =>
    (ha arm hm).framed, fun h => (switchReplayed_of_ok h).lasts ha⟩
  forLoop ctx pre condition body postEmpty post hpre hb hp :=
    ⟨framed_compositional.forLoop ctx pre condition body postEmpty post hpre.framed hb.framed
      hp.framed, fun h => (forReplayed_of_ok h).lasts hpre hb hp⟩
  block ctx id body hb := ⟨framed_compositional.block ctx id body hb.framed, fun h => by
    obtain ⟨scope, u, -, hu, rfl⟩ := inBlock_eq_ok.mp h
    exact fun m hm => hb.lasts hu m hm⟩
  definition ctx d others hs hd ho := ⟨framed_compositional.definition ctx d others hs
    (fun inner => (hd inner).framed) ho.framed, fun {s _ _} h => by
    obtain ⟨_, u, hu, ht⟩ := bind_eq_ok.mp h
    obtain ⟨warnings, more, rfl, -⟩ := (definitionReplayed_of_ok hu).apart
    exact fun m hm => ho.lasts ht m hm⟩
  next ctx id rest first others hf ho := ⟨framed_compositional.next ctx id rest first others
    hf.framed ho.framed, fun h => by
    obtain ⟨falls, u, hu, ht⟩ := bind_eq_ok.mp h
    rcases ite_eq_ok.mp ht with ⟨rfl, ht⟩ | ⟨-, ht⟩
    · exact (hf.lasts hu).trans (ho.lasts ht)
    · obtain ⟨_, v, hw, hv⟩ := bind_eq_ok.mp ht
      obtain ⟨rfl, rfl⟩ := pure_eq_ok.mp hv
      intro m hm
      obtain ⟨-, edges⟩ := hf.lasts hu m hm
      cases warned_of_ok hw <;> exact ⟨by simp, edges⟩⟩

end Replay

end SsaReplay
