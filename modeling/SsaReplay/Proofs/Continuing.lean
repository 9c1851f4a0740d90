import SsaReplay.Proofs.Convergence.Loop
import SsaReplay.Proofs.Success.Match

namespace SsaReplay

namespace Replay

open SsaReplay.Graph (Branch)
open SsaReplay.Yul (Block Case Expr Literal Stmt)

-- On its way, the replay of a statement begins the replay of one directly inside it. Both
-- are in the same loop: neither the body and the post block of a loop count as inside it,
-- nor does the body of a function.
inductive StepsInto (ctx : Context) : Stmt → State → Stmt → State → Prop
  | block {id : NodeId} {earlier later : List Stmt} {inner : Stmt} {scope : ScopeId} {s u t : State}
      (opened : ctx.analysis.scopeOf? id = some scope)
      (definitions : replayDefinitions ctx (earlier ++ inner :: later)
        { s with scope? := some scope } = .ok () u)
      (before : replayOthers ctx id earlier u = .ok true t) (other : inner.isFunDef = false) :
      StepsInto ctx (.block (.mk id (earlier ++ inner :: later))) s inner t
  | cond {condition : Expr} {body : Block} {branch : Branch} {skipping : Bindings} {s v : State}
      (tested : Tested ctx condition s branch skipping v)
      (into : ctx.graph.HasEdge v.block branch.nonZero) :
      StepsInto ctx (.cond condition body) s (.block body)
        (v.follow ctx.site v.block branch.nonZero v.bindings)
  | case {e : Expr} {candidates : ValueSet} {earlier later : List Case} {value : Literal}
      {body : Block} {join : SwitchJoin} {branch : Branch} {otherwise : Bindings}
      {s u v w : State} (tests : replayOne ctx e s = .ok (some candidates) u)
      (before : CasesReplayed ctx e candidates (replayArms ctx earlier) .none u join v)
      (compared : Compared ctx e candidates value v branch.condition w)
      (exit : AtExit ctx w (.branch branch))
      (zero : Carries ctx.graph w.block branch.zero w.bindings otherwise)
      (into : ctx.graph.HasEdge w.block branch.nonZero) :
      StepsInto ctx (.switch e (earlier ++ .mk (some value) body :: later)) s (.block body)
        (((w.log ctx.site (.left w.block (.branch branch))).log ctx.site
          (.carried w.block branch.zero w.bindings otherwise)).follow ctx.site w.block
            branch.nonZero w.bindings)
  | default {e : Expr} {candidates : ValueSet} {earlier : List Case} {body : Block}
      {join : SwitchJoin} {s u v : State} (tests : replayOne ctx e s = .ok (some candidates) u)
      (before : CasesReplayed ctx e candidates (replayArms ctx earlier) .none u join v) :
      StepsInto ctx (.switch e (earlier ++ [.mk none body])) s (.block body) v
  | pre {pre post body : Block} {condition : Expr} {s : State} :
      StepsInto ctx (.forLoop pre condition post body) s (.block pre) s

-- The same for a statement at any depth.
inductive Descends (ctx : Context) : Stmt → State → Stmt → State → Prop
  | here {a : Stmt} {s : State} : Descends ctx a s a s
  | inside {a b c : Stmt} {s t u : State} (step : StepsInto ctx a s b t)
      (rest : Descends ctx b t c u) : Descends ctx a s c u

variable {ctx : Context} {s t u : State}

section StepsInto

theorem replayOthers_cons (id : NodeId) (first : Stmt) (rest : List Stmt) :
    replayOthers ctx id (first :: rest) =
      if first.isFunDef then replayOthers ctx id rest
      else thenOthers ctx id rest (replayStmt ctx first) (replayOthers ctx id rest) := by
  rw [replayOthers]
  rfl

theorem thenOthers_of_true {id : NodeId} {rest : List Stmt} {first others : Walk Bool}
    (h : first s = .ok true t) : thenOthers ctx id rest first others s = others t := by
  rw [thenOthers, bind_of_ok h, if_pos rfl]

theorem thenOthers_eq_ok {id : NodeId} {rest : List Stmt} {first others : Walk Bool} {r : Bool}
    (h : thenOthers ctx id rest first others s = .ok r t) :
    ∃ falls u, first s = .ok falls u ∧
      (falls = true ∧ others u = .ok r t ∨ falls = false ∧ r = false ∧ Warned ctx u t) := by
  simp only [thenOthers, bind_eq_ok, ite_eq_ok, pure_eq_ok] at h
  obtain ⟨falls, u, hf, ⟨rfl, h⟩ | ⟨hfalls, _, _, hw, rfl, rfl⟩⟩ := h
  · exact ⟨true, u, hf, .inl ⟨rfl, h⟩⟩
  · exact ⟨falls, u, hf, .inr ⟨by simpa using hfalls, rfl, warned_of_ok hw⟩⟩

theorem replayOthers_append {id : NodeId} {earlier : List Stmt} (others : List Stmt)
    (h : replayOthers ctx id earlier s = .ok true t) :
    replayOthers ctx id (earlier ++ others) s = replayOthers ctx id others t := by
  induction earlier generalizing s with
  | nil =>
      obtain ⟨-, rfl⟩ := pure_eq_ok.mp h
      rfl
  | cons first earlier ih =>
      rw [replayOthers_cons] at h
      rw [List.cons_append, replayOthers_cons]
      split
      · next hf =>
        rw [if_pos hf] at h
        exact ih h
      · next hf =>
        rw [if_neg hf] at h
        obtain ⟨_, u, hu, ⟨rfl, h⟩ | ⟨-, hr, -⟩⟩ := thenOthers_eq_ok h
        · exact (thenOthers_of_true hu).trans (ih h)
        · exact absurd hr (by simp)

theorem replayArms_append (earlier later : List Case) :
    replayArms ctx (earlier ++ later) = replayArms ctx earlier ++ replayArms ctx later := by
  induction earlier with
  | nil => rfl
  | cons first earlier ih =>
      cases first with
      | mk value? body => rw [List.cons_append, replayArms, replayArms, ih, List.cons_append]

theorem CasesReplayed.of_append {e : Expr} {candidates : ValueSet} {earlier later : List Arm}
    {join last : SwitchJoin} (h : CasesReplayed ctx e candidates (earlier ++ later) join s last t) :
    ∃ next u, CasesReplayed ctx e candidates earlier join s next u ∧
      CasesReplayed ctx e candidates later next u last t := by
  induction earlier generalizing join s with
  | nil => exact ⟨join, s, .nil, h⟩
  | cons arm earlier ih =>
      cases h with
      | cons first others =>
          obtain ⟨next, u, before, after⟩ := ih others
          exact ⟨next, u, .cons first before, after⟩

theorem CasesReplayed.unique {e : Expr} {candidates : ValueSet} {arms : List Arm}
    {join last last' : SwitchJoin} {t' : State}
    (h : CasesReplayed ctx e candidates arms join s last t)
    (h' : CasesReplayed ctx e candidates arms join s last' t') : last = last' ∧ t = t' := by
  induction h with
  | nil =>
      cases h'
      exact ⟨rfl, rfl⟩
  | cons first others ih =>
      cases h' with
      | cons first' others' =>
          obtain ⟨rfl, rfl⟩ := EStateM.Result.ok.inj
            ((replayCase_eq_ok.mpr first).symm.trans (replayCase_eq_ok.mpr first'))
          exact ih others'

-- A case stays where it is when the default is taken off.
theorem splitDefault_append_case (earlier later : List Arm) (value : Literal) (body : Walk Bool) :
    ∃ rest default?, splitDefault (earlier ++ (some value, body) :: later) =
      (earlier ++ (some value, body) :: rest, default?) := by
  unfold splitDefault
  split
  · next found hl =>
    refine ⟨later.dropLast, some found, ?_⟩
    rcases List.eq_nil_or_concat later with rfl | ⟨init, last, rfl⟩
    · simp at hl
    · simp [List.dropLast_append_of_ne_nil, List.dropLast_cons_of_ne_nil]
  · exact ⟨later, none, rfl⟩

theorem splitDefault_append_default (earlier : List Arm) (body : Walk Bool) :
    splitDefault (earlier ++ [(none, body)]) = (earlier, some body) := by
  simp [splitDefault]

end StepsInto

-- The replay of the statement from the state on is a part of a replay between the two
-- states. Around it, edges are only added to what is known of the loop.
def Contains (ctx : Context) (s w : State) (inner : Stmt) (t : State) : Prop :=
  ∃ r u, replayStmt ctx inner t = .ok r u ∧ LoopsExtend s.loops t.loops ∧
    LoopsExtend u.loops w.loops

section Contains

variable {w : State} {r : Bool}

-- Programs with switches are of interest here, too.
theorem frames_everywhere : Compositional True (Frames True) := framed_compositional

theorem loops_of_others {id : NodeId} {statements : List Stmt}
    (h : replayOthers ctx id statements s = .ok r t) : LoopsExtend s.loops t.loops :=
  (frames_everywhere.others ctx id statements (.inl trivial) h).loops

theorem loops_of_definitions {statements : List Stmt} {u : Unit}
    (h : replayDefinitions ctx statements s = .ok u t) : LoopsExtend s.loops t.loops := by
  have run : inTurn (replayDefinitions ctx statements) (pure true) s = .ok true t :=
    bind_eq_ok.mpr ⟨u, t, h, pure_eq_ok.mpr ⟨rfl, rfl⟩⟩
  exact (frames_everywhere.definitions ctx statements _ (.inl trivial)
    (frames_everywhere.done ctx) run).loops

theorem loops_of_cases {e : Expr} {candidates : ValueSet} {cases : List Case}
    {join : SwitchJoin} {v : State} (tests : replayOne ctx e s = .ok (some candidates) u)
    (h : CasesReplayed ctx e candidates (replayArms ctx cases) .none u join v) :
    LoopsExtend s.loops v.loops :=
  ((replayOne_stays tests).framed.trans
    (h.framed (frames_everywhere.arms ctx cases trivial)) : Framed True ctx s v).loops

theorem contains_block {id : NodeId} {earlier later : List Stmt} {inner : Stmt} {scope : ScopeId}
    (opened : ctx.analysis.scopeOf? id = some scope)
    (definitions : replayDefinitions ctx (earlier ++ inner :: later)
      { s with scope? := some scope } = .ok () u)
    (before : replayOthers ctx id earlier u = .ok true t) (other : inner.isFunDef = false)
    (run : replayStmt ctx (.block (.mk id (earlier ++ inner :: later))) s = .ok r w) :
    Contains ctx s w inner t := by
  have defined := loops_of_definitions definitions
  obtain ⟨scope', x, opened', run, rfl⟩ := inBlock_eq_ok.mp run
  obtain rfl := Option.some.inj (opened.symm.trans opened')
  obtain ⟨_, u', definitions', run⟩ := bind_eq_ok.mp run
  obtain ⟨-, rfl⟩ := EStateM.Result.ok.inj (definitions.symm.trans definitions')
  rw [replayOthers_append _ before, replayOthers_cons, if_neg (by simp [other])] at run
  obtain ⟨falls, y, first, h⟩ := thenOthers_eq_ok run
  refine ⟨falls, y, first, defined.trans (loops_of_others before), ?_⟩
  rcases h with ⟨-, rest⟩ | ⟨-, -, warned⟩
  · have kept : LoopsExtend y.loops x.loops := loops_of_others rest
    exact kept
  · exact (warned.framed : Framed True ctx _ _).loops

theorem contains_cond {condition : Expr} {body : Block} {branch : Branch} {skipping : Bindings}
    {v : State} (tested : Tested ctx condition s branch skipping v)
    (run : replayStmt ctx (.cond condition body) s = .ok r w) :
    Contains ctx s w (.block body) (v.follow ctx.site v.block branch.nonZero v.bindings) := by
  have before := (tested.stays : Stays True ctx _ _).loops
  cases ifReplayed_of_ok run with
  | stuck value =>
      cases tested with
      | mk value' => exact absurd (value.symm.trans value') (by simp)
  | joined tested' into inside =>
      obtain ⟨rfl, rfl, rfl⟩ := tested.unique tested'
      exact ⟨true, _, inside, before ▸ .refl _, .refl _⟩
  | skipped tested' into inside =>
      obtain ⟨rfl, rfl, rfl⟩ := tested.unique tested'
      exact ⟨false, _, inside, before ▸ .refl _, .refl _⟩

theorem contains_pre {pre post body : Block} {condition : Expr}
    (run : replayStmt ctx (.forLoop pre condition post body) s = .ok r w) :
    Contains ctx s w (.block pre) s := by
  obtain ⟨id, statements⟩ := pre
  obtain ⟨scope, x, opened, loop, rfl⟩ := inBlock_eq_ok.mp run
  have whole : ∀ {falls u}, inTurn (replayDefinitions ctx statements)
      (replayOthers ctx id statements) { s with scope? := some scope } = .ok falls u →
      replayStmt ctx (.block (.mk id statements)) s = .ok falls { u with scope? := s.scope? } :=
    fun inside => inBlock_eq_ok.mpr ⟨scope, _, opened, inside, rfl⟩
  cases forReplayed_of_ok loop with
  | stuck inside => exact ⟨false, _, whole inside, .refl _, .refl _⟩
  | never inside => exact ⟨true, _, whole inside, .refl _, .refl _⟩
  | loop inside exit carries edge unlessZero iterate =>
      have looped := iterate.framed (frames_everywhere.ofBlock ctx body (.inl trivial))
        (frames_everywhere.ofBlock ctx post (.inl trivial))
      exact ⟨true, _, whole inside, .refl _, looped.loops⟩

theorem ArmReplayed.ran {body : Walk Bool} {join next : SwitchJoin}
    (h : ArmReplayed ctx body join s next t) :
    ∃ falls u, body s = .ok falls u ∧ u.loops = t.loops := by
  cases h with
  | left run => exact ⟨false, t, run, rfl⟩
  | joined run exit agrees carries => exact ⟨true, _, run, rfl⟩

theorem contains_case {e : Expr} {candidates : ValueSet} {earlier later : List Case}
    {value : Literal} {body : Block} {join : SwitchJoin} {branch : Branch} {otherwise : Bindings}
    {v x : State} (tests : replayOne ctx e s = .ok (some candidates) u)
    (before : CasesReplayed ctx e candidates (replayArms ctx earlier) .none u join v)
    (compared : Compared ctx e candidates value v branch.condition x)
    (exit : AtExit ctx x (.branch branch))
    (zero : Carries ctx.graph x.block branch.zero x.bindings otherwise)
    (run : replayStmt ctx (.switch e (earlier ++ .mk (some value) body :: later)) s = .ok r w) :
    Contains ctx s w (.block body)
      (((x.log ctx.site (.left x.block (.branch branch))).log ctx.site
        (.carried x.block branch.zero x.bindings otherwise)).follow ctx.site x.block
          branch.nonZero x.bindings) := by
  have arms := frames_everywhere.arms ctx (earlier ++ .mk (some value) body :: later) trivial
  have reached : LoopsExtend s.loops x.loops :=
    (loops_of_cases tests before).trans (compared.stays.framed : Framed True ctx _ _).loops
  have run : replaySwitch ctx e (replayArms ctx (earlier ++ .mk (some value) body :: later)) s =
    .ok r w := run
  rw [replayArms_append, replayArms] at run arms
  obtain ⟨rest, default?, split⟩ := splitDefault_append_case (replayArms ctx earlier)
    (replayArms ctx later) value (replayBlock ctx body)
  obtain ⟨some_case, some_default⟩ := mem_of_splitDefault split
  cases switchReplayed_of_ok run with
  | stuck tests' => exact absurd (tests.symm.trans tests') (by simp)
  | noArms tests' split' => exact absurd (split.symm.trans split') (by simp)
  | onlyDefault tests' split' => exact absurd (split.symm.trans split') (by simp)
  | cases tests' split' _ cases fallback =>
      obtain ⟨hc, rfl⟩ := EStateM.Result.ok.inj (tests.symm.trans tests')
      obtain rfl := Option.some.inj hc
      obtain ⟨rfl, rfl⟩ := Prod.mk.inj (split.symm.trans split')
      obtain ⟨_, _, before', after⟩ := cases.of_append
      obtain ⟨rfl, rfl⟩ := before.unique before'
      have fallen := (fallback.framed fun body hb => arms _ (some_default body hb)).loops
      cases after with
      | cons first others =>
          have later := (others.framed fun arm ha =>
            arms arm (some_case arm (List.mem_append_right _ (List.mem_cons_of_mem _ ha)))).loops
          cases first with
          | mk compared' exit' zero' into arm edge =>
              obtain ⟨hcond, rfl⟩ := compared.unique compared'
              obtain rfl := Graph.Exit.branch.inj (exit.unique exit')
              obtain rfl := zero.unique zero'
              obtain ⟨falls, y, inside, loops⟩ := arm.ran
              refine ⟨falls, y, inside, reached, ?_⟩
              rw [loops]
              exact later.trans fallen

theorem contains_default {e : Expr} {candidates : ValueSet} {earlier : List Case} {body : Block}
    {join : SwitchJoin} {v : State} (tests : replayOne ctx e s = .ok (some candidates) u)
    (before : CasesReplayed ctx e candidates (replayArms ctx earlier) .none u join v)
    (run : replayStmt ctx (.switch e (earlier ++ [.mk none body])) s = .ok r w) :
    Contains ctx s w (.block body) v := by
  have reached := loops_of_cases tests before
  have run : replaySwitch ctx e (replayArms ctx (earlier ++ [.mk none body])) s = .ok r w := run
  rw [replayArms_append, replayArms, replayArms] at run
  have split := splitDefault_append_default (replayArms ctx earlier) (replayBlock ctx body)
  cases switchReplayed_of_ok run with
  | stuck tests' => exact absurd (tests.symm.trans tests') (by simp)
  | noArms tests' split' => exact absurd (split.symm.trans split') (by simp)
  | onlyDefault tests' split' inside =>
      obtain ⟨-, rfl⟩ := EStateM.Result.ok.inj (tests.symm.trans tests')
      obtain ⟨none_before, hbody⟩ := Prod.mk.inj (split.symm.trans split')
      obtain rfl := Option.some.inj hbody
      rw [none_before] at before
      cases before
      exact ⟨r, w, inside, reached, .refl _⟩
  | cases tests' split' _ cases fallback =>
      obtain ⟨hc, rfl⟩ := EStateM.Result.ok.inj (tests.symm.trans tests')
      obtain rfl := Option.some.inj hc
      obtain ⟨rfl, rfl⟩ := Prod.mk.inj (split.symm.trans split')
      obtain ⟨rfl, rfl⟩ := before.unique cases
      cases fallback with
      | default arm settled =>
          obtain ⟨falls, y, inside, loops⟩ := arm.ran
          refine ⟨falls, y, inside, reached, ?_⟩
          rw [loops]
          exact (settled.framed : Framed True ctx _ _).loops

theorem StepsInto.contains {a b : Stmt} (h : StepsInto ctx a s b t)
    (run : replayStmt ctx a s = .ok r w) : Contains ctx s w b t := by
  cases h with
  | block opened definitions before other =>
      exact contains_block opened definitions before other run
  | cond tested into => exact contains_cond tested run
  | case tests before compared exit zero into =>
      exact contains_case tests before compared exit zero run
  | default tests before => exact contains_default tests before run
  | pre => exact contains_pre run

theorem Descends.contains {a b : Stmt} (h : Descends ctx a s b t)
    (run : replayStmt ctx a s = .ok r w) : Contains ctx s w b t := by
  induction h generalizing r w with
  | here => exact ⟨r, w, run, .refl _, .refl _⟩
  | inside step rest ih =>
      obtain ⟨_, x, inside, before, after⟩ := step.contains run
      obtain ⟨r, y, innermost, first, last⟩ := ih inside
      exact ⟨r, y, innermost, before.trans first, last.trans after⟩

end Contains

-- Control leaves the block by a jump, and the bindings are carried along.
structure Jumps (ctx : Context) (s : State) (target : BlockId) (b : Bindings) : Prop where
  exit : AtExit ctx s (.jump target)
  carries : Carries ctx.graph s.block target s.bindings b

-- It is known that the innermost loop continues at the target, and that the bindings are
-- among those there.
def ContinuesAt (target : BlockId) (b : Bindings) (loops : List LoopFrame) : Prop :=
  ∃ frame outer source, loops = frame :: outer ∧
    frame.continues.first? = some (source, target) ∧ b ∈ frame.continues.bindings

theorem ContinuesAt.extends {target : BlockId} {b : Bindings} {loops loops' : List LoopFrame}
    (h : ContinuesAt target b loops) (k : LoopsExtend loops loops') :
    ContinuesAt target b loops' := by
  obtain ⟨frame, outer, source, rfl, first, member⟩ := h
  obtain ⟨later, rfl, extended⟩ := k.of_cons
  have edges := extended.edges .continues
  obtain ⟨more, bindings⟩ := edges.bindings
  exact ⟨later, outer, source, rfl, edges.first _ first,
    (bindings ▸ List.mem_append_left more member : b ∈ (later.edges .continues).bindings)⟩

theorem LoopJumped.continuesAt (h : LoopJumped ctx .continues s t) :
    ∃ target b, Jumps ctx s target b ∧ ContinuesAt target b t.loops := by
  cases h with
  | @mk target b _ exit carries recorded =>
      cases recorded with
      | @mk frame outer opened edge agrees =>
          have member := @LoopFrame.mem_bindings_note frame .continues s.block target b
          exact ⟨target, b, ⟨exit, carries⟩, _, outer, _, rfl,
            LoopFrame.first?_note_of_agrees agrees, member⟩

-- A jump goes where the earlier ones go.
theorem LoopJumped.jumps {frame : LoopFrame} {outer : List LoopFrame} {source target : BlockId}
    (h : LoopJumped ctx .continues s t) (opened : s.loops = frame :: outer)
    (first : frame.continues.first? = some (source, target)) : ∃ b, Jumps ctx s target b := by
  cases h with
  | @mk target' b _ exit carries recorded =>
      cases recorded with
      | mk opened' edge agrees =>
          obtain ⟨rfl, -⟩ := List.cons.inj (opened.symm.trans opened')
          have found : (frame.edges .continues).first? = some (source, target) := first
          rw [found] at agrees
          obtain rfl : target = target' := agrees
          exact ⟨b, exit, carries⟩

-- A pass in which the condition holds comes to where the loop continues: at a statement of
-- the body that says so, or at the end of the body.
inductive Continues (ctx : Context) (condition? : Option Expr) (body : Block) (s : State) :
    State → Prop
  | jump {u v : State} (condition : replayLoopCondition ctx condition? s = .ok true u)
      (descends : Descends ctx (.block body) u .continueLoop v) :
      Continues ctx condition? body s v
  | fallen {u v : State} (condition : replayLoopCondition ctx condition? s = .ok true u)
      (run : replayBlock ctx body u = .ok true v) : Continues ctx condition? body s v

-- A pass up to the end of the body.
def replayToEnd (ctx : Context) (condition? : Option Expr) (body : Block) : Walk Bool := do
  if ← replayLoopCondition ctx condition? then replayBlock ctx body else pure false

theorem continues_of_replayToEnd {condition? : Option Expr} {body : Block}
    (h : replayToEnd ctx condition? body s = .ok true t) : Continues ctx condition? body s t := by
  obtain ⟨tests, u, condition, run⟩ := bind_eq_ok.mp h
  obtain ⟨rfl, run⟩ | ⟨-, run⟩ := ite_eq_ok.mp run
  · exact .fallen condition run
  · exact absurd (pure_eq_ok.mp run).1 Bool.false_ne_true

-- In a pass from the one state on, the other is the one in which the post block is replayed,
-- whatever that is.
def EntersPost (ctx : Context) (header : BlockId) (parts : LoopParts) (s p : State) : Prop :=
  ∀ post, replayPass ctx header { parts with post } s = replayPost ctx header post p

-- A pass with a post block that control does not get through ends where that is replayed.
theorem EntersPost.stopped {header : BlockId} {parts : LoopParts} {p : State}
    (h : EntersPost ctx header parts s p) :
    replayPass ctx header { parts with post := pure false } s = .ok () p :=
  h (pure false)

-- In a pass from the first state to the second, the third is the one in which it is looked
-- at where the body continues.
structure Gathers (ctx : Context) (header : BlockId) (parts : LoopParts) (s t u : State) :
    Prop where
  goesOn : ∀ post, replayPass ctx header { parts with post } s =
    replayContinues ctx header parts.postEmpty post u
  run : replayContinues ctx header parts.postEmpty parts.post u = .ok () t

section Pass

variable {header : BlockId} {parts : LoopParts}

theorem gathers_of_ok (condition : replayLoopCondition ctx parts.condition? s = .ok true u)
    (h : replayPass ctx header parts s = .ok () t) :
    ∃ falls v w, parts.body u = .ok falls v ∧ Gathers ctx header parts s t w ∧
      (falls = true ∧ LoopJumped ctx .continues v w ∨ falls = false ∧ v = w) := by
  have pass : ∀ post, replayPass ctx header { parts with post } s = (do
      if ← parts.body then jumpInLoop ctx .continues
      replayContinues ctx header parts.postEmpty post) u := fun post => by
    rw [replayPass, bind_of_ok condition, if_pos rfl]
  have run := (pass parts.post).symm.trans h
  obtain ⟨falls, v, body, run⟩ := bind_eq_ok.mp run
  cases falls with
  | true =>
      obtain ⟨_, w, jump, run⟩ := bind_eq_ok.mp run
      refine ⟨true, v, w, body, ⟨fun post => ?_, run⟩, .inl ⟨rfl, loopJumped_of_ok jump⟩⟩
      rw [pass, bind_of_ok body]
      exact bind_of_ok jump
  | false =>
      refine ⟨false, v, v, body, ⟨fun post => ?_, run⟩, .inr ⟨rfl, rfl⟩⟩
      rw [pass, bind_of_ok body]
      rfl

theorem replayContinues_of_post {postEmpty : Bool} {frame : LoopFrame} {outer : List LoopFrame}
    {source target : BlockId} {merged : Bindings} (opened : s.loops = frame :: outer)
    (found : frame.continues.first? = some (source, target)) (elsewhere : target ≠ header)
    (meets : Bindings.meet frame.continues.bindings = .ok merged)
    (owned : PhisOwned ctx target merged) (edge : ctx.graph.HasEdge source target)
    (post : Walk Bool) :
    replayContinues ctx header postEmpty post s = replayPost ctx header post
      (({ s with loops := { frame with continues := ⟨some (source, target), []⟩ } :: outer }.log
        ctx.site (.merged target merged)).follow ctx.site source target merged) := by
  rw [replayContinues, bind_of_ok (innermost_eq_ok.mpr ⟨⟨outer, opened⟩, rfl⟩)]
  simp only [found, if_neg elsewhere]
  rw [bind_of_ok ((setInnermost_eq_ok (u := ())).mpr ⟨frame, outer, opened, rfl⟩),
    bind_of_ok (merge_eq_ok.mpr ⟨meets, rfl⟩),
    bind_of_ok ((checkPhiOwnership_eq_ok (u := ())).mpr ⟨owned, rfl⟩),
    bind_of_ok ((advance_eq_ok (u := ())).mpr ⟨edge, rfl⟩)]

-- The edges to where the loop continues are taken up by the pass: as ways back to the
-- header, or by the bindings with which the post block is replayed.
theorem Gathers.takes {frame : LoopFrame} {outer : List LoopFrame} {target : BlockId}
    {b : Bindings} (h : Gathers ctx header parts s t u) (known : ContinuesAt target b u.loops)
    (opened : t.loops = frame :: outer) :
    target = header ∧ parts.postEmpty = true ∧ b ∈ frame.backEdges ∨
      target ≠ header ∧ ∃ p, EntersPost ctx header parts s p ∧ p.block = target ∧ p.op = 0 ∧
        p.bindings.Refines b := by
  obtain ⟨gathered, around, source, hl, first, member⟩ := known
  cases continuesReplayed_of_ok h.run with
  | nowhere opened' noEdge =>
      obtain ⟨rfl, -⟩ := List.cons.inj (hl.symm.trans opened')
      exact absurd (first.symm.trans noEdge) (by simp)
  | direct opened' found empty =>
      obtain ⟨rfl, -⟩ := List.cons.inj (hl.symm.trans opened')
      obtain ⟨-, rfl⟩ := Prod.mk.inj (Option.some.inj (first.symm.trans found))
      obtain ⟨rfl, -⟩ := List.cons.inj opened
      exact .inl ⟨rfl, empty, member⟩
  | post opened' found elsewhere meets owned edge run =>
      obtain ⟨rfl, -⟩ := List.cons.inj (hl.symm.trans opened')
      obtain ⟨-, rfl⟩ := Prod.mk.inj (Option.some.inj (first.symm.trans found))
      refine .inr ⟨elsewhere, _, fun post => (h.goesOn post).trans
        (replayContinues_of_post opened' found elsewhere meets owned edge post), rfl, rfl,
        Bindings.refines_of_meet meets member⟩

variable {condition? : Option Expr} {body post : Block} {postEmpty : Bool}

theorem continuesAt_of_continues {v : State}
    (h : replayPass ctx header (.ofBlocks ctx condition? body postEmpty post) s = .ok () t)
    (continues : Continues ctx condition? body s v) :
    ∃ w target b, Gathers ctx header (.ofBlocks ctx condition? body postEmpty post) s t w ∧
      Jumps ctx v target b ∧ ContinuesAt target b w.loops := by
  cases continues with
  | jump condition descends =>
      obtain ⟨falls, x, w, run, gathers, leaves⟩ := gathers_of_ok condition h
      obtain ⟨r, y, jump, -, after⟩ := descends.contains run
      obtain ⟨target, b, jumps, known⟩ := (replayLoopJump_eq_ok jump).1.continuesAt
      refine ⟨w, target, b, gathers, jumps, (known.extends after).extends ?_⟩
      rcases leaves with ⟨-, jump⟩ | ⟨-, rfl⟩
      · exact (jump.framed : Framed True ctx _ _).loops
      · exact .refl _
  | fallen condition run =>
      obtain ⟨falls, x, w, run', gathers, leaves⟩ := gathers_of_ok condition h
      obtain ⟨rfl, rfl⟩ := EStateM.Result.ok.inj (run.symm.trans run')
      rcases leaves with ⟨-, jump⟩ | ⟨hf, -⟩
      · obtain ⟨target, b, jumps, known⟩ := jump.continuesAt
        exact ⟨w, target, b, gathers, jumps, known⟩
      · exact absurd hf (by simp)

-- The post block is entered along an edge on which the loop continues.
structure Entered (parts : LoopParts) (p : State) : Prop where
  run : ∃ falls t, parts.post p = .ok falls t
  first : ∃ frame outer source, p.loops = frame :: outer ∧
    frame.continues.first? = some (source, p.block)

-- There is only one state in which the post block is replayed.
theorem EntersPost.entered {parts : LoopParts} {p : State}
    (h : EntersPost ctx header parts s p) (run : replayPass ctx header parts s = .ok () t) :
    Entered parts p := by
  -- A post block that gives up at once tells where it is replayed.
  let stop : Walk Bool := fun q => .error .noOpenLoop q
  have told : replayPass ctx header { parts with post := stop } s = .error .noOpenLoop p := h stop
  obtain ⟨tests, u, condition, rest⟩ := bind_eq_ok.mp run
  cases tests with
  | false =>
      rw [replayPass, bind_of_ok condition, if_neg Bool.false_ne_true] at told
      cases told
  | true =>
      obtain ⟨-, -, w, -, gathers, -⟩ := gathers_of_ok condition run
      rw [gathers.goesOn] at told
      cases continuesReplayed_of_ok gathers.run with
      | nowhere opened noEdge =>
          rw [replayContinues, bind_of_ok (innermost_eq_ok.mpr ⟨⟨_, opened⟩, rfl⟩)] at told
          simp only [noEdge] at told
          cases told
      | direct opened found empty =>
          rw [replayContinues, bind_of_ok (innermost_eq_ok.mpr ⟨⟨_, opened⟩, rfl⟩)] at told
          simp only [found, if_pos, empty] at told
          rw [(setInnermost_eq_ok (u := ())).mpr ⟨_, _, opened, rfl⟩] at told
          cases told
      | post opened found elsewhere meets owned edge run =>
          rw [replayContinues_of_post opened found elsewhere meets owned edge] at told
          obtain rfl : _ = p := (EStateM.Result.error.inj told).2
          refine ⟨?_, _, _, _, rfl, rfl⟩
          cases run with
          | stopped ran => exact ⟨false, _, ran⟩
          | latched ran => exact ⟨true, _, ran⟩

end Pass

-- The pass after which a loop is left begins in the state, with the mapping at the header:
-- the ways back to the header bear it out.
inductive FinalPass (ctx : Context) (parts : LoopParts) (s : State) (mapping : Bindings) :
    State → Prop
  | mk {i : Nat} {frame : LoopFrame} {u v : State}
      (reached : Reaches ctx s.block s.warnings.length parts 0 s.bindings s i mapping u)
      (run : passOver ctx s.block s.warnings.length parts i mapping u = .ok frame v)
      (stable : Bindings.meet (mapping :: frame.backEdges) = .ok mapping) :
      FinalPass ctx parts s mapping
        (u.beginPass ctx.site s.block s.warnings.length i mapping)

section Final

variable {header : BlockId} {parts : LoopParts} {warnings : Nat}

theorem reaches_of_iterate {remaining i : Nat} {m : Bindings} {r : Bool}
    (h : iterate ctx header warnings parts remaining i m s = .ok r t) :
    ∃ j mapping u frame v, Reaches ctx header warnings parts i m s j mapping u ∧
      passOver ctx header warnings parts j mapping u = .ok frame v ∧
        Bindings.meet (mapping :: frame.backEdges) = .ok mapping := by
  induction remaining generalizing i m s with
  | zero => exact absurd h reject_ne_ok
  | succ remaining ih =>
      obtain ⟨frame, u, refined, run, meets, h⟩ := iterate_succ_eq_ok.mp h
      rcases h with ⟨rfl, -⟩ | ⟨unstable, h⟩
      · exact ⟨i, refined, s, frame, u, .here, run, meets⟩
      · obtain ⟨j, mapping, w, found, x, reached, last, stable⟩ := ih h
        exact ⟨j, mapping, w, found, x, .pass run meets unstable reached, last, stable⟩

theorem finalPass_of_ok {r : Bool} (h : replayLoop ctx parts s = .ok r t) :
    ∃ mapping before, FinalPass ctx parts s mapping before := by
  obtain ⟨j, mapping, u, frame, v, reached, run, stable⟩ := reaches_of_iterate h
  exact ⟨mapping, _, .mk reached run stable⟩

theorem pass_of_passOver {iteration : Nat} {entry : Bindings} {frame : LoopFrame}
    (h : passOver ctx header warnings parts iteration entry s = .ok frame t) :
    ∃ u outer, replayPass ctx header parts
      (s.beginPass ctx.site header warnings iteration entry) = .ok () u ∧
        u.loops = frame :: outer := by
  simp only [passOver, rewind, bind_eq_ok, modify_eq_ok, record_eq_ok, withLoop_eq_ok] at h
  obtain ⟨_, _, rfl, _, _, rfl, u, outer, pass, hl, -⟩ := h
  exact ⟨u, outer, pass, hl⟩

theorem FinalPass.pass {mapping : Bindings} {before : State}
    (h : FinalPass ctx parts s mapping before) :
    ∃ t frame outer, replayPass ctx s.block parts before = .ok () t ∧ t.loops = frame :: outer ∧
      Bindings.meet (mapping :: frame.backEdges) = .ok mapping := by
  cases h with
  | mk reached run stable =>
      obtain ⟨t, outer, pass, opened⟩ := pass_of_passOver run
      exact ⟨t, _, outer, pass, opened, stable⟩

variable {condition? : Option Expr} {body post : Block} {postEmpty : Bool} {mapping : Bindings}
  {before : State}

theorem FinalPass.accounts
    (h : FinalPass ctx (.ofBlocks ctx condition? body postEmpty post) s mapping before) {v : State}
    (continues : Continues ctx condition? body before v) :
    ∃ target b, Jumps ctx v target b ∧
      (target = s.block ∧ postEmpty = true ∧ mapping.Refines b ∨
        target ≠ s.block ∧ ∃ p,
          EntersPost ctx s.block (.ofBlocks ctx condition? body postEmpty post) before p ∧
            p.block = target ∧ p.op = 0 ∧ p.bindings.Refines b) := by
  obtain ⟨t, frame, outer, pass, opened, stable⟩ := h.pass
  obtain ⟨w, target, b, gathers, jumps, known⟩ := continuesAt_of_continues pass continues
  refine ⟨target, b, jumps, ?_⟩
  rcases gathers.takes known opened with ⟨rfl, empty, member⟩ | elsewhere
  · exact .inl ⟨rfl, empty, Bindings.refines_of_meet stable (List.mem_cons_of_mem _ member)⟩
  · exact .inr elsewhere

theorem FinalPass.latches
    (h : FinalPass ctx (.ofBlocks ctx condition? body postEmpty post) s mapping before)
    {p v : State}
    (enters : EntersPost ctx s.block (.ofBlocks ctx condition? body postEmpty post) before p)
    (descends : Descends ctx (.block post) p .continueLoop v) : ∃ b, Jumps ctx v p.block b := by
  obtain ⟨t, frame, outer, pass, -, -⟩ := h.pass
  obtain ⟨⟨falls, y, run⟩, frame, around, source, hl, first⟩ := enters.entered pass
  obtain ⟨r, z, jump, reached, -⟩ := descends.contains run
  obtain ⟨later, hv, extended⟩ := (hl ▸ reached).of_cons
  exact (replayLoopJump_eq_ok jump).1.jumps hv ((extended.edges .continues).first _ first)

end Final

-- Where a loop is accepted, its last pass accounts for every way on which the body
-- continues: the bindings with which the post block is replayed, or those at the header if
-- there is none, say no more than is carried along that way. A way on which the post block
-- itself continues leads to its start, too, but that is all that is asked of it.
theorem continues_accounted {condition? : Option Expr} {body post : Block} {postEmpty r : Bool}
    (h : replayLoop ctx (.ofBlocks ctx condition? body postEmpty post) s = .ok r t) :
    (∃ mapping before, FinalPass ctx (.ofBlocks ctx condition? body postEmpty post) s mapping
      before) ∧
    ∀ mapping before, FinalPass ctx (.ofBlocks ctx condition? body postEmpty post) s mapping
        before →
      (∀ v, Continues ctx condition? body before v → ∃ target b, Jumps ctx v target b ∧
        (target = s.block ∧ postEmpty = true ∧ mapping.Refines b ∨
          target ≠ s.block ∧ ∃ p,
            EntersPost ctx s.block (.ofBlocks ctx condition? body postEmpty post) before p ∧
              p.block = target ∧ p.op = 0 ∧ p.bindings.Refines b)) ∧
      ∀ p v, EntersPost ctx s.block (.ofBlocks ctx condition? body postEmpty post) before p →
        Descends ctx (.block post) p .continueLoop v → ∃ b, Jumps ctx v p.block b := by
  exact ⟨finalPass_of_ok h, fun mapping before pass =>
    ⟨fun v => pass.accounts, fun p v => pass.latches⟩⟩

end Replay

-- A loop whose post block continues under another binding than it began with.
namespace Latching

open SsaReplay.Graph (Cfg)
open SsaReplay.Replay
open SsaReplay.Yul (Block Stmt)

def value : Yul.Expr := .call "calldatasize" []

def draft : List Yul.Draft :=
  [.letDecl ["x"] (some (.literal (.number 0))),
    .forLoop [] value [.expr (.call "sstore" [.literal (.number 0), .ident "x"]),
      .assign ["x"] (.literal (.number 1)), .continueLoop] []]

def program : Block × Yul.Analysis := Yul.laidOut draft

-- Irreducible, since to see what statement it is takes a run of the layout.
@[irreducible]
def loop : Stmt := program.1.statements.getLastD .leave

def loopBody : Block := loop.body

def loopPost : Block := loop.post

def isContinue : Stmt → Bool
  | .continueLoop => true
  | _ => false

theorem eq_of_isContinue {s : Stmt} (h : isContinue s = true) : s = .continueLoop := by
  cases s with
  | continueLoop => rfl
  | _ => exact absurd h Bool.false_ne_true

-- The post block up to its `continue`.
def stores : List Stmt := loopPost.statements.dropLast

theorem loopPost_eq : loopPost = .mk loopPost.id (stores ++ [.continueLoop]) := by
  have last : loopPost.statements.getLast?.any isContinue = true := by decide +kernel
  obtain ⟨statement, found, hc⟩ := (Option.any_eq_true _ _).mp last
  rw [eq_of_isContinue hc] at found
  rw [stores, List.dropLast_append_getLast? _ found]
  cases loopPost with
  | mk id statements => rfl

def graph : Cfg :=
  Cfg.ofSteps none [.literal 0, .literal 1, .block, .block, .block, .block, .exit (.jump ⟨1⟩),
    .moveTo ⟨1⟩, .operation (.builtin ⟨23⟩) [] 1, .exit (.branch ⟨⟨2⟩, ⟨2⟩, ⟨4⟩⟩), .moveTo ⟨2⟩,
    .exit (.jump ⟨3⟩), .moveTo ⟨3⟩, .operation (.builtin ⟨29⟩) [⟨0⟩, ⟨0⟩] 0, .exit (.jump ⟨3⟩),
    .moveTo ⟨4⟩, .exit .mainExit]

def subject : Subject := ⟨program.1, program.2, .evm, ⟨graph, []⟩⟩

def context : Context := subject.context .default

def parts : LoopParts := .ofBlocks context (some value) loopBody false loopPost

-- The loop is entered, and the variable is zero.
def atHeader : State :=
  { State.start graph with
    scope? := program.2.scopeOf? ⟨1⟩, block := ⟨1⟩
    bindings := Bindings.empty.assign ⟨0⟩ (.single ⟨0⟩) }

theorem accepted : judge subject .default = .accepted := by decide +kernel

theorem loop_accepted : ∃ t, replayLoop context parts atHeader = .ok true t :=
  exists_ok_of_isSome_after? (by decide +kernel)

-- The first pass is the last one.
theorem passed_once : FinalPass context parts atHeader atHeader.bindings
    (atHeader.beginPass context.site ⟨1⟩ 0 0 atHeader.bindings) := by
  have stable : (match passOver context ⟨1⟩ 0 parts 0 atHeader.bindings atHeader with
      | .ok frame _ => (Bindings.meet (atHeader.bindings :: frame.backEdges)).toOption.any
          (fun merged => merged = atHeader.bindings)
      | .error _ _ => false) = true := by decide +kernel
  cases hpass : passOver context ⟨1⟩ 0 parts 0 atHeader.bindings atHeader with
  | error h u => simp [hpass] at stable
  | ok frame u =>
      simp only [hpass] at stable
      obtain ⟨merged, hm, same⟩ := (Option.any_eq_true _ _).mp stable
      refine FinalPass.mk (s := atHeader) .here hpass ?_
      cases hmeet : Bindings.meet (atHeader.bindings :: frame.backEdges) with
      | error conflict =>
          rw [hmeet] at hm
          exact nomatch hm
      | ok found =>
          rw [hmeet] at hm
          exact congrArg Except.ok ((Option.some.inj hm).trans (of_decide_eq_true same))

-- Its body does nothing, and control falls through it.
theorem body_fallen : ∃ v, Continues context (some value) loopBody
    (atHeader.beginPass context.site ⟨1⟩ 0 0 atHeader.bindings) v := by
  obtain ⟨v, fallen⟩ : ∃ v, replayToEnd context (some value) loopBody
      (atHeader.beginPass context.site ⟨1⟩ 0 0 atHeader.bindings) = .ok true v :=
    exists_ok_of_isSome_after? (by decide +kernel)
  exact ⟨v, continues_of_replayToEnd fallen⟩

-- The pass up to its post block, and then on to where that continues.
def latch (act : Walk Unit) : Walk (State × State × BlockId × Bindings) := do
  act
  let p ← get
  modify fun s => { s with scope? := context.analysis.scopeOf? loopPost.id }
  replayDefinitions context (stores ++ [.continueLoop])
  if ← replayOthers context loopPost.id stores then
    let v ← get
    let target ← leaveByJump context
    let b ← carry context v.block target
    pure (p, v, target, b)
  else
    throw .noOpenLoop

theorem latch_eq_ok {act : Walk Unit} {p v : State} {target : BlockId} {b : Bindings}
    {scope : ScopeId} (opened : context.analysis.scopeOf? loopPost.id = some scope) {s t : State}
    (h : latch act s = .ok (p, v, target, b) t) :
    act s = .ok () p ∧ Descends context (.block loopPost) p .continueLoop v ∧
      Jumps context v target b := by
  simp only [latch, bind_eq_ok, get_eq_ok, modify_eq_ok, ite_eq_ok, leaveByJump_eq_ok, carry_eq_ok,
    pure_eq_ok, throw_ne_ok, and_false, or_false] at h
  obtain ⟨_, _, ha, _, _, ⟨rfl, rfl⟩, _, _, rfl, _, u, definitions, falls, _, before, rfl, _, _,
    ⟨rfl, rfl⟩, target', _, ⟨exit, rfl⟩, b', _, ⟨carries, rfl⟩, h, -⟩ := h
  obtain ⟨rfl, rfl, rfl, rfl⟩ : _ = p ∧ _ = v ∧ target' = target ∧ b' = b := by
    simpa using h
  rw [opened] at definitions
  rw [loopPost_eq]
  exact ⟨ha, .inside (.block opened definitions before rfl) .here, exit, carries⟩

-- The post block begins with zero, and one is carried back to its start.
theorem latch_unchecked :
    judge subject .default = .accepted ∧
      (∃ t, replayLoop context parts atHeader = .ok true t) ∧
        ∃ mapping before p v b, FinalPass context parts atHeader mapping before ∧
          EntersPost context ⟨1⟩ parts before p ∧
            Descends context (.block loopPost) p .continueLoop v ∧
              Jumps context v p.block b ∧ ¬p.bindings.Refines b := by
  obtain ⟨fallen, continues⟩ := body_fallen
  obtain ⟨_, _, -, ⟨-, empty, -⟩ | ⟨-, p, enters, -⟩⟩ := passed_once.accounts continues
  · exact absurd empty Bool.false_ne_true
  have latched : (match latch (replayPass context ⟨1⟩ { parts with post := pure false })
      (atHeader.beginPass context.site ⟨1⟩ 0 0 atHeader.bindings) with
    | .ok (p, _, target, b) _ => target = p.block ∧ p.bindings.lookup ⟨0⟩ = some (.single ⟨0⟩) ∧
        b.lookup ⟨0⟩ = some (.single ⟨1⟩)
    | .error _ _ => false) = true := by decide +kernel
  cases hl : latch (replayPass context ⟨1⟩ { parts with post := pure false })
      (atHeader.beginPass context.site ⟨1⟩ 0 0 atHeader.bindings) with
  | error h t => simp [hl] at latched
  | ok found t =>
      obtain ⟨q, v, target, b⟩ := found
      simp only [hl] at latched
      obtain ⟨rfl, hq, hb⟩ := of_decide_eq_true latched
      have opened : context.analysis.scopeOf? loopPost.id = some ⟨2⟩ := by decide +kernel
      obtain ⟨reached, descends, jumps⟩ := latch_eq_ok opened hl
      obtain ⟨-, rfl⟩ := EStateM.Result.ok.inj (enters.stopped.symm.trans reached)
      refine ⟨accepted, loop_accepted, _, _, p, v, b, passed_once, enters, descends, jumps, ?_⟩
      intro refines
      obtain ⟨wider, hw, narrow⟩ := refines ⟨0⟩ _ hq
      obtain rfl := Option.some.inj (hw.symm.trans hb)
      exact absurd (narrow ⟨0⟩ ((ValueSet.mem_single _ _).mpr rfl)) (by decide)

theorem continues_accounted_here :
    (∃ t, replayLoop context parts atHeader = .ok true t) ∧
      ∃ mapping before v, FinalPass context parts atHeader mapping before ∧
        Continues context (some value) loopBody before v ∧ ∃ b p, Jumps context v p.block b ∧
          EntersPost context ⟨1⟩ parts before p ∧ p.bindings.Refines b := by
  obtain ⟨t, h⟩ := loop_accepted
  obtain ⟨v, continues⟩ := body_fallen
  obtain ⟨_, b, jumps, ⟨-, empty, -⟩ | ⟨-, p, enters, rfl, -, refines⟩⟩ :=
    ((continues_accounted h).2 _ _ passed_once).1 v continues
  · exact absurd empty Bool.false_ne_true
  · exact ⟨⟨t, h⟩, _, _, v, passed_once, continues, b, p, jumps, enters, refines⟩

end Latching

end SsaReplay
