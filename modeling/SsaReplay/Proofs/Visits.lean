import SsaReplay.Proofs.Acceptance

namespace SsaReplay.Replay

open SsaReplay.Graph (BasicBlock Branch Exit)
open SsaReplay.Yul (Expr Literal)

-- A step that does not concern the position.
def Event.Aside : Event → Prop
  | .carried .. | .merged .. | .loopEdge .. | .found .. => True
  | _ => False

-- A visit of a block goes on during steps of definitions inside and steps aside.
def Entry.Between (e : Entry) (site : Site) : Prop :=
  site.depth < e.site.depth ∨ e.site = site ∧ e.event.Aside

-- What follows after a block was entered, the oldest first, while that many of its
-- operations are consumed, one after the other. A loop's header may be entered once
-- more before the first.
inductive Through (site : Site) (b : BlockId) : List Entry → Nat → Prop
  | start : Through site b [] 0
  | again {during : List Entry} {iteration : Nat} {bindings : Bindings}
      (before : Through site b during 0) :
      Through site b (during ++ [⟨site, .loopPass b iteration bindings⟩]) 0
  | consumed {during : List Entry} {k : Nat} {data : BasicBlock} {op : Graph.Operation}
      {bindings : Bindings} (before : Through site b during k)
      (block : site.graph.block? b = some data) (atOp : data.operations[k]? = some op) :
      Through site b (during ++ [⟨site, .consumed b k op bindings⟩]) (k + 1)
  | between {during : List Entry} {k : Nat} {e : Entry} (before : Through site b during k)
      (apart : e.Between site) : Through site b (during ++ [e]) k

-- After the block was entered, all of its operations are consumed and then its exit is
-- required to be of the kind that the source asks for.
def VisitedFrom (site : Site) (b : BlockId) (after : List Entry) : Prop :=
  ∃ data during rest, site.graph.block? b = some data ∧
    after = during ++ ⟨site, .left b data.exit⟩ :: rest ∧
      Through site b during data.operations.length

-- How far the replay of a graph has got, by its steps so far: a block is being visited
-- and that many of its operations are consumed, or the last visit is over. After a
-- visit its exit may be asked for again.
inductive Tracked (site : Site) : List Entry → Option (BlockId × Nat) → Prop
  | entered (d? : Option Yul.Definition) :
      Tracked site [⟨site, .entered d?⟩] (some (site.graph.entry, 0))
  | advanced {steps : List Entry} {source b : BlockId} {bindings : Bindings}
      (before : Tracked site steps none) :
      Tracked site (steps ++ [⟨site, .advanced source b bindings⟩]) (some (b, 0))
  | pass {steps : List Entry} {at? : Option (BlockId × Nat)} {b : BlockId} {iteration : Nat}
      {bindings : Bindings} (before : Tracked site steps at?)
      (ready : at? = none ∨ at? = some (b, 0)) :
      Tracked site (steps ++ [⟨site, .loopPass b iteration bindings⟩]) (some (b, 0))
  | consumed {steps : List Entry} {b : BlockId} {k : Nat} {data : BasicBlock}
      {op : Graph.Operation} {bindings : Bindings} (before : Tracked site steps (some (b, k)))
      (block : site.graph.block? b = some data) (atOp : data.operations[k]? = some op) :
      Tracked site (steps ++ [⟨site, .consumed b k op bindings⟩]) (some (b, k + 1))
  | left {steps : List Entry} {b : BlockId} {k : Nat} {data : BasicBlock}
      (before : Tracked site steps (some (b, k))) (block : site.graph.block? b = some data)
      (used : data.operations.length ≤ k) :
      Tracked site (steps ++ [⟨site, .left b data.exit⟩]) none
  | leftAgain {steps : List Entry} {b : BlockId} {exit : Exit}
      (before : Tracked site steps none) : Tracked site (steps ++ [⟨site, .left b exit⟩]) none
  | between {steps : List Entry} {at? : Option (BlockId × Nat)} {e : Entry}
      (before : Tracked site steps at?) (apart : e.Between site) :
      Tracked site (steps ++ [e]) at?

variable {site : Site} {b : BlockId}

theorem Through.le_length {during : List Entry} {k : Nat} {data : BasicBlock}
    (h : Through site b during k) (hd : site.graph.block? b = some data) :
    k ≤ data.operations.length := by
  induction h with
  | start => exact Nat.zero_le _
  | again before ih => exact ih
  | consumed before block atOp ih =>
      obtain rfl := Option.some.inj (block.symm.trans hd)
      exact (List.getElem?_eq_some_iff.mp atOp).1
  | between before apart ih => exact ih

theorem VisitedFrom.append {after : List Entry} (h : VisitedFrom site b after)
    (more : List Entry) : VisitedFrom site b (after ++ more) := by
  obtain ⟨data, during, rest, hd, rfl, ht⟩ := h
  exact ⟨data, during, rest ++ more, hd, by simp, ht⟩

theorem Entry.Between.not_enters {e : Entry} (h : e.Between site) : ¬e.Enters site b := by
  rintro ⟨rfl, he⟩
  rcases h with h | ⟨-, h⟩
  · exact absurd h (Nat.lt_irrefl _)
  · cases hv : e.event <;> simp [hv, Event.Aside] at h he

-- The last step is either the one looked at, or comes after it.
theorem append_singleton_eq {steps before after : List Entry} {x e : Entry}
    (h : steps ++ [x] = before ++ e :: after) :
    (e = x ∧ after = []) ∨ ∃ rest, after = rest ++ [x] ∧ steps = before ++ e :: rest := by
  rcases List.eq_nil_or_concat after with rfl | ⟨rest, y, rfl⟩
  · obtain ⟨-, hx⟩ := List.append_inj' h rfl
    exact .inl ⟨(List.cons.inj hx).1.symm, rfl⟩
  · have h' : steps ++ [x] = (before ++ e :: rest) ++ [y] := by simpa using h
    obtain ⟨hs, hy⟩ := List.append_inj' h' rfl
    obtain rfl := (List.cons.inj hy).1
    exact .inr ⟨rest, by simp, hs⟩

-- A block that was entered is being visited, or has been visited to its end.
theorem Tracked.visited {steps : List Entry} {at? : Option (BlockId × Nat)}
    (h : Tracked site steps at?) {before after : List Entry} {e : Entry}
    (hs : steps = before ++ e :: after) (he : e.Enters site b) :
    VisitedFrom site b after ∨ ∃ k, at? = some (b, k) ∧ Through site b after k := by
  induction h generalizing after with
  | entered d? =>
      obtain ⟨rfl, rfl⟩ | ⟨rest, -, hr⟩ := @append_singleton_eq [] _ _ _ _ hs
      · obtain rfl : site.graph.entry = b := he.2
        exact .inr ⟨0, rfl, .start⟩
      · simp at hr
  | advanced hb ih =>
      obtain ⟨rfl, rfl⟩ | ⟨rest, rfl, hr⟩ := append_singleton_eq hs
      · obtain rfl := he.2
        exact .inr ⟨0, rfl, .start⟩
      · rcases ih hr with hv | ⟨k, hk, -⟩
        · exact .inl (hv.append _)
        · exact absurd hk (by simp)
  | @pass steps at? header iteration bindings hb ready ih =>
      obtain ⟨rfl, rfl⟩ | ⟨rest, rfl, hr⟩ := append_singleton_eq hs
      · obtain rfl := he.2
        exact .inr ⟨0, rfl, .start⟩
      · rcases ih hr with hv | ⟨k, hk, ht⟩
        · exact .inl (hv.append _)
        · rcases ready with hn | hn
          · exact absurd (hn.symm.trans hk) (by simp)
          · obtain ⟨rfl, rfl⟩ : header = b ∧ 0 = k := by simpa using hn.symm.trans hk
            exact .inr ⟨0, rfl, ht.again⟩
  | @consumed steps c k data op bindings hb block atOp ih =>
      obtain ⟨rfl, rfl⟩ | ⟨rest, rfl, hr⟩ := append_singleton_eq hs
      · exact absurd he.2 id
      · rcases ih hr with hv | ⟨j, hj, ht⟩
        · exact .inl (hv.append _)
        · obtain ⟨rfl, rfl⟩ : c = b ∧ k = j := by simpa using hj
          exact .inr ⟨k + 1, rfl, ht.consumed block atOp⟩
  | @left steps c k data hb block used ih =>
      obtain ⟨rfl, rfl⟩ | ⟨rest, rfl, hr⟩ := append_singleton_eq hs
      · exact absurd he.2 id
      · rcases ih hr with hv | ⟨j, hj, ht⟩
        · exact .inl (hv.append _)
        · obtain ⟨rfl, rfl⟩ : c = b ∧ k = j := by simpa using hj
          obtain rfl := Nat.le_antisymm used (ht.le_length block)
          exact .inl ⟨data, rest, [], block, by simp, ht⟩
  | leftAgain hb ih =>
      obtain ⟨rfl, rfl⟩ | ⟨rest, rfl, hr⟩ := append_singleton_eq hs
      · exact absurd he.2 id
      · rcases ih hr with hv | ⟨k, hk, -⟩
        · exact .inl (hv.append _)
        · exact absurd hk (by simp)
  | between hb apart ih =>
      obtain ⟨rfl, rfl⟩ | ⟨rest, rfl, hr⟩ := append_singleton_eq hs
      · exact absurd he apart.not_enters
      · rcases ih hr with hv | ⟨k, hk, ht⟩
        · exact .inl (hv.append _)
        · exact .inr ⟨k, hk, ht.between apart⟩

-- How far the replay of the graph has got in a state, if it began after `base`.
def TrackedAt (ctx : Context) (base : List Entry) (s : State) (at? : Option (BlockId × Nat)) :
    Prop :=
  ∃ steps, s.history.reverse = base ++ steps ∧ Tracked ctx.site steps at?

-- No operation of the current block is left.
def Used (ctx : Context) (s : State) : Prop :=
  ∃ data, ctx.graph.block? s.block = some data ∧ data.operations.length ≤ s.op

-- The visit of the current block is over.
structure Over (ctx : Context) (base : List Entry) (s : State) : Prop where
  tracked : TrackedAt ctx base s none
  used : Used ctx s

-- The current block is being visited up to the position, or its visit is over and its
-- exit may be asked for again.
def AtWork (ctx : Context) (base : List Entry) (s : State) : Prop :=
  TrackedAt ctx base s (some (s.block, s.op)) ∨ Over ctx base s

-- What holds after a replay that control falls through, or does not.
def EndsVisit (ctx : Context) (base : List Entry) (r : Bool) (t : State) : Prop :=
  if r then AtWork ctx base t else Over ctx base t

section

variable {ctx : Context} {base : List Entry} {s t : State} {at? : Option (BlockId × Nat)}

theorem TrackedAt.step {e : Entry} {next? : Option (BlockId × Nat)}
    (h : TrackedAt ctx base s at?) (ht : t.history = e :: s.history)
    (hn : ∀ steps, Tracked ctx.site steps at? → Tracked ctx.site (steps ++ [e]) next?) :
    TrackedAt ctx base t next? := by
  obtain ⟨steps, hs, hk⟩ := h
  exact ⟨steps ++ [e], by rw [ht, List.reverse_cons, hs, List.append_assoc], hn steps hk⟩

theorem TrackedAt.congr (h : TrackedAt ctx base s at?) (ht : t.history = s.history) :
    TrackedAt ctx base t at? := by
  obtain ⟨steps, hs, hk⟩ := h
  exact ⟨steps, by rw [ht, hs], hk⟩

theorem TrackedAt.apart (h : TrackedAt ctx base s at?) {more : List Entry}
    (ht : t.history = more ++ s.history) (hm : ∀ e ∈ more, ctx.site.depth < e.site.depth) :
    TrackedAt ctx base t at? := by
  induction more generalizing t with
  | nil => exact h.congr ht
  | cons e more ih =>
      have hr := ih (t := { t with history := more ++ s.history }) rfl
        fun x hx => hm x (List.mem_cons_of_mem _ hx)
      exact hr.step ht fun steps hk => hk.between (.inl (hm e List.mem_cons_self))

theorem Over.congr (h : Over ctx base s) (hb : t.block = s.block) (ho : t.op = s.op)
    (hh : t.history = s.history) : Over ctx base t :=
  ⟨h.tracked.congr hh, by unfold Used; rw [hb, ho]; exact h.used⟩

theorem AtWork.congr (h : AtWork ctx base s) (hb : t.block = s.block) (ho : t.op = s.op)
    (hh : t.history = s.history) : AtWork ctx base t := by
  rcases h with h | h
  · exact .inl (by rw [hb, ho]; exact h.congr hh)
  · exact .inr (h.congr hb ho hh)

theorem EndsVisit.congr {r : Bool} (h : EndsVisit ctx base r s) (hb : t.block = s.block)
    (ho : t.op = s.op) (hh : t.history = s.history) : EndsVisit ctx base r t := by
  cases r with
  | false => exact Over.congr h hb ho hh
  | true => exact AtWork.congr h hb ho hh

theorem AtWork.apart (h : AtWork ctx base s) {warnings : List Finding} {more : List Entry}
    (hm : ∀ e ∈ more, ctx.site.depth < e.site.depth) :
    AtWork ctx base { s with warnings, history := more ++ s.history } := by
  rcases h with h | h
  · exact .inl (h.apart rfl hm)
  · exact .inr ⟨h.tracked.apart rfl hm, h.used⟩

theorem TrackedAt.aside (h : TrackedAt ctx base s at?) {e : Event} (he : e.Aside) :
    TrackedAt ctx base (s.log ctx.site e) at? :=
  h.step rfl fun _ hk => hk.between (.inr ⟨rfl, he⟩)

theorem Over.aside (h : Over ctx base s) {e : Event} (he : e.Aside) :
    Over ctx base (s.log ctx.site e) :=
  ⟨h.tracked.aside he, h.used⟩

-- Following an edge enters the target.
theorem TrackedAt.follow (h : TrackedAt ctx base s none) (source target : BlockId)
    (bindings : Bindings) : AtWork ctx base (s.follow ctx.site source target bindings) :=
  .inl (h.step rfl fun _ hk => hk.advanced)

-- Leaving the current block ends its visit, also if that had ended before.
theorem AtWork.leave (h : AtWork ctx base s) {exit : Exit} (hx : AtExit ctx s exit) :
    Over ctx base (s.log ctx.site (.left s.block exit)) := by
  obtain ⟨data, hd, hl, rfl⟩ := hx
  refine ⟨?_, data, hd, hl⟩
  rcases h with h | h
  · exact h.step rfl fun _ hk => hk.left hd hl
  · exact h.tracked.step rfl fun _ hk => hk.leftAgain

theorem AtWork.consume (h : AtWork ctx base s) {data : BasicBlock} {op : Graph.Operation}
    (hd : ctx.graph.block? s.block = some data) (ho : data.operations[s.op]? = some op) :
    AtWork ctx base (s.consume ctx.site op) := by
  rcases h with h | h
  · exact .inl (h.step rfl fun _ hk => hk.consumed hd ho)
  · obtain ⟨found, hf, hl⟩ := h.used
    obtain rfl := Option.some.inj (hf.symm.trans hd)
    exact absurd (List.getElem?_eq_some_iff.mp ho).1 (Nat.not_lt.mpr hl)

theorem AtWork.reconciled {e : Expr} {candidates : ValueSet} {v : ValueId}
    (h : AtWork ctx base s) (hr : Reconciled ctx s e candidates v t) : AtWork ctx base t := by
  cases hr with
  | named => exact h.congr rfl rfl rfl
  | result => exact h

theorem AtWork.operands {operands : List (Expr × ValueSet)} {inputs : List ValueId}
    (h : AtWork ctx base s) (hr : OperandsReconciled ctx s operands inputs t) :
    AtWork ctx base t :=
  hr.invariant (fun first before => before.reconciled first) h

theorem CallMatched.atWork {name : String} {operands : List (Expr × ValueSet)}
    {results? : Option (List ValueSet)} (h : CallMatched ctx name operands s results? t)
    (hs : AtWork ctx base s) : AtWork ctx base t ∧ (results? = none → Over ctx base t) := by
  cases h with
  | returning block atOp inputs callee =>
      obtain ⟨block, atOp⟩ := inputs.nextOperation block atOp
      exact ⟨(hs.operands inputs).consume block atOp, by simp⟩
  | final block atOp inputs callee ends =>
      obtain ⟨block, atOp⟩ := inputs.nextOperation block atOp
      have h := ((hs.operands inputs).consume block atOp).leave ends
      exact ⟨.inr h, fun _ => h⟩

theorem atWork_callwise : Callwise ctx fun s t => AtWork ctx base s → AtWork ctx base t where
  refl _ h := h
  trans first second h := second (first h)
  call matched h := (matched.atWork h).1

theorem AtWork.replayExpr {e : Expr} {values? : Option (List ValueSet)} (hs : AtWork ctx base s)
    (h : replayExpr ctx e s = .ok values? t) :
    AtWork ctx base t ∧ (values? = none → Over ctx base t) := by
  refine ⟨atWork_callwise.ofExpr e h hs, ?_⟩
  rintro rfl
  obtain ⟨name, operands, u, hu, hm⟩ := atWork_callwise.stuck e h
  exact (hm.atWork (hu hs)).2 rfl

theorem AtWork.replayOne {e : Expr} {value? : Option ValueSet} (hs : AtWork ctx base s)
    (h : replayOne ctx e s = .ok value? t) :
    AtWork ctx base t ∧ (value? = none → Over ctx base t) := by
  obtain ⟨values?, he, hv⟩ := replayOne_eq_ok.mp h
  obtain ⟨hw, ho⟩ := hs.replayExpr he
  refine ⟨hw, fun hn => ho ?_⟩
  rcases hv with ⟨rfl, -⟩ | ⟨value, -, rfl⟩
  · rfl
  · exact absurd hn (by simp)

theorem Tested.over {e : Expr} {branch : Branch} {zero : Bindings}
    (h : Tested ctx e s branch zero t) (hs : AtWork ctx base s) : Over ctx base t := by
  cases h with
  | @mk candidates _ _ u v value exit fits carries =>
      have hl := (hs.replayOne value).1.leave exit
      have hv : Over ctx base v := by
        cases fits with
        | named => exact hl.congr rfl rfl rfl
        | result => exact hl
      exact hv.aside (by trivial)

theorem EdgeRecorded.over {way : LoopWay} {source target : BlockId} {b : Bindings}
    (h : EdgeRecorded ctx way source target b s t) (hs : Over ctx base s) : Over ctx base t := by
  cases h with
  | mk opened edge agrees =>
      exact Over.congr (hs.aside (e := .loopEdge way _ source target) (by trivial))
        rfl rfl rfl

theorem LoopJumped.over {way : LoopWay} (h : LoopJumped ctx way s t) (hs : AtWork ctx base s) :
    Over ctx base t := by
  cases h with
  | mk exit carries recorded =>
      exact recorded.over ((hs.leave exit).aside (by trivial))

-- Replays of the parts of a statement that begin while a block is being visited.
def Visiting (ctx : Context) (body : Walk Bool) : Prop :=
  ∀ {base s r t}, body s = .ok r t → AtWork ctx base s → EndsVisit ctx base r t

theorem IfReplayed.visiting {condition : Expr} {body : Walk Bool} {r : Bool}
    (hb : Visiting ctx body) (h : IfReplayed ctx condition body s r t)
    (hs : AtWork ctx base s) : EndsVisit ctx base r t := by
  cases h with
  | stuck value => exact (hs.replayOne value).2 rfl
  | joined tested into run exit back meets owned edge =>
      have hw : AtWork ctx base _ := hb run ((tested.over hs).tracked.follow _ _ _)
      exact (((hw.leave exit).aside (by trivial)).aside
        (by trivial)).tracked.follow _ _ _
  | skipped tested into run edge =>
      have hw : Over ctx base _ := hb run ((tested.over hs).tracked.follow _ _ _)
      exact hw.tracked.follow _ _ _

theorem Compared.atWork {e : Expr} {candidates : ValueSet} {value : Literal} {result : ValueId}
    (h : Compared ctx e candidates value s result t) (hs : AtWork ctx base s) :
    AtWork ctx base t := by
  obtain ⟨data, op, against, read, u, fits, block, atOp, -, rfl⟩ := h.matched
  exact (hs.reconciled fits).consume block atOp

theorem ArmReplayed.over {body : Walk Bool} {join next : SwitchJoin} (hb : Visiting ctx body)
    (h : ArmReplayed ctx body join s next t) (hs : AtWork ctx base s) : Over ctx base t := by
  cases h with
  | left run => exact hb run hs
  | joined run exit agrees carries =>
      have hw : AtWork ctx base _ := hb run hs
      exact (hw.leave exit).aside (by trivial)

theorem CaseReplayed.atWork {e : Expr} {candidates : ValueSet} {value : Literal}
    {body : Walk Bool} {join next : SwitchJoin} (hb : Visiting ctx body)
    (h : CaseReplayed ctx e candidates value body join s next t) (hs : AtWork ctx base s) :
    AtWork ctx base t := by
  cases h with
  | mk compared exit zero into arm edge =>
      exact (arm.over hb ((((compared.atWork hs).leave exit).aside
        (by trivial)).tracked.follow _ _ _)).tracked.follow _ _ _

theorem CasesReplayed.atWork {e : Expr} {candidates : ValueSet} {arms : List Arm}
    {join last : SwitchJoin} (hb : ∀ arm ∈ arms, Visiting ctx arm.2)
    (h : CasesReplayed ctx e candidates arms join s last t) (hs : AtWork ctx base s) :
    AtWork ctx base t :=
  h.invariant hb (P := fun _ u => AtWork ctx base u) (fun hf first => first.atWork hf) hs

theorem Settled.visiting {join : SwitchJoin} {r : Bool} (h : Settled ctx join s r t)
    (hs : Over ctx base s) : EndsVisit ctx base r t := by
  cases h with
  | nowhere => exact hs
  | advanced found meets owned elsewhere edge =>
      exact (hs.aside (by trivial)).tracked.follow _ _ _
  | @there source target merged found meets owned here =>
      exact .inr (Over.congr (hs.aside (e := .merged target merged) (by trivial))
        rfl rfl rfl)

theorem FallbackReplayed.visiting {default? : Option (Walk Bool)} {join : SwitchJoin} {r : Bool}
    (hb : ∀ body ∈ default?, Visiting ctx body) (h : FallbackReplayed ctx default? join s r t)
    (hs : AtWork ctx base s) : EndsVisit ctx base r t := by
  cases h with
  | default arm settled => exact settled.visiting (arm.over (hb _ rfl) hs)
  | unjoined noEdge => exact hs
  | direct found here settled =>
      cases settled with
      | nowhere noEdge => exact absurd (found.symm.trans noEdge) (by simp)
      | advanced found' meets owned elsewhere edge =>
          obtain rfl := Option.some.inj (found.symm.trans found')
          exact absurd here elsewhere
      | @there source target merged found' meets owned here =>
          rcases hs with hs | hs
          · exact .inl (TrackedAt.congr
              (hs.aside (e := .merged target merged) (by trivial)) rfl)
          · exact .inr (Over.congr (hs.aside (e := .merged target merged)
              (by trivial)) rfl rfl rfl)
  | through found elsewhere arm settled =>
      refine settled.visiting (arm.over (fun h hs => ?_) hs)
      obtain ⟨rfl, rfl⟩ := pure_eq_ok.mp h
      exact hs

theorem SwitchReplayed.visiting {e : Expr} {arms : List Arm} {r : Bool}
    (hb : ∀ arm ∈ arms, Visiting ctx arm.2) (h : SwitchReplayed ctx e arms s r t)
    (hs : AtWork ctx base s) : EndsVisit ctx base r t := by
  cases h with
  | stuck value => exact (hs.replayOne value).2 rfl
  | noArms value split => exact (hs.replayOne value).1
  | onlyDefault value split run =>
      exact hb _ ((mem_of_splitDefault split).2 _ rfl) run (hs.replayOne value).1
  | cases value split some_case run fallback =>
      obtain ⟨hc, hd⟩ := mem_of_splitDefault split
      exact fallback.visiting (fun body hm => hb _ (hd body hm))
        (run.atWork (fun arm ha => hb arm (hc arm ha)) (hs.replayOne value).1)

theorem ConditionReplayed.visiting {condition? : Option Expr} {r : Bool}
    (h : ConditionReplayed ctx s condition? r t) (hs : AtWork ctx base s) :
    EndsVisit ctx base r t := by
  cases h with
  | untested => exact hs
  | stuck value => exact (hs.replayOne value).2 rfl
  | tested tested recorded into => exact (recorded.over (tested.over hs)).tracked.follow _ _ _

theorem PostReplayed.over {header : BlockId} {post : Walk Bool} (hp : Visiting ctx post)
    (h : PostReplayed ctx header post s t) (hs : AtWork ctx base s) : Over ctx base t := by
  cases h with
  | stopped run => exact hp run hs
  | @latched bindings frame outer w run exit edge carries opened =>
      have hw : AtWork ctx base w := hp run hs
      exact Over.congr ((hw.leave exit).aside
        (e := .carried w.block header w.bindings bindings) (by trivial)) rfl rfl rfl

theorem ContinuesReplayed.over {header : BlockId} {postEmpty : Bool} {post : Walk Bool}
    (hp : Visiting ctx post) (h : ContinuesReplayed ctx header postEmpty post s t)
    (hs : Over ctx base s) : Over ctx base t := by
  cases h with
  | nowhere opened noEdge => exact hs
  | direct opened found empty => exact hs.congr rfl rfl rfl
  | @post frame outer source target merged _ opened found elsewhere meets owned edge run =>
      have hs' := hs.congr (t := { s with loops :=
        { frame with continues := ⟨some (source, target), []⟩ } :: outer }) rfl rfl rfl
      exact run.over hp ((hs'.aside (by trivial)).tracked.follow _ _ _)

theorem PassReplayed.over {header : BlockId} {parts : LoopParts}
    (hb : Visiting ctx parts.body) (hp : Visiting ctx parts.post)
    (h : PassReplayed ctx header parts s t) (hs : AtWork ctx base s) : Over ctx base t := by
  cases h with
  | stuck condition => exact condition.visiting hs
  | stopped condition body continues =>
      exact continues.over hp (hb body (condition.visiting hs))
  | fallen condition body jump continues =>
      have hv : AtWork ctx base _ := hb body (condition.visiting hs)
      exact continues.over hp (jump.over hv)

theorem LoopPassed.over {header : BlockId} {warnings iteration : Nat} {parts : LoopParts}
    {entry : Bindings} {frame : LoopFrame} (hb : Visiting ctx parts.body)
    (hp : Visiting ctx parts.post)
    (h : LoopPassed ctx header warnings parts iteration entry s frame t)
    (hs : TrackedAt ctx base s at?) (ready : at? = none ∨ at? = some (header, 0)) :
    Over ctx base t := by
  cases h with
  | mk run opened =>
      have hk : AtWork ctx base (s.beginPass ctx.site header warnings iteration entry) :=
        .inl (hs.step rfl fun _ hk => hk.pass ready)
      exact (run.over hb hp hk).congr rfl rfl rfl

theorem LoopLeft.visiting {exits : LoopEdges} {r : Bool} (h : LoopLeft ctx exits s r t)
    (hs : Over ctx base s) : EndsVisit ctx base r t := by
  cases h with
  | never noEdge => exact hs
  | left found meets owned edge =>
      exact (hs.aside (by trivial)).tracked.follow _ _ _

theorem IterateReplayed.visiting {header : BlockId} {warnings iteration : Nat}
    {parts : LoopParts} {entry : Bindings} {r : Bool} (hb : Visiting ctx parts.body)
    (hp : Visiting ctx parts.post)
    (h : IterateReplayed ctx header warnings parts iteration entry s r t)
    (hs : TrackedAt ctx base s at?) (ready : at? = none ∨ at? = some (header, 0)) :
    EndsVisit ctx base r t := by
  induction h generalizing at? with
  | settled pass stable owned left =>
      exact left.visiting ((pass.over hb hp hs ready).aside (by trivial))
  | again pass refines next ih =>
      exact ih ((pass.over hb hp hs ready).aside (by trivial)).tracked (.inl rfl)

theorem ForReplayed.visiting {pre : Walk Bool} {condition : Expr} {body : Walk Bool}
    {postEmpty : Bool} {post : Walk Bool} {r : Bool} (hpre : Visiting ctx pre)
    (hb : Visiting ctx body) (hp : Visiting ctx post)
    (h : ForReplayed ctx pre condition body postEmpty post s r t) (hs : AtWork ctx base s) :
    EndsVisit ctx base r t := by
  cases h with
  | stuck run => exact hpre run hs
  | never run exit carries edge constant literal zero =>
      have hu : AtWork ctx base _ := hpre run hs
      exact ((hu.leave exit).aside (by trivial)).tracked.follow _ _ _
  | @loop header entry u _ _ run exit carries edge unlessZero iterate =>
      have hu : AtWork ctx base u := hpre run hs
      have hl := (hu.leave exit).aside (e := .carried u.block header u.bindings entry) (by trivial)
      exact iterate.visiting hb hp (hl.tracked.step rfl fun _ hk => hk.advanced) (.inr rfl)

theorem visiting_compositional : Compositional True Visiting where
  done ctx base s r t h hs := by
    obtain ⟨rfl, rfl⟩ := pure_eq_ok.mp h
    exact hs
  expr ctx e base s r t h hs := by
    rcases replayBare_eq_ok.mp h with ⟨he, rfl⟩ | ⟨he, rfl⟩
    · exact (hs.replayExpr he).2 rfl
    · exact (hs.replayExpr he).1
  assign ctx names e base s r t h hs := by
    rcases replayAssignment_of_ok h with ⟨he, rfl⟩ | ⟨values, u, b, he, -, -, rfl, rfl⟩
    · exact (hs.replayExpr he).2 rfl
    · exact (hs.replayExpr he).1.congr rfl rfl rfl
  letDecl ctx names value? base s r t h hs := by
    rcases replayLet_of_ok h with ⟨hi, rfl⟩ | ⟨values, u, b, hi, -, rfl, rfl⟩
    · cases hi with
      | given value fits => exact (hs.replayExpr value).2 rfl
    · cases hi with
      | given value fits => exact (hs.replayExpr value).1.congr rfl rfl rfl
      | zero found => exact hs.congr rfl rfl rfl
  leave ctx base s r t h hs := by
    obtain ⟨left, rfl⟩ := functionLeft_of_ok h
    cases left with
    | mk exit count held => exact (hs.leave exit).congr rfl rfl rfl
  loopJump ctx way base s r t h hs := by
    obtain ⟨jump, rfl⟩ := replayLoopJump_eq_ok h
    exact jump.over hs
  cond ctx condition body hb base s r t h hs := (ifReplayed_of_ok h).visiting hb hs
  switch _ ctx e arms ha base s r t h hs := (switchReplayed_of_ok h).visiting ha hs
  forLoop ctx pre condition body postEmpty post hpre hb hp base s r t h hs :=
    (forReplayed_of_ok h).visiting hpre hb hp hs
  block ctx id body hb base s r t h hs := by
    obtain ⟨scope, u, -, hu, rfl⟩ := inBlock_eq_ok.mp h
    exact (hb hu (hs.congr rfl rfl rfl)).congr rfl rfl rfl
  definition ctx d others _ _ ho base s r t h hs := by
    obtain ⟨_, u, hu, ht⟩ := bind_eq_ok.mp h
    obtain ⟨warnings, more, rfl, hm⟩ := (definitionReplayed_of_ok hu).apart
    exact ho ht (hs.apart hm)
  next ctx id rest first others hf ho base s r t h hs := by
    obtain ⟨falls, u, hu, ht⟩ := bind_eq_ok.mp h
    have hv := hf hu hs
    rcases ite_eq_ok.mp ht with ⟨rfl, ht⟩ | ⟨hn, ht⟩
    · exact ho ht hv
    · obtain rfl : falls = false := by simpa using hn
      obtain ⟨_, v, hw, hp⟩ := bind_eq_ok.mp ht
      obtain ⟨rfl, rfl⟩ := pure_eq_ok.mp hp
      cases warned_of_ok hw with
      | silent => exact hv
      | warned m location =>
          exact Over.congr (Over.aside hv (e := .found m location) (by trivial))
            rfl rfl rfl

end

end SsaReplay.Replay
