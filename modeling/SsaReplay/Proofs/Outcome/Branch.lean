import SsaReplay.Proofs.Outcome.Statement

namespace SsaReplay

-- The variables that have to be bound, and those that may be.
structure Bounds where
  lower : VariableId → Prop
  upper : VariableId → Prop

namespace Bounds

structure Holds (r : Bounds) (b : Bindings) : Prop where
  lower : ∀ x, r.lower x → b.binds x = true
  upper : ∀ x, b.binds x = true → r.upper x

-- The other bounds ask for less.
structure Le (r r' : Bounds) : Prop where
  lower : ∀ x, r'.lower x → r.lower x
  upper : ∀ x, r.upper x → r'.upper x

-- Nothing is asked for.
def free : Bounds := ⟨fun _ => False, fun _ => True⟩

variable {r r' r'' : Bounds} {b b' : Bindings}

theorem Le.refl (r : Bounds) : r.Le r := ⟨fun _ h => h, fun _ h => h⟩

theorem Le.trans (h : r.Le r') (k : r'.Le r'') : r.Le r'' :=
  ⟨fun x hx => h.lower x (k.lower x hx), fun x hx => k.upper x (h.upper x hx)⟩

theorem Holds.mono (h : r.Holds b) (hle : r.Le r') : r'.Holds b :=
  ⟨fun x hx => h.lower x (hle.lower x hx), fun x hx => hle.upper x (h.upper x hx)⟩

theorem Holds.congr (h : r.Holds b) (hb : b'.binds = b.binds) : r.Holds b' :=
  ⟨fun x hx => hb ▸ h.lower x hx, fun x hx => h.upper x (hb ▸ hx)⟩

theorem holds_free (b : Bindings) : free.Holds b := ⟨fun _ h => h.elim, fun _ _ => trivial⟩

end Bounds

namespace Bindings

theorem binds_acrossEdge (b : Bindings) (fed : ValueId → ValueSet) (redefined : List ValueId) :
    (b.acrossEdge fed redefined).binds = b.binds := by
  funext x
  unfold binds
  rw [lookup_acrossEdge, Option.isSome_map]

theorem exists_common? {x : VariableId} {rest : List Bindings}
    (h : ∀ b ∈ rest, b.binds x = true) (values : ValueSet) :
    ∃ found, common? x values rest = some found := by
  induction rest generalizing values with
  | nil => exact ⟨values, rfl⟩
  | cons b rest ih =>
      obtain ⟨hb, hr⟩ := List.forall_mem_cons.mp h
      obtain ⟨held, hl⟩ := Option.isSome_iff_exists.mp hb
      simp only [common?, hl]
      exact ih hr (values.inter held)

-- After a merge those variables are bound that all paths bind.
theorem binds_of_meet {first merged : Bindings} {rest : List Bindings}
    (h : meet (first :: rest) = .ok merged) (x : VariableId) :
    merged.binds x = true ↔ ∀ b ∈ first :: rest, b.binds x = true := by
  constructor
  · intro hx b hb
    obtain ⟨held, hl⟩ := Option.isSome_iff_exists.mp hx
    obtain ⟨wider, hw, -⟩ := refines_of_meet h hb x held hl
    exact Option.isSome_of_eq_some hw
  · intro hx
    obtain ⟨hf, hr⟩ := List.forall_mem_cons.mp hx
    obtain ⟨values, hv⟩ := Option.isSome_iff_exists.mp hf
    obtain ⟨found, hfound⟩ := exists_common? hr values
    simp only [meet] at h
    split at h
    · exact absurd h (by simp)
    · obtain rfl := Except.ok.inj h
      exact Option.isSome_of_eq_some (lookup_shared.mpr ⟨values, hv, hfound⟩)

end Bindings

theorem Bounds.Holds.meet {r : Bounds} {first merged : Bindings} {rest : List Bindings}
    (hf : r.Holds first) (hr : ∀ b ∈ rest, ∀ x, r.lower x → b.binds x = true)
    (h : Bindings.meet (first :: rest) = .ok merged) : r.Holds merged := by
  refine ⟨fun x hx => (Bindings.binds_of_meet h x).mpr ?_, fun x hx => hf.upper x ?_⟩
  · exact List.forall_mem_cons.mpr ⟨hf.lower x hx, fun b hb => hr b hb x hx⟩
  · exact (Bindings.binds_of_meet h x).mp hx first List.mem_cons_self

theorem Bounds.Holds.meet_all {r : Bounds} {bs : List Bindings} {merged : Bindings}
    (hne : bs ≠ []) (hr : ∀ b ∈ bs, r.Holds b) (h : Bindings.meet bs = .ok merged) :
    r.Holds merged := by
  cases bs with
  | nil => exact absurd rfl hne
  | cons first rest =>
      obtain ⟨hf, hr⟩ := List.forall_mem_cons.mp hr
      exact hf.meet (fun b hb => (hr b hb).lower) h

namespace Replay

open SsaReplay.Graph (Cfg Exit)
open SsaReplay.Yul (Expr Literal)

-- What the bindings along the edges noted in a loop have to be like. While edges to
-- where the body continues are still collected, none of their bindings is lost.
structure Duty where
  bounds : Bounds
  collecting : Bool

structure LoopFrame.Meets (allowed : Mismatch → Prop) (g : Cfg) (d : Duty) (f : LoopFrame) :
    Prop where
  vouched : ∀ way source target, (f.edges way).first? = some (source, target) →
    Vouched allowed g source target
  bounds : ∀ way, ∀ b ∈ (f.edges way).bindings, d.bounds.Holds b
  backEdges : ∀ b ∈ f.backEdges, ∀ x, d.bounds.lower x → b.binds x = true
  exits : f.exits.first?.isSome = true → f.exits.bindings ≠ []
  continues : d.collecting = true → f.continues.first?.isSome = true → f.continues.bindings ≠ []

-- A graph is replayed at a place where nothing is found that would not be allowed.
structure Stands (allowed : Mismatch → Prop) (ctx : Context) (scope? : Option ScopeId)
    (duties : List Duty) (s : State) : Prop where
  scope : s.scope? = scope?
  here : ctx.graph.block? s.block = none → allowed (.absentBlock s.block)
  loops : List.Forall₂ (LoopFrame.Meets allowed ctx.graph) duties s.loops

-- Most mismatches are allowed, and those about edges that leave a block as well.
structure Tolerant (allowed : Mismatch → Prop) (ctx : Context) : Prop where
  lenient : Lenient allowed
  leads : ∀ source target, ctx.graph.Leads source target →
    Vouched allowed ctx.graph source target

-- From bindings within the first bounds, a replay ends with what is allowed. If control
-- falls through, the bindings are within the second bounds then.
def Runs (allowed : Mismatch → Prop) (ctx : Context) (scope? : Option ScopeId)
    (duties : List Duty) (r r' : Bounds) (body : Walk Bool) : Prop :=
  ∀ s, Stands allowed ctx scope? duties s → r.Holds s.bindings →
    Ends allowed body s fun falls t =>
      Stands allowed ctx scope? duties t ∧ (falls = true → r'.Holds t.bindings)

-- What the names read stand for has to be bound.
def Reads (allowed : Mismatch → Prop) (ctx : Context) (scope? : Option ScopeId) (r : Bounds)
    (names : List String) : Prop :=
  ∀ name ∈ names, ∀ x, ctx.scopes.symbol? scope? name = some (.var x) →
    r.lower x ∨ allowed (.unbound name)

variable {allowed : Mismatch → Prop} {ctx : Context} {scope? : Option ScopeId}
  {duties : List Duty} {r r' r'' : Bounds} {s t : State} {source target : BlockId}

theorem Bounds.Holds.carries {before after : Bindings} (h : r.Holds before)
    (hc : Carries ctx.graph source target before after) : r.Holds after := by
  obtain ⟨data, pairs, -, -, rfl⟩ := hc
  exact h.congr (Bindings.binds_acrossEdge _ _ _)

theorem Reads.readable {names : List String} (h : Reads allowed ctx scope? r names)
    (hs : s.scope? = scope?) (hr : r.Holds s.bindings) : Readable allowed ctx s names := by
  intro name hn x hx hl
  refine (h name hn x (hs ▸ hx)).resolve_left fun hlow => ?_
  have hb := hr.lower x hlow
  rw [Bindings.binds, hl] at hb
  exact absurd hb (by simp)

namespace Stands

variable (hs : Stands allowed ctx scope? duties s)

include hs

theorem log (site : Site) (e : Event) : Stands allowed ctx scope? duties (s.log site e) :=
  ⟨hs.scope, hs.here, hs.loops⟩

theorem abides (ht : Abides s t) : Stands allowed ctx scope? duties t :=
  ⟨ht.scope.trans hs.scope, ht.block ▸ hs.here, ht.loops ▸ hs.loops⟩

theorem follow (vouched : Vouched allowed ctx.graph source target) (b : Bindings) :
    Stands allowed ctx scope? duties (s.follow ctx.site source target b) :=
  ⟨hs.scope, vouched.finish, hs.loops⟩

theorem bindings (b : Bindings) : Stands allowed ctx scope? duties { s with bindings := b } :=
  ⟨hs.scope, hs.here, hs.loops⟩

end Stands

theorem Tolerant.vouched (tol : Tolerant allowed ctx) {exit : Exit} (hx : AtExit ctx s exit)
    (ht : target ∈ exit.targets) : Vouched allowed ctx.graph s.block target := by
  obtain ⟨data, hd, -, rfl⟩ := hx
  exact tol.leads s.block target ⟨data, hd, ht⟩

namespace Ends

theorem reconcileCondition {e : Expr} {candidates : ValueSet} {v : ValueId}
    (lenient : Lenient allowed) :
    Ends allowed (reconcileCondition ctx e candidates v) s fun _ t => Abides s t := by
  refine bind ((reconcile lenient).mono fun fits t ht => ?_)
  exact ite (fun _ => pure ht) fun _ => rejectOperation (lenient _ rfl rfl)

theorem replayComparison {e : Expr} {candidates : ValueSet} {value : Literal}
    (lenient : Lenient allowed)
    (here : ctx.graph.block? s.block = none → allowed (.absentBlock s.block)) :
    Ends allowed (replayComparison ctx e candidates value) s fun _ t => Abides s t := by
  refine bind (get (bind (blockData here fun data _ => ?_)))
  split
  · next op =>
    split
    · exact rejectOperation (lenient _ rfl rfl)
    · next against read result =>
      refine bind (readLiteral lenient fun literal => ?_)
      refine ite (fun _ => rejectOperation (lenient _ rfl rfl)) fun _ => ?_
      refine bind ((reconcile lenient).mono fun fits t ht => ?_)
      refine ite (fun _ => bind (consume (pure ?_))) fun _ => rejectOperation (lenient _ rfl rfl)
      exact ⟨ht.scope, ht.block, ht.loops, ht.bound⟩
  · exact rejectOperation (lenient _ rfl rfl)

theorem leaveToJoin {join : SwitchJoin} {Q : BlockId → State → Prop} (lenient : Lenient allowed)
    (here : ctx.graph.block? s.block = none → allowed (.absentBlock s.block))
    (hq : ∀ target, AtExit ctx s (.jump target) →
      Q target (s.log ctx.site (.left s.block (.jump target)))) :
    Ends allowed (leaveToJoin ctx join) s Q := by
  refine bind (leaveByJump lenient here fun target hx => ?_)
  cases join.edge? with
  | none => exact pure (hq target hx)
  | some edge =>
      exact ite (fun _ => rejectOperation (lenient _ rfl rfl)) fun _ => pure (hq target hx)

end Ends

-- What is known of the join of a switch is within bounds.
structure SwitchJoin.Meets (allowed : Mismatch → Prop) (g : Cfg) (r : Bounds) (join : SwitchJoin) :
    Prop where
  vouched : ∀ source target, join.edge? = some (source, target) → Vouched allowed g source target
  reached : join.edge?.isSome = true → join.contributions ≠ []
  bounds : ∀ b ∈ join.contributions, r.Holds b

namespace Runs

variable (tol : Tolerant allowed ctx)

theorem weaken {body : Walk Bool} (h : Runs allowed ctx scope? duties r r' body)
    (hle : r'.Le r'') : Runs allowed ctx scope? duties r r'' body :=
  fun s hs hr => (h s hs hr).mono fun _ _ ⟨ht, hb⟩ => ⟨ht, fun hf => (hb hf).mono hle⟩

include tol

theorem replayIf {condition : Expr} {body : Walk Bool} (hle : r.Le r')
    (reads : Reads allowed ctx scope? r condition.names)
    (hb : Runs allowed ctx scope? duties r r' body) :
    Runs allowed ctx scope? duties r r' (replayIf ctx condition body) := by
  intro s hs hr
  have readable := reads.readable hs.scope hr
  refine .bind ((Ends.replayOne tol.lenient condition hs.here readable).mono fun values? t ht => ?_)
  cases values? with
  | none => exact .pure ⟨hs.abides ht, nofun⟩
  | some candidates =>
  refine .bind (.leaveByBranch tol.lenient (hs.abides ht).here fun branch hx => ?_)
  refine .bind ((Ends.reconcileCondition tol.lenient).mono fun _ u hu => .bind (.get ?_))
  have hsu := ((hs.abides ht).log ctx.site (.left t.block (.branch branch))).abides hu
  have hru : r.Holds u.bindings := hr.congr (hu.bound.trans ht.bound)
  have hblock : u.block = t.block := hu.block
  have zero : Vouched allowed ctx.graph u.block branch.zero :=
    hblock ▸ tol.vouched hx (by simp [Exit.targets])
  have nonZero : Vouched allowed ctx.graph u.block branch.nonZero :=
    hblock ▸ tol.vouched hx (by simp [Exit.targets])
  refine .bind (.carry zero fun skipping hskip => ?_)
  have hskipping : r'.Holds skipping := (Bounds.Holds.carries hru hskip).mono hle
  refine .bind (.get (.bind (.advance nonZero fun _ => .bind ?_)))
  refine (hb _ ((hsu.log _ _).follow nonZero _) hru).mono fun falls w hw => ?_
  refine .ite (fun hfalls => ?_) fun _ => ?_
  · refine .bind (.leaveByJump tol.lenient hw.1.here fun target hxw => ?_)
    refine .ite (fun _ => .rejectOperation (tol.lenient _ rfl rfl)) fun htarget => ?_
    obtain rfl : target = branch.zero := not_not.mp htarget
    have back : Vouched allowed ctx.graph w.block branch.zero :=
      tol.vouched hxw (by simp [Exit.targets])
    refine .bind (.get (.bind (.carry back fun running hrun => ?_)))
    have hrunning : r'.Holds running := Bounds.Holds.carries (hw.2 hfalls) hrun
    refine .bind (.merge tol.lenient fun merged hm => ?_)
    refine .bind (.checkPhiOwnership tol.lenient zero.finish ?_)
    refine .bind (.advance back fun _ => .pure ⟨?_, fun _ => ?_⟩)
    · exact (((hw.1.log _ _).log _ _).log _ _).follow back merged
    · exact hskipping.meet (fun b h => List.mem_singleton.mp h ▸ hrunning.lower) hm
  · exact .bind (.advance zero fun _ => .pure ⟨hw.1.follow zero skipping, fun _ => hskipping⟩)

theorem replayArm {body : Walk Bool} {join : SwitchJoin} (hj : join.Meets allowed ctx.graph r')
    (hb : Runs allowed ctx scope? duties r r' body) (hs : Stands allowed ctx scope? duties s)
    (hr : r.Holds s.bindings) :
    Ends allowed (replayArm ctx body join) s fun next t =>
      Stands allowed ctx scope? duties t ∧ next.Meets allowed ctx.graph r' := by
  refine .bind ((hb s hs hr).mono fun falls t ht => .ite (fun hfalls => ?_) fun _ => ?_)
  · refine .bind (.get (.bind (.leaveToJoin tol.lenient ht.1.here fun target hx => ?_)))
    have edge : Vouched allowed ctx.graph t.block target :=
      tol.vouched hx (by simp [Exit.targets])
    refine .bind (.carry edge fun b hcarry => .pure ⟨(ht.1.log _ _).log _ _, ?_⟩)
    have hb : r'.Holds b := Bounds.Holds.carries (ht.2 hfalls) hcarry
    refine ⟨fun source' target' he => ?_, fun _ => by simp, fun c hc => ?_⟩
    · obtain ⟨rfl, rfl⟩ := Prod.mk.inj (Option.some.inj he)
      exact edge
    · rcases List.mem_append.mp hc with hc | hc
      · exact hj.bounds c hc
      · exact List.mem_singleton.mp hc ▸ hb
  · exact .pure ⟨ht.1, hj⟩

theorem replayCase {e : Expr} {candidates : ValueSet} {value : Literal} {body : Walk Bool}
    {join : SwitchJoin} (hj : join.Meets allowed ctx.graph r')
    (hb : Runs allowed ctx scope? duties r r' body) (hs : Stands allowed ctx scope? duties s)
    (hr : r.Holds s.bindings) :
    Ends allowed (replayCase ctx e candidates value body join) s fun next t =>
      (Stands allowed ctx scope? duties t ∧ r.Holds t.bindings) ∧
        next.Meets allowed ctx.graph r' := by
  refine .bind ((Ends.replayComparison tol.lenient hs.here).mono fun result t ht => ?_)
  have hst := hs.abides ht
  have hrt : r.Holds t.bindings := hr.congr ht.bound
  refine .bind (.leaveByBranch tol.lenient hst.here fun branch hx => ?_)
  refine .ite (fun _ => .rejectOperation (tol.lenient _ rfl rfl)) fun _ => .bind (.get ?_)
  have zero : Vouched allowed ctx.graph t.block branch.zero :=
    tol.vouched hx (by simp [Exit.targets])
  have nonZero : Vouched allowed ctx.graph t.block branch.nonZero :=
    tol.vouched hx (by simp [Exit.targets])
  refine .bind (.carry zero fun otherwise hcarry => .bind (.get ?_))
  have hotherwise : r.Holds otherwise := Bounds.Holds.carries hrt hcarry
  refine .bind (.advance nonZero fun _ => .bind ?_)
  have inside := ((hst.log ctx.site (.left t.block (.branch branch))).log ctx.site
    (.carried t.block branch.zero t.bindings otherwise)).follow nonZero t.bindings
  refine (replayArm tol hj hb inside hrt).mono fun next w hw => ?_
  exact .bind (.advance zero fun _ => .pure ⟨⟨hw.1.follow zero otherwise, hotherwise⟩, hw.2⟩)

theorem replayCases {e : Expr} {candidates : ValueSet} {arms : List Arm} {join : SwitchJoin}
    (hj : join.Meets allowed ctx.graph r')
    (ha : ∀ arm ∈ arms, Runs allowed ctx scope? duties r r' arm.2)
    (hs : Stands allowed ctx scope? duties s) (hr : r.Holds s.bindings) :
    Ends allowed (replayCases ctx e candidates arms join) s fun last t =>
      (Stands allowed ctx scope? duties t ∧ r.Holds t.bindings) ∧
        last.Meets allowed ctx.graph r' := by
  induction arms generalizing s join with
  | nil => exact .pure ⟨⟨hs, hr⟩, hj⟩
  | cons arm rest ih =>
      obtain ⟨value?, body⟩ := arm
      obtain ⟨hfirst, hrest⟩ := List.forall_mem_cons.mp ha
      cases value? with
      | none => exact .rejectBlock (tol.lenient _ rfl rfl)
      | some value =>
          exact .bind ((replayCase tol hj hfirst hs hr).mono fun next t ht =>
            ih ht.2 hrest ht.1.1 ht.1.2)

theorem settleSwitch {join : SwitchJoin} (hj : join.Meets allowed ctx.graph r')
    (hs : Stands allowed ctx scope? duties s) :
    Ends allowed (settleSwitch ctx join) s fun falls t =>
      Stands allowed ctx scope? duties t ∧ (falls = true → r'.Holds t.bindings) := by
  unfold Replay.settleSwitch
  cases he : join.edge? with
  | none => exact .pure ⟨hs, nofun⟩
  | some edge =>
      obtain ⟨source, target⟩ := edge
      have vouched := hj.vouched source target he
      have hne : join.contributions ≠ [] := hj.reached (he ▸ rfl)
      refine .bind (.merge tol.lenient fun merged hm => ?_)
      have hmerged : r'.Holds merged := Bounds.Holds.meet_all hne hj.bounds hm
      refine .bind (.checkPhiOwnership tol.lenient vouched.finish (.bind (.get ?_)))
      refine .ite (fun _ => .bind (.advance vouched fun _ => .pure ⟨?_, fun _ => hmerged⟩))
        fun _ => ?_
      · exact (hs.log _ _).follow vouched merged
      · exact .bind (.setBindings (.pure ⟨(hs.log _ _).bindings merged, fun _ => hmerged⟩))

theorem replayFallback {default? : Option (Walk Bool)} {join : SwitchJoin} (hle : r.Le r')
    (hj : join.Meets allowed ctx.graph r')
    (hd : ∀ body ∈ default?, Runs allowed ctx scope? duties r r' body)
    (hs : Stands allowed ctx scope? duties s) (hr : r.Holds s.bindings) :
    Ends allowed (replayFallback ctx default? join) s fun falls t =>
      Stands allowed ctx scope? duties t ∧ (falls = true → r'.Holds t.bindings) := by
  unfold Replay.replayFallback
  have through : Runs allowed ctx scope? duties r r' (pure true) :=
    fun s hs hr => .pure ⟨hs, fun _ => hr.mono hle⟩
  cases default? with
  | some body =>
      exact .bind ((replayArm tol hj (hd body rfl) hs hr).mono fun next t ht =>
        settleSwitch tol ht.2 ht.1)
  | none =>
      cases he : join.edge? with
      | none => exact .pure ⟨hs, fun _ => hr.mono hle⟩
      | some edge =>
          refine .bind (.get (.ite (fun _ => ?_) fun _ => ?_))
          · refine settleSwitch tol ⟨fun source target h => ?_, fun _ => by simp, fun b hb => ?_⟩ hs
            · exact hj.vouched source target (he.trans h)
            · rcases List.mem_append.mp hb with hb | hb
              · exact hj.bounds b hb
              · exact List.mem_singleton.mp hb ▸ hr.mono hle
          · exact .bind ((replayArm tol hj through hs hr).mono fun next t ht =>
              settleSwitch tol ht.2 ht.1)

theorem replaySwitch {e : Expr} {arms : List Arm} (hle : r.Le r')
    (reads : Reads allowed ctx scope? r e.names)
    (ha : ∀ arm ∈ arms, Runs allowed ctx scope? duties r r' arm.2) :
    Runs allowed ctx scope? duties r r' (replaySwitch ctx e arms) := by
  intro s hs hr
  have readable := reads.readable hs.scope hr
  refine .bind ((Ends.replayOne tol.lenient e hs.here readable).mono fun values? t ht => ?_)
  have hst := hs.abides ht
  have hrt : r.Holds t.bindings := hr.congr ht.bound
  cases values? with
  | none => exact .pure ⟨hst, nofun⟩
  | some candidates =>
      cases hsplit : splitDefault arms with
      | mk cases default? =>
          obtain ⟨hc, hd⟩ := mem_of_splitDefault hsplit
          have none : SwitchJoin.none.Meets allowed ctx.graph r' := ⟨nofun, nofun, nofun⟩
          have whole : Ends allowed (do
              let join ← Replay.replayCases ctx e candidates cases .none
              Replay.replayFallback ctx default? join) t fun falls t =>
                Stands allowed ctx scope? duties t ∧ (falls = true → r'.Holds t.bindings) := by
            refine .bind ((replayCases tol none (fun arm h => ha arm (hc arm h)) hst hrt).mono
              fun last u hu => ?_)
            exact replayFallback tol hle hu.2 (fun body h => ha _ (hd body h)) hu.1.1 hu.1.2
          match cases, default? with
          | [], .none => exact .pure ⟨hst, fun _ => hrt.mono hle⟩
          | [], some body => exact ha _ (hd body rfl) t hst hrt
          | _ :: _, _ => exact whole

end Runs

end Replay

end SsaReplay
