import SsaReplay.Proofs.Outcome.Branch

namespace SsaReplay.Replay

open SsaReplay.Yul (Expr)

variable {allowed : Mismatch → Prop} {ctx : Context} {scope? : Option ScopeId}
  {duties : List Duty} {r r₁ r₂ r' : Bounds} {s t : State} {source target header : BlockId}

namespace LoopFrame

variable {d d' : Duty} {f : LoopFrame}

theorem meets_start (header : BlockId) : (start header).Meets allowed ctx.graph d := by
  refine ⟨fun way source target h => ?_, fun way b hb => ?_, nofun, nofun, nofun⟩
  · cases way <;> cases h
  · cases way <;> cases hb

theorem Meets.mono (h : f.Meets allowed ctx.graph d) (hle : d.bounds.Le d'.bounds)
    (hc : d'.collecting = true → d.collecting = true) : f.Meets allowed ctx.graph d' :=
  ⟨h.vouched, fun way b hb => (h.bounds way b hb).mono hle,
    fun b hb x hx => h.backEdges b hb x (hle.lower x hx), h.exits,
    fun hd => h.continues (hc hd)⟩

theorem Meets.note (h : f.Meets allowed ctx.graph d) (way : LoopWay)
    (vouched : Vouched allowed ctx.graph source target) {b : Bindings} (hb : d.bounds.Holds b) :
    (f.note way source target b).Meets allowed ctx.graph d := by
  refine ⟨fun other source' target' he => ?_, fun other c hc => ?_, fun c hc => ?_, fun he => ?_,
    fun hd he => ?_⟩
  · rcases first?_note he with hf | hnew
    · exact h.vouched other source' target' hf
    · obtain ⟨rfl, rfl⟩ := Prod.mk.inj hnew
      exact vouched
  · by_cases hw : other = way
    · subst hw
      rw [edges_note] at hc
      rcases List.mem_append.mp hc with hc | hc
      · exact h.bounds other c hc
      · exact List.mem_singleton.mp hc ▸ hb
    · rw [edges_note_of_ne _ _ _ _ _ hw] at hc
      exact h.bounds other c hc
  · rw [note_backEdges] at hc
    exact h.backEdges c hc
  · cases way with
    | exits =>
        change (f.edges .exits).bindings ++ [b] ≠ []
        simp
    | continues => exact h.exits he
  · cases way with
    | exits => exact h.continues hd he
    | continues =>
        change (f.edges .continues).bindings ++ [b] ≠ []
        simp

end LoopFrame

namespace Stands

variable {d : Duty}

-- The frame of the innermost loop meets the first of the duties.
theorem of_cons (hs : Stands allowed ctx scope? (d :: duties) s) :
    ∃ f outer, s.loops = f :: outer ∧ f.Meets allowed ctx.graph d ∧
      List.Forall₂ (LoopFrame.Meets allowed ctx.graph) duties outer := by
  obtain ⟨scope, here, loops⟩ := hs
  cases hl : s.loops with
  | nil =>
      rw [hl] at loops
      cases loops
  | cons f outer =>
      rw [hl] at loops
      cases loops with
      | cons hf ho => exact ⟨f, outer, rfl, hf, ho⟩

theorem set_loops {duties' : List Duty} {loops : List LoopFrame}
    (hs : Stands allowed ctx scope? duties s)
    (hl : List.Forall₂ (LoopFrame.Meets allowed ctx.graph) duties' loops) :
    Stands allowed ctx scope? duties' { s with loops } :=
  ⟨hs.scope, hs.here, hl⟩

end Stands

namespace Ends

theorem innermost {Q : LoopFrame → State → Prop} (hq : ∀ f outer, s.loops = f :: outer → Q f s) :
    Ends allowed innermost s Q := by
  refine bind (get ?_)
  cases hl : s.loops with
  | nil => exact noOpenLoop
  | cons f outer => exact pure (hq f outer hl)

theorem setInnermost {frame : LoopFrame} {Q : Unit → State → Prop}
    (hq : ∀ f outer, s.loops = f :: outer → Q () { s with loops := frame :: outer }) :
    Ends allowed (setInnermost frame) s Q := by
  refine bind (get ?_)
  cases hl : s.loops with
  | nil => exact noOpenLoop
  | cons f outer => exact modify (fun _ hm => hm) (hq f outer hl)

theorem withLoop {header : BlockId} {act : Walk Unit} {Q : LoopFrame → State → Prop}
    (h : Ends allowed act { s with loops := .start header :: s.loops }
      fun _ t => ∀ f outer, t.loops = f :: outer → Q f { t with loops := outer }) :
    Ends allowed (withLoop header act) s Q := by
  refine bind (modify (fun _ hm => hm) (ends_iff.mpr (.closing (fun _ ht => ht) (bind ?_))))
  refine h.mono fun _ t ht => innermost fun f outer hl => ?_
  rw [hl, List.tail_cons]
  exact ht f outer hl

theorem recordEdge {way : LoopWay} {b : Bindings} {Q : Unit → State → Prop}
    (lenient : Lenient allowed) (vouched : Vouched allowed ctx.graph source target)
    (hq : ∀ f outer, s.loops = f :: outer →
      Q () { s.log ctx.site (.loopEdge way f.header source target) with
        loops := f.note way source target b :: outer }) :
    Ends allowed (recordEdge ctx way source target b) s Q := by
  refine bind (checkEdge vouched fun _ => bind (innermost fun f outer hl => ?_))
  refine ite (fun _ => reject (lenient _ rfl rfl)) fun _ => bind (record (setInnermost ?_))
  intro f' outer' hl'
  obtain ⟨-, rfl⟩ := List.cons.inj (hl.symm.trans hl')
  exact hq f outer hl

end Ends

namespace Runs

variable (tol : Tolerant allowed ctx)

include tol

-- An edge of the innermost loop is taken on, with bindings that its duty allows.
theorem recordEdge {d : Duty} {way : LoopWay} {b : Bindings}
    (vouched : Vouched allowed ctx.graph source target) (hb : d.bounds.Holds b)
    (hs : Stands allowed ctx scope? (d :: duties) s) :
    Ends allowed (recordEdge ctx way source target b) s fun _ t =>
      Stands allowed ctx scope? (d :: duties) t := by
  refine .recordEdge tol.lenient vouched fun f outer hl => ?_
  obtain ⟨f', outer', hl', hf, ho⟩ := hs.of_cons
  obtain ⟨rfl, rfl⟩ := List.cons.inj (hl.symm.trans hl')
  exact (hs.log _ _).set_loops (.cons (hf.note way vouched hb) ho)

theorem jumpInLoop {d : Duty} {way : LoopWay} (hr : d.bounds.Holds s.bindings)
    (hs : Stands allowed ctx scope? (d :: duties) s) :
    Ends allowed (jumpInLoop ctx way) s fun _ t => Stands allowed ctx scope? (d :: duties) t := by
  refine .bind (.get (.bind (.leaveByJump tol.lenient hs.here fun target hx => ?_)))
  have vouched : Vouched allowed ctx.graph s.block target :=
    tol.vouched hx (by simp [Graph.Exit.targets])
  refine .bind (.carry vouched fun b hcarry => ?_)
  exact recordEdge tol vouched (Bounds.Holds.carries hr hcarry) ((hs.log _ _).log _ _)

theorem replayLoopJump (way : LoopWay) (fits : ∀ d ∈ duties.head?, r.Le d.bounds) :
    Runs allowed ctx scope? duties r r' (replayLoopJump ctx way) := by
  intro s hs hr
  have outside : allowed (.outsideLoop way) := by cases way <;> exact tol.lenient _ rfl rfl
  refine .bind (.get (.ite (fun _ => .rejectOperation outside) fun hopen => ?_))
  cases duties with
  | nil =>
      have hl := hs.loops
      cases hloops : s.loops with
      | nil => simp [hloops] at hopen
      | cons f outer =>
          rw [hloops] at hl
          cases hl
  | cons d duties =>
      exact .bind ((jumpInLoop tol (hr.mono (fits d rfl)) hs).mono fun _ t ht => .pure ⟨ht, nofun⟩)

theorem replayLoopCondition {condition? : Option Expr} {d : Duty} (hle : r.Le d.bounds)
    (reads : ∀ e ∈ condition?, Reads allowed ctx scope? r e.names) :
    Runs allowed ctx scope? (d :: duties) r r (replayLoopCondition ctx condition?) := by
  intro s hs hr
  cases condition? with
  | none => exact .pure ⟨hs, fun _ => hr⟩
  | some e =>
  have readable := (reads e rfl).readable hs.scope hr
  refine .bind ((Ends.replayOne tol.lenient e hs.here readable).mono fun values? t ht => ?_)
  have hst := hs.abides ht
  cases values? with
  | none => exact .pure ⟨hst, nofun⟩
  | some candidates =>
  refine .bind (.leaveByBranch tol.lenient hst.here fun branch hx => ?_)
  refine .bind ((Ends.reconcileCondition tol.lenient).mono fun _ u hu => .bind (.get ?_))
  have hsu := (hst.log ctx.site (.left t.block (.branch branch))).abides hu
  have hru : r.Holds u.bindings := hr.congr (hu.bound.trans ht.bound)
  have hblock : u.block = t.block := hu.block
  have zero : Vouched allowed ctx.graph u.block branch.zero :=
    hblock ▸ tol.vouched hx (by simp [Graph.Exit.targets])
  have nonZero : Vouched allowed ctx.graph u.block branch.nonZero :=
    hblock ▸ tol.vouched hx (by simp [Graph.Exit.targets])
  refine .bind (.carry zero fun leaving hcarry => ?_)
  have hleaving : d.bounds.Holds leaving := (Bounds.Holds.carries hru hcarry).mono hle
  refine .bind (.recordEdge tol.lenient zero fun f outer hl => .bind (.get ?_))
  obtain ⟨f', outer', hl', hf, ho⟩ := (hsu.log ctx.site
    (.carried u.block branch.zero u.bindings leaving)).of_cons
  obtain ⟨rfl, rfl⟩ := List.cons.inj (hl.symm.trans hl')
  refine .bind (.advance nonZero fun _ => .pure ⟨?_, fun _ => hru⟩)
  have noted := ((hsu.log ctx.site (.carried u.block branch.zero u.bindings leaving)).log ctx.site
    (.loopEdge .exits f.header u.block branch.zero)).set_loops
      (.cons (hf.note .exits zero hleaving) ho)
  exact noted.follow nonZero u.bindings

theorem replayPost {post : Walk Bool}
    (hp : Runs allowed ctx scope? (⟨r', false⟩ :: duties) r₂ r' post)
    (hs : Stands allowed ctx scope? (⟨r', false⟩ :: duties) s) (hr : r₂.Holds s.bindings) :
    Ends allowed (replayPost ctx header post) s fun _ t =>
      Stands allowed ctx scope? (⟨r', false⟩ :: duties) t := by
  refine .bind ((hp s hs hr).mono fun falls t ht => .ite (fun hfalls => ?_) fun _ => .pure ht.1)
  refine .bind (.get (.bind (.leaveByJump tol.lenient ht.1.here fun target hx => ?_)))
  refine .ite (fun _ => .rejectOperation (tol.lenient _ rfl rfl)) fun htarget => ?_
  obtain rfl : target = header := not_not.mp htarget
  have vouched : Vouched allowed ctx.graph t.block target :=
    tol.vouched hx (by simp [Graph.Exit.targets])
  refine .bind (.checkEdge vouched fun _ => .bind (.carry vouched fun b hcarry => ?_))
  have hb : r'.Holds b := Bounds.Holds.carries (ht.2 hfalls) hcarry
  refine .bind (.innermost fun f outer hl => .setInnermost fun f' outer' hl' => ?_)
  obtain ⟨rfl, rfl⟩ := List.cons.inj (hl'.symm.trans hl)
  obtain ⟨f, outer, hl, hf, ho⟩ := ht.1.of_cons
  obtain ⟨rfl, rfl⟩ := List.cons.inj (hl'.symm.trans hl)
  have edges : ∀ way, ({ f' with backEdges := f'.backEdges ++ [b] } : LoopFrame).edges way =
      f'.edges way := fun way => by cases way <;> rfl
  refine ((ht.1.log _ _).log _ _).set_loops
    (.cons ⟨fun way => ?_, fun way => ?_, fun c hc x hx => ?_,
    hf.exits, fun h => absurd h Bool.false_ne_true⟩ ho)
  · rw [edges]
    exact hf.vouched way
  · rw [edges]
    exact hf.bounds way
  · rcases List.mem_append.mp hc with hc | hc
    · exact hf.backEdges c hc x hx
    · exact List.mem_singleton.mp hc ▸ hb.lower x hx

theorem replayContinues {postEmpty : Bool} {post : Walk Bool} (hle : r₂.Le r')
    (hp : Runs allowed ctx scope? (⟨r', false⟩ :: duties) r₂ r' post)
    (hs : Stands allowed ctx scope? (⟨r₂, true⟩ :: duties) s) :
    Ends allowed (replayContinues ctx header postEmpty post) s fun _ t =>
      Stands allowed ctx scope? (⟨r', false⟩ :: duties) t := by
  obtain ⟨f, outer, hl, hf, ho⟩ := hs.of_cons
  have later : f.Meets allowed ctx.graph ⟨r', false⟩ :=
    hf.mono hle fun h => absurd h Bool.false_ne_true
  refine .bind (.innermost fun f' outer' hl' => ?_)
  obtain ⟨rfl, rfl⟩ := List.cons.inj (hl.symm.trans hl')
  cases he : f.continues.first? with
  | none =>
      have unchanged : { s with loops := f :: outer } = s := by rw [← hl]
      exact .pure (unchanged ▸ hs.set_loops (.cons later ho))
  | some edge =>
      obtain ⟨source, target⟩ := edge
      have vouched : Vouched allowed ctx.graph source target :=
        hf.vouched .continues source target he
      -- the edges collected so far are used up
      have used : ∀ backEdges : List Bindings,
          (∀ b ∈ backEdges, ∀ x, r'.lower x → b.binds x = true) → LoopFrame.Meets allowed ctx.graph
            ⟨r', false⟩ { f with continues := { f.continues with bindings := [] }, backEdges } := by
        intro backEdges hback
        refine ⟨fun way => ?_, fun way b hb => ?_, hback, hf.exits,
          fun h => absurd h Bool.false_ne_true⟩
        · cases way with
          | exits => exact later.vouched .exits
          | continues => exact later.vouched .continues
        · cases way with
          | exits => exact later.bounds .exits b hb
          | continues => exact absurd hb List.not_mem_nil
      refine .ite (fun _ => .ite (fun _ => .setInnermost fun f' outer' hl' => ?_) fun _ => ?_)
        fun _ => .bind (.setInnermost fun f' outer' hl' => ?_)
      · obtain ⟨-, rfl⟩ := List.cons.inj (hl.symm.trans hl')
        refine hs.set_loops (.cons (used f.continues.bindings fun b hb x hx => ?_) ho)
        exact (later.bounds .continues b hb).lower x hx
      · exact .reject (tol.lenient _ rfl rfl)
      · obtain ⟨-, rfl⟩ := List.cons.inj (hl.symm.trans hl')
        have hs' : Stands allowed ctx scope? (⟨r', false⟩ :: duties) _ :=
          hs.set_loops (.cons (used f.backEdges later.backEdges) ho)
        refine .bind (.merge tol.lenient fun merged hm => ?_)
        have hmerged : r₂.Holds merged :=
          Bounds.Holds.meet_all (hf.continues rfl (he ▸ rfl)) (hf.bounds .continues) hm
        refine .bind (.checkPhiOwnership tol.lenient vouched.finish (.bind (.advance vouched ?_)))
        intro _
        exact replayPost tol hp ((hs'.log _ _).follow vouched merged) hmerged

-- One pass: the condition within the first bounds, the body from there to the second
-- ones, the post block from there to the third.
theorem replayPass {parts : LoopParts} (hle : r₁.Le r₂) (hle' : r₂.Le r')
    (reads : ∀ e ∈ parts.condition?, Reads allowed ctx scope? r₁ e.names)
    (hb : Runs allowed ctx scope? (⟨r₂, true⟩ :: duties) r₁ r₂ parts.body)
    (hp : Runs allowed ctx scope? (⟨r', false⟩ :: duties) r₂ r' parts.post)
    (hs : Stands allowed ctx scope? (⟨r₂, true⟩ :: duties) s) (hr : r₁.Holds s.bindings) :
    Ends allowed (replayPass ctx header parts) s fun _ t =>
      Stands allowed ctx scope? (⟨r', false⟩ :: duties) t := by
  refine .bind ((replayLoopCondition tol hle reads s hs hr).mono fun reached t ht => ?_)
  refine .ite (fun hreached => ?_) fun _ => .pure ?_
  · refine .bind ((hb t ht.1 (ht.2 hreached)).mono fun falls u hu => ?_)
    refine .ite (fun hfalls => .bind ?_) fun _ => replayContinues tol hle' hp hu.1
    exact (jumpInLoop tol (hu.2 hfalls) hu.1).mono fun _ v hv => replayContinues tol hle' hp hv
  · obtain ⟨f, outer, hl, hf, ho⟩ := ht.1.of_cons
    have unchanged : { t with loops := f :: outer } = t := by rw [← hl]
    exact unchanged ▸ ht.1.set_loops (.cons (hf.mono hle' fun h => absurd h Bool.false_ne_true) ho)

theorem leaveLoop {f : LoopFrame} (hf : f.Meets allowed ctx.graph ⟨r', false⟩)
    (hs : Stands allowed ctx scope? duties s) :
    Ends allowed (leaveLoop ctx f.exits) s fun falls t =>
      Stands allowed ctx scope? duties t ∧ (falls = true → r'.Holds t.bindings) := by
  unfold Replay.leaveLoop
  cases he : f.exits.first? with
  | none => exact .pure ⟨hs, fun h => absurd h Bool.false_ne_true⟩
  | some edge =>
      obtain ⟨source, target⟩ := edge
      have vouched : Vouched allowed ctx.graph source target := hf.vouched .exits source target he
      refine .bind (.merge tol.lenient fun merged hm => ?_)
      have hmerged : r'.Holds merged :=
        Bounds.Holds.meet_all (hf.exits (he ▸ rfl)) (hf.bounds .exits) hm
      refine .bind (.checkPhiOwnership tol.lenient vouched.finish ?_)
      exact .bind (.advance vouched fun _ =>
        .pure ⟨(hs.log _ _).follow vouched merged, fun _ => hmerged⟩)

-- All passes begin within the first bounds, since every one begins with what is left of
-- the bindings that the one before began with.
theorem iterate {parts : LoopParts} {warnings : Nat} (hle : r₁.Le r₂) (hle' : r₂.Le r')
    (hlow : ∀ x, r₁.lower x → r'.lower x)
    (reads : ∀ e ∈ parts.condition?, Reads allowed ctx scope? r₁ e.names)
    (hb : Runs allowed ctx scope? (⟨r₂, true⟩ :: duties) r₁ r₂ parts.body)
    (hp : Runs allowed ctx scope? (⟨r', false⟩ :: duties) r₂ r' parts.post)
    (atHeader : ctx.graph.block? header = none → allowed (.absentBlock header))
    (remaining iteration : Nat) {entry : Bindings} (hentry : r₁.Holds entry) {s : State}
    (hs : Stands allowed ctx scope? duties s) :
    Ends allowed (iterate ctx header warnings parts remaining iteration entry) s fun falls t =>
      Stands allowed ctx scope? duties t ∧ (falls = true → r'.Holds t.bindings) := by
  induction remaining generalizing iteration entry s with
  | zero => exact .reject (tol.lenient _ rfl rfl)
  | succ remaining ih =>
      refine .bind (.modify (fun _ hm => List.mem_of_mem_take hm) (.bind (.record (.bind ?_))))
      have begun : Stands allowed ctx scope? (⟨r₂, true⟩ :: duties)
          (s.beginPass ctx.site header warnings iteration entry) :=
        ⟨hs.scope, atHeader, .cons (LoopFrame.meets_start header) hs.loops⟩
      refine .withLoop ((replayPass tol hle hle' reads hb hp begun hentry).mono
        fun _ t ht f' outer' hl' => ?_)
      obtain ⟨f, outer, hl, hf, ho⟩ := ht.of_cons
      obtain ⟨rfl, rfl⟩ := List.cons.inj (hl.symm.trans hl')
      have hst : Stands allowed ctx scope? duties { t with loops := outer } := ht.set_loops ho
      refine .bind (.merge tol.lenient fun refined hm => .ite (fun _ => ?_) fun _ => ?_)
      · refine .bind (.checkPhiOwnership tol.lenient atHeader ?_)
        exact leaveLoop tol hf (hst.log _ _)
      · refine ih (iteration + 1) (hentry.meet (fun b hmem x hx => ?_) hm) (hst.log _ _)
        exact hf.backEdges b hmem x (hlow x hx)

theorem replayFor {pre body post : Walk Bool} {condition : Expr} {postEmpty : Bool}
    (hle : r₁.Le r₂) (hle' : r₂.Le r') (hlow : ∀ x, r₁.lower x → r'.lower x)
    (reads : Reads allowed ctx scope? r₁ condition.names)
    (hpre : Runs allowed ctx scope? duties r r₁ pre)
    (hb : Runs allowed ctx scope? (⟨r₂, true⟩ :: duties) r₁ r₂ body)
    (hp : Runs allowed ctx scope? (⟨r', false⟩ :: duties) r₂ r' post) :
    Runs allowed ctx scope? duties r r' (replayFor ctx pre condition body postEmpty post) := by
  intro s hs hr
  refine .bind ((hpre s hs hr).mono fun falls t ht => ?_)
  refine .ite (fun hfalls => ?_) fun _ => .pure ⟨ht.1, fun h => absurd h Bool.false_ne_true⟩
  refine .bind (.get (.bind (.leaveByJump tol.lenient ht.1.here fun header hx => ?_)))
  have vouched : Vouched allowed ctx.graph t.block header :=
    tol.vouched hx (by simp [Graph.Exit.targets])
  refine .bind (.carry vouched fun entry hcarry => ?_)
  have hentry : r₁.Holds entry := Bounds.Holds.carries (ht.2 hfalls) hcarry
  refine .bind (.advance vouched fun _ => ?_)
  have hst := ((ht.1.log ctx.site (.left t.block (.jump header))).log ctx.site
    (.carried t.block header t.bindings entry)).follow vouched entry
  have looped : ∀ condition?, (∀ e ∈ condition?, Reads allowed ctx scope? r₁ e.names) →
      ∀ u, Stands allowed ctx scope? duties u → u.block = header → r₁.Holds u.bindings →
        Ends allowed (Replay.replayLoop ctx ⟨condition?, body, postEmpty, post⟩) u fun falls t =>
          Stands allowed ctx scope? duties t ∧ (falls = true → r'.Holds t.bindings) := by
    intro condition? hreads u hu hblock hru
    refine .bind (.get ?_)
    exact iterate tol hle hle' hlow hreads hb hp hu.here _ 0 hru hu
  cases condition with
  | literal l =>
      refine .bind (.readLiteral tol.lenient fun _ => .ite (fun _ => .pure ⟨hst, fun _ => ?_⟩) ?_)
      · exact (hentry.mono hle).mono hle'
      · exact fun _ => looped none (fun e he => absurd he (Option.not_mem_none e)) _ hst rfl hentry
  | ident name =>
      exact looped _ (fun e he => Option.some.inj he ▸ reads) _ hst rfl hentry
  | call name arguments =>
      exact looped _ (fun e he => Option.some.inj he ▸ reads) _ hst rfl hentry

end Runs

end SsaReplay.Replay
