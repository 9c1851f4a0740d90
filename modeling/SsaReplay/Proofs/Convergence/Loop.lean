import SsaReplay.Proofs.Convergence.Bound
import SsaReplay.Proofs.Renumbering.Candidates
import SsaReplay.Proofs.Stability
import SsaReplay.Proofs.Triple

namespace SsaReplay

namespace Bindings

-- The number of candidates, over all variables.
def total (b : Bindings) : Nat := (b.entries.flatMap fun e => e.2.members).length

theorem common?_sublist {x : VariableId} {values found : ValueSet} {rest : List Bindings}
    (h : common? x values rest = some found) : found.members.Sublist values.members := by
  induction rest generalizing values with
  | nil =>
      obtain rfl := Option.some.inj h
      exact .refl _
  | cons b rest ih =>
      simp only [common?] at h
      cases hb : b.lookup x with
      | none => simp [hb] at h
      | some held =>
          simp only [hb] at h
          exact (ih h).trans List.filter_sublist

-- Entries of which none is dropped and none grows are fewer or as they were.
theorem total_shrunk {shrunk : VariableId × ValueSet → Option ValueSet}
    (entries : List (VariableId × ValueSet))
    (h : ∀ e ∈ entries, ∃ found, shrunk e = some found ∧ found.members.Sublist e.2.members) :
    entries.filterMap (fun e => (shrunk e).map (e.1, ·)) = entries ∨
      ((entries.filterMap fun e => (shrunk e).map (e.1, ·)).flatMap fun e => e.2.members).length <
        (entries.flatMap fun e => e.2.members).length := by
  induction entries with
  | nil => exact .inl rfl
  | cons e rest ih =>
      obtain ⟨⟨found, hfound, hsub⟩, hrest⟩ := List.forall_mem_cons.mp h
      have hsize := hsub.length_le
      simp only [List.filterMap_cons, hfound, Option.map_some, List.flatMap_cons,
        List.length_append]
      rcases ih hrest with same | fewer
      · by_cases hlt : found.members.length < e.2.members.length
        · right
          rw [same]
          omega
        · left
          have hmembers : found.members = e.2.members :=
            hsub.eq_of_length (Nat.le_antisymm hsize (Nat.le_of_not_lt hlt))
          obtain rfl : found = e.2 := ValueSet.ext fun v => by
            change v ∈ found.members ↔ v ∈ e.2.members
            rw [hmembers]
          rw [same]
      · right
        omega

-- A merge with paths on which nothing is lost changes nothing, or leaves fewer candidates.
theorem total_lt_of_meet {m refined : Bindings} {others : List Bindings}
    (h : meet (m :: others) = .ok refined) (covers : ∀ b ∈ others, b.Covers m)
    (changed : refined ≠ m) : refined.total < m.total := by
  simp only [meet] at h
  split at h
  · exact absurd h (by simp)
  · obtain rfl := Except.ok.inj h
    have kept : ∀ e ∈ m.entries, ∃ found, common? e.1 e.2 others = some found ∧
        found.members.Sublist e.2.members := by
      intro e he
      have bound : m.binds e.1 = true := Option.isSome_of_eq_some (mem_entries.mp he)
      obtain ⟨found, hf⟩ := exists_common? (fun b hb => covers b hb e.1 bound) e.2
      exact ⟨found, hf, common?_sublist hf⟩
    refine (total_shrunk m.entries kept).resolve_left fun same => changed ?_
    exact ext fun x => congrArg (List.lookup x) same

end Bindings

namespace Replay

open SsaReplay.Yul (Block Expr)

-- The parts of a loop that stands in a program.
def LoopParts.ofBlocks (ctx : Context) (condition? : Option Expr) (body : Block)
    (postEmpty : Bool) (post : Block) : LoopParts :=
  ⟨condition?, replayBlock ctx body, postEmpty, replayBlock ctx post⟩

-- From a pass in a state with a mapping at the header, the passes come to another one.
-- None of those between them is stable.
inductive Reaches (ctx : Context) (header : BlockId) (warnings : Nat) (parts : LoopParts) :
    Nat → Bindings → State → Nat → Bindings → State → Prop
  | here {i : Nat} {m : Bindings} {s : State} : Reaches ctx header warnings parts i m s i m s
  | pass {i j : Nat} {m refined m' : Bindings} {frame : LoopFrame} {s u s' : State}
      (run : passOver ctx header warnings parts i m s = .ok frame u)
      (meets : Bindings.meet (m :: frame.backEdges) = .ok refined) (unstable : refined ≠ m)
      (rest : Reaches ctx header warnings parts (i + 1) refined
        (u.log ctx.site (.merged header refined)) j m' s') :
      Reaches ctx header warnings parts i m s j m' s'

-- As many passes as are allowed are made, and none of them is stable.
def Exhausted (ctx : Context) (parts : LoopParts) (s : State) : Prop :=
  ∃ m u, Reaches ctx s.block s.warnings.length parts 0 s.bindings s
    ctx.settings.maxLoopIterations m u

-- The replay does not stop for want of passes.
def Halt.Otherwise (h : Halt) : Prop :=
  ∀ f, h = .mismatch f → f.mismatch.code ≠ .loopDidNotConverge

variable {ctx : Context} {s t u : State}

-- A step that gets through, or stops for another reason.
def Settles {α : Type} (x : Walk α) : Prop :=
  ∀ s, ComesTo (fun _ => True) Halt.Otherwise x s fun _ _ => True

namespace Settles

variable {α β : Type} {x : Walk α} {f : α → Walk β}

theorem ne_error (h : Settles x) {f : Finding} (hx : x s = .error (.mismatch f) t) :
    f.mismatch.code ≠ .loopDidNotConverge := by
  have outcome := h s trivial
  rw [hx] at outcome
  exact outcome.2 f rfl

theorem pure (a : α) : Settles (pure a : Walk α) := fun _ => .pure trivial

theorem modify (f : State → State) : Settles (modify f : Walk Unit) :=
  fun _ => .modify (fun _ => trivial) trivial

theorem bind (hx : Settles x) (hf : ∀ a, Settles (f a)) : Settles (x >>= f) :=
  fun s => .bind ((hx s).mono fun a t _ => hf a t)

theorem ite {c : Prop} [Decidable c] {y : Walk α} (hx : Settles x) (hy : Settles y) :
    Settles (if c then x else y) :=
  fun s => .ite (fun _ => hx s) fun _ => hy s

theorem reject {m : Mismatch} {l : Location} (h : m.code ≠ .loopDidNotConverge) :
    Settles (reject ctx m l : Walk α) := by
  refine bind (modify _) fun _ s => .throw fun f hf => ?_
  obtain rfl := Halt.mismatch.inj hf
  exact h

theorem blockData (b : BlockId) : Settles (blockData ctx b) := by
  unfold Replay.blockData
  cases ctx.graph.block? b with
  | none => exact reject (by simp [Mismatch.code])
  | some data => exact pure data

theorem merge (join : BlockId) (contributions : List Bindings) :
    Settles (merge ctx join contributions) := by
  unfold Replay.merge
  cases Bindings.meet contributions with
  | error conflict => exact reject (by simp [Mismatch.code])
  | ok merged => exact bind (modify _) fun _ => pure merged

theorem checkPhiOwnership (join : BlockId) (bindings : Bindings) :
    Settles (checkPhiOwnership ctx join bindings) := by
  refine ite (bind (blockData join) fun data => ?_) (pure ())
  split
  · exact reject (by simp [Mismatch.code])
  · exact pure ()

theorem advance (source target : BlockId) (bindings : Bindings) :
    Settles (advance ctx source target bindings) := by
  refine bind (bind (blockData source) fun _ => bind (blockData target) fun _ => ?_) fun _ =>
    bind (modify _) fun _ => modify _
  exact ite (pure ()) (reject (by simp [Mismatch.code]))

theorem settle (header : BlockId) (entry : Bindings) (frame : LoopFrame) :
    Settles (settle ctx header entry frame) := by
  refine bind (checkPhiOwnership header entry) fun _ => ?_
  unfold leaveLoop
  cases frame.exits.first? with
  | none => exact pure false
  | some edge =>
      exact bind (merge edge.2 frame.exits.bindings) fun merged =>
        bind (checkPhiOwnership edge.2 merged) fun _ =>
          bind (advance edge.1 edge.2 merged) fun _ => pure true

end Settles

theorem bind_of_error {α β : Type} {x : Walk α} {f : α → Walk β} {h : Halt}
    (hx : x s = .error h t) : (x >>= f) s = .error h t := by
  change EStateM.bind x f s = _
  simp only [EStateM.bind, hx]

section Iterate

variable {parts : LoopParts} {header : BlockId} {warnings : Nat}

-- Where the passes stop for want of further ones, as many are made as there are left, or
-- one of them stops for that reason itself.
theorem reaches_of_error {f : Finding} {remaining i : Nat} {m : Bindings}
    (hf : f.mismatch.code = .loopDidNotConverge)
    (h : iterate ctx header warnings parts remaining i m s = .error (.mismatch f) t) :
    (∃ m' u, Reaches ctx header warnings parts i m s (i + remaining) m' u) ∨
      ∃ j m' u, Reaches ctx header warnings parts i m s j m' u ∧
        passOver ctx header warnings parts j m' u = .error (.mismatch f) t := by
  induction remaining generalizing i m s with
  | zero => exact .inl ⟨m, s, .here⟩
  | succ remaining ih =>
      rw [iterate_succ] at h
      cases hpass : passOver ctx header warnings parts i m s with
      | error e u =>
          rw [bind_of_error hpass] at h
          obtain ⟨rfl, rfl⟩ := EStateM.Result.error.inj h
          exact .inr ⟨i, m, s, .here, hpass⟩
      | ok frame u =>
          rw [bind_of_ok hpass] at h
          cases hmerge : merge ctx header (m :: frame.backEdges) u with
          | error e v =>
              rw [bind_of_error hmerge] at h
              obtain ⟨rfl, rfl⟩ := EStateM.Result.error.inj h
              exact absurd hf ((Settles.merge _ _).ne_error hmerge)
          | ok refined v =>
              rw [bind_of_ok hmerge] at h
              obtain ⟨meets, rfl⟩ := merge_eq_ok.mp hmerge
              by_cases stable : refined = m
              · rw [if_pos stable] at h
                exact absurd hf ((Settles.settle _ _ _).ne_error h)
              · rw [if_neg stable] at h
                rcases ih h with ⟨m', w, reaches⟩ | ⟨j, m', w, reaches, stops⟩
                · refine .inl ⟨m', w, .pass hpass meets stable ?_⟩
                  rwa [Nat.add_right_comm, Nat.add_assoc] at reaches
                · exact .inr ⟨j, m', w, .pass hpass meets stable reaches, stops⟩

variable (hb : Lasting ctx parts.body) (hp : Lasting ctx parts.post)

include hb hp

-- A pass that is not stable leaves the same variables bound, to fewer candidates.
theorem shrinks_of_pass {i : Nat} {m refined : Bindings} {frame : LoopFrame}
    (h : passOver ctx header warnings parts i m s = .ok frame u)
    (meets : Bindings.meet (m :: frame.backEdges) = .ok refined) (unstable : refined ≠ m) :
    refined.Refines m ∧ refined.binds = m.binds ∧ refined.total < m.total := by
  obtain ⟨-, covers⟩ := (loopPassed_of_ok h).covers hb hp (.refl m)
  have refines := Bindings.refines_of_meet meets List.mem_cons_self
  have kept : refined.Covers m :=
    Bindings.covers_of_meet meets (by simp) (List.forall_mem_cons.mpr ⟨.refl m, covers⟩)
  refine ⟨refines, funext fun x => Bool.eq_iff_iff.mpr ⟨fun hx => ?_, kept x⟩,
    Bindings.total_lt_of_meet meets covers unstable⟩
  obtain ⟨held, hl⟩ := Option.isSome_iff_exists.mp hx
  obtain ⟨wider, hw, -⟩ := refines x held hl
  exact Option.isSome_of_eq_some hw

theorem Reaches.total_le {i j : Nat} {m m' : Bindings} {s' : State}
    (h : Reaches ctx header warnings parts i m s j m' s') : j + m'.total ≤ i + m.total := by
  induction h with
  | here => exact Nat.le_refl _
  | pass run meets unstable rest ih =>
      have fewer := (shrinks_of_pass hb hp run meets unstable).2.2
      omega

end Iterate

-- Each pass over a loop that is not the last one leaves the same variables bound, to fewer
-- candidates. So there are no more passes than candidates, and when more passes are allowed,
-- a loop is never given up; if it is reported that one is, it is one inside.
theorem replayLoop_converges {condition? : Option Expr} {body post : Block} {postEmpty : Bool} :
    (∀ header warnings i m before frame after refined,
      passOver ctx header warnings (.ofBlocks ctx condition? body postEmpty post) i m before =
        .ok frame after →
      Bindings.meet (m :: frame.backEdges) = .ok refined → refined ≠ m →
        refined.Refines m ∧ refined.binds = m.binds ∧ refined.total < m.total) ∧
    (s.bindings.total < ctx.settings.maxLoopIterations →
      ¬Exhausted ctx (.ofBlocks ctx condition? body postEmpty post) s ∧
      ∀ f t, replayLoop ctx (.ofBlocks ctx condition? body postEmpty post) s =
        .error (.mismatch f) t → f.mismatch.code = .loopDidNotConverge →
          ∃ i m u,
            Reaches ctx s.block s.warnings.length (.ofBlocks ctx condition? body postEmpty post) 0
              s.bindings s i m u ∧
            passOver ctx s.block s.warnings.length (.ofBlocks ctx condition? body postEmpty post) i
              m u = .error (.mismatch f) t) := by
  have lasting := fun b => lasting_compositional.ofBlock ctx b (.inl trivial)
  generalize hparts : LoopParts.ofBlocks ctx condition? body postEmpty post = parts
  have hb : Lasting ctx parts.body := hparts ▸ lasting body
  have hp : Lasting ctx parts.post := hparts ▸ lasting post
  refine ⟨fun _ _ _ _ _ _ _ _ => shrinks_of_pass hb hp, fun hlt => ?_⟩
  have enough : ¬Exhausted ctx parts s := by
    rintro ⟨m, u, reaches⟩
    have fewer := reaches.total_le hb hp
    omega
  refine ⟨enough, fun f t h hf => ?_⟩
  have iterated : iterate ctx s.block s.warnings.length parts ctx.settings.maxLoopIterations 0
      s.bindings s = .error (.mismatch f) t := h
  refine (reaches_of_error hf iterated).resolve_left fun ⟨m, u, reaches⟩ => enough ⟨m, u, ?_⟩
  rwa [Nat.zero_add] at reaches

end Replay

namespace Counting

open Replay

-- The count is the size of the input or the phi of the header. One of the two is dropped
-- after the first pass.
theorem replayLoop_converges_here :
    atHeader.bindings.total < (subject.context .default).settings.maxLoopIterations ∧
      ¬Exhausted (subject.context .default) loopParts atHeader ∧
        ∃ frame after refined,
          passOver (subject.context .default) ⟨1⟩ 0 loopParts 0 atHeader.bindings atHeader =
            .ok frame after ∧
          Bindings.meet (atHeader.bindings :: frame.backEdges) = .ok refined ∧
            refined ≠ atHeader.bindings ∧ refined.total < atHeader.bindings.total := by
  have narrowed : (match passOver (subject.context .default) ⟨1⟩ 0 loopParts 0 atHeader.bindings
        atHeader with
      | .ok frame _ => (Bindings.meet (atHeader.bindings :: frame.backEdges)).toOption.any
          (fun refined => refined ≠ atHeader.bindings)
      | .error _ _ => false) = true := by decide +kernel
  have few : atHeader.bindings.total < (subject.context .default).settings.maxLoopIterations := by
    decide +kernel
  obtain ⟨shrinks, converges⟩ :=
    @replayLoop_converges (subject.context .default) atHeader (some (.ident "n")) loopBody loopPost
      false
  refine ⟨few, (converges few).1, ?_⟩
  cases hpass : passOver (subject.context .default) ⟨1⟩ 0 loopParts 0 atHeader.bindings
      atHeader with
  | error e u => simp [hpass] at narrowed
  | ok frame after =>
      simp only [hpass] at narrowed
      obtain ⟨refined, hmeet, hne⟩ := (Option.any_eq_true _ _).mp narrowed
      cases hm : Bindings.meet (atHeader.bindings :: frame.backEdges) with
      | error conflict => simp [hm, Except.toOption] at hmeet
      | ok merged =>
          obtain rfl : merged = refined := by simpa [hm, Except.toOption] using hmeet
          have changed := of_decide_eq_true hne
          exact ⟨frame, after, merged, rfl, hm, changed,
            (shrinks _ _ _ _ _ _ _ _ hpass hm changed).2.2⟩

end Counting

end SsaReplay
