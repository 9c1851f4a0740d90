import Mathlib.Data.List.Induction
import SsaReplay.Proofs.Linkage

namespace SsaReplay.Graph

namespace ConstructionStep

-- The block that is worked on after a step.
def moves (current : BlockId) : ConstructionStep → BlockId
  | .moveTo b => b
  | _ => current

-- The exit that a step sets, if it sets one, with the block it is set on.
def sets (current : BlockId) : ConstructionStep → List (BlockId × Exit)
  | .exit e => [(current, e)]
  | _ => []

end ConstructionStep

def exitsFrom (current : BlockId) : List ConstructionStep → List (BlockId × Exit)
  | [] => []
  | step :: rest => step.sets current ++ exitsFrom (step.moves current) rest

-- All work begins in the first block.
def workedOn (steps : List ConstructionStep) : BlockId := steps.foldl ConstructionStep.moves ⟨0⟩

-- The exits that steps set, in that order, each with the block it is set on.
def exitsSet (steps : List ConstructionStep) : List (BlockId × Exit) := exitsFrom ⟨0⟩ steps

def Ended (steps : List ConstructionStep) (b : BlockId) : Prop := b ∈ (exitsSet steps).map Prod.fst

instance (steps : List ConstructionStep) (b : BlockId) : Decidable (Ended steps b) :=
  inferInstanceAs (Decidable (b ∈ _))

-- The entries of a block by the exits that were set, once for each way that leads to it.
def entriesOf (exits : List (BlockId × Exit)) (target : BlockId) : List BlockId :=
  exits.flatMap fun set => List.replicate (set.2.targets.count target) set.1

-- The exit of a block is the one set last.
def exitOf (exits : List (BlockId × Exit)) (source : BlockId) : Exit :=
  (exits.reverse.lookup source).getD .mainExit

-- What a step does wrong after others, be it that it finds the block closed or that it
-- takes something else for a phi.
inductive Misused (function? : Option FunctionId) (earlier : List ConstructionStep) :
    ConstructionStep → Misuse → Prop
  | operation {callee : Callee} {inputs : List ValueId} {outputs : Nat}
      (ended : Ended earlier (workedOn earlier)) :
      Misused function? earlier (.operation callee inputs outputs)
        (.alreadyTerminated (workedOn earlier))
  | exit {e : Exit} (ended : Ended earlier (workedOn earlier)) :
      Misused function? earlier (.exit e) (.alreadyTerminated (workedOn earlier))
  | phiArguments {phi : ValueId} {arguments : List ValueId} {c : Construction}
      (run : (Construction.start function?).run? earlier = some c)
      (noPhi : ∀ b old, c.graph.origin? phi ≠ some (.phi b old)) :
      Misused function? earlier (.phiArguments phi arguments) (.notAPhi phi)

def Unmisused (function? : Option FunctionId) (steps : List ConstructionStep) : Prop :=
  ∀ earlier step m, earlier ++ [step] <+: steps → ¬ Misused function? earlier step m

def FirstMisuse (function? : Option FunctionId) (steps : List ConstructionStep) (m : Misuse) :
    Prop :=
  ∃ earlier step, earlier ++ [step] <+: steps ∧ Misused function? earlier step m ∧
    Unmisused function? earlier

-- A graph has the edges that lead along the exits set, each of them on both of its ends.
structure Cfg.RecordsExits (g : Cfg) (steps : List ConstructionStep) : Prop where
  counted : ∀ S T source target, g.block? S = some source → g.block? T = some target →
    target.entries.count S = source.exit.targets.count T
  targets : ∀ S source, g.block? S = some source → ∀ T ∈ source.exit.targets,
    ∃ target, g.block? T = some target
  sources : ∀ T target, g.block? T = some target → ∀ S ∈ target.entries,
    ∃ source, g.block? S = some source
  ordered : ∀ T target, g.block? T = some target → target.entries = entriesOf (exitsSet steps) T
  unended : ∀ b data, g.block? b = some data → ¬ Ended steps b → data.exit = .mainExit ∧
    ∀ T target, g.block? T = some target → b ∉ target.entries
  operations : ∀ earlier callee inputs outputs,
    earlier ++ [.operation callee inputs outputs] <+: steps → ¬ Ended earlier (workedOn earlier)

section Exits

variable {exits : List (BlockId × Exit)} {S T b : BlockId} {e : Exit}

theorem exitsFrom_append_singleton (current : BlockId) (steps : List ConstructionStep)
    (step : ConstructionStep) : exitsFrom current (steps ++ [step]) =
      exitsFrom current steps ++ step.sets (steps.foldl ConstructionStep.moves current) := by
  induction steps generalizing current with
  | nil => simp [exitsFrom]
  | cons first rest ih => simp [exitsFrom, ih]

theorem workedOn_append_singleton (steps : List ConstructionStep) (step : ConstructionStep) :
    workedOn (steps ++ [step]) = step.moves (workedOn steps) := by
  simp [workedOn]

theorem exitsSet_append_singleton (steps : List ConstructionStep) (step : ConstructionStep) :
    exitsSet (steps ++ [step]) = exitsSet steps ++ step.sets (workedOn steps) :=
  exitsFrom_append_singleton ⟨0⟩ steps step

theorem entriesOf_append_singleton : entriesOf (exits ++ [(S, e)]) T =
    entriesOf exits T ++ List.replicate (e.targets.count T) S := by
  simp [entriesOf]

theorem exitOf_append_singleton :
    exitOf (exits ++ [(S, e)]) b = if b = S then e else exitOf exits b := by
  by_cases h : b = S
  · simp [exitOf, h]
  · have hne : (b == S) = false := by simp [h]
    simp [exitOf, List.lookup_cons, hne, h]

theorem entriesOf_eq_nil (h : ∀ set ∈ exits, T ∉ set.2.targets) : entriesOf exits T = [] := by
  apply List.flatMap_eq_nil_iff.mpr
  intro set hset
  have hzero : set.2.targets.count T = 0 := List.count_eq_zero.mpr (h set hset)
  rw [hzero, List.replicate_zero]

theorem mem_of_mem_entriesOf (h : S ∈ entriesOf exits T) : ∃ e, (S, e) ∈ exits := by
  obtain ⟨set, hset, hmem⟩ := List.mem_flatMap.mp h
  have hsource : S = set.1 := List.eq_of_mem_replicate hmem
  exact ⟨set.2, hsource ▸ hset⟩

theorem exitOf_cases (exits : List (BlockId × Exit)) (S : BlockId) :
    (S ∉ exits.map Prod.fst ∧ exitOf exits S = .mainExit) ∨ (S, exitOf exits S) ∈ exits := by
  induction exits using List.reverseRecOn with
  | nil => simp [exitOf]
  | append_singleton exits set ih =>
      obtain ⟨b, e⟩ := set
      rw [exitOf_append_singleton]
      by_cases h : S = b
      · simp [h]
      · rw [if_neg h]
        rcases ih with ⟨hnot, hexit⟩ | hmem
        · left
          simpa [hexit, h] using hnot
        · right
          exact List.mem_append_left _ hmem

theorem exitOf_of_notMem (h : S ∉ exits.map Prod.fst) : exitOf exits S = .mainExit := by
  rcases exitOf_cases exits S with ⟨-, hexit⟩ | hmem
  · exact hexit
  · exact absurd (List.mem_map_of_mem hmem) h

-- A block with one exit is an entry of its targets as often as they are its targets. An
-- exit set once more would be counted, though the first one is not there any longer.
theorem count_entriesOf (h : (exits.map Prod.fst).Nodup) (S T : BlockId) :
    (entriesOf exits T).count S = (exitOf exits S).targets.count T := by
  induction exits using List.reverseRecOn with
  | nil => simp [entriesOf, exitOf, Exit.targets]
  | append_singleton exits set ih =>
      obtain ⟨b, e⟩ := set
      rw [List.map_append, List.nodup_append] at h
      obtain ⟨hnodup, -, hdisjoint⟩ := h
      have hnew : b ∉ exits.map Prod.fst := by
        intro hmem
        exact hdisjoint b hmem b (by simp) rfl
      rw [entriesOf_append_singleton, exitOf_append_singleton, List.count_append, ih hnodup,
        List.count_replicate]
      by_cases hS : S = b
      · subst hS
        rw [exitOf_of_notMem hnew]
        simp [Exit.targets]
      · have hne : (b == S) = false := by simp [Ne.symm hS]
        simp [hS, hne]

end Exits

namespace Cfg

-- What is recorded of edges at a block.
def ends? (g : Cfg) (b : BlockId) : Option (List BlockId × Exit) :=
  (g.block? b).map fun data => (data.entries, data.exit)

variable {g g' : Cfg} {b : BlockId} {data : BasicBlock}

theorem ends?_of_block? (h : g.block? b = some data) :
    g.ends? b = some (data.entries, data.exit) := by
  simp [ends?, h]

theorem exists_block_of_ends? (h : (g.ends? b).isSome) : ∃ data, g.block? b = some data := by
  simpa [ends?, Option.isSome_iff_exists] using h

theorem ends?_of_blocks (h : g'.blocks = g.blocks) (b : BlockId) : g'.ends? b = g.ends? b := by
  simp [ends?, block?, h]

theorem ends?_of_modifyBlock? {f : BasicBlock → BasicBlock} (h : g.modifyBlock? b f = some g')
    (hentries : ∀ data, (f data).entries = data.entries)
    (hexit : ∀ data, (f data).exit = data.exit) (b' : BlockId) : g'.ends? b' = g.ends? b' := by
  unfold ends?
  rw [block?_of_modifyBlock? h]
  by_cases hb : b' = b
  · rw [if_pos hb, Option.map_map]
    congr 1
    funext data
    simp [hentries, hexit]
  · rw [if_neg hb]

end Cfg

namespace Construction

variable {c next : Construction} {exits : List (BlockId × Exit)}

-- The graph has recorded the exits at both ends, and the blocks they close are known.
structure Records (c : Construction) (exits : List (BlockId × Exit)) : Prop where
  closed : ∀ b, b ∈ c.closed ↔ b ∈ exits.map Prod.fst
  ends : ∀ b, (c.graph.ends? b).isSome → c.graph.ends? b = some (entriesOf exits b, exitOf exits b)
  known : ∀ set ∈ exits, ∀ b ∈ set.1 :: set.2.targets, (c.graph.ends? b).isSome

-- What a step is to be blamed for.
def objection? (c : Construction) : ConstructionStep → Option Misuse
  | .operation _ _ _ | .exit _ =>
      if c.current ∈ c.closed then some (.alreadyTerminated c.current) else none
  | .phiArguments phi _ =>
      match c.graph.origin? phi with
      | some (.phi _ _) => none
      | _ => some (.notAPhi phi)
  | _ => none

structure ExitSet (c : Construction) (exit : Exit) (next : Construction) : Prop where
  current : next.current = c.current
  closed : next.closed = c.current :: c.closed
  misuse : next.misuse? = c.misuse?.or (c.objection? (.exit exit))
  known : ∀ b ∈ c.current :: exit.targets, (c.graph.ends? b).isSome
  ends : ∀ b, next.graph.ends? b = (c.graph.ends? b).map fun ends =>
    (ends.1 ++ List.replicate (exit.targets.count b) c.current,
      if b = c.current then exit else ends.2)

-- All that a step can do to the edges, and what is remembered of it.
inductive Taken (c next : Construction) : ConstructionStep → Prop
  | apart {step : ConstructionStep} (sets : step.sets c.current = [])
      (current : next.current = step.moves c.current) (closed : next.closed = c.closed)
      (misuse : next.misuse? = c.misuse?.or (c.objection? step))
      (ends : ∀ b, next.graph.ends? b = c.graph.ends? b) : Taken c next step
  | block (new : next =
      { c with graph := { c.graph with blocks := c.graph.blocks.push .empty } }) :
      Taken c next .block
  | exit {exit : Exit} (set : ExitSet c exit next) : Taken c next (.exit exit)

theorem misuse?_complain (c : Construction) (m : Misuse) :
    (c.complain m).misuse? = c.misuse?.or (some m) := by
  cases h : c.misuse? <;> simp [complain, h]

theorem checkOpen_eq (c : Construction) : c.checkOpen =
    { c with misuse? := c.misuse?.or (c.objection? (.exit .mainExit)) } := by
  unfold checkOpen objection?
  by_cases h : c.current ∈ c.closed
  · rw [if_pos h, if_pos h, ← misuse?_complain]
    rfl
  · rw [if_neg h, if_neg h, Option.or_none]

theorem objection?_phiArguments {phi : ValueId} {arguments : List ValueId} {m : Misuse} :
    c.objection? (.phiArguments phi arguments) = some m ↔
      .notAPhi phi = m ∧ ∀ b old, c.graph.origin? phi ≠ some (.phi b old) := by
  simp only [objection?]
  split
  · next b old h => simp [h]
  · next h => simpa using fun _ => h

theorem taken_phiArguments {phi : ValueId} {arguments : List ValueId} :
    Taken c (c.setPhiArguments phi arguments) (.phiArguments phi arguments) := by
  unfold setPhiArguments
  split
  · next b old h =>
    have hnone : c.objection? (.phiArguments phi arguments) = none := by simp [objection?, h]
    refine .apart rfl rfl rfl ?_ ?_
    · rw [hnone, Option.or_none]
    · exact Cfg.ends?_of_blocks rfl
  · next h =>
    have hsome : c.objection? (.phiArguments phi arguments) = some (.notAPhi phi) :=
      objection?_phiArguments.mpr ⟨rfl, h⟩
    refine .apart rfl rfl rfl ?_ fun b => rfl
    rw [hsome, misuse?_complain]

theorem modifyBlock?_eq_some {b : BlockId} {f : BasicBlock → BasicBlock}
    (h : c.modifyBlock? b f = some next) : next = { c with graph := next.graph } := by
  obtain ⟨g, -, rfl⟩ := Option.map_eq_some_iff.mp h
  rfl

theorem makeOutputs_eq {n : Nat} {made : List ValueId} (h : c.makeOutputs n = (made, next)) :
    next = { c with graph := next.graph } := by
  induction n generalizing c made with
  | zero =>
      obtain ⟨-, rfl⟩ := Prod.mk.inj h
      rfl
  | succ n ih =>
      simp only [makeOutputs] at h
      obtain ⟨-, rfl⟩ := Prod.mk.inj h
      exact ih (c := (c.makeValue (.defined c.current)).2) rfl

theorem taken_operation {callee : Callee} {inputs made : List ValueId} {n : Nat}
    (h : c.addOperation? callee inputs n = some (made, next)) :
    Taken c next (.operation callee inputs n) := by
  unfold addOperation? at h
  cases hm : c.checkOpen.makeOutputs n with
  | mk vs last =>
      simp only [hm] at h
      obtain ⟨done, hdone, hpair⟩ := Option.map_eq_some_iff.mp h
      obtain ⟨-, rfl⟩ := Prod.mk.inj hpair
      have hdone' := modifyBlock?_eq_some hdone
      have hlast := makeOutputs_eq hm
      have hblocks : last.graph.blocks = c.graph.blocks := by
        rw [(place?_makeOutputs hm).1, graph_checkOpen.1]
      rw [checkOpen_eq] at hlast
      refine .apart rfl ?_ ?_ ?_ fun b => ?_
      · rw [hdone', hlast]
        rfl
      · rw [hdone', hlast]
      · rw [hdone', hlast]
        rfl
      · rw [Cfg.ends?_of_modifyBlock? (graph_of_modifyBlock? hdone) (fun _ => rfl) (fun _ => rfl)]
        exact Cfg.ends?_of_blocks hblocks b

theorem entered_eq {source : BlockId} {targets : List BlockId}
    (h : targets.foldlM (enterFrom? source) c = some next) :
    next = { c with graph := next.graph } ∧ (∀ b ∈ targets, (c.graph.ends? b).isSome) ∧
      ∀ b, next.graph.ends? b = (c.graph.ends? b).map fun ends =>
        (ends.1 ++ List.replicate (targets.count b) source, ends.2) := by
  induction targets generalizing c with
  | nil =>
      obtain rfl := Option.some.inj h
      simp
  | cons target rest ih =>
      rw [List.foldlM_cons] at h
      obtain ⟨mid, hmid, hrest⟩ := Option.bind_eq_some_iff.mp h
      obtain ⟨hnext, hknown, hends⟩ := ih hrest
      have hgraph := graph_of_modifyBlock? hmid
      have hstep : ∀ b, mid.graph.ends? b = (c.graph.ends? b).map fun ends =>
          (ends.1 ++ List.replicate ([target].count b) source, ends.2) := by
        intro b
        unfold Cfg.ends?
        rw [Cfg.block?_of_modifyBlock? hgraph]
        by_cases hb : b = target
        · simp [hb, Function.comp_def]
        · have hne : (target == b) = false := by simp [Ne.symm hb]
          simp [hb, List.count_cons, hne, Function.comp_def]
      refine ⟨?_, ?_, fun b => ?_⟩
      · rw [hnext, modifyBlock?_eq_some hmid]
      · intro b hb
        rcases List.mem_cons.mp hb with rfl | hb
        · obtain ⟨data, hdata⟩ := Cfg.exists_block_of_modifyBlock? hgraph
          simp [Cfg.ends?, hdata]
        · have := hknown b hb
          simpa [hstep] using this
      · rw [hends, hstep, Option.map_map]
        congr 1
        funext ends
        rw [Function.comp_apply, List.append_assoc, List.replicate_append_replicate]
        congr 3
        rw [← List.count_append]
        rfl

theorem exitSet_of_setExit? {exit : Exit} (h : c.setExit? exit = some next) :
    ExitSet c exit next := by
  simp only [setExit?, Option.bind_eq_bind, Option.bind_eq_some_iff, Option.pure_def,
    Option.some.injEq] at h
  obtain ⟨entered, he, done, hd, rfl⟩ := h
  obtain ⟨hentered, hknown, hends⟩ := entered_eq he
  have hgraph := graph_of_modifyBlock? hd
  have hdone := modifyBlock?_eq_some hd
  rw [checkOpen_eq] at hentered
  rw [graph_checkOpen.1] at hknown hends
  refine ⟨?_, ?_, ?_, ?_, fun b => ?_⟩
  · change done.current = _
    rw [hdone, hentered]
  · change c.current :: done.closed = _
    rw [hdone, hentered]
  · change done.misuse? = _
    rw [hdone, hentered]
    rfl
  · refine List.forall_mem_cons.mpr ⟨?_, hknown⟩
    obtain ⟨data, hdata⟩ := Cfg.exists_block_of_modifyBlock? hgraph
    have hsome := Cfg.ends?_of_block? hdata
    rw [hends] at hsome
    obtain ⟨ends, hc, -⟩ := Option.map_eq_some_iff.mp hsome
    simp [hc]
  · have hcurrent : done.graph.ends? b = (entered.graph.ends? b).map fun ends =>
        (ends.1, if b = c.current then exit else ends.2) := by
      unfold Cfg.ends?
      rw [Cfg.block?_of_modifyBlock? hgraph]
      by_cases hb : b = c.current <;> simp [hb, Function.comp_def]
    change done.graph.ends? b = _
    rw [hcurrent, hends, Option.map_map]
    rfl

theorem taken_step {step : ConstructionStep} {made : Made} (h : c.step? step = some (made, next)) :
    Taken c next step := by
  cases step with
  | literal w =>
      obtain ⟨-, rfl⟩ := Prod.mk.inj (Option.some.inj h)
      split
      · exact .apart rfl rfl rfl (Option.or_none).symm fun _ => rfl
      · exact .apart rfl rfl rfl (Option.or_none).symm (Cfg.ends?_of_blocks rfl)
  | unreachable =>
      obtain ⟨-, rfl⟩ := Prod.mk.inj (Option.some.inj h)
      exact .apart rfl rfl rfl (Option.or_none).symm (Cfg.ends?_of_blocks rfl)
  | argument x =>
      obtain ⟨-, rfl⟩ := Prod.mk.inj (Option.some.inj h)
      exact .apart rfl rfl rfl (Option.or_none).symm (Cfg.ends?_of_blocks rfl)
  | returnVariable x =>
      obtain ⟨-, rfl⟩ := Prod.mk.inj (Option.some.inj h)
      exact .apart rfl rfl rfl (Option.or_none).symm (Cfg.ends?_of_blocks rfl)
  | operation callee inputs outputs =>
      obtain ⟨⟨vs, done⟩, hd, hpair⟩ := Option.map_eq_some_iff.mp h
      obtain ⟨-, rfl⟩ := Prod.mk.inj hpair
      exact taken_operation hd
  | block =>
      obtain ⟨-, rfl⟩ := Prod.mk.inj (Option.some.inj h)
      exact .block rfl
  | moveTo b =>
      obtain ⟨-, rfl⟩ := Prod.mk.inj (Option.some.inj h)
      exact .apart rfl rfl rfl (Option.or_none).symm fun _ => rfl
  | entry =>
      obtain ⟨-, rfl⟩ := Prod.mk.inj (Option.some.inj h)
      exact .apart rfl rfl rfl (Option.or_none).symm fun _ => rfl
  | current =>
      obtain ⟨-, rfl⟩ := Prod.mk.inj (Option.some.inj h)
      exact .apart rfl rfl rfl (Option.or_none).symm fun _ => rfl
  | phi b =>
      obtain ⟨⟨v, done⟩, hd, hpair⟩ := Option.map_eq_some_iff.mp h
      obtain ⟨-, rfl⟩ := Prod.mk.inj hpair
      obtain ⟨last, hlast, hmade⟩ := Option.map_eq_some_iff.mp hd
      obtain ⟨-, rfl⟩ := Prod.mk.inj hmade
      have hlast' := modifyBlock?_eq_some hlast
      refine .apart rfl ?_ ?_ ?_ fun b => ?_
      · rw [hlast']
        rfl
      · rw [hlast']
      · rw [hlast']
        exact (Option.or_none).symm
      · rw [Cfg.ends?_of_modifyBlock? (graph_of_modifyBlock? hlast) (fun _ => rfl) (fun _ => rfl)]
        exact Cfg.ends?_of_blocks rfl b
  | phiArguments phi arguments =>
      obtain ⟨-, rfl⟩ := Prod.mk.inj (Option.some.inj h)
      exact taken_phiArguments
  | exit e =>
      obtain ⟨done, hd, hpair⟩ := Option.map_eq_some_iff.mp h
      obtain ⟨-, rfl⟩ := Prod.mk.inj hpair
      exact .exit (exitSet_of_setExit? hd)

variable {step : ConstructionStep}

theorem Taken.current (h : Taken c next step) : next.current = step.moves c.current := by
  cases h with
  | apart _ current => exact current
  | block new => rw [new]; rfl
  | exit set => exact set.current

theorem Taken.misuse (h : Taken c next step) : next.misuse? = c.misuse?.or (c.objection? step) := by
  cases h with
  | apart _ _ _ misuse => exact misuse
  | block new => rw [new]; exact (Option.or_none).symm
  | exit set => exact set.misuse

-- A block that is new has no part in the exits that were set.
theorem Records.unknown {b : BlockId} (h : c.Records exits) (hb : c.graph.ends? b = none) :
    entriesOf exits b = [] ∧ exitOf exits b = .mainExit := by
  have hknown : ∀ set ∈ exits, b ∉ set.1 :: set.2.targets := by
    intro set hset hmem
    have := h.known set hset b hmem
    simp [hb] at this
  constructor
  · apply entriesOf_eq_nil
    intro set hset htarget
    exact hknown set hset (List.mem_cons_of_mem _ htarget)
  · apply exitOf_of_notMem
    intro hmem
    obtain ⟨set, hset, rfl⟩ := List.mem_map.mp hmem
    exact hknown set hset List.mem_cons_self

theorem Records.block (h : c.Records exits) :
    Records { c with graph := { c.graph with blocks := c.graph.blocks.push .empty } } exits := by
  -- all blocks but the new one are what they were
  have hends : ∀ b, (c.graph.ends? b).isSome →
      Cfg.ends? { c.graph with blocks := c.graph.blocks.push .empty } b = c.graph.ends? b := by
    intro b hb
    obtain ⟨data, hdata⟩ := Cfg.exists_block_of_ends? hb
    have hlt : b.index < c.graph.blocks.size := (Array.getElem?_eq_some_iff.mp hdata).1
    simp [Cfg.ends?, Cfg.block?, Array.getElem?_push_lt hlt, Array.getElem?_eq_getElem hlt]
  refine ⟨h.closed, fun b hb => ?_, fun set hset b hb => ?_⟩
  · cases hold : c.graph.ends? b with
    | some ends =>
        have hsome : (c.graph.ends? b).isSome := by simp [hold]
        exact (hends b hsome).trans (h.ends b hsome)
    | none =>
        obtain ⟨hentries, hexit⟩ := h.unknown hold
        obtain ⟨data, hdata⟩ := Cfg.exists_block_of_ends? hb
        have hnone : c.graph.blocks[b.index]? = none := by
          simpa [Cfg.ends?, Cfg.block?] using hold
        have hempty : data = .empty := by
          simp only [Cfg.block?, Array.getElem?_push] at hdata
          by_cases hi : b.index = c.graph.blocks.size
          · simpa [hi] using hdata.symm
          · simp [hi, hnone] at hdata
        rw [hentries, hexit, Cfg.ends?_of_block? hdata, hempty]
        rfl
  · have hsome := h.known set hset b hb
    exact (congrArg Option.isSome (hends b hsome)).trans hsome

theorem Records.exit {e : Exit} (h : c.Records exits) (set : ExitSet c e next) :
    next.Records (exits ++ [(c.current, e)]) := by
  have hsome : ∀ b, (next.graph.ends? b).isSome = (c.graph.ends? b).isSome := by
    intro b
    rw [set.ends, Option.isSome_map]
  refine ⟨fun b => ?_, fun b hb => ?_, fun s hs b hb => ?_⟩
  · rw [set.closed, List.mem_cons, h.closed, List.map_append, List.mem_append]
    simp [or_comm]
  · rw [hsome] at hb
    rw [set.ends, h.ends b hb, entriesOf_append_singleton, exitOf_append_singleton]
    rfl
  · rw [hsome]
    rcases List.mem_append.mp hs with hs | hs
    · exact h.known s hs b hb
    · obtain rfl := List.mem_singleton.mp hs
      exact set.known b hb

theorem Records.taken (h : c.Records exits) (taken : Taken c next step) :
    next.Records (exits ++ step.sets c.current) := by
  cases taken with
  | apart sets current closed misuse ends =>
      rw [sets, List.append_nil]
      refine ⟨fun b => closed ▸ h.closed b, fun b hb => ?_, fun set hset b hb => ?_⟩
      · rw [ends] at hb ⊢
        exact h.ends b hb
      · rw [ends]
        exact h.known set hset b hb
  | block new =>
      rw [new]
      simpa [ConstructionStep.sets] using h.block
  | exit set => exact h.exit set

theorem run?_append_singleton {c last : Construction} {steps : List ConstructionStep}
    (h : c.run? (steps ++ [step]) = some last) :
    ∃ mid, c.run? steps = some mid ∧ Taken mid last step := by
  induction steps generalizing c with
  | nil =>
      simp only [List.nil_append, run?] at h
      cases hs : c.step? step with
      | none => simp [hs] at h
      | some found =>
          simp only [hs, Option.some.injEq] at h
          have hstep : c.step? step = some (found.1, last) := h ▸ hs
          exact ⟨c, rfl, taken_step hstep⟩
  | cons first rest ih =>
      simp only [List.cons_append, run?] at h ⊢
      cases hs : c.step? first with
      | none => simp [hs] at h
      | some found =>
          simp only [hs] at h ⊢
          exact ih h

end Construction

section Runs

variable {function? : Option FunctionId} {steps earlier : List ConstructionStep}
  {step : ConstructionStep} {c mid : Construction} {m : Misuse} {g : Cfg}

open Construction (start)

theorem records_start : (start function?).Records [] := by
  refine ⟨by simp [start], fun b hb => ?_, by simp⟩
  obtain ⟨data, hdata⟩ := Cfg.exists_block_of_ends? hb
  obtain ⟨hlt, hget⟩ := Array.getElem?_eq_some_iff.mp hdata
  have hz : b.index = 0 := Nat.lt_one_iff.mp hlt
  obtain rfl : BasicBlock.empty = data := by simpa [start, Cfg.start, hz] using hget
  rw [Cfg.ends?_of_block? hdata]
  rfl

-- Steps in any order leave a record of the exits they have set.
theorem records_run (run : (start function?).run? steps = some c) :
    c.current = workedOn steps ∧ c.Records (exitsSet steps) := by
  induction steps using List.reverseRecOn generalizing c with
  | nil =>
      obtain rfl := Option.some.inj run
      exact ⟨rfl, records_start⟩
  | append_singleton earlier step ih =>
      obtain ⟨mid, hmid, taken⟩ := Construction.run?_append_singleton run
      obtain ⟨hcurrent, hrecords⟩ := ih hmid
      rw [workedOn_append_singleton, exitsSet_append_singleton, ← hcurrent]
      exact ⟨taken.current, hrecords.taken taken⟩

theorem misused_iff (run : (start function?).run? earlier = some c) :
    Misused function? earlier step m ↔ c.objection? step = some m := by
  obtain ⟨hcurrent, hrecords⟩ := records_run run
  have hended : workedOn earlier ∈ c.closed ↔ Ended earlier (workedOn earlier) :=
    hrecords.closed (workedOn earlier)
  constructor
  · intro h
    cases h with
    | operation ended => simp [Construction.objection?, hcurrent, hended.mpr ended]
    | exit ended => simp [Construction.objection?, hcurrent, hended.mpr ended]
    | phiArguments run' noPhi =>
        obtain rfl := Option.some.inj (run'.symm.trans run)
        exact Construction.objection?_phiArguments.mpr ⟨rfl, noPhi⟩
  · intro h
    cases step with
    | operation callee inputs outputs =>
        obtain ⟨hclosed, rfl⟩ :
            workedOn earlier ∈ c.closed ∧ .alreadyTerminated (workedOn earlier) = m := by
          simpa [Construction.objection?, hcurrent] using h
        exact .operation (hended.mp hclosed)
    | exit e =>
        obtain ⟨hclosed, rfl⟩ :
            workedOn earlier ∈ c.closed ∧ .alreadyTerminated (workedOn earlier) = m := by
          simpa [Construction.objection?, hcurrent] using h
        exact .exit (hended.mp hclosed)
    | phiArguments phi arguments =>
        obtain ⟨rfl, noPhi⟩ := Construction.objection?_phiArguments.mp h
        exact .phiArguments run noPhi
    | _ => simp [Construction.objection?] at h

theorem unmisused_append_singleton : Unmisused function? (earlier ++ [step]) ↔
    Unmisused function? earlier ∧ ∀ m, ¬ Misused function? earlier step m := by
  constructor
  · intro h
    refine ⟨fun before other m hb => ?_, fun m => h earlier step m List.prefix_rfl⟩
    exact h before other m (hb.trans (List.prefix_append earlier [step]))
  · rintro ⟨h, hstep⟩ before other m hb
    rcases List.prefix_concat_iff.mp hb with heq | hb
    · obtain ⟨rfl, hother⟩ := List.append_inj' heq rfl
      obtain rfl := List.singleton_inj.mp hother
      exact hstep m
    · exact h before other m hb

theorem firstMisuse_append_singleton : FirstMisuse function? (earlier ++ [step]) m ↔
    FirstMisuse function? earlier m ∨
      (Unmisused function? earlier ∧ Misused function? earlier step m) := by
  constructor
  · rintro ⟨before, other, hb, hm, hbefore⟩
    rcases List.prefix_concat_iff.mp hb with heq | hb
    · obtain ⟨rfl, hother⟩ := List.append_inj' heq rfl
      obtain rfl := List.singleton_inj.mp hother
      exact .inr ⟨hbefore, hm⟩
    · exact .inl ⟨before, other, hb, hm, hbefore⟩
  · rintro (⟨before, other, hb, hm, hbefore⟩ | ⟨hearlier, hm⟩)
    · exact ⟨before, other, hb.trans (List.prefix_append earlier [step]), hm, hbefore⟩
    · exact ⟨earlier, step, List.prefix_rfl, hm, hearlier⟩

-- What is remembered is the first misuse, whatever comes after it.
theorem misuse?_run (run : (start function?).run? steps = some c) :
    (c.misuse? = none ↔ Unmisused function? steps) ∧
      ∀ m, c.misuse? = some m ↔ FirstMisuse function? steps m := by
  induction steps using List.reverseRecOn generalizing c with
  | nil =>
      obtain rfl := Option.some.inj run
      simp [start, Unmisused, FirstMisuse]
  | append_singleton earlier step ih =>
      obtain ⟨mid, hmid, taken⟩ := Construction.run?_append_singleton run
      obtain ⟨hnone, hsome⟩ := ih hmid
      have hobjection : mid.objection? step = none ↔ ∀ m, ¬ Misused function? earlier step m := by
        simp only [Option.eq_none_iff_forall_ne_some, ne_eq, misused_iff hmid]
      rw [taken.misuse]
      constructor
      · rw [Option.or_eq_none_iff, unmisused_append_singleton, hnone, hobjection]
      · intro m
        rw [Option.or_eq_some_iff, firstMisuse_append_singleton, hsome, hnone, misused_iff hmid]

theorem nodup_exitsSet (h : Unmisused function? steps) :
    ((exitsSet steps).map Prod.fst).Nodup := by
  induction steps using List.reverseRecOn with
  | nil => simp [exitsSet, exitsFrom]
  | append_singleton earlier step ih =>
      obtain ⟨hearlier, hstep⟩ := unmisused_append_singleton.mp h
      rw [exitsSet_append_singleton, List.map_append, List.nodup_append]
      refine ⟨ih hearlier, ?_, ?_⟩
      · cases step <;> simp [ConstructionStep.sets]
      · intro b hb b' hb' heq
        cases step with
        | exit e =>
            obtain rfl : b' = workedOn earlier := by simpa [ConstructionStep.sets] using hb'
            exact hstep _ (.exit (heq ▸ hb))
        | _ => simp [ConstructionStep.sets] at hb'

theorem Construction.Records.recordsExits (h : c.Records (exitsSet steps))
    (unmisused : Unmisused function? steps) : c.graph.RecordsExits steps := by
  have hends : ∀ b data, c.graph.block? b = some data →
      data.entries = entriesOf (exitsSet steps) b ∧ data.exit = exitOf (exitsSet steps) b := by
    intro b data hdata
    have hb := Cfg.ends?_of_block? hdata
    have hrecorded := h.ends b (by simp [hb])
    simpa [hb] using hrecorded
  have hcount := count_entriesOf (nodup_exitsSet unmisused)
  refine ⟨fun S T source target hS hT => ?_, fun S source hS T hT => ?_,
    fun T target hT S hS => ?_, fun T target hT => (hends T target hT).1,
    fun b data hb hnot => ?_, fun before callee inputs outputs hb hended => ?_⟩
  · rw [(hends T target hT).1, (hends S source hS).2, hcount]
  · rw [(hends S source hS).2] at hT
    rcases exitOf_cases (exitsSet steps) S with ⟨-, hexit⟩ | hset
    · simp [hexit, Exit.targets] at hT
    · exact Cfg.exists_block_of_ends? (h.known _ hset T (List.mem_cons_of_mem _ hT))
  · rw [(hends T target hT).1] at hS
    obtain ⟨e, hset⟩ := mem_of_mem_entriesOf hS
    exact Cfg.exists_block_of_ends? (h.known _ hset S List.mem_cons_self)
  · refine ⟨(hends b data hb).2.trans (exitOf_of_notMem hnot), fun T target hT hmem => hnot ?_⟩
    rw [(hends T target hT).1] at hmem
    obtain ⟨e, hset⟩ := mem_of_mem_entriesOf hmem
    exact List.mem_map_of_mem hset
  · exact unmisused before _ _ hb (.operation hended)

-- However steps go to and fro between blocks, what they finish has their exits on both
-- ends, unless one of them was a misuse, the first of which is then the answer.
theorem exits_recorded_of_run (run : (start function?).run? steps = some c) :
    (∀ g, c.finish = .ok g → g.RecordsExits steps) ∧
      (∀ m, c.finish = .error m ↔ FirstMisuse function? steps m) ∧
        ((∃ m, c.finish = .error m) ↔
          ∃ earlier step m, earlier ++ [step] <+: steps ∧ Misused function? earlier step m) := by
  obtain ⟨hnone, hsome⟩ := misuse?_run run
  have hfirst : ∀ m, c.finish = .error m ↔ FirstMisuse function? steps m := by
    intro m
    rw [Construction.finish_eq_error_iff, hsome]
  refine ⟨fun g hg => ?_, hfirst, ?_⟩
  · obtain ⟨hm, rfl⟩ := Construction.finish_eq_ok_iff.mp hg
    exact (records_run run).2.recordsExits (hnone.mp hm)
  · constructor
    · rintro ⟨m, hm⟩
      obtain ⟨earlier, step, hprefix, hmisused, -⟩ := (hfirst m).mp hm
      exact ⟨earlier, step, m, hprefix, hmisused⟩
    · rintro ⟨earlier, step, m, hprefix, hmisused⟩
      have hne : c.misuse? ≠ none := by
        intro hm
        exact hnone.mp hm earlier step m hprefix hmisused
      obtain ⟨first, hm⟩ := Option.ne_none_iff_exists'.mp hne
      exact ⟨first, Construction.finish_eq_error_iff.mpr hm⟩

end Runs

-- A loop that is left on one way only, put together out of order, and then a step too much.
namespace Spinning

def steps : List ConstructionStep :=
  [.literal 1, .block, .block, .moveTo ⟨1⟩, .operation (.builtin ⟨23⟩) [] 1,
    .exit (.branch ⟨⟨1⟩, ⟨1⟩, ⟨2⟩⟩), .moveTo ⟨0⟩, .exit (.branch ⟨⟨0⟩, ⟨1⟩, ⟨1⟩⟩)]

def built : Construction :=
  ((Construction.start none).run? steps).getD (Construction.start none)

def spoilt : Construction :=
  ((Construction.start none).run? (steps ++ [.phiArguments ⟨0⟩ [], .exit .mainExit])).getD
    (Construction.start none)

theorem exits_recorded_here :
    (Construction.start none).run? steps = some built ∧ built.finish = .ok built.graph ∧
      built.graph.RecordsExits steps ∧ entriesOf (exitsSet steps) ⟨1⟩ = [⟨1⟩, ⟨0⟩, ⟨0⟩] ∧
        FirstMisuse none (steps ++ [.phiArguments ⟨0⟩ [], .exit .mainExit]) (.notAPhi ⟨0⟩) := by
  have run : (Construction.start none).run? steps = some built := rfl
  have finished : built.finish = .ok built.graph := rfl
  have spoilt : (Construction.start none).run?
      (steps ++ [.phiArguments ⟨0⟩ [], .exit .mainExit]) = some spoilt := rfl
  refine ⟨run, finished, ?_, by decide, ?_⟩
  · exact (exits_recorded_of_run run).1 built.graph finished
  · exact ((exits_recorded_of_run spoilt).2.1 (.notAPhi ⟨0⟩)).mp rfl

end Spinning

end SsaReplay.Graph
