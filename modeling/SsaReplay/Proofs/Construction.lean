import Mathlib.Data.List.Nodup
import SsaReplay.Graph.Construction

namespace SsaReplay.Graph

-- The part of an origin that never changes. Phis are given their arguments later.
def Origin.place : Origin → Origin
  | .phi b _ => .phi b []
  | origin => origin

namespace BasicBlock

def outputs (b : BasicBlock) : List ValueId := b.operations.flatMap (·.outputs)

end BasicBlock

namespace Cfg

def place? (g : Cfg) (v : ValueId) : Option Origin := (g.origin? v).map Origin.place

-- What a block lists comes into existence there, and every output in one place only.
structure PlacedIn (g : Cfg) (b : BlockId) (data : BasicBlock) : Prop where
  phis : ∀ v ∈ data.phis, g.place? v = some (.phi b [])
  outputs : ∀ v ∈ data.outputs, g.place? v = some (.defined b)
  distinct : data.outputs.Nodup

-- Every value that the graph lists is of the origin that its place in the lists tells.
structure Placed (g : Cfg) : Prop where
  literals : ∀ e ∈ g.literals, g.place? e.2 = some (.literal e.1)
  arguments : ∀ i x v, g.arguments[i]? = some (x, v) → g.place? v = some (.argument i)
  blocks : ∀ b data, g.block? b = some data → g.PlacedIn b data

-- The graph was put together from its start, without misuse.
def Built (g : Cfg) : Prop :=
  ∃ function? steps c, (Construction.start function?).run? steps = some c ∧ c.finish = .ok g

-- Values only come in addition.
def Keeps (g g' : Cfg) : Prop := ∀ v o, g.place? v = some o → g'.place? v = some o

variable {g g' g'' : Cfg} {b : BlockId} {data : BasicBlock}

theorem Keeps.refl (g : Cfg) : g.Keeps g := fun _ _ h => h

theorem Keeps.trans (h : g.Keeps g') (k : g'.Keeps g'') : g.Keeps g'' :=
  fun v o hv => k v o (h v o hv)

theorem PlacedIn.mono (h : g.PlacedIn b data) (hk : g.Keeps g') : g'.PlacedIn b data :=
  ⟨fun v hv => hk v _ (h.phis v hv), fun v hv => hk v _ (h.outputs v hv), h.distinct⟩

-- A value that has an origin was made before the next one.
theorem index_lt_of_place? {v : ValueId} {o : Origin} (h : g.place? v = some o) :
    v.index < g.values.size := by
  obtain ⟨origin, ho, -⟩ := Option.map_eq_some_iff.mp h
  exact (Array.getElem?_eq_some_iff.mp ho).1

theorem Placed.mono (h : g.Placed) (hk : g.Keeps g') (hl : g'.literals = g.literals)
    (ha : g'.arguments = g.arguments) (hb : g'.blocks = g.blocks) : g'.Placed where
  literals e he := hk _ _ (h.literals e (hl ▸ he))
  arguments i x v hx := hk v _ (h.arguments i x v (ha ▸ hx))
  blocks b data hd := by
    unfold block? at hd
    rw [hb] at hd
    exact (h.blocks b data hd).mono hk

theorem block?_of_modifyBlock? {f : BasicBlock → BasicBlock} (h : g.modifyBlock? b f = some g')
    (b' : BlockId) : g'.block? b' = if b' = b then (g.block? b').map f else g.block? b' := by
  unfold modifyBlock? at h
  split at h
  · obtain rfl := Option.some.inj h
    unfold block?
    rw [Array.getElem?_modify]
    by_cases hb : b' = b
    · rw [if_pos hb, if_pos (hb ▸ rfl)]
    · rw [if_neg hb, if_neg fun hi => hb (by cases b; cases b'; exact congrArg BlockId.mk hi.symm)]
  · exact absurd h (by simp)

theorem values_of_modifyBlock? {f : BasicBlock → BasicBlock} (h : g.modifyBlock? b f = some g') :
    g'.values = g.values ∧ g'.literals = g.literals ∧ g'.arguments = g.arguments := by
  unfold modifyBlock? at h
  split at h
  · obtain rfl := Option.some.inj h
    exact ⟨rfl, rfl, rfl⟩
  · exact absurd h (by simp)

-- A change to one block leaves the rest of the graph alone.
theorem Placed.modifyBlock {f : BasicBlock → BasicBlock} (h : g.Placed)
    (hm : g.modifyBlock? b f = some g')
    (hf : ∀ data, g.block? b = some data → g.PlacedIn b (f data)) : g'.Placed := by
  obtain ⟨hv, hl, ha⟩ := values_of_modifyBlock? hm
  have hk : g.Keeps g' := fun v o ho => by
    unfold place? origin? at ho ⊢
    rwa [hv]
  refine ⟨fun e he => hk _ _ (h.literals e (hl ▸ he)),
    fun i x v hx => hk v _ (h.arguments i x v (ha ▸ hx)), fun b' data hd => ?_⟩
  rw [block?_of_modifyBlock? hm] at hd
  split at hd
  · next hb =>
    obtain ⟨old, ho, rfl⟩ := Option.map_eq_some_iff.mp hd
    subst hb
    exact (hf old ho).mono hk
  · exact (h.blocks b' data hd).mono hk

-- What a block lists stays the same if only its edges change.
theorem Placed.modifyEdges {f : BasicBlock → BasicBlock} (h : g.Placed)
    (hm : g.modifyBlock? b f = some g') (hp : ∀ data, (f data).phis = data.phis)
    (ho : ∀ data, (f data).operations = data.operations) : g'.Placed := by
  refine h.modifyBlock hm fun data hd => ?_
  have hout : (f data).outputs = data.outputs := by
    unfold BasicBlock.outputs
    rw [ho]
  obtain ⟨phis, outputs, distinct⟩ := h.blocks b data hd
  exact ⟨hp data ▸ phis, hout ▸ outputs, hout ▸ distinct⟩

end Cfg

namespace Construction

variable {c next : Construction} {v : ValueId} {o : Origin}

theorem place?_makeValue (h : c.makeValue o = (v, next)) :
    c.graph.Keeps next.graph ∧ next.graph.place? v = some o.place ∧
      v.index = c.graph.values.size := by
  obtain ⟨rfl, rfl⟩ := Prod.mk.inj h
  refine ⟨fun w p hw => ?_, ?_, rfl⟩
  · have hlt := Cfg.index_lt_of_place? hw
    unfold Cfg.place? Cfg.origin? at hw ⊢
    rwa [Array.getElem?_push_lt hlt, ← Array.getElem?_eq_getElem hlt]
  · unfold Cfg.place? Cfg.origin?
    simp

theorem placed_makeValue (hc : c.graph.Placed) (h : c.makeValue o = (v, next)) :
    next.graph.Placed := by
  obtain ⟨hk, -⟩ := place?_makeValue h
  obtain ⟨rfl, rfl⟩ := Prod.mk.inj h
  exact hc.mono hk rfl rfl rfl

theorem placed_makeLiteral {w : Word} (hc : c.graph.Placed) (h : c.makeLiteral w = (v, next)) :
    next.graph.Placed := by
  unfold makeLiteral at h
  split at h
  · obtain ⟨rfl, rfl⟩ := Prod.mk.inj h
    exact hc
  · obtain ⟨rfl, rfl⟩ := Prod.mk.inj h
    obtain ⟨-, hv, -⟩ := place?_makeValue (c := c) (o := .literal w) rfl
    obtain ⟨literals, arguments, blocks⟩ := placed_makeValue (o := .literal w) hc rfl
    exact ⟨List.forall_mem_cons.mpr ⟨hv, literals⟩, arguments,
      fun b data hd => (blocks b data hd).mono (.refl _)⟩

theorem placed_makeArgument {x : VariableId} (hc : c.graph.Placed)
    (h : c.makeArgument x = (v, next)) : next.graph.Placed := by
  obtain ⟨rfl, rfl⟩ := Prod.mk.inj h
  obtain ⟨-, hv, -⟩ := place?_makeValue (c := c) (o := .argument c.graph.arguments.length) rfl
  obtain ⟨literals, arguments, blocks⟩ :=
    placed_makeValue (o := .argument c.graph.arguments.length) hc rfl
  refine ⟨literals, fun i y w hi => ?_, fun b data hd => (blocks b data hd).mono (.refl _)⟩
  rcases Nat.lt_or_ge i c.graph.arguments.length with hlt | hge
  · exact arguments i y w (by rwa [List.getElem?_append_left hlt] at hi)
  · rw [List.getElem?_append_right hge] at hi
    obtain ⟨hz, hi⟩ := List.getElem?_eq_some_iff.mp hi
    have hzero : i - c.graph.arguments.length = 0 := Nat.lt_one_iff.mp hz
    obtain ⟨rfl, rfl⟩ : x = y ∧ _ = w := Prod.mk.inj (by simpa [hzero] using hi)
    obtain rfl : i = c.graph.arguments.length := by omega
    exact hv

-- The outputs are values of their own, each made after those that were there.
theorem place?_makeOutputs {n : Nat} {made : List ValueId} (h : c.makeOutputs n = (made, next)) :
    next.graph = { c.graph with values := next.graph.values } ∧ next.current = c.current ∧
      c.graph.Keeps next.graph ∧ made.Nodup ∧
        ∀ v ∈ made, next.graph.place? v = some (.defined c.current) ∧
          c.graph.values.size ≤ v.index := by
  induction n generalizing c made with
  | zero =>
      obtain ⟨rfl, rfl⟩ := Prod.mk.inj h
      exact ⟨rfl, rfl, .refl _, .nil, by simp⟩
  | succ n ih =>
      simp only [makeOutputs] at h
      obtain ⟨rfl, rfl⟩ := Prod.mk.inj h
      obtain ⟨hk, hv, hi⟩ := place?_makeValue (c := c) (o := .defined c.current) rfl
      obtain ⟨hg, hcur, hkeeps, hnodup, hmade⟩ :=
        ih (c := (c.makeValue (.defined c.current)).2) rfl
      refine ⟨hg, hcur, hk.trans hkeeps, List.nodup_cons.mpr ⟨fun hmem => ?_, hnodup⟩,
        List.forall_mem_cons.mpr ⟨⟨hkeeps _ _ hv, Nat.le_of_eq hi.symm⟩, fun v hv => ?_⟩⟩
      · have hlt := Cfg.index_lt_of_place? hv
        exact absurd (hmade _ hmem).2 (Nat.not_le.mpr hlt)
      · obtain ⟨hp, hle⟩ := hmade v hv
        exact ⟨hp, Nat.le_of_lt (Nat.lt_of_lt_of_le (by simp [makeValue]) hle)⟩

theorem graph_checkOpen : c.checkOpen.graph = c.graph ∧ c.checkOpen.current = c.current := by
  unfold checkOpen
  split <;> exact ⟨rfl, rfl⟩

theorem graph_of_modifyBlock? {b : BlockId} {f : BasicBlock → BasicBlock}
    (h : c.modifyBlock? b f = some next) : c.graph.modifyBlock? b f = some next.graph := by
  obtain ⟨g, hg, rfl⟩ := Option.map_eq_some_iff.mp h
  exact hg

theorem placed_addOperation {callee : Callee} {inputs made : List ValueId} {n : Nat}
    (hc : c.graph.Placed) (h : c.addOperation? callee inputs n = some (made, next)) :
    next.graph.Placed := by
  obtain ⟨hgraph, hcurrent⟩ := graph_checkOpen (c := c)
  unfold addOperation? at h
  cases hm : c.checkOpen.makeOutputs n with
  | mk vs last =>
      obtain ⟨hg, -, hk, hnodup, hmade⟩ := place?_makeOutputs hm
      rw [hgraph] at hg hk hmade
      rw [hcurrent] at hmade
      simp only [hm] at h
      obtain ⟨done, hdone, hpair⟩ := Option.map_eq_some_iff.mp h
      obtain ⟨rfl, rfl⟩ := Prod.mk.inj hpair
      have hlast : last.graph.Placed :=
        hc.mono hk (by rw [hg]) (by rw [hg]) (by rw [hg])
      have hsame : ∀ b, last.graph.block? b = c.graph.block? b := fun b => by
        unfold Cfg.block?
        rw [hg]
      refine hlast.modifyBlock (graph_of_modifyBlock? hdone) fun data hd => ?_
      obtain ⟨phis, outputs, distinct⟩ := hlast.blocks c.current data hd
      have hold := (hc.blocks c.current data (hsame c.current ▸ hd)).outputs
      have hout : ({ data with operations := data.operations ++ [⟨callee, inputs, vs⟩] } :
          BasicBlock).outputs = data.outputs ++ vs := by
        simp [BasicBlock.outputs]
      refine ⟨phis, fun v hv => ?_, ?_⟩
      · rw [hout] at hv
        rcases List.mem_append.mp hv with hv | hv
        · exact outputs v hv
        · exact (hmade v hv).1
      · rw [hout]
        refine distinct.append hnodup fun v hv hv' => ?_
        have hlt := Cfg.index_lt_of_place? (hold v hv)
        exact absurd (hmade v hv').2 (Nat.not_le.mpr hlt)

theorem placed_makePhi {b : BlockId} (hc : c.graph.Placed) (h : c.makePhi? b = some (v, next)) :
    next.graph.Placed := by
  obtain ⟨done, hdone, hpair⟩ := Option.map_eq_some_iff.mp h
  obtain ⟨rfl, rfl⟩ := Prod.mk.inj hpair
  obtain ⟨-, hv, -⟩ := place?_makeValue (c := c) (o := .phi b []) rfl
  have hnext := placed_makeValue (o := .phi b []) hc rfl
  refine hnext.modifyBlock (graph_of_modifyBlock? hdone) fun data hd => ?_
  obtain ⟨phis, outputs, distinct⟩ := hnext.blocks b data hd
  refine ⟨fun w hw => ?_, outputs, distinct⟩
  rcases List.mem_append.mp hw with hw | hw
  · exact phis w hw
  · exact List.mem_singleton.mp hw ▸ hv

theorem placed_setPhiArguments {phi : ValueId} {arguments : List ValueId} (hc : c.graph.Placed) :
    (c.setPhiArguments phi arguments).graph.Placed := by
  unfold setPhiArguments
  split
  · next b old ho =>
    refine hc.mono (fun w p hw => ?_) rfl rfl rfl
    unfold Cfg.place? Cfg.origin? at hw ⊢
    rw [Array.getElem?_modify]
    split
    · next hi =>
      obtain rfl : phi = w := by cases phi; cases w; exact congrArg ValueId.mk hi
      unfold Cfg.origin? at ho
      rw [ho] at hw ⊢
      exact hw
    · exact hw
  · exact hc

-- To set an exit only changes the edges of blocks, one block after the other.
theorem setExit?_induction {P : Cfg → Prop} {exit : Exit}
    (edges : ∀ {g g' : Cfg} {b : BlockId} {f : BasicBlock → BasicBlock}, P g →
      g.modifyBlock? b f = some g' → (∀ data, (f data).phis = data.phis) →
        (∀ data, (f data).operations = data.operations) → P g')
    (hc : P c.graph) (h : c.setExit? exit = some next) : P next.graph := by
  have enter : ∀ {targets : List BlockId} {source : BlockId} {c last : Construction},
      P c.graph → targets.foldlM (enterFrom? source) c = some last → P last.graph := by
    intro targets source
    induction targets with
    | nil =>
        intro c last hc hl
        obtain rfl := Option.some.inj hl
        exact hc
    | cons target rest ih =>
        intro c last hc hl
        rw [List.foldlM_cons] at hl
        obtain ⟨mid, hmid, hrest⟩ := Option.bind_eq_some_iff.mp hl
        exact ih (edges hc (graph_of_modifyBlock? hmid) (fun _ => rfl) fun _ => rfl) hrest
  simp only [setExit?, Option.bind_eq_bind, Option.bind_eq_some_iff, Option.pure_def,
    Option.some.injEq] at h
  obtain ⟨entered, he, done, hd, rfl⟩ := h
  have hentered : P entered.graph := enter (graph_checkOpen (c := c).1 ▸ hc) he
  have hdone : P done.graph :=
    edges hentered (graph_of_modifyBlock? hd) (fun _ => rfl) fun _ => rfl
  exact hdone

theorem placed_setExit {exit : Exit} (hc : c.graph.Placed) (h : c.setExit? exit = some next) :
    next.graph.Placed :=
  setExit?_induction (fun hg hm hp ho => hg.modifyEdges hm hp ho) hc h

theorem placed_step {step : ConstructionStep} {made : Made} (hc : c.graph.Placed)
    (h : c.step? step = some (made, next)) : next.graph.Placed := by
  cases step with
  | literal w =>
      obtain ⟨-, rfl⟩ := Prod.mk.inj (Option.some.inj h)
      exact placed_makeLiteral hc rfl
  | unreachable =>
      obtain ⟨-, rfl⟩ := Prod.mk.inj (Option.some.inj h)
      exact placed_makeValue hc rfl
  | argument x =>
      obtain ⟨-, rfl⟩ := Prod.mk.inj (Option.some.inj h)
      exact placed_makeArgument hc rfl
  | returnVariable x =>
      obtain ⟨-, rfl⟩ := Prod.mk.inj (Option.some.inj h)
      exact hc.mono (.refl _) rfl rfl rfl
  | operation callee inputs outputs =>
      obtain ⟨⟨vs, done⟩, hd, hpair⟩ := Option.map_eq_some_iff.mp h
      obtain ⟨-, rfl⟩ := Prod.mk.inj hpair
      exact placed_addOperation hc hd
  | block =>
      obtain ⟨-, rfl⟩ := Prod.mk.inj (Option.some.inj h)
      refine ⟨hc.literals, hc.arguments, fun b data hd => ?_⟩
      unfold Cfg.block? at hd
      rw [Array.getElem?_push] at hd
      split at hd
      · obtain rfl := Option.some.inj hd
        exact ⟨by simp [BasicBlock.empty], by simp [BasicBlock.empty, BasicBlock.outputs],
          by simp [BasicBlock.empty, BasicBlock.outputs]⟩
      · exact (hc.blocks b data hd).mono (.refl _)
  | moveTo b =>
      obtain ⟨-, rfl⟩ := Prod.mk.inj (Option.some.inj h)
      exact hc
  | entry =>
      obtain ⟨-, rfl⟩ := Prod.mk.inj (Option.some.inj h)
      exact hc
  | current =>
      obtain ⟨-, rfl⟩ := Prod.mk.inj (Option.some.inj h)
      exact hc
  | phi b =>
      obtain ⟨⟨v, done⟩, hd, hpair⟩ := Option.map_eq_some_iff.mp h
      obtain ⟨-, rfl⟩ := Prod.mk.inj hpair
      exact placed_makePhi hc hd
  | phiArguments phi arguments =>
      obtain ⟨-, rfl⟩ := Prod.mk.inj (Option.some.inj h)
      exact placed_setPhiArguments hc
  | exit e =>
      obtain ⟨done, hd, hpair⟩ := Option.map_eq_some_iff.mp h
      obtain ⟨-, rfl⟩ := Prod.mk.inj hpair
      exact placed_setExit hc hd

-- What every step keeps is kept by steps in turn.
theorem run?_induction {P : Construction → Prop} {steps : List ConstructionStep}
    (hstep : ∀ {c next step made}, P c → c.step? step = some (made, next) → P next) (hc : P c)
    (h : c.run? steps = some next) : P next := by
  induction steps generalizing c with
  | nil =>
      obtain rfl := Option.some.inj h
      exact hc
  | cons step rest ih =>
      simp only [run?] at h
      cases hs : c.step? step with
      | none => simp [hs] at h
      | some found =>
          simp only [hs] at h
          exact ih (hstep hc hs) h

theorem placed_start {function? : Option FunctionId} : (start function?).graph.Placed := by
  refine ⟨by simp [start, Cfg.start], by simp [start, Cfg.start], fun b data hd => ?_⟩
  obtain ⟨-, rfl⟩ : b.index = 0 ∧ BasicBlock.empty = data := by
    obtain ⟨hlt, hget⟩ := Array.getElem?_eq_some_iff.mp hd
    have hz : b.index = 0 := Nat.lt_one_iff.mp hlt
    exact ⟨hz, by simpa [start, Cfg.start, hz] using hget⟩
  exact ⟨by simp [BasicBlock.empty], by simp [BasicBlock.empty, BasicBlock.outputs],
    by simp [BasicBlock.empty, BasicBlock.outputs]⟩

theorem finish_eq_ok_iff {g : Cfg} : c.finish = .ok g ↔ c.misuse? = none ∧ c.graph = g := by
  cases h : c.misuse? <;> simp [finish, h]

theorem finish_eq_error_iff {m : Misuse} : c.finish = .error m ↔ c.misuse? = some m := by
  cases h : c.misuse? <;> simp [finish, h]

end Construction

-- Whether steps misuse the construction is seen at its end.
theorem Cfg.built_of_steps {function? : Option FunctionId} {steps : List ConstructionStep}
    (h : ((Construction.start function?).run? steps).any (·.misuse?.isNone) = true) :
    (Cfg.ofSteps function? steps).Built := by
  obtain ⟨c, hc, hm⟩ := (Option.any_eq_true _ _).mp h
  refine ⟨function?, steps, c, hc, ?_⟩
  rw [Cfg.ofSteps, hc]
  exact Construction.finish_eq_ok_iff.mpr ⟨Option.isNone_iff_eq_none.mp hm, rfl⟩

-- What is there at the start and kept by every step is there in what has been put together.
theorem Cfg.Built.induction {g : Cfg} {P : Cfg → Prop} (h : g.Built)
    (hstart : ∀ function?, P (Construction.start function?).graph)
    (hstep : ∀ {c next : Construction} {step made},
      P c.graph → c.step? step = some (made, next) → P next.graph) : P g := by
  obtain ⟨function?, steps, c, hr, hf⟩ := h
  obtain ⟨-, rfl⟩ := Construction.finish_eq_ok_iff.mp hf
  exact Construction.run?_induction (P := fun c => P c.graph) hstep (hstart function?) hr

-- However a graph is put together, its lists are true to the origins of the values.
theorem Cfg.Built.placed {g : Cfg} (h : g.Built) : g.Placed :=
  h.induction (fun _ => Construction.placed_start) Construction.placed_step

end SsaReplay.Graph
