import SsaReplay.Proofs.Exits

namespace SsaReplay.Graph

-- How many places of the graph list a value of this origin.
def Origin.listings : Origin → Nat
  | .unreachable => 0
  | _ => 1

namespace Cfg

def outputs (g : Cfg) : List ValueId := g.blocks.toList.flatMap BasicBlock.outputs

def phis (g : Cfg) : List ValueId := g.blocks.toList.flatMap BasicBlock.phis

-- The values that the graph lists anywhere, as often as it does.
def listed (g : Cfg) : List ValueId :=
  g.literals.map Prod.snd ++ (g.arguments.map Prod.snd ++ (g.outputs ++ g.phis))

-- How often each of the four kinds of places lists a value.
structure Listings (g : Cfg) (v : ValueId) (literals arguments outputs phis : Nat) : Prop where
  literals : (g.literals.map Prod.snd).count v = literals
  arguments : (g.arguments.map Prod.snd).count v = arguments
  outputs : g.outputs.count v = outputs
  phis : g.phis.count v = phis

-- A value comes from the one place that its origin names, and from no other.
def ComesFrom (g : Cfg) (v : ValueId) : Origin → Prop
  | .unreachable => g.Listings v 0 0 0 0
  | .literal w => g.Listings v 1 0 0 0 ∧ g.literal? w = some v
  | .argument i => g.Listings v 0 1 0 0 ∧ ∃ x, g.arguments[i]? = some (x, v)
  | .defined b => g.Listings v 0 0 1 0 ∧
      ∃ data, g.block? b = some data ∧ ∃ operation ∈ data.operations, v ∈ operation.outputs
  | .phi b _ => g.Listings v 0 0 0 1 ∧ ∃ data, g.block? b = some data ∧ v ∈ data.phis

-- How often a value is to be listed.
def uses (g : Cfg) (v : ValueId) : Nat := ((g.place? v).map Origin.listings).getD 0

structure Accounted (g : Cfg) : Prop where
  placed : g.Placed
  words : (g.literals.map Prod.fst).Nodup
  counted : ∀ v, g.listed.count v = g.uses v

-- From one graph to the other, values are listed as often more as they have to be.
structure Balanced (g g' : Cfg) : Prop where
  counted : ∀ v, g'.listed.count v + g.uses v = g.listed.count v + g'.uses v
  words : (g.literals.map Prod.fst).Nodup → (g'.literals.map Prod.fst).Nodup

variable {g g' g'' : Cfg} {b : BlockId} {f : BasicBlock → BasicBlock} {v : ValueId}

theorem Balanced.refl (g : Cfg) : g.Balanced g := ⟨fun _ => rfl, id⟩

theorem Balanced.trans (h : g.Balanced g') (k : g'.Balanced g'') : g.Balanced g'' := by
  refine ⟨fun v => ?_, fun hw => k.words (h.words hw)⟩
  have := h.counted v
  have := k.counted v
  omega

theorem listed_count (g : Cfg) (v : ValueId) : g.listed.count v =
    (g.literals.map Prod.snd).count v + ((g.arguments.map Prod.snd).count v +
      (g.outputs.count v + g.phis.count v)) := by
  simp [listed]

theorem uses_of_origin? {o : Origin} (h : g.origin? v = some o) : g.uses v = o.listings := by
  cases o <;> simp [uses, place?, h, Origin.place, Origin.listings]

theorem uses_congr (h : ∀ v, g'.place? v = g.place? v) (v : ValueId) : g'.uses v = g.uses v := by
  simp [uses, h]

theorem uses_of_values (h : g'.values = g.values) (v : ValueId) : g'.uses v = g.uses v := by
  simp [uses, place?, origin?, h]

theorem count_flatMap_modify {listing : BasicBlock → List ValueId} {more : List ValueId}
    (hf : ∀ data, listing (f data) = listing data ++ more) {blocks : List BasicBlock} {i : Nat}
    (hi : i < blocks.length) (v : ValueId) : ((blocks.modify i f).flatMap listing).count v =
      (blocks.flatMap listing).count v + more.count v := by
  induction blocks generalizing i with
  | nil => simp at hi
  | cons data rest ih =>
      cases i with
      | zero =>
          simp only [List.modify_zero_cons, List.flatMap_cons, List.count_append, hf]
          omega
      | succ i =>
          have hrest := ih (i := i) (by simpa using hi)
          simp only [List.modify_succ_cons, List.flatMap_cons, List.count_append, hrest]
          omega

-- A block that lists more values makes the graph list them too.
theorem count_of_modifyBlock? {listing : BasicBlock → List ValueId} {more : List ValueId}
    (h : g.modifyBlock? b f = some g') (hf : ∀ data, listing (f data) = listing data ++ more)
    (v : ValueId) : (g'.blocks.toList.flatMap listing).count v =
      (g.blocks.toList.flatMap listing).count v + more.count v := by
  unfold modifyBlock? at h
  split at h
  · next hi =>
    obtain rfl := Option.some.inj h
    rw [Array.toList_modify]
    exact count_flatMap_modify hf (by simpa using hi) v
  · exact absurd h (by simp)

theorem listed_of_modifyBlock? (outputs phis : List ValueId) (h : g.modifyBlock? b f = some g')
    (ho : ∀ data, (f data).outputs = data.outputs ++ outputs)
    (hp : ∀ data, (f data).phis = data.phis ++ phis) (v : ValueId) :
    g'.listed.count v = g.listed.count v + (outputs.count v + phis.count v) := by
  obtain ⟨-, hl, ha⟩ := values_of_modifyBlock? h
  have hout : g'.outputs.count v = g.outputs.count v + outputs.count v :=
    count_of_modifyBlock? h ho v
  have hphi : g'.phis.count v = g.phis.count v + phis.count v := count_of_modifyBlock? h hp v
  rw [listed_count, listed_count, hl, ha, hout, hphi]
  omega

theorem place?_of_origin? {o : Origin} (h : g.origin? v = some o) :
    g.place? v = some o.place := by
  simp [place?, h]

theorem exists_block_of_mem_flatMap {listing : BasicBlock → List ValueId}
    (h : v ∈ g.blocks.toList.flatMap listing) :
    ∃ b data, g.block? b = some data ∧ v ∈ listing data := by
  obtain ⟨data, hdata, hv⟩ := List.mem_flatMap.mp h
  obtain ⟨i, hi⟩ := List.mem_iff_getElem?.mp hdata
  exact ⟨⟨i⟩, data, by simpa [block?] using hi, hv⟩

theorem mem_of_count_eq_one {values : List ValueId} (h : values.count v = 1) : v ∈ values :=
  List.count_pos_iff.mp (h ▸ Nat.one_pos)

theorem lookup_eq_some_iff_mem {pairs : List (Word × ValueId)} {w : Word}
    (h : (pairs.map Prod.fst).Nodup) : pairs.lookup w = some v ↔ (w, v) ∈ pairs := by
  induction pairs with
  | nil => simp
  | cons e rest ih =>
      obtain ⟨w', v'⟩ := e
      obtain ⟨hnew, hrest⟩ := List.nodup_cons.mp h
      by_cases hw : w = w'
      · subst hw
        have hnot : (w, v) ∉ rest := fun hmem => hnew (List.mem_map.mpr ⟨(w, v), hmem, rfl⟩)
        simp [hnot, eq_comm]
      · have hne : (w == w') = false := by simp [hw]
        simp [List.lookup_cons, hne, hw, ih hrest]

-- Edges are no values.
theorem balanced_of_modifyEdges (h : g.modifyBlock? b f = some g')
    (hp : ∀ data, (f data).phis = data.phis)
    (ho : ∀ data, (f data).operations = data.operations) : g.Balanced g' := by
  obtain ⟨hv, hl, -⟩ := values_of_modifyBlock? h
  refine ⟨fun v => ?_, fun hw => hl ▸ hw⟩
  have hlisted := listed_of_modifyBlock? [] [] h
    (fun data => by simp [BasicBlock.outputs, ho]) (fun data => by simp [hp]) v
  rw [hlisted, uses_of_values hv]
  rfl

end Cfg

namespace Construction

variable {c next : Construction} {v : ValueId} {o : Origin}

theorem uses_makeValue (c : Construction) (o : Origin) (u : ValueId) :
    (c.makeValue o).2.graph.uses u =
      c.graph.uses u + o.listings * [(c.makeValue o).1].count u := by
  by_cases hu : u.index = c.graph.values.size
  · obtain rfl : u = ⟨c.graph.values.size⟩ := by
      cases u
      exact congrArg ValueId.mk hu
    cases o <;> simp [makeValue, Cfg.uses, Cfg.place?, Cfg.origin?, Origin.listings, Origin.place]
  · have hne : ¬ (⟨c.graph.values.size⟩ : ValueId) = u := fun heq => hu (heq ▸ rfl)
    simp [makeValue, Cfg.uses, Cfg.place?, Cfg.origin?, Array.getElem?_push, hu, hne]

theorem uses_makeOutputs {n : Nat} {made : List ValueId} (h : c.makeOutputs n = (made, next))
    (u : ValueId) : next.graph.uses u = c.graph.uses u + made.count u := by
  induction n generalizing c made with
  | zero =>
      obtain ⟨rfl, rfl⟩ := Prod.mk.inj h
      simp
  | succ n ih =>
      simp only [makeOutputs] at h
      obtain ⟨rfl, rfl⟩ := Prod.mk.inj h
      have hlast := ih (c := (c.makeValue (.defined c.current)).2) rfl
      rw [hlast, uses_makeValue]
      simp only [Origin.listings, List.count_cons, List.count_nil]
      omega

-- A value that is listed when it is made is one of the four kinds.
theorem balanced_makeValue {g : Cfg} (hv : g.values = (c.makeValue o).2.graph.values)
    (hl : ∀ u, g.listed.count u =
      c.graph.listed.count u + o.listings * [(c.makeValue o).1].count u)
    (hw : (c.graph.literals.map Prod.fst).Nodup → (g.literals.map Prod.fst).Nodup) :
    c.graph.Balanced g := by
  refine ⟨fun u => ?_, hw⟩
  rw [hl, Cfg.uses_of_values hv, uses_makeValue]
  omega

theorem balanced_makeLiteral {w : Word} (h : c.makeLiteral w = (v, next)) :
    c.graph.Balanced next.graph := by
  unfold makeLiteral at h
  split at h
  · obtain ⟨-, rfl⟩ := Prod.mk.inj h
    exact .refl _
  · next hnone =>
    obtain ⟨rfl, rfl⟩ := Prod.mk.inj h
    have hnew : w ∉ c.graph.literals.map Prod.fst := by
      intro hmem
      obtain ⟨e, he, rfl⟩ := List.mem_map.mp hmem
      have := List.lookup_eq_none_iff.mp hnone e he
      simp at this
    refine balanced_makeValue (o := .literal w) rfl (fun u => ?_)
      fun hw => List.nodup_cons.mpr ⟨hnew, hw⟩
    simp only [Cfg.listed, Cfg.outputs, Cfg.phis, makeValue, Origin.listings, List.map_cons,
      List.cons_append, List.count_cons, List.count_nil]
    omega

theorem balanced_makeArgument {x : VariableId} (h : c.makeArgument x = (v, next)) :
    c.graph.Balanced next.graph := by
  obtain ⟨rfl, rfl⟩ := Prod.mk.inj h
  refine balanced_makeValue (o := .argument c.graph.arguments.length) rfl (fun u => ?_) id
  simp only [Cfg.listed, Cfg.outputs, Cfg.phis, makeValue, Origin.listings, List.map_append,
    List.map_cons, List.map_nil, List.count_append]
  omega

theorem balanced_addOperation {callee : Callee} {inputs made : List ValueId} {n : Nat}
    (h : c.addOperation? callee inputs n = some (made, next)) :
    c.graph.Balanced next.graph := by
  unfold addOperation? at h
  cases hm : c.checkOpen.makeOutputs n with
  | mk vs last =>
      simp only [hm] at h
      obtain ⟨done, hdone, hpair⟩ := Option.map_eq_some_iff.mp h
      obtain ⟨rfl, rfl⟩ := Prod.mk.inj hpair
      have hgraph := graph_of_modifyBlock? hdone
      have hlast : last.graph = { c.graph with values := last.graph.values } := by
        rw [(place?_makeOutputs hm).1, graph_checkOpen.1]
      obtain ⟨hv, hl, -⟩ := Cfg.values_of_modifyBlock? hgraph
      rw [hlast] at hl
      refine ⟨fun u => ?_, fun hw => hl ▸ hw⟩
      have huses := uses_makeOutputs hm u
      rw [graph_checkOpen.1] at huses
      have hcount := Cfg.listed_of_modifyBlock? vs [] hgraph
        (fun data => by simp [BasicBlock.outputs]) (fun data => by simp) u
      have hsame : last.graph.listed = c.graph.listed := by
        rw [hlast]
        rfl
      rw [hcount, hsame, Cfg.uses_of_values hv, huses]
      simp only [List.count_nil]
      omega

theorem balanced_makePhi {b : BlockId} (h : c.makePhi? b = some (v, next)) :
    c.graph.Balanced next.graph := by
  obtain ⟨done, hdone, hpair⟩ := Option.map_eq_some_iff.mp h
  obtain ⟨rfl, rfl⟩ := Prod.mk.inj hpair
  have hgraph : (c.makeValue (.phi b [])).2.graph.modifyBlock? b _ = some done.graph :=
    graph_of_modifyBlock? hdone
  obtain ⟨hv, hl, -⟩ := Cfg.values_of_modifyBlock? hgraph
  refine balanced_makeValue hv (fun u => ?_) fun hw => hl ▸ hw
  have hcount := Cfg.listed_of_modifyBlock? [] [(c.makeValue (.phi b [])).1] hgraph
    (fun data => by simp [BasicBlock.outputs]) (fun data => rfl) u
  have hsame : (c.makeValue (.phi b [])).2.graph.listed = c.graph.listed := rfl
  have hlistings : (Origin.phi b []).listings = 1 := rfl
  rw [hcount, hsame, hlistings, List.count_nil, Nat.zero_add, Nat.one_mul]

-- A phi stays the phi that it is, whatever its arguments are.
theorem place?_setPhiArguments {phi : ValueId} {arguments : List ValueId} (u : ValueId) :
    (c.setPhiArguments phi arguments).graph.place? u = c.graph.place? u := by
  unfold setPhiArguments
  split
  · next b old ho =>
    unfold Cfg.place? Cfg.origin?
    rw [Array.getElem?_modify]
    by_cases hi : phi.index = u.index
    · unfold Cfg.origin? at ho
      rw [if_pos hi, ← hi, ho]
      rfl
    · rw [if_neg hi]
  · rfl

theorem balanced_setPhiArguments {phi : ValueId} {arguments : List ValueId} :
    c.graph.Balanced (c.setPhiArguments phi arguments).graph := by
  constructor
  · intro u
    rw [Cfg.uses_congr place?_setPhiArguments]
    unfold setPhiArguments
    split <;> rfl
  · unfold setPhiArguments
    split <;> exact id

theorem balanced_setExit {exit : Exit} (h : c.setExit? exit = some next) :
    c.graph.Balanced next.graph :=
  setExit?_induction (fun hg hm hp ho => hg.trans (Cfg.balanced_of_modifyEdges hm hp ho))
    (.refl _) h

theorem balanced_step {step : ConstructionStep} {made : Made}
    (h : c.step? step = some (made, next)) : c.graph.Balanced next.graph := by
  cases step with
  | literal w =>
      obtain ⟨-, rfl⟩ := Prod.mk.inj (Option.some.inj h)
      exact balanced_makeLiteral rfl
  | unreachable =>
      obtain ⟨-, rfl⟩ := Prod.mk.inj (Option.some.inj h)
      refine balanced_makeValue (o := .unreachable) rfl (fun u => ?_) id
      rw [Origin.listings, Nat.zero_mul]
      rfl
  | argument x =>
      obtain ⟨-, rfl⟩ := Prod.mk.inj (Option.some.inj h)
      exact balanced_makeArgument rfl
  | returnVariable x =>
      obtain ⟨-, rfl⟩ := Prod.mk.inj (Option.some.inj h)
      exact ⟨fun _ => rfl, id⟩
  | operation callee inputs outputs =>
      obtain ⟨⟨vs, done⟩, hd, hpair⟩ := Option.map_eq_some_iff.mp h
      obtain ⟨-, rfl⟩ := Prod.mk.inj hpair
      exact balanced_addOperation hd
  | block =>
      obtain ⟨-, rfl⟩ := Prod.mk.inj (Option.some.inj h)
      refine ⟨fun u => ?_, id⟩
      simp [Cfg.listed, Cfg.outputs, Cfg.phis, BasicBlock.empty, BasicBlock.outputs, Cfg.uses,
        Cfg.place?, Cfg.origin?]
  | moveTo b =>
      obtain ⟨-, rfl⟩ := Prod.mk.inj (Option.some.inj h)
      exact .refl _
  | entry =>
      obtain ⟨-, rfl⟩ := Prod.mk.inj (Option.some.inj h)
      exact .refl _
  | current =>
      obtain ⟨-, rfl⟩ := Prod.mk.inj (Option.some.inj h)
      exact .refl _
  | phi b =>
      obtain ⟨⟨v, done⟩, hd, hpair⟩ := Option.map_eq_some_iff.mp h
      obtain ⟨-, rfl⟩ := Prod.mk.inj hpair
      exact balanced_makePhi hd
  | phiArguments phi arguments =>
      obtain ⟨-, rfl⟩ := Prod.mk.inj (Option.some.inj h)
      exact balanced_setPhiArguments
  | exit e =>
      obtain ⟨done, hd, hpair⟩ := Option.map_eq_some_iff.mp h
      obtain ⟨-, rfl⟩ := Prod.mk.inj hpair
      exact balanced_setExit hd

theorem balanced_run {steps : List ConstructionStep} (h : c.run? steps = some next) :
    c.graph.Balanced next.graph :=
  run?_induction (P := fun done => c.graph.Balanced done.graph)
    (fun hd hs => hd.trans (balanced_step hs)) (.refl _) h

theorem accounted_run {function? : Option FunctionId} {steps : List ConstructionStep}
    (h : (start function?).run? steps = some c) : c.graph.Accounted := by
  obtain ⟨counted, words⟩ := balanced_run h
  refine ⟨run?_induction (P := fun done => done.graph.Placed) placed_step placed_start h,
    words (by simp [start, Cfg.start]), fun v => ?_⟩
  -- at the start there are neither values nor anything that lists them
  have hcount := counted v
  have hlisted : (start function?).graph.listed = [] := rfl
  have huses : (start function?).graph.uses v = 0 := rfl
  rw [hlisted, huses] at hcount
  simpa using hcount

end Construction

namespace Cfg

variable {g : Cfg} {v : ValueId} {o : Origin} {w : Word}

theorem Accounted.literal?_iff_mem (h : g.Accounted) :
    g.literal? w = some v ↔ (w, v) ∈ g.literals :=
  lookup_eq_some_iff_mem h.words

theorem Accounted.of_mem_literals (h : g.Accounted) (hv : v ∈ g.literals.map Prod.snd) :
    ∃ w, g.literal? w = some v ∧ g.place? v = some (.literal w) := by
  obtain ⟨⟨w, v⟩, he, rfl⟩ := List.mem_map.mp hv
  exact ⟨w, h.literal?_iff_mem.mpr he, h.placed.literals (w, v) he⟩

theorem Accounted.of_mem_arguments (h : g.Accounted) (hv : v ∈ g.arguments.map Prod.snd) :
    ∃ i x, g.arguments[i]? = some (x, v) ∧ g.place? v = some (.argument i) := by
  obtain ⟨⟨x, v⟩, he, rfl⟩ := List.mem_map.mp hv
  obtain ⟨i, hi⟩ := List.mem_iff_getElem?.mp he
  exact ⟨i, x, hi, h.placed.arguments i x v hi⟩

theorem Accounted.of_mem_outputs (h : g.Accounted) (hv : v ∈ g.outputs) :
    ∃ b data, g.block? b = some data ∧ v ∈ data.outputs ∧ g.place? v = some (.defined b) := by
  obtain ⟨b, data, hdata, hv⟩ := exists_block_of_mem_flatMap hv
  exact ⟨b, data, hdata, hv, (h.placed.blocks b data hdata).outputs v hv⟩

theorem Accounted.of_mem_phis (h : g.Accounted) (hv : v ∈ g.phis) :
    ∃ b data, g.block? b = some data ∧ v ∈ data.phis ∧ g.place? v = some (.phi b []) := by
  obtain ⟨b, data, hdata, hv⟩ := exists_block_of_mem_flatMap hv
  exact ⟨b, data, hdata, hv, (h.placed.blocks b data hdata).phis v hv⟩

-- The place of a value tells in which lists it cannot be.
section Elsewhere

variable {p : Origin}

theorem Accounted.count_literals (h : g.Accounted) (hp : g.place? v = some p)
    (hne : ∀ w, p ≠ .literal w) : (g.literals.map Prod.snd).count v = 0 := by
  refine List.count_eq_zero.mpr fun hv => ?_
  obtain ⟨w, -, hw⟩ := h.of_mem_literals hv
  exact hne w (Option.some.inj (hp.symm.trans hw))

theorem Accounted.count_arguments (h : g.Accounted) (hp : g.place? v = some p)
    (hne : ∀ i, p ≠ .argument i) : (g.arguments.map Prod.snd).count v = 0 := by
  refine List.count_eq_zero.mpr fun hv => ?_
  obtain ⟨i, x, -, hi⟩ := h.of_mem_arguments hv
  exact hne i (Option.some.inj (hp.symm.trans hi))

theorem Accounted.count_outputs (h : g.Accounted) (hp : g.place? v = some p)
    (hne : ∀ b, p ≠ .defined b) : g.outputs.count v = 0 := by
  refine List.count_eq_zero.mpr fun hv => ?_
  obtain ⟨b, data, -, -, hb⟩ := h.of_mem_outputs hv
  exact hne b (Option.some.inj (hp.symm.trans hb))

theorem Accounted.count_phis (h : g.Accounted) (hp : g.place? v = some p)
    (hne : ∀ b, p ≠ .phi b []) : g.phis.count v = 0 := by
  refine List.count_eq_zero.mpr fun hv => ?_
  obtain ⟨b, data, -, -, hb⟩ := h.of_mem_phis hv
  exact hne b (Option.some.inj (hp.symm.trans hb))

end Elsewhere

-- What is left is the list that the count leaves over.
theorem Accounted.comesFrom (h : g.Accounted) (ho : g.origin? v = some o) : g.ComesFrom v o := by
  have hplace := place?_of_origin? ho
  have hliterals := h.count_literals hplace
  have harguments := h.count_arguments hplace
  have houtputs := h.count_outputs hplace
  have hphis := h.count_phis hplace
  have htotal := h.counted v
  rw [uses_of_origin? ho, listed_count] at htotal
  cases o with
  | unreachable =>
      exact ⟨hliterals nofun, harguments nofun, houtputs nofun, hphis nofun⟩
  | argument i =>
      have hl := hliterals nofun
      have ho := houtputs nofun
      have hp := hphis nofun
      have ha : (g.arguments.map Prod.snd).count v = 1 := by
        simpa [hl, ho, hp, Origin.listings] using htotal
      obtain ⟨j, x, hj, hplaced⟩ := h.of_mem_arguments (mem_of_count_eq_one ha)
      obtain rfl : i = j := by simpa [Origin.place] using hplace.symm.trans hplaced
      exact ⟨⟨hl, ha, ho, hp⟩, x, hj⟩
  | defined b =>
      have hl := hliterals nofun
      have ha := harguments nofun
      have hp := hphis nofun
      have ho : g.outputs.count v = 1 := by simpa [hl, ha, hp, Origin.listings] using htotal
      obtain ⟨b', data, hdata, hv, hplaced⟩ := h.of_mem_outputs (mem_of_count_eq_one ho)
      obtain rfl : b = b' := by simpa [Origin.place] using hplace.symm.trans hplaced
      exact ⟨⟨hl, ha, ho, hp⟩, data, hdata, List.mem_flatMap.mp hv⟩
  | literal w =>
      have ha := harguments nofun
      have ho := houtputs nofun
      have hp := hphis nofun
      have hl : (g.literals.map Prod.snd).count v = 1 := by
        simpa [ha, ho, hp, Origin.listings] using htotal
      obtain ⟨w', hw, hplaced⟩ := h.of_mem_literals (mem_of_count_eq_one hl)
      obtain rfl : w = w' := by simpa [Origin.place] using hplace.symm.trans hplaced
      exact ⟨⟨hl, ha, ho, hp⟩, hw⟩
  | phi b arguments =>
      have hl := hliterals nofun
      have ha := harguments nofun
      have ho := houtputs nofun
      have hp : g.phis.count v = 1 := by simpa [hl, ha, ho, Origin.listings] using htotal
      obtain ⟨b', data, hdata, hv, hplaced⟩ := h.of_mem_phis (mem_of_count_eq_one hp)
      obtain rfl : b = b' := by simpa [Origin.place] using hplace.symm.trans hplaced
      exact ⟨⟨hl, ha, ho, hp⟩, data, hdata, hv⟩

theorem origin?_of_place? (h : g.place? v = some (.literal w)) :
    g.origin? v = some (.literal w) := by
  obtain ⟨o, ho, hplace⟩ := Option.map_eq_some_iff.mp h
  cases o <;> simp_all [Origin.place]

theorem Accounted.literal?_iff (h : g.Accounted) :
    g.literal? w = some v ↔ g.origin? v = some (.literal w) := by
  constructor
  · intro hw
    exact origin?_of_place? (h.placed.literals (w, v) (h.literal?_iff_mem.mp hw))
  · intro ho
    exact (h.comesFrom ho).2

theorem Accounted.isSome_origin? (h : g.Accounted) (hv : v ∈ g.listed) :
    (g.origin? v).isSome := by
  have hcount := List.one_le_count_iff.mpr hv
  rw [h.counted v] at hcount
  cases ho : g.origin? v with
  | none => simp [uses, place?, ho] at hcount
  | some o => rfl

end Cfg

-- Whatever the steps are, and be some of them misuse, a value that was made has one
-- definition, there is one value for a constant, and no other values are listed.
theorem comesFrom_of_run {function? : Option FunctionId} {steps : List ConstructionStep}
    {c : Construction} (run : (Construction.start function?).run? steps = some c) :
    (∀ v o, c.graph.origin? v = some o → c.graph.ComesFrom v o) ∧
      (c.graph.literals.map Prod.fst).Nodup ∧
        (∀ w v, c.graph.literal? w = some v ↔ c.graph.origin? v = some (.literal w)) ∧
          ∀ v ∈ c.graph.listed, (c.graph.origin? v).isSome := by
  have h := Construction.accounted_run run
  exact ⟨fun v o => h.comesFrom, h.words, fun w v => h.literal?_iff, fun v => h.isSome_origin?⟩

-- Constants asked for again, a phi given its arguments twice, and two steps too much.
namespace Muddled

def steps : List ConstructionStep :=
  [.literal 0, .literal 7, .literal 0, .unreachable, .argument ⟨3⟩, .argument ⟨3⟩,
    .operation (.builtin ⟨23⟩) [⟨1⟩] 2, .block, .phi ⟨1⟩, .phiArguments ⟨7⟩ [⟨0⟩],
    .phiArguments ⟨7⟩ [⟨5⟩], .phiArguments ⟨0⟩ [], .exit (.jump ⟨1⟩),
    .operation (.builtin ⟨23⟩) [⟨7⟩] 1]

def built : Construction :=
  ((Construction.start none).run? steps).getD (Construction.start none)

theorem comesFrom_here : (Construction.start none).run? steps = some built ∧
    built.misuse? = some (.notAPhi ⟨0⟩) ∧ built.graph.literal? 7 = some ⟨1⟩ ∧
      built.graph.ComesFrom ⟨7⟩ (.phi ⟨1⟩ [⟨5⟩]) ∧ built.graph.ComesFrom ⟨8⟩ (.defined ⟨0⟩) := by
  have run : (Construction.start none).run? steps = some built := rfl
  obtain ⟨comesFrom, -, literals, -⟩ := comesFrom_of_run run
  exact ⟨run, rfl, (literals 7 ⟨1⟩).mpr rfl, comesFrom ⟨7⟩ _ rfl, comesFrom ⟨8⟩ _ rfl⟩

end Muddled

end SsaReplay.Graph
