import SsaReplay.Proofs.Construction
import SsaReplay.Proofs.Success.Edge

namespace SsaReplay.Graph

namespace Cfg

-- There is a block to start in, and what the exit of a block leads to has it as an entry.
structure Linked (g : Cfg) : Prop where
  entry : ∃ data, g.block? g.entry = some data
  edges : ∀ source target, g.Leads source target → g.HasEdge source target

-- The blocks of a graph are there in another one as well, where they are left in the
-- same ways and may have more entries.
structure Widened (g g' : Cfg) : Prop where
  entry : g'.entry = g.entry
  blocks : ∀ b data, g.block? b = some data → ∃ data', g'.block? b = some data' ∧
    data'.exit = data.exit ∧ ∀ source ∈ data.entries, source ∈ data'.entries

variable {g g' g'' : Cfg} {b source target : BlockId}

theorem Widened.refl (g : Cfg) : g.Widened g :=
  ⟨rfl, fun _ data hd => ⟨data, hd, rfl, fun _ h => h⟩⟩

theorem Widened.of_blocks (he : g'.entry = g.entry) (hb : g'.blocks = g.blocks) :
    g.Widened g' := by
  refine ⟨he, fun b data hd => ⟨data, ?_, rfl, fun _ h => h⟩⟩
  unfold block? at hd ⊢
  rwa [hb]

theorem Widened.trans (h : g.Widened g') (k : g'.Widened g'') : g.Widened g'' := by
  refine ⟨k.entry.trans h.entry, fun b data hd => ?_⟩
  obtain ⟨data', hd', hx', he'⟩ := h.blocks b data hd
  obtain ⟨data'', hd'', hx'', he''⟩ := k.blocks b data' hd'
  exact ⟨data'', hd'', hx''.trans hx', fun source hs => he'' source (he' source hs)⟩

theorem Widened.hasEdge (h : g.Widened g') (he : g.HasEdge source target) :
    g'.HasEdge source target := by
  obtain ⟨start, finish, hs, hf, htarget, hsource⟩ := he
  obtain ⟨start', hs', hx, -⟩ := h.blocks source start hs
  obtain ⟨finish', hf', -, hentries⟩ := h.blocks target finish hf
  exact ⟨start', finish', hs', hf', hx ▸ htarget, hentries source hsource⟩

-- Edges stay linked as long as no exit is added.
theorem Linked.widened (h : g.Linked) (hw : g.Widened g')
    (hl : ∀ source target, g'.Leads source target → g.Leads source target) : g'.Linked := by
  constructor
  · obtain ⟨data, hd⟩ := h.entry
    obtain ⟨data', hd', -⟩ := hw.blocks g.entry data hd
    exact ⟨data', hw.entry ▸ hd'⟩
  · exact fun source target hlead => hw.hasEdge (h.edges source target (hl source target hlead))

theorem Linked.of_blocks (h : g.Linked) (he : g'.entry = g.entry) (hb : g'.blocks = g.blocks) :
    g'.Linked := by
  refine h.widened (.of_blocks he hb) fun source target hl => ?_
  obtain ⟨data, hd, ht⟩ := hl
  refine ⟨data, ?_, ht⟩
  unfold block? at hd ⊢
  rwa [← hb]

theorem exists_block_of_modifyBlock? {f : BasicBlock → BasicBlock}
    (h : g.modifyBlock? b f = some g') : ∃ data, g.block? b = some data := by
  unfold modifyBlock? at h
  by_cases hb : b.index < g.blocks.size
  · exact ⟨g.blocks[b.index], Array.getElem?_eq_getElem hb⟩
  · simp [hb] at h

theorem entry_of_modifyBlock? {f : BasicBlock → BasicBlock} (h : g.modifyBlock? b f = some g') :
    g'.entry = g.entry := by
  unfold modifyBlock? at h
  split at h
  · obtain rfl := Option.some.inj h
    rfl
  · exact absurd h (by simp)

-- A change to one block that keeps its exit and its entries.
theorem widened_of_modifyBlock? {f : BasicBlock → BasicBlock} (h : g.modifyBlock? b f = some g')
    (hx : ∀ data, (f data).exit = data.exit)
    (he : ∀ data, ∀ source ∈ data.entries, source ∈ (f data).entries) :
    g.Widened g' ∧ ∀ source target, g'.Leads source target → g.Leads source target := by
  refine ⟨⟨entry_of_modifyBlock? h, fun b' data hd => ?_⟩, ?_⟩
  · by_cases hb : b' = b
    · refine ⟨f data, ?_, hx data, he data⟩
      rw [block?_of_modifyBlock? h, if_pos hb, hd, Option.map_some]
    · refine ⟨data, ?_, rfl, fun _ h => h⟩
      rw [block?_of_modifyBlock? h, if_neg hb, hd]
  · rintro source target ⟨data, hd, ht⟩
    rw [block?_of_modifyBlock? h] at hd
    by_cases hb : source = b
    · rw [if_pos hb] at hd
      obtain ⟨old, ho, rfl⟩ := Option.map_eq_some_iff.mp hd
      exact ⟨old, hb ▸ ho, hx old ▸ ht⟩
    · rw [if_neg hb] at hd
      exact ⟨data, hd, ht⟩

end Cfg

namespace Construction

variable {c next : Construction}

theorem linked_of_modifyBlock? {b : BlockId} {f : BasicBlock → BasicBlock}
    (h : c.graph.Linked) (hm : c.modifyBlock? b f = some next)
    (hx : ∀ data, (f data).exit = data.exit)
    (he : ∀ data, ∀ source ∈ data.entries, source ∈ (f data).entries) : next.graph.Linked := by
  obtain ⟨hw, hl⟩ := Cfg.widened_of_modifyBlock? (graph_of_modifyBlock? hm) hx he
  exact h.widened hw hl

theorem linked_makeLiteral {w : Word} {v : ValueId} (hc : c.graph.Linked)
    (h : c.makeLiteral w = (v, next)) : next.graph.Linked := by
  unfold makeLiteral at h
  split at h
  · obtain ⟨-, rfl⟩ := Prod.mk.inj h
    exact hc
  · obtain ⟨-, rfl⟩ := Prod.mk.inj h
    exact hc.of_blocks rfl rfl

theorem linked_addOperation {callee : Callee} {inputs made : List ValueId} {n : Nat}
    (hc : c.graph.Linked) (h : c.addOperation? callee inputs n = some (made, next)) :
    next.graph.Linked := by
  unfold addOperation? at h
  cases hm : c.checkOpen.makeOutputs n with
  | mk vs last =>
      obtain ⟨hg, -⟩ := place?_makeOutputs hm
      rw [graph_checkOpen.1] at hg
      simp only [hm] at h
      obtain ⟨done, hdone, hpair⟩ := Option.map_eq_some_iff.mp h
      obtain ⟨-, rfl⟩ := Prod.mk.inj hpair
      have hlast : last.graph.Linked := hc.of_blocks (by rw [hg]) (by rw [hg])
      exact linked_of_modifyBlock? hlast hdone (fun _ => rfl) fun _ _ hs => hs

-- The source becomes an entry of all the targets.
theorem entered_of_foldlM {source : BlockId} {targets : List BlockId}
    (h : targets.foldlM (enterFrom? source) c = some next) :
    (c.graph.Linked → next.graph.Linked) ∧ c.graph.Widened next.graph ∧ ∀ target ∈ targets,
      ∃ data, next.graph.block? target = some data ∧ source ∈ data.entries := by
  induction targets generalizing c with
  | nil =>
      obtain rfl := Option.some.inj h
      exact ⟨id, .refl _, fun _ ht => absurd ht List.not_mem_nil⟩
  | cons target rest ih =>
      rw [List.foldlM_cons] at h
      obtain ⟨mid, hmid, hrest⟩ := Option.bind_eq_some_iff.mp h
      obtain ⟨hlinked, hwidened, hentered⟩ := ih hrest
      have hgraph := graph_of_modifyBlock? hmid
      obtain ⟨hw, hl⟩ := Cfg.widened_of_modifyBlock? hgraph (fun _ => rfl)
        fun _ _ hs => List.mem_append_left _ hs
      refine ⟨fun hc => hlinked (hc.widened hw hl), hw.trans hwidened,
        List.forall_mem_cons.mpr ⟨?_, hentered⟩⟩
      obtain ⟨old, hold⟩ := Cfg.exists_block_of_modifyBlock? hgraph
      have hnew : mid.graph.block? target =
          some { old with entries := old.entries ++ [source] } := by
        rw [Cfg.block?_of_modifyBlock? hgraph, if_pos rfl, hold, Option.map_some]
      obtain ⟨data, hd, -, hkept⟩ := hwidened.blocks target _ hnew
      exact ⟨data, hd, hkept source (List.mem_append_right _ (List.mem_singleton_self source))⟩

-- By the time an exit is set, all it leads to has the block as an entry.
theorem linked_setExit {exit : Exit} (hc : c.graph.Linked) (h : c.setExit? exit = some next) :
    next.graph.Linked := by
  simp only [setExit?, Option.bind_eq_bind, Option.bind_eq_some_iff, Option.pure_def,
    Option.some.injEq] at h
  obtain ⟨entered, he, done, hd, rfl⟩ := h
  obtain ⟨hlinked, -, hentered⟩ := entered_of_foldlM he
  have hbefore : entered.graph.Linked := hlinked (graph_checkOpen (c := c).1 ▸ hc)
  have hgraph := graph_of_modifyBlock? hd
  obtain ⟨current, hcurrent⟩ := Cfg.exists_block_of_modifyBlock? hgraph
  -- only the exit of the current block differs
  have kept : ∀ b data, entered.graph.block? b = some data → ∃ data',
      done.graph.block? b = some data' ∧ data'.entries = data.entries ∧
        (b ≠ c.current → data'.exit = data.exit) := by
    intro b data hb
    by_cases hcur : b = c.current
    · refine ⟨{ data with exit }, ?_, rfl, fun hne => absurd hcur hne⟩
      rw [Cfg.block?_of_modifyBlock? hgraph, if_pos hcur, hb, Option.map_some]
    · refine ⟨data, ?_, rfl, fun _ => rfl⟩
      rw [Cfg.block?_of_modifyBlock? hgraph, if_neg hcur, hb]
  constructor
  · obtain ⟨data, hdata⟩ := hbefore.entry
    obtain ⟨data', hdata', -⟩ := kept _ data hdata
    exact ⟨data', (Cfg.entry_of_modifyBlock? hgraph).symm ▸ hdata'⟩
  · rintro source target ⟨data, hdata, htarget⟩
    have hleads := hdata
    change done.graph.block? source = some data at hdata
    rw [Cfg.block?_of_modifyBlock? hgraph] at hdata
    by_cases hcur : source = c.current
    · rw [if_pos hcur] at hdata
      obtain ⟨old, -, rfl⟩ := Option.map_eq_some_iff.mp hdata
      obtain ⟨finish, hf, hs⟩ := hentered target htarget
      obtain ⟨finish', hf', hentries, -⟩ := kept target finish hf
      exact ⟨_, finish', hleads, hf', htarget, hentries ▸ hcur ▸ hs⟩
    · rw [if_neg hcur] at hdata
      obtain ⟨start, finish, hs, hf, ht, hentry⟩ :=
        hbefore.edges source target ⟨data, hdata, htarget⟩
      obtain ⟨finish', hf', hentries, -⟩ := kept target finish hf
      exact ⟨data, finish', hleads, hf', htarget, hentries ▸ hentry⟩

theorem linked_step {step : ConstructionStep} {made : Made} (hc : c.graph.Linked)
    (h : c.step? step = some (made, next)) : next.graph.Linked := by
  cases step with
  | literal w =>
      obtain ⟨-, rfl⟩ := Prod.mk.inj (Option.some.inj h)
      exact linked_makeLiteral hc rfl
  | unreachable =>
      obtain ⟨-, rfl⟩ := Prod.mk.inj (Option.some.inj h)
      exact hc.of_blocks rfl rfl
  | argument x =>
      obtain ⟨-, rfl⟩ := Prod.mk.inj (Option.some.inj h)
      exact hc.of_blocks rfl rfl
  | returnVariable x =>
      obtain ⟨-, rfl⟩ := Prod.mk.inj (Option.some.inj h)
      exact hc.of_blocks rfl rfl
  | operation callee inputs outputs =>
      obtain ⟨⟨vs, done⟩, hd, hpair⟩ := Option.map_eq_some_iff.mp h
      obtain ⟨-, rfl⟩ := Prod.mk.inj hpair
      exact linked_addOperation hc hd
  | block =>
      obtain ⟨-, rfl⟩ := Prod.mk.inj (Option.some.inj h)
      refine hc.widened ⟨rfl, fun b data hd => ⟨data, ?_, rfl, fun _ h => h⟩⟩ ?_
      · have hlt := (Array.getElem?_eq_some_iff.mp hd).1
        unfold Cfg.block? at hd ⊢
        rwa [Array.getElem?_push_lt hlt, ← Array.getElem?_eq_getElem hlt]
      · rintro source target ⟨data, hd, ht⟩
        unfold Cfg.block? at hd
        rw [Array.getElem?_push] at hd
        split at hd
        · obtain rfl := Option.some.inj hd
          exact absurd ht List.not_mem_nil
        · exact ⟨data, hd, ht⟩
  | moveTo b =>
      obtain ⟨-, rfl⟩ := Prod.mk.inj (Option.some.inj h)
      exact hc
  | entry =>
      obtain ⟨-, rfl⟩ := Prod.mk.inj (Option.some.inj h)
      exact hc
  | current =>
      obtain ⟨-, rfl⟩ := Prod.mk.inj (Option.some.inj h)
      exact hc
  | phi b =>
      obtain ⟨⟨v, done⟩, hd, hpair⟩ := Option.map_eq_some_iff.mp h
      obtain ⟨-, rfl⟩ := Prod.mk.inj hpair
      obtain ⟨last, hlast, hmade⟩ := Option.map_eq_some_iff.mp hd
      obtain ⟨-, rfl⟩ := Prod.mk.inj hmade
      have hnext : (c.makeValue (.phi b [])).2.graph.Linked := hc.of_blocks rfl rfl
      exact linked_of_modifyBlock? hnext hlast (fun _ => rfl) fun _ _ hs => hs
  | phiArguments phi arguments =>
      obtain ⟨-, rfl⟩ := Prod.mk.inj (Option.some.inj h)
      unfold setPhiArguments
      split <;> exact hc.of_blocks rfl rfl
  | exit e =>
      obtain ⟨done, hd, hpair⟩ := Option.map_eq_some_iff.mp h
      obtain ⟨-, rfl⟩ := Prod.mk.inj hpair
      exact linked_setExit hc hd

theorem linked_start (function? : Option FunctionId) : (start function?).graph.Linked := by
  refine ⟨⟨.empty, rfl⟩, ?_⟩
  rintro source target ⟨data, hd, ht⟩
  obtain ⟨hlt, hget⟩ := Array.getElem?_eq_some_iff.mp hd
  have hz : source.index = 0 := Nat.lt_one_iff.mp hlt
  obtain rfl : BasicBlock.empty = data := by simpa [start, Cfg.start, hz] using hget
  exact absurd ht List.not_mem_nil

end Construction

-- However a graph is put together, its edges are there on both of their ends.
theorem Cfg.Built.linked {g : Cfg} (h : g.Built) : g.Linked :=
  h.induction Construction.linked_start Construction.linked_step

end SsaReplay.Graph
