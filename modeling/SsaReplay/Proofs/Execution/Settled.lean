import SsaReplay.Proofs.Construction
import SsaReplay.Proofs.Execution.Graph

namespace SsaReplay

open SsaReplay.Graph (BasicBlock Cfg Operation)

namespace Execution

-- What a value stands for is never taken back.
def Persists (env env' : ValueId → Option Word) : Prop := ∀ v w, env v = some w → env' v = some w

theorem Persists.refl (env : ValueId → Option Word) : Persists env env := fun _ _ h => h

theorem Persists.trans {a b c : ValueId → Option Word} (h : Persists a b) (k : Persists b c) :
    Persists a c := fun v w hv => k v w (h v w hv)

section BindAll

variable {env : ValueId → Option Word} {values : List ValueId} {words : List Word} {v : ValueId}

theorem lookup_zip_of_not_mem (h : v ∉ values) : (values.zip words).lookup v = none := by
  refine List.lookup_eq_none_iff.mpr fun p hp => ?_
  have hm := (List.of_mem_zip hp).1
  simp only [bne_iff_ne, ne_eq]
  rintro rfl
  exact h hm

theorem bindAll_of_not_mem (h : v ∉ values) : bindAll env values words v = env v := by
  rw [bindAll, lookup_zip_of_not_mem h, Option.none_or]

theorem lookup_zip_of_mem {w : Word} (hn : values.Nodup) (h : (v, w) ∈ values.zip words) :
    (values.zip words).lookup v = some w := by
  induction values generalizing words with
  | nil => simp at h
  | cons u rest ih =>
      cases words with
      | nil => simp at h
      | cons x words =>
          obtain ⟨hu, hr⟩ := List.nodup_cons.mp hn
          rw [List.zip_cons_cons] at h ⊢
          rcases List.mem_cons.mp h with heq | h
          · obtain ⟨rfl, rfl⟩ := Prod.mk.inj heq
            exact List.lookup_cons_self
          · have hne : v ≠ u := fun he => hu (he ▸ (List.of_mem_zip h).1)
            rw [List.lookup_cons, beq_false_of_ne hne]
            exact ih hr h

theorem bindAll_forall₂ (hn : values.Nodup) (hl : values.length = words.length) :
    List.Forall₂ (fun v w => bindAll env values words v = some w) values words := by
  refine List.forall₂_iff_zip.mpr ⟨hl, fun h => ?_⟩
  rw [bindAll, lookup_zip_of_mem hn h, Option.some_or]

end BindAll

end Execution

open Execution

namespace Graph.Cfg

-- Every edge leads to a greater rank.
def Ranked (g : Cfg) (rank : BlockId → Nat) : Prop := ∀ a b, g.Leads a b → rank a < rank b

-- Of what operations and phis define, only what is behind the position has a word.
structure Settled (g : Cfg) (rank : BlockId → Nat) (c : Config) : Prop where
  outputs : ∀ v w b, c.env v = some w → g.place? v = some (.defined b) →
    rank b < rank c.block ∨ g.Outputs c.block c.op v
  phis : ∀ v w b, c.env v = some w → g.place? v = some (.phi b []) → rank b ≤ rank c.block

variable {g : Cfg} {rank : BlockId → Nat} {oracle : Oracle} {arguments : List Word}
  {c c' : Config} {b : BlockId} {k : Nat} {v : ValueId}

theorem Placed.of_outputs (hg : g.Placed) (h : g.Outputs b k v) :
    g.place? v = some (.defined b) := by
  obtain ⟨data, hd, op, ho, hv⟩ := h
  exact (hg.blocks b data hd).outputs v
    (List.mem_flatMap.mpr ⟨op, List.mem_of_mem_take ho, hv⟩)

-- An operation has no output that is an output of an earlier one.
theorem Placed.not_outputs (hg : g.Placed) {data : BasicBlock} {op : Operation}
    (hd : g.block? b = some data) (ho : data.operations[k]? = some op) (hv : v ∈ op.outputs) :
    ¬g.Outputs b k v := by
  rintro ⟨found, hf, earlier, he, hm⟩
  obtain rfl := Option.some.inj (hd.symm.trans hf)
  obtain ⟨hk, hop⟩ := List.getElem?_eq_some_iff.mp ho
  have hn := (hg.blocks b data hd).distinct
  unfold BasicBlock.outputs at hn
  rw [← List.take_append_drop k data.operations, List.drop_eq_getElem_cons hk, hop,
    List.flatMap_append, List.flatMap_cons] at hn
  have hdisjoint := (List.nodup_append'.mp hn).2.2
  exact hdisjoint (List.mem_flatMap.mpr ⟨earlier, he, hm⟩) (List.mem_append_left _ hv)

theorem outputs_step {data : BasicBlock} {op : Operation} (hd : g.block? b = some data)
    (ho : data.operations[k]? = some op) (hv : v ∈ op.outputs) : g.Outputs b (k + 1) v := by
  obtain ⟨hk, hop⟩ := List.getElem?_eq_some_iff.mp ho
  exact ⟨data, hd, op, List.mem_take_iff_getElem.mpr ⟨k, by omega, hop⟩, hv⟩

theorem settled_first : g.Settled rank (g.first arguments) := by
  have hnone : ∀ v w, g.given arguments v = some w →
      (∃ x, g.place? v = some (.literal x)) ∨ ∃ i, g.place? v = some (.argument i) := by
    intro v w h
    unfold given at h
    unfold place?
    split at h
    · next x ho => exact .inl ⟨x, by rw [ho]; rfl⟩
    · next i ho => exact .inr ⟨i, by rw [ho]; rfl⟩
    · exact absurd h (by simp)
  constructor
  · intro v w b hw ho
    rcases hnone v w hw with ⟨x, hx⟩ | ⟨i, hi⟩
    · exact absurd (ho.symm.trans hx) (by simp)
    · exact absurd (ho.symm.trans hi) (by simp)
  · intro v w b hw ho
    rcases hnone v w hw with ⟨x, hx⟩ | ⟨i, hi⟩
    · exact absurd (ho.symm.trans hx) (by simp)
    · exact absurd (ho.symm.trans hi) (by simp)

theorem rank_le_of_moves (hr : g.Ranked rank) (h : g.Moves oracle c c') :
    rank c.block ≤ rank c'.block := by
  rcases moves_cases h with ⟨_, _, _, _, -, -, -, -, rfl⟩ | ⟨target, hl, he⟩
  · exact Nat.le_refl _
  · obtain ⟨data, -, rfl⟩ := enter?_eq_some.mp he
    exact Nat.le_of_lt (hr _ _ hl)

-- No move defines a value that is defined already.
theorem settled_of_moves (hg : g.Placed) (hr : g.Ranked rank) (hs : g.Settled rank c)
    (h : g.Moves oracle c c') : g.Settled rank c' ∧ Persists c.env c'.env := by
  rcases moves_cases h with ⟨data, op, operands, results, hd, ho, -, -, rfl⟩ | ⟨target, hl, he⟩
  · have fresh : ∀ v w, c.env v = some w → v ∉ op.outputs := by
      intro v w hw hv
      have hplace := hg.of_outputs (outputs_step hd ho hv)
      rcases hs.outputs v w _ hw hplace with hlt | hout
      · exact absurd hlt (Nat.lt_irrefl _)
      · exact hg.not_outputs hd ho hv hout
    refine ⟨⟨fun v w b hw hp => ?_, fun v w b hw hp => ?_⟩, fun v w hw => ?_⟩
    · by_cases hv : v ∈ op.outputs
      · exact .inr (outputs_step hd ho hv)
      · replace hw : c.env v = some w := (bindAll_of_not_mem hv).symm.trans hw
        exact (hs.outputs v w b hw hp).imp_right (·.le (Nat.le_succ _))
    · by_cases hv : v ∈ op.outputs
      · exact absurd (hp.symm.trans (hg.of_outputs (outputs_step hd ho hv))) (by simp)
      · replace hw : c.env v = some w := (bindAll_of_not_mem hv).symm.trans hw
        exact hs.phis v w b hw hp
    · exact (bindAll_of_not_mem (fresh v w hw)).trans hw
  · obtain ⟨data, hd, rfl⟩ := enter?_eq_some.mp he
    have hrank := hr _ _ hl
    have hphis := (hg.blocks target data hd).phis
    refine ⟨⟨fun v w b hw hp => ?_, fun v w b hw hp => ?_⟩, fun v w hw => ?_⟩
    · by_cases hv : v ∈ data.phis
      · exact absurd (hp.symm.trans (hphis v hv)) (by simp)
      · rcases hs.outputs v w b (by simpa [hv] using hw) hp with hlt | hout
        · exact .inl (Nat.lt_trans hlt hrank)
        · obtain rfl := Origin.defined.inj (Option.some.inj (hp.symm.trans (hg.of_outputs hout)))
          exact .inl hrank
    · by_cases hv : v ∈ data.phis
      · obtain ⟨rfl, -⟩ := Origin.phi.inj (Option.some.inj (hp.symm.trans (hphis v hv)))
        exact Nat.le_refl _
      · exact Nat.le_trans (hs.phis v w b (by simpa [hv] using hw) hp) (Nat.le_of_lt hrank)
    · have hv : v ∉ data.phis := fun hv =>
        absurd (hs.phis v w target hw (hphis v hv)) (Nat.not_le.mpr hrank)
      simpa [hv] using hw

theorem settled_of_reaches (hg : g.Placed) (hr : g.Ranked rank) (hs : g.Settled rank c)
    (h : g.Reaches oracle c c') :
    g.Settled rank c' ∧ Persists c.env c'.env ∧ rank c.block ≤ rank c'.block := by
  induction h with
  | refl => exact ⟨hs, .refl _, Nat.le_refl _⟩
  | tail _ hm ih =>
      obtain ⟨hs', hp, hle⟩ := ih
      obtain ⟨hs'', hp'⟩ := settled_of_moves hg hr hs' hm
      exact ⟨hs'', hp.trans hp', Nat.le_trans hle (rank_le_of_moves hr hm)⟩

end Graph.Cfg

end SsaReplay
