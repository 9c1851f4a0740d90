import Mathlib.Data.List.Forall2
import SsaReplay.Proofs.Refinement
import SsaReplay.Replay.State

namespace SsaReplay

namespace Bindings

-- Both bind the same variables, and what a variable may hold by the lower bindings, it
-- may hold by the upper ones.
structure Below (lower upper : Bindings) : Prop where
  refines : lower.Refines upper
  unbound : ∀ x, lower.lookup x = none → upper.lookup x = none

variable {lower upper : Bindings} {rest others : List Bindings}

theorem Below.refl (b : Bindings) : b.Below b := ⟨.refl b, fun _ h => h⟩

theorem Below.bound (h : lower.Below upper) {x : VariableId} {wider : ValueSet}
    (hx : upper.lookup x = some wider) :
    ∃ held, lower.lookup x = some held ∧ ∀ v ∈ held, v ∈ wider := by
  cases hl : lower.lookup x with
  | none => simp [h.unbound x hl] at hx
  | some held =>
      obtain ⟨found, hf, hv⟩ := h.refines x held hl
      obtain rfl := Option.some.inj (hf.symm.trans hx)
      exact ⟨held, rfl, hv⟩

theorem Below.assign (h : lower.Below upper) (x : VariableId) {values wider : ValueSet}
    (hv : ∀ v ∈ values, v ∈ wider) : (lower.assign x values).Below (upper.assign x wider) := by
  constructor
  · intro y held hy
    rw [lookup_assign] at hy ⊢
    by_cases hyx : y = x
    · rw [if_pos hyx] at hy ⊢
      obtain rfl := Option.some.inj hy
      exact ⟨wider, rfl, hv⟩
    · rw [if_neg hyx] at hy ⊢
      exact h.refines y held hy
  · intro y hy
    rw [lookup_assign] at hy ⊢
    by_cases hyx : y = x
    · simp [if_pos hyx] at hy
    · rw [if_neg hyx] at hy ⊢
      exact h.unbound y hy

theorem Below.narrow (h : lower.Below upper) (x : VariableId) (v : ValueId) :
    (lower.narrow x v).Below (upper.narrow x v) :=
  h.assign x fun _ hv => hv

theorem Below.define? (h : lower.Below upper) {x : VariableId} {values wider : ValueSet}
    (hv : ∀ v ∈ values, v ∈ wider) {defined : Bindings}
    (hd : lower.define? x values = some defined) :
    ∃ D, upper.define? x wider = some D ∧ defined.Below D := by
  unfold Bindings.define? at hd ⊢
  cases hx : lower.lookup x with
  | some held => simp [hx] at hd
  | none =>
      simp only [hx, Option.some.injEq] at hd
      subst hd
      rw [h.unbound x hx]
      exact ⟨_, rfl, h.assign x hv⟩

theorem Below.acrossEdge (h : lower.Below upper) (fed : ValueId → ValueSet)
    (redefined : List ValueId) :
    (lower.acrossEdge fed redefined).Below (upper.acrossEdge fed redefined) := by
  constructor
  · intro x held hx
    rw [lookup_acrossEdge] at hx ⊢
    obtain ⟨values, hl, rfl⟩ := Option.map_eq_some_iff.mp hx
    obtain ⟨wider, hw, hv⟩ := h.refines x values hl
    refine ⟨carried fed redefined wider, by rw [hw, Option.map_some], fun v hm => ?_⟩
    rw [mem_carried] at hm ⊢
    exact hm.imp (fun ⟨hk, hr⟩ => ⟨hv v hk, hr⟩) fun ⟨w, hw, hf⟩ => ⟨w, hv w hw, hf⟩
  · intro x hx
    rw [lookup_acrossEdge, Option.map_eq_none_iff] at hx ⊢
    exact h.unbound x hx

theorem holders_nonempty {b : Bindings} {v : ValueId} :
    (b.holders v).isEmpty = false ↔ ∃ x values, b.lookup x = some values ∧ v ∈ values := by
  simp only [holders, List.isEmpty_eq_false_iff_exists_mem, List.mem_map, List.mem_filter,
    ValueSet.contains_iff]
  constructor
  · rintro ⟨_, ⟨x, values⟩, ⟨hm, hv⟩, -⟩
    exact ⟨x, values, mem_entries.mp hm, hv⟩
  · rintro ⟨x, values, hx, hv⟩
    exact ⟨x, (x, values), ⟨mem_entries.mpr hx, hv⟩, rfl⟩

-- A value with a holder keeps one.
theorem Below.holders (h : lower.Below upper) {v : ValueId}
    (hv : (lower.holders v).isEmpty = false) : (upper.holders v).isEmpty = false := by
  rw [holders_nonempty] at hv ⊢
  obtain ⟨x, values, hx, hm⟩ := hv
  obtain ⟨wider, hw, hsub⟩ := h.refines x values hx
  exact ⟨x, wider, hw, hsub v hm⟩

theorem common?_mono (h : List.Forall₂ Below rest others) {x : VariableId}
    {values wider found : ValueSet} (hv : ∀ v ∈ values, v ∈ wider)
    (hf : common? x values rest = some found) :
    ∃ most, common? x wider others = some most ∧ ∀ v ∈ found, v ∈ most := by
  induction h generalizing values wider with
  | nil =>
      obtain rfl := Option.some.inj hf
      exact ⟨wider, rfl, hv⟩
  | @cons b c rest others hbc _ ih =>
      cases hb : b.lookup x with
      | none => simp [common?, hb] at hf
      | some held =>
          obtain ⟨more, hc, hm⟩ := hbc.refines x held hb
          simp only [common?, hb] at hf
          simp only [common?, hc]
          refine ih (fun v hi => ?_) hf
          rw [ValueSet.mem_inter] at hi ⊢
          exact ⟨hv v hi.1, hm v hi.2⟩

-- Whether all paths bind a variable does not depend on what they bind it to.
theorem common?_bound (h : List.Forall₂ Below rest others) {x : VariableId}
    {wider most : ValueSet} (values : ValueSet) (hm : common? x wider others = some most) :
    ∃ found, common? x values rest = some found := by
  induction h generalizing values wider with
  | nil => exact ⟨values, rfl⟩
  | @cons b c rest others hbc _ ih =>
      cases hc : c.lookup x with
      | none => simp [common?, hc] at hm
      | some more =>
          obtain ⟨held, hb, -⟩ := hbc.bound hc
          simp only [common?, hc] at hm
          simp only [common?, hb]
          exact ih _ hm

theorem shared_mono (h : lower.Below upper) (hr : List.Forall₂ Below rest others) :
    (shared lower rest).Below (shared upper others) := by
  constructor
  · intro x found hx
    obtain ⟨values, hl, hf⟩ := lookup_shared.mp hx
    obtain ⟨wider, hw, hv⟩ := h.refines x values hl
    obtain ⟨most, hm, hsub⟩ := common?_mono hr hv hf
    exact ⟨most, lookup_shared.mpr ⟨wider, hw, hm⟩, hsub⟩
  · intro x hx
    by_contra hne
    obtain ⟨most, hu⟩ := Option.ne_none_iff_exists'.mp hne
    obtain ⟨wider, hw, hm⟩ := lookup_shared.mp hu
    obtain ⟨values, hl, -⟩ := h.bound hw
    obtain ⟨found, hf⟩ := common?_bound hr values hm
    simp [lookup_shared.mpr ⟨values, hl, hf⟩] at hx

theorem conflict?_eq_none {first : Bindings} :
    conflict? first rest = none ↔
      ∀ x found, (shared first rest).lookup x = some found → found.isEmpty = false := by
  simp only [conflict?, Option.map_eq_none_iff, List.find?_eq_none, lookup_shared]
  constructor
  · rintro h x found ⟨values, hx, hc⟩
    have he := h (x, values) (mem_entries.mpr hx)
    simpa [hc] using he
  · intro h e he
    cases hc : common? e.1 e.2 rest with
    | none => simp
    | some found => simpa using h e.1 found ⟨e.2, mem_entries.mp he, hc⟩

-- Paths that agree go on to agree when more is possible on each of them.
theorem meet_mono {bs cs : List Bindings} (h : List.Forall₂ Below bs cs) {merged : Bindings}
    (hm : meet bs = .ok merged) : ∃ M, meet cs = .ok M ∧ merged.Below M := by
  cases h with
  | nil => exact ⟨merged, hm, .refl merged⟩
  | @cons lower upper rest others hb hr =>
      have hs := shared_mono hb hr
      cases hc : conflict? lower rest with
      | some x => simp [meet, hc] at hm
      | none =>
          simp only [meet, hc, Except.ok.injEq] at hm
          subst hm
          have agree : conflict? upper others = none := by
            rw [conflict?_eq_none] at hc ⊢
            intro x most hx
            obtain ⟨found, hf, hsub⟩ := hs.bound hx
            have hne := hc x found hf
            obtain ⟨v, hv⟩ := List.isEmpty_eq_false_iff_exists_mem.mp hne
            exact List.isEmpty_eq_false_iff_exists_mem.mpr ⟨v, hsub v hv⟩
          exact ⟨shared upper others, by simp only [meet, agree], hs⟩

end Bindings

namespace Replay

-- The same edges are known, with bindings below.
structure LoopEdges.Below (lower upper : LoopEdges) : Prop where
  first : upper.first? = lower.first?
  bindings : List.Forall₂ Bindings.Below lower.bindings upper.bindings

structure LoopFrame.Below (lower upper : LoopFrame) : Prop where
  header : upper.header = lower.header
  edges : ∀ way, (lower.edges way).Below (upper.edges way)
  backEdges : List.Forall₂ Bindings.Below lower.backEdges upper.backEdges

-- Two replays are at the same place, and whatever is possible in the lower one is
-- possible in the upper one. What they have found and done so far may differ.
structure State.Below (lower upper : State) : Prop where
  scope : upper.scope? = lower.scope?
  block : upper.block = lower.block
  op : upper.op = lower.op
  bindings : lower.bindings.Below upper.bindings
  loops : List.Forall₂ LoopFrame.Below lower.loops upper.loops

end Replay

end SsaReplay
