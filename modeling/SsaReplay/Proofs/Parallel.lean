import SsaReplay.Proofs.Movement

namespace SsaReplay

open SsaReplay.Graph (BasicBlock Cfg)
open SsaReplay.Replay

-- The phis of a block take the words of their arguments for the source all at once: every
-- argument is read off the words before.
def Graph.Cfg.renew {α : Type} (g : Cfg) (source target : BlockId) (env : ValueId → α)
    (v : ValueId) : α :=
  match g.block? target with
  | some data =>
      if v ∈ data.phis then ((g.phiArgument? source target v).map env).getD (env v) else env v
  | none => env v

-- Every candidate of a variable has the variable's word.
def Bindings.HoldsIn {α : Type} (b : Bindings) (words : VariableId → α) (env : ValueId → α) :
    Prop :=
  ∀ x v, b.Offers x v → env v = words x

-- A way into a join: the bindings that come along it, and the words on it.
structure Arrival (α : Type) where
  bindings : Bindings
  words : VariableId → α
  env : ValueId → α

variable {α : Type} {g : Cfg} {source target : BlockId} {data : BasicBlock}
  {before after merged : Bindings} {pairs : List (ValueId × ValueId)} {x : VariableId}
  {v phi argument : ValueId} {words : VariableId → α} {env : ValueId → α}

namespace Graph.Cfg

theorem renew_phi (hd : g.block? target = some data) (hv : phi ∈ data.phis)
    (ha : g.phiArgument? source target phi = some argument) :
    g.renew source target env phi = env argument := by
  simp [renew, hd, hv, ha]

theorem renew_other (hd : g.block? target = some data) (hv : v ∉ data.phis) :
    g.renew source target env v = env v := by
  simp [renew, hd, hv]

end Graph.Cfg

namespace Bindings

-- What a value feeds is new, what is neither fed nor redefined stays.
theorem offers_acrossEdge {fed : ValueId → ValueSet} {redefined : List ValueId} :
    (before.acrossEdge fed redefined).Offers x v ↔
      (before.Offers x v ∧ v ∉ redefined) ∨ ∃ u, before.Offers x u ∧ v ∈ fed u := by
  cases hx : before.lookup x with
  | none => simp [Offers, lookup_acrossEdge, hx]
  | some values => simp [Offers, lookup_acrossEdge, hx, mem_carried]

theorem holdsIn_of_entries (h : ∀ e ∈ before.entries, ∀ v ∈ e.2.members, env v = words e.1) :
    before.HoldsIn words env := by
  rintro x v ⟨held, hx, hv⟩
  exact h _ (mem_entries.mpr hx) v hv

theorem HoldsIn.meet {paths : List Bindings} {b : Bindings} (h : b.HoldsIn words env)
    (hm : Bindings.meet paths = .ok merged) (hb : b ∈ paths) : merged.HoldsIn words env :=
  fun x v hv => h x v ((refines_of_meet hm hb).offers hv)

end Bindings

namespace Replay

theorem phiArgument?_eq_some (hd : g.block? target = some data)
    (hp : phiArguments g source target data = .ok pairs) (hm : (argument, phi) ∈ pairs) :
    g.phiArgument? source target phi = some argument := by
  obtain ⟨offset, b, arguments, hoffset, horigin, ha⟩ := (phiArguments_eq_ok hp).2 _ hm
  simp [Cfg.phiArgument?, hd, hoffset, horigin, ha]

-- A phi is fed by its argument alone, whatever else the argument feeds and whatever feeds
-- the argument.
theorem Carries.offers_phi (h : Carries g source target before after)
    (hd : g.block? target = some data) (hphi : phi ∈ data.phis) :
    ∃ argument, g.phiArgument? source target phi = some argument ∧
      ∀ x, after.Offers x phi ↔ before.Offers x argument := by
  obtain ⟨found, pairs, hf, hp, rfl⟩ := h
  obtain rfl := Option.some.inj (hd.symm.trans hf)
  rw [← (phiArguments_eq_ok hp).1] at hphi
  obtain ⟨⟨argument, _⟩, hm, rfl⟩ := List.mem_map.mp hphi
  have argued := phiArgument?_eq_some hd hp hm
  refine ⟨argument, argued, fun x => ?_⟩
  rw [Bindings.offers_acrossEdge]
  constructor
  · rintro (⟨-, stale⟩ | ⟨u, hu, hfed⟩)
    · exact absurd ((phiArguments_eq_ok hp).1 ▸ hphi) stale
    · have := phiArgument?_eq_some hd hp (mem_phisFedBy.mp hfed)
      rwa [Option.some.inj (argued.symm.trans this)]
  · exact fun hu => .inr ⟨argument, hu, mem_phisFedBy.mpr hm⟩

theorem Carries.offers_other (h : Carries g source target before after)
    (hd : g.block? target = some data) (hv : v ∉ data.phis) :
    after.Offers x v ↔ before.Offers x v := by
  obtain ⟨found, pairs, hf, hp, rfl⟩ := h
  obtain rfl := Option.some.inj (hd.symm.trans hf)
  rw [Bindings.offers_acrossEdge]
  constructor
  · rintro (⟨hb, -⟩ | ⟨u, -, hfed⟩)
    · exact hb
    · have hm := List.mem_map_of_mem (f := Prod.snd) (mem_phisFedBy.mp hfed)
      exact absurd ((phiArguments_eq_ok hp).1 ▸ hm) hv
  · exact fun hb => .inl ⟨hb, hv⟩

theorem Carries.holdsIn (h : Carries g source target before after)
    (hb : before.HoldsIn words env) : after.HoldsIn words (g.renew source target env) := by
  have ⟨data, _, hd, _⟩ := h
  intro x v hv
  by_cases hphi : v ∈ data.phis
  · obtain ⟨argument, ha, offers⟩ := h.offers_phi hd hphi
    rw [Cfg.renew_phi hd hphi ha]
    exact hb x argument ((offers x).mp hv)
  · rw [Cfg.renew_other hd hphi]
    exact hb x v ((h.offers_other hd hphi).mp hv)

-- Bindings that are carried along an edge change as the values themselves do, and what
-- holds on every way into a join holds of what the join leaves bound.
theorem carry_parallel (α : Type) :
    (∀ (ctx : Context) (source target : BlockId) (s t : State) (after : Bindings),
      carry ctx source target s = .ok after t →
        ∃ data, ctx.graph.block? target = some data ∧
          (∀ phi ∈ data.phis, ∃ argument,
            ctx.graph.phiArgument? source target phi = some argument ∧
              ∀ x, after.Offers x phi ↔ s.bindings.Offers x argument) ∧
          (∀ v, v ∉ data.phis → ∀ x, after.Offers x v ↔ s.bindings.Offers x v) ∧
          ∀ (words : VariableId → α) (env : ValueId → α), s.bindings.HoldsIn words env →
            after.HoldsIn words (ctx.graph.renew source target env)) ∧
      ∀ (arrivals : List (Arrival α)) (merged : Bindings),
        (∀ a ∈ arrivals, a.bindings.HoldsIn a.words a.env) →
          Bindings.meet (arrivals.map Arrival.bindings) = .ok merged →
            ∀ a ∈ arrivals, merged.HoldsIn a.words a.env := by
  refine ⟨fun ctx source target s t after h => ?_, fun arrivals merged holds hm a ha => ?_⟩
  · obtain ⟨carried, -⟩ := carry_eq_ok.mp h
    have ⟨data, _, hd, _⟩ := carried
    refine ⟨data, hd, fun phi => carried.offers_phi hd, ?_, fun _ _ => carried.holdsIn⟩
    exact fun v hv x => carried.offers_other hd hv
  · exact (holds a ha).meet hm (List.mem_map_of_mem ha)

-- A loop header with two phis that swap on the back edge, and a third that feeds itself.
namespace Swapping

open SsaReplay.Graph (Construction)

def graph : Cfg :=
  (((Construction.start none).run? [.literal 1, .literal 2, .block, .block, .exit (.jump ⟨1⟩),
    .moveTo ⟨1⟩, .phi ⟨1⟩, .phi ⟨1⟩, .phi ⟨1⟩, .exit (.jump ⟨2⟩), .moveTo ⟨2⟩,
    .exit (.jump ⟨1⟩), .phiArguments ⟨2⟩ [⟨0⟩, ⟨3⟩], .phiArguments ⟨3⟩ [⟨1⟩, ⟨2⟩],
    .phiArguments ⟨4⟩ [⟨0⟩, ⟨4⟩]]).map fun c => c.graph).getD (Cfg.start none)

def context : Context := ⟨.empty, .evm, ⟨graph, []⟩, .default, ⟨none, graph, 0⟩⟩

def three (a b c : ValueSet) : Bindings :=
  ((Bindings.empty.assign ⟨0⟩ a).assign ⟨1⟩ b).assign ⟨2⟩ c

-- The body has just exchanged the first two variables.
def bodyEnd : State :=
  { State.start graph with
    block := ⟨2⟩, bindings := three (.single ⟨3⟩) (.single ⟨2⟩) (.single ⟨4⟩) }

def amounts (first second third : Nat) (x : VariableId) : Nat :=
  [first, second, third].getD x.index 0

-- The words of the values in the first pass, the phis last.
def firstPass (v : ValueId) : Nat := [1, 2, 1, 2, 1].getD v.index 0

-- The header is entered for the first time.
def fromStart : Arrival Nat :=
  ⟨three (.ofList [⟨0⟩, ⟨2⟩]) (.ofList [⟨1⟩, ⟨3⟩]) (.ofList [⟨0⟩, ⟨4⟩]), amounts 1 2 1, firstPass⟩

-- The header is entered again, with the first two words exchanged.
def again (after : Bindings) : Arrival Nat :=
  ⟨after, amounts 2 1 1, graph.renew ⟨2⟩ ⟨1⟩ firstPass⟩

theorem carry_parallel_swapped :
    ∃ after t merged, carry context ⟨2⟩ ⟨1⟩ bodyEnd = .ok after t ∧
      Bindings.meet [fromStart.bindings, after] = .ok merged ∧
      merged = three (.single ⟨2⟩) (.single ⟨3⟩) (.single ⟨4⟩) ∧
      ∀ a ∈ [fromStart, again after], merged.HoldsIn a.words a.env := by
  obtain ⟨across, joins⟩ := carry_parallel Nat
  have joined : (match carry context ⟨2⟩ ⟨1⟩ bodyEnd with
      | .ok after _ =>
          match Bindings.meet [fromStart.bindings, after] with
          | .ok merged => decide (merged = three (.single ⟨2⟩) (.single ⟨3⟩) (.single ⟨4⟩))
          | .error _ => false
      | .error _ _ => false) = true := by decide +kernel
  cases hc : carry context ⟨2⟩ ⟨1⟩ bodyEnd with
  | error e u => simp [hc] at joined
  | ok after t =>
      simp only [hc] at joined
      cases hm : Bindings.meet [fromStart.bindings, after] with
      | error conflict => simp [hm] at joined
      | ok merged =>
          simp only [hm] at joined
          obtain ⟨-, -, -, -, holds⟩ := across _ _ _ _ _ _ hc
          have atEnd : bodyEnd.bindings.HoldsIn (amounts 2 1 1) firstPass :=
            Bindings.holdsIn_of_entries (by decide +kernel)
          have atStart : fromStart.bindings.HoldsIn fromStart.words fromStart.env :=
            Bindings.holdsIn_of_entries (by decide +kernel)
          refine ⟨after, t, merged, rfl, hm, of_decide_eq_true joined, ?_⟩
          refine joins [fromStart, again after] merged ?_ hm
          simpa using ⟨atStart, holds _ _ atEnd⟩

end Swapping

end Replay

end SsaReplay
