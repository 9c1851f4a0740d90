import Mathlib.Data.List.Basic
import SsaReplay.Candidates.Bindings

namespace SsaReplay

theorem ValueSet.mem_of_only? {s : ValueSet} {v w : ValueId} (h : s.only? = some v) :
    w ∈ s ↔ w = v := by
  unfold only? at h
  split at h
  · next u hu =>
    obtain rfl := Option.some.inj h
    change w ∈ s.members ↔ _
    rw [hu, List.mem_singleton]
  · exact absurd h (by simp)

namespace Bindings

-- The candidates of a variable after its block was entered anew.
def carried (fed : ValueId → ValueSet) (redefined : List ValueId) (values : ValueSet) : ValueSet :=
  values.members.foldl (fun s v => s.union (fed v)) (values.without redefined)

-- What phis bring in comes from the candidates, and stale candidates are gone.
theorem mem_carried {fed : ValueId → ValueSet} {redefined : List ValueId} {values : ValueSet}
    {w : ValueId} :
    w ∈ carried fed redefined values ↔
      (w ∈ values ∧ w ∉ redefined) ∨ ∃ v ∈ values, w ∈ fed v := by
  have fold : ∀ (vs : List ValueId) (s : ValueSet),
      w ∈ vs.foldl (fun s v => s.union (fed v)) s ↔ w ∈ s ∨ ∃ v ∈ vs, w ∈ fed v := by
    intro vs
    induction vs with
    | nil => simp
    | cons v rest ih =>
        intro s
        rw [List.foldl_cons, ih, ValueSet.mem_union, List.exists_mem_cons_iff, or_assoc]
  rw [carried, fold, ValueSet.mem_without]
  rfl

@[simp] theorem lookup_empty (x : VariableId) : empty.lookup x = none := rfl

theorem lookup_entry (x y : VariableId) (values : ValueSet)
    (rest : List (VariableId × ValueSet)) :
    List.lookup y ((x, values) :: rest) = if y = x then some values else List.lookup y rest := by
  rw [List.lookup_cons]
  by_cases h : y = x
  · simp [h]
  · rw [beq_false_of_ne h, if_neg h]

theorem lookup_place (x y : VariableId) (values : ValueSet)
    (entries : List (VariableId × ValueSet)) :
    (place x values entries).lookup y = if y = x then some values else entries.lookup y := by
  induction entries with
  | nil => exact lookup_entry x y values []
  | cons head rest ih =>
      obtain ⟨z, held⟩ := head
      simp only [place]
      split
      · exact lookup_entry x y values _
      · split
        · next hxz =>
          subst hxz
          rw [lookup_entry, lookup_entry]
          by_cases h : y = x <;> simp [h]
        · next hxz =>
          rw [lookup_entry, lookup_entry, ih]
          by_cases hz : y = z
          · have hne : y ≠ x := fun h => hxz (h ▸ hz)
            rw [if_pos hz, if_neg hne, if_pos hz]
          · rw [if_neg hz, if_neg hz]

theorem lookup_assign (b : Bindings) (x y : VariableId) (values : ValueSet) :
    (b.assign x values).lookup y = if y = x then some values else b.lookup y :=
  lookup_place x y values b.entries

theorem lookup_acrossEdge (b : Bindings) (fed : ValueId → ValueSet) (redefined : List ValueId)
    (x : VariableId) :
    (b.acrossEdge fed redefined).lookup x = (b.lookup x).map (carried fed redefined) := by
  change List.lookup x (b.entries.map fun e => (e.1, carried fed redefined e.2)) =
    (List.lookup x b.entries).map _
  induction b.entries with
  | nil => rfl
  | cons head rest ih =>
      rw [List.map_cons, List.lookup_cons, List.lookup_cons, ih]
      cases x == head.1 <;> rfl

-- The variables of the finer bindings are bound in the coarser ones, and their
-- candidates are candidates there.
def Refines (fine coarse : Bindings) : Prop :=
  ∀ x held, fine.lookup x = some held →
    ∃ wider, coarse.lookup x = some wider ∧ ∀ v ∈ held, v ∈ wider

theorem Refines.refl (b : Bindings) : b.Refines b := fun _ held h => ⟨held, h, fun _ hv => hv⟩

theorem Refines.trans {a b c : Bindings} (h : a.Refines b) (k : b.Refines c) : a.Refines c := by
  intro x held hx
  obtain ⟨wider, hw, hv⟩ := h x held hx
  obtain ⟨widest, hw', hv'⟩ := k x wider hw
  exact ⟨widest, hw', fun v hm => hv' v (hv v hm)⟩

theorem refines_narrow {b : Bindings} {x : VariableId} {held : ValueSet} {v : ValueId}
    (bound : b.lookup x = some held) (member : v ∈ held) : (b.narrow x v).Refines b := by
  intro y found hy
  rw [narrow, lookup_assign] at hy
  split at hy
  · next hyx =>
    subst hyx
    obtain rfl := Option.some.inj hy
    exact ⟨held, bound, fun w hw => (ValueSet.mem_single w v).mp hw ▸ member⟩
  · exact ⟨found, hy, fun _ hw => hw⟩

theorem common?_eq_some {x : VariableId} {values found : ValueSet} {rest : List Bindings}
    (h : common? x values rest = some found) :
    (∀ v ∈ found, v ∈ values) ∧
      ∀ b ∈ rest, ∃ held, b.lookup x = some held ∧ ∀ v ∈ found, v ∈ held := by
  induction rest generalizing values with
  | nil =>
      obtain rfl := Option.some.inj h
      exact ⟨fun _ hv => hv, by simp⟩
  | cons b rest ih =>
      simp only [common?] at h
      cases hb : b.lookup x with
      | none => simp [hb] at h
      | some held =>
          simp only [hb] at h
          obtain ⟨hv, hr⟩ := ih h
          have hi : ∀ v ∈ found, v ∈ values ∧ v ∈ held := fun v hm =>
            (ValueSet.mem_inter _ _ _).mp (hv v hm)
          exact ⟨fun v hm => (hi v hm).1,
            List.forall_mem_cons.mpr ⟨⟨held, hb, fun v hm => (hi v hm).2⟩, hr⟩⟩

-- No variable is bound twice, so every entry is what its variable is bound to.
theorem mem_entries {b : Bindings} {x : VariableId} {values : ValueSet} :
    (x, values) ∈ b.entries ↔ b.lookup x = some values := by
  rw [lookup, List.lookup_eq_some_iff]
  constructor
  · intro h
    obtain ⟨before, after, hb⟩ := List.append_of_mem h
    refine ⟨before, after, hb, fun e he => ?_⟩
    have ascending := b.ascending
    rw [hb, List.pairwise_append] at ascending
    have hlt : e.1.index < x.index := ascending.2.2 e he _ List.mem_cons_self
    rw [bne_iff_ne]
    rintro rfl
    exact Nat.lt_irrefl _ hlt
  · rintro ⟨before, after, hb, -⟩
    rw [hb]
    exact List.mem_append_right _ List.mem_cons_self

-- What is bound after a merge was bound on the first path, to what all paths share.
theorem lookup_shared {first : Bindings} {rest : List Bindings} {x : VariableId}
    {found : ValueSet} :
    (shared first rest).lookup x = some found ↔
      ∃ values, first.lookup x = some values ∧ common? x values rest = some found := by
  simp only [← mem_entries, shared, List.mem_filterMap, Option.map_eq_some_iff, Prod.mk.injEq]
  constructor
  · rintro ⟨⟨y, values⟩, hm, common, hc, rfl, rfl⟩
    exact ⟨values, hm, hc⟩
  · rintro ⟨values, hm, hc⟩
    exact ⟨(x, values), hm, found, hc, rfl, rfl⟩

-- After a merge, what holds is what all of the paths agree on.
theorem refines_of_meet {contributions : List Bindings} {merged b : Bindings}
    (h : meet contributions = .ok merged) (hb : b ∈ contributions) : merged.Refines b := by
  cases contributions with
  | nil => exact absurd hb List.not_mem_nil
  | cons first rest =>
      simp only [meet] at h
      split at h
      · exact absurd h (by simp)
      · obtain rfl := Except.ok.inj h
        intro x held hx
        obtain ⟨values, hv, hk⟩ := lookup_shared.mp hx
        obtain ⟨hf, hr⟩ := common?_eq_some hk
        rcases List.mem_cons.mp hb with rfl | hb
        · exact ⟨values, hv, hf⟩
        · exact hr b hb

end Bindings

end SsaReplay
