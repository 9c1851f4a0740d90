import Mathlib.Data.List.Perm.Basic
import Mathlib.Logic.Equiv.Defs
import SsaReplay.Proofs.Refinement

namespace SsaReplay

-- A list that ascends strictly is given by its members.
theorem eq_of_ascending {α : Type} {key : α → Nat} {xs ys : List α}
    (hx : xs.Pairwise (fun a b => key a < key b)) (hy : ys.Pairwise (fun a b => key a < key b))
    (h : ∀ a, a ∈ xs ↔ a ∈ ys) : xs = ys := by
  have distinct : ∀ {zs : List α}, zs.Pairwise (fun a b => key a < key b) → zs.Nodup := by
    intro zs hz
    refine hz.imp fun {a b} hlt he => ?_
    exact Nat.lt_irrefl _ (he ▸ hlt)
  have perm : xs.Perm ys := (List.perm_ext_iff_of_nodup (distinct hx) (distinct hy)).mpr h
  exact perm.eq_of_pairwise (fun a b _ _ hab hba => absurd hba (Nat.lt_asymm hab)) hx hy

-- Other numbers for the values and the blocks of a graph.
structure Renumbering where
  value : Equiv.Perm ValueId
  block : Equiv.Perm BlockId

-- The sets of candidates under other numbers, which may stand in another order.
def ValueSet.renumber (s : ValueSet) (ρ : Renumbering) : ValueSet :=
  .ofList (s.members.map ρ.value)

namespace Bindings

def renumber (b : Bindings) (ρ : Renumbering) : Bindings :=
  ⟨b.entries.map (fun e => (e.1, e.2.renumber ρ)), List.pairwise_map.mpr b.ascending⟩

def Conflict.renumber (c : Conflict) (ρ : Renumbering) : Conflict :=
  ⟨c.var, c.candidates.map (·.renumber ρ)⟩

end Bindings

namespace ValueSet

variable {s t : ValueSet} {v : ValueId}

-- The order of the members is given by what they are.
theorem ext (h : ∀ v, v ∈ s ↔ v ∈ t) : s = t := by
  have hm : s.members = t.members := eq_of_ascending s.ascending t.ascending h
  cases s
  cases t
  cases hm
  rfl

theorem only?_eq_some : s.only? = some v ↔ s = single v := by
  constructor
  · intro h
    exact ext fun w => (mem_of_only? h).trans (mem_single w v).symm
  · rintro rfl
    rfl

theorem isEmpty_iff : s.isEmpty = true ↔ ∀ v, v ∉ s := by
  rw [isEmpty, List.isEmpty_iff, List.eq_nil_iff_forall_not_mem]
  rfl

variable {ρ : Renumbering}

theorem mem_renumber : ρ.value v ∈ s.renumber ρ ↔ v ∈ s := by
  rw [renumber, mem_ofList, List.mem_map]
  constructor
  · rintro ⟨w, hw, he⟩
    exact ρ.value.injective he ▸ hw
  · exact fun h => ⟨v, h, rfl⟩

-- Every number is the new number of some value.
theorem eq_renumber (h : ∀ v, ρ.value v ∈ t ↔ v ∈ s) : t = s.renumber ρ := by
  refine ext fun w => ?_
  obtain ⟨v, rfl⟩ := ρ.value.surjective w
  exact (h v).trans mem_renumber.symm

theorem renumber_injective (h : s.renumber ρ = t.renumber ρ) : s = t := by
  refine ext fun v => ?_
  rw [← mem_renumber, h, mem_renumber]

@[simp] theorem renumber_single : (single v).renumber ρ = single (ρ.value v) :=
  (eq_renumber fun w => by rw [mem_single, mem_single, ρ.value.injective.eq_iff]).symm

@[simp] theorem contains_renumber : (s.renumber ρ).contains (ρ.value v) = s.contains v := by
  rw [Bool.eq_iff_iff, contains_iff, contains_iff, mem_renumber]

@[simp] theorem isEmpty_renumber : (s.renumber ρ).isEmpty = s.isEmpty := by
  rw [Bool.eq_iff_iff, isEmpty_iff, isEmpty_iff, ρ.value.surjective.forall]
  simp only [mem_renumber]

@[simp] theorem only?_renumber : (s.renumber ρ).only? = some (ρ.value v) ↔ s.only? = some v := by
  rw [only?_eq_some, only?_eq_some, ← renumber_single]
  exact ⟨renumber_injective, fun h => h ▸ rfl⟩

theorem renumber_inter : (s.inter t).renumber ρ = (s.renumber ρ).inter (t.renumber ρ) :=
  (eq_renumber fun v => by simp only [mem_inter, mem_renumber]).symm

end ValueSet

namespace Bindings

variable {ρ : Renumbering} {b c : Bindings} {x : VariableId}

-- Bindings are given by what the variables are bound to.
theorem ext (h : ∀ x, b.lookup x = c.lookup x) : b = c := by
  have he : b.entries = c.entries := by
    refine eq_of_ascending b.ascending c.ascending fun e => ?_
    rw [mem_entries, mem_entries, h]
  cases b
  cases c
  cases he
  rfl

theorem entries_renumber :
    (b.renumber ρ).entries = b.entries.map fun e => (e.1, e.2.renumber ρ) := rfl

@[simp] theorem renumber_empty : empty.renumber ρ = empty := rfl

@[simp] theorem lookup_renumber : (b.renumber ρ).lookup x = (b.lookup x).map (·.renumber ρ) := by
  change List.lookup x (b.entries.map fun e => (e.1, e.2.renumber ρ)) =
    (List.lookup x b.entries).map _
  induction b.entries with
  | nil => rfl
  | cons head rest ih =>
      rw [List.map_cons, List.lookup_cons, List.lookup_cons, ih]
      cases x == head.1 <;> rfl

theorem renumber_injective (h : b.renumber ρ = c.renumber ρ) : b = c := by
  refine ext fun x => ?_
  have hx : (b.lookup x).map (·.renumber ρ) = (c.lookup x).map (·.renumber ρ) := by
    rw [← lookup_renumber, h, lookup_renumber]
  exact Option.map_injective (fun _ _ => ValueSet.renumber_injective) hx

theorem renumber_assign {values : ValueSet} :
    (b.assign x values).renumber ρ = (b.renumber ρ).assign x (values.renumber ρ) := by
  refine ext fun y => ?_
  rw [lookup_renumber, lookup_assign, lookup_assign, lookup_renumber]
  split <;> rfl

theorem renumber_narrow {v : ValueId} :
    (b.narrow x v).renumber ρ = (b.renumber ρ).narrow x (ρ.value v) := by
  rw [narrow, renumber_assign, ValueSet.renumber_single, narrow]

theorem define?_renumber {values : ValueSet} :
    (b.renumber ρ).define? x (values.renumber ρ) = (b.define? x values).map (·.renumber ρ) := by
  simp only [define?, lookup_renumber]
  cases b.lookup x with
  | none => rw [Option.map_none, Option.map_some, renumber_assign]
  | some held => rfl

@[simp] theorem holders_renumber {v : ValueId} :
    (b.renumber ρ).holders (ρ.value v) = b.holders v := by
  simp only [holders, entries_renumber, List.filter_map, List.map_map]
  have same : ((fun e : VariableId × ValueSet => e.2.contains (ρ.value v)) ∘
      fun e : VariableId × ValueSet => (e.1, e.2.renumber ρ)) = fun e => e.2.contains v := by
    funext e
    exact ValueSet.contains_renumber
  rw [same]
  rfl

theorem renumber_acrossEdge {fed fed' : ValueId → ValueSet} {redefined : List ValueId}
    (h : ∀ v, fed' (ρ.value v) = (fed v).renumber ρ) :
    (b.acrossEdge fed redefined).renumber ρ =
      (b.renumber ρ).acrossEdge fed' (redefined.map ρ.value) := by
  refine ext fun x => ?_
  rw [lookup_renumber, lookup_acrossEdge, lookup_acrossEdge, lookup_renumber, Option.map_map,
    Option.map_map]
  refine congrArg (Option.map · (b.lookup x)) (funext fun values => ?_)
  refine (ValueSet.eq_renumber fun w => ?_).symm
  rw [Function.comp_apply, mem_carried, mem_carried, ValueSet.mem_renumber,
    ρ.value.surjective.exists]
  simp only [ValueSet.mem_renumber, h, List.mem_map, ρ.value.injective.eq_iff, exists_eq_right]

theorem common?_renumber {values : ValueSet} {rest : List Bindings} :
    common? x (values.renumber ρ) (rest.map (·.renumber ρ)) =
      (common? x values rest).map (·.renumber ρ) := by
  induction rest generalizing values with
  | nil => rfl
  | cons b rest ih =>
      simp only [List.map_cons, common?, lookup_renumber]
      cases b.lookup x with
      | none => rfl
      | some held =>
          dsimp only [Option.map_some]
          rw [← ValueSet.renumber_inter, ih]

-- The first variable that paths disagree on is the first by its own number, which stays.
theorem conflict?_renumber {rest : List Bindings} :
    conflict? (b.renumber ρ) (rest.map (·.renumber ρ)) = conflict? b rest := by
  have same : ((fun e : VariableId × ValueSet =>
      (common? e.1 e.2 (rest.map (·.renumber ρ))).any ValueSet.isEmpty) ∘
        fun e : VariableId × ValueSet => (e.1, e.2.renumber ρ)) =
      fun e => (common? e.1 e.2 rest).any ValueSet.isEmpty := by
    funext e
    simp only [Function.comp_apply, common?_renumber, Option.any_map]
    exact congrArg (Option.any · _) (funext fun values => ValueSet.isEmpty_renumber)
  simp only [conflict?, entries_renumber, List.find?_map, Option.map_map, same]
  rfl

theorem renumber_shared {rest : List Bindings} :
    (shared b rest).renumber ρ = shared (b.renumber ρ) (rest.map (·.renumber ρ)) := by
  refine ext fun x => Option.ext fun found => ?_
  rw [lookup_renumber, Option.map_eq_some_iff]
  simp only [lookup_shared, lookup_renumber, Option.map_eq_some_iff]
  constructor
  · rintro ⟨_, ⟨values, hv, hc⟩, rfl⟩
    refine ⟨_, ⟨values, hv, rfl⟩, ?_⟩
    rw [common?_renumber, hc, Option.map_some]
  · rintro ⟨_, ⟨values, hv, rfl⟩, hc⟩
    rw [common?_renumber, Option.map_eq_some_iff] at hc
    obtain ⟨common, hc, rfl⟩ := hc
    exact ⟨common, ⟨values, hv, hc⟩, rfl⟩

-- Whether paths agree, and on what, does not depend on the numbers.
theorem meet_renumber {contributions : List Bindings} :
    meet (contributions.map (·.renumber ρ)) =
      ((meet contributions).map (·.renumber ρ)).mapError (·.renumber ρ) := by
  cases contributions with
  | nil => rfl
  | cons first rest =>
      simp only [List.map_cons, meet, conflict?_renumber]
      cases conflict? first rest with
      | none => exact congrArg Except.ok renumber_shared.symm
      | some x =>
          have found : ((first :: rest).map (·.renumber ρ)).filterMap (·.lookup x) =
              ((first :: rest).filterMap (·.lookup x)).map (·.renumber ρ) := by
            rw [List.filterMap_map, List.map_filterMap]
            exact congrArg (List.filterMap · _) (funext fun b => lookup_renumber)
          exact congrArg (fun candidates => Except.error (Conflict.mk x candidates)) found

end Bindings

end SsaReplay
