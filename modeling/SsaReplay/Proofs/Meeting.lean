import SsaReplay.Proofs.Movement
import SsaReplay.Proofs.Outcome.Branch
import SsaReplay.Proofs.Renumbering.Candidates

namespace SsaReplay

namespace Bindings

-- Every one of the paths binds the variable.
def BoundOnAll (paths : List Bindings) (x : VariableId) : Prop := ∀ b ∈ paths, b.binds x = true

-- The value is a candidate of the variable on every one of the paths.
def OfferedOnAll (paths : List Bindings) (x : VariableId) (v : ValueId) : Prop :=
  ∀ b ∈ paths, b.Offers x v

-- All of the paths bind the variable, and they have no candidate of it in common.
def Divided (paths : List Bindings) (x : VariableId) : Prop :=
  BoundOnAll paths x ∧ ¬∃ v, OfferedOnAll paths x v

-- Neither the order of the paths nor how often one of them comes matters.
def SamePaths (paths others : List Bindings) : Prop := ∀ b, b ∈ paths ↔ b ∈ others

variable {b first merged : Bindings} {rest paths others : List Bindings} {x : VariableId}
  {v : ValueId} {held values found : ValueSet}

theorem offers_iff (h : b.lookup x = some held) : b.Offers x v ↔ v ∈ held := by
  constructor
  · rintro ⟨held', h', hv⟩
    rwa [Option.some.inj (h.symm.trans h')]
  · exact fun hv => ⟨held, h, hv⟩

theorem Offers.binds (h : b.Offers x v) : b.binds x = true := by
  obtain ⟨held, hx, -⟩ := h
  exact Option.isSome_of_eq_some hx

-- Bindings are given by what is bound, and by what is offered.
theorem eq_iff {c : Bindings} :
    b = c ↔ ∀ x, b.binds x = c.binds x ∧ ∀ v, b.Offers x v ↔ c.Offers x v := by
  constructor
  · rintro rfl x
    exact ⟨rfl, fun v => Iff.rfl⟩
  · refine fun h => ext fun x => ?_
    obtain ⟨bound, offered⟩ := h x
    cases hb : b.lookup x with
    | none =>
        rw [binds, hb] at bound
        exact (Option.not_isSome_iff_eq_none.mp (Bool.eq_false_iff.mp bound.symm)).symm
    | some held =>
        rw [binds, hb] at bound
        obtain ⟨held', hc⟩ := Option.isSome_iff_exists.mp bound.symm
        rw [hc]
        refine congrArg some (ValueSet.ext fun v => ?_)
        rw [← offers_iff hb, ← offers_iff hc, offered]

theorem offeredOnAll_cons : OfferedOnAll (b :: rest) x v ↔ b.Offers x v ∧ OfferedOnAll rest x v :=
  List.forall_mem_cons

theorem mem_common? (h : common? x values rest = some found) :
    v ∈ found ↔ v ∈ values ∧ OfferedOnAll rest x v := by
  induction rest generalizing values with
  | nil =>
      obtain rfl := Option.some.inj h
      simp [OfferedOnAll]
  | cons b rest ih =>
      simp only [common?] at h
      cases hb : b.lookup x with
      | none => simp [hb] at h
      | some held =>
          simp only [hb] at h
          rw [ih h, ValueSet.mem_inter, ← offers_iff hb, and_assoc, offeredOnAll_cons]

-- What a variable is bound to where the paths meet is what it may hold on all of them.
theorem mem_shared (h : (shared first rest).lookup x = some found) :
    v ∈ found ↔ OfferedOnAll (first :: rest) x v := by
  obtain ⟨values, hx, hc⟩ := lookup_shared.mp h
  rw [mem_common? hc, ← offers_iff hx, offeredOnAll_cons]

theorem binds_shared : (shared first rest).binds x = true ↔ BoundOnAll (first :: rest) x := by
  constructor
  · intro h
    obtain ⟨found, hf⟩ := Option.isSome_iff_exists.mp h
    obtain ⟨values, hx, hc⟩ := lookup_shared.mp hf
    refine List.forall_mem_cons.mpr ⟨Option.isSome_of_eq_some hx, fun b hb => ?_⟩
    obtain ⟨held, hl, -⟩ := (common?_eq_some hc).2 b hb
    exact Option.isSome_of_eq_some hl
  · intro h
    obtain ⟨hf, hr⟩ := List.forall_mem_cons.mp h
    obtain ⟨values, hx⟩ := Option.isSome_iff_exists.mp hf
    obtain ⟨found, hc⟩ := exists_common? hr values
    exact Option.isSome_of_eq_some (lookup_shared.mpr ⟨values, hx, hc⟩)

theorem offers_shared : (shared first rest).Offers x v ↔ OfferedOnAll (first :: rest) x v := by
  constructor
  · rintro ⟨found, hx, hv⟩
    exact (mem_shared hx).mp hv
  · intro h
    have bound : (shared first rest).binds x = true :=
      binds_shared.mpr fun b hb => (h b hb).binds
    obtain ⟨found, hx⟩ := Option.isSome_iff_exists.mp bound
    exact ⟨found, hx, (mem_shared hx).mpr h⟩

-- An entry of the first path is the one at which a merge fails exactly if its variable is
-- one that the paths are divided on.
theorem any_isEmpty_iff (h : first.lookup x = some values) :
    (common? x values rest).any ValueSet.isEmpty = true ↔ Divided (first :: rest) x := by
  rw [Divided, ← binds_shared, Option.any_eq_true]
  constructor
  · rintro ⟨found, hc, he⟩
    have hx : (shared first rest).lookup x = some found := lookup_shared.mpr ⟨values, h, hc⟩
    refine ⟨Option.isSome_of_eq_some hx, fun ⟨v, hv⟩ => ?_⟩
    exact ValueSet.isEmpty_iff.mp he v ((mem_shared hx).mpr hv)
  · rintro ⟨bound, none⟩
    obtain ⟨found, hx⟩ := Option.isSome_iff_exists.mp bound
    obtain ⟨held, hf, hc⟩ := lookup_shared.mp hx
    obtain rfl := Option.some.inj (h.symm.trans hf)
    exact ⟨found, hc, ValueSet.isEmpty_iff.mpr fun v hv => none ⟨v, (mem_shared hx).mp hv⟩⟩

theorem Divided.lookup_first (h : Divided (first :: rest) x) :
    ∃ values, (x, values) ∈ first.entries := by
  obtain ⟨values, hx⟩ := Option.isSome_iff_exists.mp (h.1 first List.mem_cons_self)
  exact ⟨values, mem_entries.mpr hx⟩

theorem conflict?_eq_none_iff : conflict? first rest = none ↔ ∀ x, ¬Divided (first :: rest) x := by
  rw [conflict?, Option.map_eq_none_iff, List.find?_eq_none]
  constructor
  · intro h x divided
    obtain ⟨values, hm⟩ := divided.lookup_first
    exact h _ hm ((any_isEmpty_iff (mem_entries.mp hm)).mpr divided)
  · intro h e he
    rw [any_isEmpty_iff (mem_entries.mp he)]
    exact h e.1

-- The entries of the first path ascend, so the first of them that fails is the least.
theorem conflict?_eq_some (h : conflict? first rest = some x) :
    Divided (first :: rest) x ∧ ∀ y, Divided (first :: rest) y → x.index ≤ y.index := by
  obtain ⟨⟨z, values⟩, hfind, rfl⟩ := Option.map_eq_some_iff.mp h
  obtain ⟨fails, before, after, split, passes⟩ := List.find?_eq_some_iff_append.mp hfind
  have here : first.lookup z = some values :=
    mem_entries.mp (split ▸ List.mem_append_right before List.mem_cons_self)
  refine ⟨(any_isEmpty_iff here).mp fails, fun y divided => ?_⟩
  obtain ⟨held, hm⟩ := divided.lookup_first
  have fails' := (any_isEmpty_iff (mem_entries.mp hm)).mpr divided
  have ascending := first.ascending
  rw [split, List.pairwise_append] at ascending
  rw [split] at hm
  rcases List.mem_append.mp hm with hm | hm
  · exact absurd fails' (by simpa using passes _ hm)
  · rcases List.mem_cons.mp hm with he | hm
    · exact Nat.le_of_eq (congrArg (fun e => e.1.index) he).symm
    · exact Nat.le_of_lt ((List.pairwise_cons.mp ascending.2.1).1 _ hm)

theorem meet_eq_ok_iff : meet (first :: rest) = .ok merged ↔
    (∀ x, ¬Divided (first :: rest) x) ∧ shared first rest = merged := by
  rw [← conflict?_eq_none_iff, meet]
  cases conflict? first rest <;> simp

theorem var_of_meet_eq_error {conflict : Conflict} (h : meet (first :: rest) = .error conflict) :
    conflict? first rest = some conflict.var := by
  rw [meet] at h
  cases hc : conflict? first rest with
  | none => simp [hc] at h
  | some x =>
      simp only [hc, Except.error.injEq] at h
      rw [← h]

theorem SamePaths.bound (h : SamePaths paths others) : BoundOnAll paths x ↔ BoundOnAll others x :=
  forall_congr' fun b => imp_congr_left (h b)

theorem SamePaths.offered (h : SamePaths paths others) :
    OfferedOnAll paths x v ↔ OfferedOnAll others x v :=
  forall_congr' fun b => imp_congr_left (h b)

theorem SamePaths.divided (h : SamePaths paths others) : Divided paths x ↔ Divided others x :=
  and_congr h.bound (not_congr (exists_congr fun _ => h.offered))

theorem SamePaths.shared_eq {other : Bindings} {more : List Bindings}
    (h : SamePaths (first :: rest) (other :: more)) : shared first rest = shared other more := by
  refine eq_iff.mpr fun x => ⟨?_, fun v => ?_⟩
  · rw [Bool.eq_iff_iff, binds_shared, binds_shared]
    exact h.bound
  · rw [offers_shared, offers_shared]
    exact h.offered

theorem SamePaths.conflict?_eq {other : Bindings} {more : List Bindings}
    (h : SamePaths (first :: rest) (other :: more)) :
    conflict? first rest = conflict? other more := by
  cases hf : conflict? first rest with
  | none =>
      rw [conflict?_eq_none_iff] at hf
      exact (conflict?_eq_none_iff.mpr fun x divided => hf x (h.divided.mpr divided)).symm
  | some x =>
      obtain ⟨hx, least⟩ := conflict?_eq_some hf
      cases ho : conflict? other more with
      | none => exact absurd (h.divided.mp hx) (conflict?_eq_none_iff.mp ho x)
      | some y =>
          obtain ⟨hy, least'⟩ := conflict?_eq_some ho
          have le := least y (h.divided.mpr hy)
          have ge := least' x (h.divided.mp hx)
          exact congrArg (fun i => some (VariableId.mk i)) (Nat.le_antisymm le ge)

theorem mapError_meet_congr {other : Bindings} {more : List Bindings}
    (h : SamePaths (first :: rest) (other :: more)) :
    (meet (first :: rest)).mapError Conflict.var =
      (meet (other :: more)).mapError Conflict.var := by
  rw [meet, meet, h.conflict?_eq, h.shared_eq]
  cases conflict? other more <;> rfl

-- A merge is the meet of its paths. Which of the paths comes first, in which order the
-- others follow and how often one of them comes are no part of the outcome.
theorem meet_spec (paths : List Bindings) (nonempty : paths ≠ []) :
    ((∃ merged, meet paths = .ok merged) ↔
        ∀ x, BoundOnAll paths x → ∃ v, OfferedOnAll paths x v) ∧
      (∀ merged, meet paths = .ok merged → ∀ x,
        (merged.binds x = true ↔ BoundOnAll paths x) ∧
          ∀ v, merged.Offers x v ↔ OfferedOnAll paths x v) ∧
      (∀ conflict, meet paths = .error conflict →
        Divided paths conflict.var ∧ ∀ x, Divided paths x → conflict.var.index ≤ x.index) ∧
      ∀ others, SamePaths others paths →
        (meet others).mapError Conflict.var = (meet paths).mapError Conflict.var := by
  obtain ⟨first, rest, rfl⟩ := List.exists_cons_of_ne_nil nonempty
  refine ⟨?_, ?_, ?_, ?_⟩
  · simp only [meet_eq_ok_iff, exists_and_left, exists_eq', and_true, Divided, not_and, not_not]
  · intro merged h x
    obtain ⟨-, rfl⟩ := meet_eq_ok_iff.mp h
    exact ⟨binds_shared, fun v => offers_shared⟩
  · exact fun conflict h => conflict?_eq_some (var_of_meet_eq_error h)
  · intro others same
    cases others with
    | nil => exact absurd ((same first).mpr List.mem_cons_self) List.not_mem_nil
    | cons other more => exact mapError_meet_congr same

-- Two paths share a candidate of the first variable and none of the third. The second
-- variable is bound on one of them only.
def upper : Bindings :=
  ((empty.assign ⟨0⟩ (.ofList [⟨0⟩, ⟨1⟩])).assign ⟨1⟩ (.single ⟨2⟩)).assign ⟨2⟩ (.single ⟨5⟩)

def lower : Bindings := (empty.assign ⟨0⟩ (.ofList [⟨1⟩, ⟨3⟩])).assign ⟨2⟩ (.single ⟨6⟩)

theorem meet_spec_divided :
    [upper, lower] ≠ [] ∧ Divided [upper, lower] ⟨2⟩ ∧
      (∀ x, Divided [upper, lower] x → 2 ≤ x.index) ∧
      (meet [lower, upper, lower]).mapError Conflict.var = .error ⟨2⟩ := by
  have divided : (meet [upper, lower]).mapError Conflict.var = .error ⟨2⟩ := by decide +kernel
  obtain ⟨-, -, names, same⟩ := meet_spec [upper, lower] (List.cons_ne_nil _ _)
  have again : SamePaths [lower, upper, lower] [upper, lower] := fun b => by simp [or_comm]
  refine ⟨List.cons_ne_nil _ _, ?_⟩
  cases h : meet [upper, lower] with
  | ok merged => simp [h, Except.mapError] at divided
  | error conflict =>
      have named : conflict.var = ⟨2⟩ := by simpa [h, Except.mapError] using divided
      have := names conflict h
      rw [named] at this
      exact ⟨this.1, this.2, (same _ again).trans divided⟩

end Bindings

end SsaReplay
