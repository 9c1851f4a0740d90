import SsaReplay.Proofs.Meeting
import SsaReplay.Proofs.Stability

namespace SsaReplay

namespace ValueSet

-- How a set of values is put together.
inductive Assembly
  | new
  | single (v : ValueId)
  | collect (vs : List ValueId)
  | insert (a : Assembly) (v : ValueId)
  | inter (a b : Assembly)
  | union (a b : Assembly)

variable {s t : ValueSet} {v : ValueId}

namespace Assembly

def set : Assembly → ValueSet
  | .new => .empty
  | .single v => .single v
  | .collect vs => .ofList vs
  | .insert a v => a.set.insert v
  | .inter a b => a.set.inter b.set
  | .union a b => a.set.union b.set

-- The same on bare lists. Nothing sees to it here that they ascend.
def list : Assembly → List ValueId
  | .new => []
  | .single v => [v]
  | .collect vs => dedup (sort vs)
  | .insert a v => place v a.list
  | .inter a b => a.list.filter (found b.list)
  | .union a b => b.list.foldl (fun vs v => place v vs) a.list

-- The values that were put in, and not taken out by an intersection.
def Holds : Assembly → ValueId → Prop
  | .new, _ => False
  | .single w, v => v = w
  | .collect vs, v => v ∈ vs
  | .insert a w, v => v = w ∨ a.Holds v
  | .inter a b, v => a.Holds v ∧ b.Holds v
  | .union a b, v => a.Holds v ∨ b.Holds v

end Assembly

theorem members_foldl_insert (vs : List ValueId) :
    (vs.foldl insert s).members = vs.foldl (fun ws v => place v ws) s.members := by
  induction vs generalizing s with
  | nil => rfl
  | cons v rest ih => exact ih

theorem members_inter : (s.inter t).members = s.members.filter (found t.members) := rfl

namespace Assembly

variable (a b : Assembly)

theorem members_set : a.set.members = a.list := by
  induction a with
  | new => rfl
  | single v => rfl
  | collect vs => rfl
  | insert a v ih => exact congrArg (place v) ih
  | inter a b iha ihb => rw [set, members_inter, iha, ihb, list]
  | union a b iha ihb => rw [set, ValueSet.union, members_foldl_insert, iha, ihb, list]

-- So the lists ascend all the same, and the search in them is right.
theorem list_ascending : a.list.Pairwise (fun v w => v.index < w.index) :=
  a.members_set ▸ a.set.ascending

example : (union (collect [⟨3⟩, ⟨1⟩, ⟨3⟩]) (insert (single ⟨2⟩) ⟨0⟩)).list =
    [⟨0⟩, ⟨1⟩, ⟨2⟩, ⟨3⟩] := by
  decide +kernel

theorem mem_set : v ∈ a.set ↔ a.Holds v := by
  induction a with
  | new => exact iff_of_false (notMem_empty v) id
  | single w => exact mem_single v w
  | collect vs => exact mem_ofList vs v
  | insert a w ih => rw [set, mem_insert, ih, Holds]
  | inter a b iha ihb => rw [set, mem_inter, iha, ihb, Holds]
  | union a b iha ihb => rw [set, mem_union, iha, ihb, Holds]

theorem set_eq_iff : a.set = b.set ↔ ∀ v, a.Holds v ↔ b.Holds v := by
  constructor
  · intro h v
    rw [← mem_set, h, mem_set]
  · intro h
    exact ext fun v => by rw [mem_set, mem_set, h]

theorem only?_set : a.set.only? = some v ↔ ∀ w, a.Holds w ↔ w = v :=
  only?_eq_some.trans (a.set_eq_iff (.single v))

-- There are no other sets.
theorem exists_set (s : ValueSet) : ∃ a : Assembly, a.set = s :=
  ⟨.collect s.members, ext fun v => mem_ofList s.members v⟩

end Assembly

end ValueSet

namespace Bindings

variable {first merged : Bindings} {rest : List Bindings}

-- A variable is bound no more, or one of its candidates is none any more.
def Loses (before after : Bindings) : Prop :=
  ∃ x, before.binds x = true ∧ after.binds x = false ∨ ∃ v, before.Offers x v ∧ ¬after.Offers x v

-- A merge adds nothing to its first path, so that it differs from it just by what is lost.
theorem eq_of_meet_iff (h : meet (first :: rest) = .ok merged) :
    merged = first ↔ ¬first.Loses merged := by
  obtain ⟨-, rfl⟩ := meet_eq_ok_iff.mp h
  constructor
  · rintro he ⟨x, ⟨bound, unbound⟩ | ⟨v, offered, lost⟩⟩
    · rw [he, bound] at unbound
      exact Bool.noConfusion unbound
    · rw [he] at lost
      exact lost offered
  · intro kept
    refine eq_iff.mpr fun x => ⟨?_, fun v => ⟨fun hv => ?_, fun hv => ?_⟩⟩
    · refine Bool.eq_iff_iff.mpr ⟨fun hx => ?_, fun hx => ?_⟩
      · exact binds_shared.mp hx first List.mem_cons_self
      by_contra unbound
      exact kept ⟨x, .inl ⟨hx, Bool.eq_false_iff.mpr unbound⟩⟩
    · exact offers_shared.mp hv first List.mem_cons_self
    · by_contra lost
      exact kept ⟨x, .inr ⟨v, hv, lost⟩⟩

end Bindings

namespace Replay

open ValueSet (Assembly)

variable {ctx : Context} {header : BlockId} {parts : LoopParts} {entry refined : Bindings}
  {frame : LoopFrame} {warnings remaining iteration : Nat} {s t : State}

-- After a pass the loop is left, unless something was lost at its header.
theorem iterate_of_kept
    (run : passOver ctx header warnings parts iteration entry s = .ok frame t)
    (meets : Bindings.meet (entry :: frame.backEdges) = .ok refined)
    (kept : ¬entry.Loses refined) :
    iterate ctx header warnings parts (remaining + 1) iteration entry s =
      settle ctx header entry frame (t.log ctx.site (.merged header entry)) := by
  obtain rfl := (Bindings.eq_of_meet_iff meets).mpr kept
  rw [iterate_succ, bind_of_ok run, bind_of_ok (merge_eq_ok.mpr ⟨meets, rfl⟩), if_pos rfl]
  rfl

theorem iterate_of_loses
    (run : passOver ctx header warnings parts iteration entry s = .ok frame t)
    (meets : Bindings.meet (entry :: frame.backEdges) = .ok refined) (lost : entry.Loses refined) :
    iterate ctx header warnings parts (remaining + 1) iteration entry s =
      iterate ctx header warnings parts remaining (iteration + 1) refined
        (t.log ctx.site (.merged header refined)) := by
  have unstable : refined ≠ entry := fun h => (Bindings.eq_of_meet_iff meets).mp h lost
  rw [iterate_succ, bind_of_ok run, bind_of_ok (merge_eq_ok.mpr ⟨meets, rfl⟩), if_neg unstable]

-- Whatever calls put a set together, its members ascend. So a search in it is right, and a
-- set, a one-element set among them, is known by its members. Bindings are known by what is
-- bound and offered, and another pass is made just if some of it was lost in the last one.
theorem canonical_sets :
    (∀ s : ValueSet, ∃ a : Assembly, a.set = s) ∧
      (∀ a : Assembly, a.set.members = a.list ∧
        a.list.Pairwise (fun v w => v.index < w.index) ∧
          (∀ v, a.set.contains v = true ↔ a.Holds v) ∧
            ∀ v, a.set.only? = some v ↔ ∀ w, a.Holds w ↔ w = v) ∧
      (∀ a b : Assembly, a.set = b.set ↔ ∀ v, a.Holds v ↔ b.Holds v) ∧
      (∀ b c : Bindings,
        b = c ↔ ∀ x, b.binds x = c.binds x ∧ ∀ v, b.Offers x v ↔ c.Offers x v) ∧
      ∀ (ctx : Context) (header : BlockId) (warnings : Nat) (parts : LoopParts)
        (remaining iteration : Nat) (entry refined : Bindings) (frame : LoopFrame) (s t : State),
        passOver ctx header warnings parts iteration entry s = .ok frame t →
          Bindings.meet (entry :: frame.backEdges) = .ok refined →
            (refined = entry ↔ ¬entry.Loses refined) ∧
              (¬entry.Loses refined →
                iterate ctx header warnings parts (remaining + 1) iteration entry s =
                  settle ctx header entry frame (t.log ctx.site (.merged header entry))) ∧
                (entry.Loses refined →
                  iterate ctx header warnings parts (remaining + 1) iteration entry s =
                    iterate ctx header warnings parts remaining (iteration + 1) refined
                      (t.log ctx.site (.merged header refined))) := by
  refine ⟨Assembly.exists_set, fun a => ?_, Assembly.set_eq_iff, fun b c => Bindings.eq_iff, ?_⟩
  · exact ⟨a.members_set, a.list_ascending, fun v => (a.set.contains_iff v).trans a.mem_set,
      fun v => a.only?_set⟩
  · intro ctx header warnings parts remaining iteration entry refined frame s t run meets
    exact ⟨Bindings.eq_of_meet_iff meets, iterate_of_kept run meets, iterate_of_loses run meets⟩

end Replay

namespace Counting

open Replay

-- The first pass loses the size of the input, the second pass nothing.
theorem canonical_sets_again :
    ∃ frame t refined,
      passOver (subject.context .default) ⟨1⟩ 0 loopParts 0 atHeader.bindings atHeader =
          .ok frame t ∧
        Bindings.meet (atHeader.bindings :: frame.backEdges) = .ok refined ∧
          atHeader.bindings.Loses refined ∧
            iterate (subject.context .default) ⟨1⟩ 0 loopParts 8 0 atHeader.bindings atHeader =
              iterate (subject.context .default) ⟨1⟩ 0 loopParts 7 1 refined
                (t.log (subject.context .default).site (.merged ⟨1⟩ refined)) := by
  have passed : (match passOver (subject.context .default) ⟨1⟩ 0 loopParts 0 atHeader.bindings
      atHeader with
    | .ok frame _ => match Bindings.meet (atHeader.bindings :: frame.backEdges) with
      | .ok refined => decide (refined ≠ atHeader.bindings)
      | .error _ => false
    | .error _ _ => false) = true := by decide +kernel
  cases run : passOver (subject.context .default) ⟨1⟩ 0 loopParts 0 atHeader.bindings atHeader with
  | error e t => simp [run] at passed
  | ok frame t =>
      cases meets : Bindings.meet (atHeader.bindings :: frame.backEdges) with
      | error conflict => simp [run, meets] at passed
      | ok refined =>
          have changed : refined ≠ atHeader.bindings := by simpa [run, meets] using passed
          obtain ⟨-, -, -, -, step⟩ := canonical_sets
          obtain ⟨same, -, again⟩ := step _ _ _ _ 7 _ _ _ _ _ _ run meets
          have lost : atHeader.bindings.Loses refined := by
            by_contra kept
            exact changed (same.mpr kept)
          exact ⟨frame, t, refined, rfl, meets, lost, again lost⟩

end Counting

end SsaReplay
