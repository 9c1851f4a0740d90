import SsaReplay.Candidates.ValueSet

namespace SsaReplay

-- For every bound variable, the values it may hold at one point of a path. The
-- entries ascend strictly by variable, so no variable is bound twice and two
-- bindings are equal exactly when they bind the same variables to the same sets.
structure Bindings where
  entries : List (VariableId × ValueSet)
  ascending : entries.Pairwise (fun a b => a.1.index < b.1.index)

namespace Bindings

instance : DecidableEq Bindings := fun a b =>
  if h : a.entries = b.entries then
    .isTrue (by cases a; cases b; cases h; rfl)
  else
    .isFalse (fun e => h (e ▸ rfl))

def empty : Bindings := ⟨[], .nil⟩

def lookup (b : Bindings) (x : VariableId) : Option ValueSet := b.entries.lookup x

-- Writes an entry at its place, in the stead of an earlier one for the variable.
def place (x : VariableId) (values : ValueSet) :
    List (VariableId × ValueSet) → List (VariableId × ValueSet)
  | [] => [(x, values)]
  | (y, held) :: rest =>
      if x.index < y.index then (x, values) :: (y, held) :: rest
      else if x = y then (x, values) :: rest
      else (y, held) :: place x values rest

theorem fst_mem_place (x : VariableId) (values : ValueSet) (entries : List (VariableId × ValueSet))
    (e : VariableId × ValueSet) (he : e ∈ place x values entries) :
    e = (x, values) ∨ e ∈ entries := by
  induction entries with
  | nil => exact .inl (List.mem_singleton.mp he)
  | cons head rest ih =>
      obtain ⟨y, held⟩ := head
      simp only [place] at he
      split at he
      · exact List.mem_cons.mp he
      · split at he
        · exact (List.mem_cons.mp he).imp_right (List.mem_cons_of_mem _)
        · rcases List.mem_cons.mp he with rfl | he
          · exact .inr List.mem_cons_self
          · exact (ih he).imp_right (List.mem_cons_of_mem _)

theorem entries_place_ascending (x : VariableId) (values : ValueSet)
    (entries : List (VariableId × ValueSet))
    (h : entries.Pairwise (fun a b => a.1.index < b.1.index)) :
    (place x values entries).Pairwise (fun a b => a.1.index < b.1.index) := by
  induction entries with
  | nil => exact List.pairwise_singleton _ _
  | cons head rest ih =>
      obtain ⟨y, held⟩ := head
      obtain ⟨hy, hr⟩ := List.pairwise_cons.mp h
      simp only [place]
      split
      · next hlt =>
        refine List.pairwise_cons.mpr ⟨fun e he => ?_, h⟩
        rcases List.mem_cons.mp he with rfl | he
        · exact hlt
        · exact Nat.lt_trans hlt (hy e he)
      · split
        · next hxy =>
          subst hxy
          exact List.pairwise_cons.mpr ⟨hy, hr⟩
        · next hlt hne =>
          refine List.pairwise_cons.mpr ⟨fun e he => ?_, ih hr⟩
          rcases fst_mem_place x values rest e he with rfl | he
          · have hi : x.index ≠ y.index := fun e => hne (by cases x; cases y; cases e; rfl)
            exact Nat.lt_of_le_of_ne (Nat.le_of_not_lt hlt) (Ne.symm hi)
          · exact hy e he

-- Binds a variable, whatever it was bound to.
def assign (b : Bindings) (x : VariableId) (values : ValueSet) : Bindings :=
  ⟨place x values b.entries, entries_place_ascending x values b.entries b.ascending⟩

-- Binds a variable that is not bound yet.
def define? (b : Bindings) (x : VariableId) (values : ValueSet) : Option Bindings :=
  match b.lookup x with
  | some _ => none
  | none => some (b.assign x values)

-- Commits a variable to one value.
def narrow (b : Bindings) (x : VariableId) (v : ValueId) : Bindings := b.assign x (.single v)

def holders (b : Bindings) (v : ValueId) : List VariableId :=
  (b.entries.filter (fun e => e.2.contains v)).map Prod.fst

-- The bindings after an edge is taken into a block whose phis are redefined. The
-- phis fed by a value become candidates wherever that value was one. A candidate
-- that is itself redefined is stale and dropped, but what it feeds is still added:
-- all phis of a block read their arguments before any of them changes.
def acrossEdge (b : Bindings) (fed : ValueId → ValueSet) (redefined : List ValueId) : Bindings :=
  ⟨b.entries.map (fun e =>
      (e.1, e.2.members.foldl (fun s v => s.union (fed v)) (e.2.without redefined))),
    List.pairwise_map.mpr b.ascending⟩

-- The candidates of a variable on every one of the paths, if all of them bind it.
def common? (x : VariableId) (values : ValueSet) : List Bindings → Option ValueSet
  | [] => some values
  | b :: rest =>
      match b.lookup x with
      | none => none
      | some held => common? x (values.inter held) rest

-- A variable bound on every path into a join without a candidate common to all,
-- and what it may hold on each of the paths.
structure Conflict where
  var : VariableId
  candidates : List ValueSet

-- Paths that enter a join leave bound what all of them bind, to the candidates
-- that they share.
def shared (first : Bindings) (rest : List Bindings) : Bindings :=
  ⟨first.entries.filterMap (fun e => (common? e.1 e.2 rest).map (e.1, ·)),
    List.Pairwise.filterMap _ (fun a b hab a' ha b' hb => by
      obtain ⟨_, _, rfl⟩ := Option.map_eq_some_iff.mp ha
      obtain ⟨_, _, rfl⟩ := Option.map_eq_some_iff.mp hb
      exact hab) first.ascending⟩

-- The least variable that all paths bind without a common candidate.
def conflict? (first : Bindings) (rest : List Bindings) : Option VariableId :=
  (first.entries.find? (fun e => (common? e.1 e.2 rest).any ValueSet.isEmpty)).map Prod.fst

-- Merges the bindings of all paths into a join.
def meet : List Bindings → Except Conflict Bindings
  | [] => .ok empty
  | first :: rest =>
      match conflict? first rest with
      | some x => .error ⟨x, (first :: rest).filterMap (lookup · x)⟩
      | none => .ok (shared first rest)

-- The name of each variable comes from the reader; one it does not know is shown
-- by its identity.
def text (b : Bindings) (name : VariableId → String) : String :=
  "\x7b" ++ ", ".intercalate (b.entries.map (fun e => name e.1 ++ ": " ++ toString e.2)) ++ "\x7d"

end Bindings

end SsaReplay
