import SsaReplay.Ident

namespace SsaReplay

-- The values that a variable may hold. Members ascend strictly, so that two sets
-- are equal exactly when they have the same members.
structure ValueSet where
  members : List ValueId
  ascending : members.Pairwise (fun a b => a.index < b.index)

namespace ValueSet

instance : DecidableEq ValueSet := fun s t =>
  if h : s.members = t.members then
    .isTrue (by cases s; cases t; cases h; rfl)
  else
    .isFalse (fun e => h (e ▸ rfl))

instance : Membership ValueId ValueSet := ⟨fun s v => v ∈ s.members⟩

instance (v : ValueId) (s : ValueSet) : Decidable (v ∈ s) :=
  inferInstanceAs (Decidable (v ∈ s.members))

def empty : ValueSet := ⟨[], .nil⟩

def single (v : ValueId) : ValueSet := ⟨[v], List.pairwise_singleton _ _⟩

def size (s : ValueSet) : Nat := s.members.length

def isEmpty (s : ValueSet) : Bool := s.members.isEmpty

-- The member of a one-element set.
def only? (s : ValueSet) : Option ValueId :=
  match s.members with
  | [v] => some v
  | _ => none

-- Looks for a value among ascending ones, in the given number of them from a position
-- on, by halves. The answer is where it stands, or else where it would have to stand.
def searchFrom (vs : List ValueId) (v : ValueId) (low size : Nat) : Except Nat Nat :=
  if size = 0 then .error low
  else
    let middle := low + size / 2
    match vs[middle]? with
    | none => .error low
    | some w =>
        if v = w then .ok middle
        else if v.index < w.index then searchFrom vs v low (size / 2)
        else searchFrom vs v (middle + 1) (size - size / 2 - 1)
termination_by size

def search (vs : List ValueId) (v : ValueId) : Except Nat Nat := searchFrom vs v 0 vs.length

-- Whether the search finds the value.
def found (vs : List ValueId) (v : ValueId) : Bool :=
  match search vs v with
  | .ok _ => true
  | .error _ => false

-- Insertion where the search leads to, unless the value stands there.
def place (v : ValueId) (vs : List ValueId) : List ValueId :=
  match search vs v with
  | .ok _ => vs
  | .error i => vs.take i ++ v :: vs.drop i

def sortIn (v : ValueId) : List ValueId → List ValueId
  | [] => [v]
  | w :: rest => if v.index ≤ w.index then v :: w :: rest else w :: sortIn v rest

def sort (vs : List ValueId) : List ValueId := vs.foldr sortIn []

-- Of equal values that follow each other only one is left.
def dedup : List ValueId → List ValueId
  | v :: w :: rest => if v = w then dedup (w :: rest) else v :: dedup (w :: rest)
  | vs => vs

section Search

variable {vs : List ValueId} {v w : ValueId} {low size i : Nat}

theorem getElem?_of_searchFrom (h : searchFrom vs v low size = .ok i) : vs[i]? = some v := by
  fun_induction searchFrom vs v low size with
  | case1 => exact nomatch h
  | case2 => exact nomatch h
  | case3 low size hsize middle found =>
      obtain rfl := Except.ok.inj h
      exact found
  | case4 low size hsize middle w found hne hlt ih => exact ih h
  | case5 low size hsize middle w found hne hlt ih => exact ih h

-- What stands before one of ascending values is smaller, and what stands after it is greater.
theorem around_of_getElem? (asc : vs.Pairwise (fun a b => a.index < b.index))
    (h : vs[i]? = some w) :
    (∀ u ∈ vs.take (i + 1), u.index ≤ w.index) ∧ ∀ u ∈ vs.drop i, w.index ≤ u.index := by
  obtain ⟨hi, rfl⟩ := List.getElem?_eq_some_iff.mp h
  have split := List.drop_eq_getElem_cons hi
  have parts := asc
  rw [← List.take_append_drop i vs, split] at parts
  obtain ⟨-, above, across⟩ := List.pairwise_append.mp parts
  refine ⟨fun u hu => ?_, fun u hu => ?_⟩
  · rw [← List.take_append_getElem hi] at hu
    rcases List.mem_append.mp hu with hu | hu
    · exact Nat.le_of_lt (across u hu _ List.mem_cons_self)
    · exact Nat.le_of_eq (congrArg ValueId.index (List.mem_singleton.mp hu))
  · rw [split] at hu
    rcases List.mem_cons.mp hu with rfl | hu
    · exact Nat.le_refl _
    · exact Nat.le_of_lt ((List.pairwise_cons.mp above).1 u hu)

-- The values that were ruled out so far are before or behind those that are left.
theorem around_of_searchFrom (asc : vs.Pairwise (fun a b => a.index < b.index))
    (fits : low + size ≤ vs.length) (below : ∀ u ∈ vs.take low, u.index < v.index)
    (above : ∀ u ∈ vs.drop (low + size), v.index < u.index)
    (h : searchFrom vs v low size = .error i) :
    (∀ u ∈ vs.take i, u.index < v.index) ∧ ∀ u ∈ vs.drop i, v.index < u.index := by
  fun_induction searchFrom vs v low size with
  | case1 low =>
      obtain rfl := Except.error.inj h
      exact ⟨below, above⟩
  | case2 low size hsize middle absent =>
      have outside := List.getElem?_eq_none_iff.mp absent
      omega
  | case3 => exact nomatch h
  | case4 low size hsize middle w found hne hlt ih =>
      refine ih (by omega) below (fun u hu => ?_) h
      exact Nat.lt_of_lt_of_le hlt ((around_of_getElem? asc found).2 u hu)
  | case5 low size hsize middle w found hne hlt ih =>
      have greater : w.index < v.index := by
        have distinct : v.index ≠ w.index := fun e => hne (by cases v; cases w; cases e; rfl)
        omega
      refine ih (by omega) (fun u hu => ?_) (fun u hu => above u ?_) h
      · exact Nat.lt_of_le_of_lt ((around_of_getElem? asc found).1 u hu) greater
      · rwa [show low + size = middle + 1 + (size - size / 2 - 1) by omega]

theorem around_of_search (asc : vs.Pairwise (fun a b => a.index < b.index))
    (h : search vs v = .error i) :
    (∀ u ∈ vs.take i, u.index < v.index) ∧ ∀ u ∈ vs.drop i, v.index < u.index :=
  around_of_searchFrom asc (by omega) (by simp) (by simp) h

-- Among ascending values the search misses nothing.
theorem found_iff (asc : vs.Pairwise (fun a b => a.index < b.index)) :
    found vs v = true ↔ v ∈ vs := by
  unfold found
  cases h : search vs v with
  | ok i => exact ⟨fun _ => List.mem_of_getElem? (getElem?_of_searchFrom h), fun _ => rfl⟩
  | error i =>
      obtain ⟨below, above⟩ := around_of_search asc h
      refine ⟨nofun, fun hv => ?_⟩
      rw [← List.take_append_drop i vs] at hv
      rcases List.mem_append.mp hv with hv | hv
      · exact absurd (below v hv) (Nat.lt_irrefl _)
      · exact absurd (above v hv) (Nat.lt_irrefl _)

end Search

theorem mem_place (v u : ValueId) (vs : List ValueId) : u ∈ place v vs ↔ u = v ∨ u ∈ vs := by
  unfold place
  cases h : search vs v with
  | ok i =>
      have hv : v ∈ vs := List.mem_of_getElem? (getElem?_of_searchFrom h)
      exact ⟨.inr, fun hu => hu.elim (fun e => e ▸ hv) id⟩
  | error i =>
      have split : u ∈ vs ↔ u ∈ vs.take i ∨ u ∈ vs.drop i := by
        rw [← List.mem_append, List.take_append_drop]
      rw [List.mem_append, List.mem_cons, split]
      exact or_left_comm

theorem place_ascending (v : ValueId) (vs : List ValueId)
    (h : vs.Pairwise (fun a b => a.index < b.index)) :
    (place v vs).Pairwise (fun a b => a.index < b.index) := by
  unfold place
  cases hs : search vs v with
  | ok i => exact h
  | error i =>
      obtain ⟨below, above⟩ := around_of_search h hs
      refine List.pairwise_append.mpr ⟨h.sublist (List.take_sublist i vs), ?_, fun a ha b hb => ?_⟩
      · exact List.pairwise_cons.mpr ⟨above, h.sublist (List.drop_sublist i vs)⟩
      · rcases List.mem_cons.mp hb with rfl | hb
        · exact below a ha
        · exact Nat.lt_trans (below a ha) (above b hb)

theorem mem_sortIn (v u : ValueId) (vs : List ValueId) : u ∈ sortIn v vs ↔ u = v ∨ u ∈ vs := by
  induction vs with
  | nil => simp [sortIn]
  | cons w rest ih =>
      simp only [sortIn]
      split
      · exact List.mem_cons
      · simp only [List.mem_cons, ih]
        exact or_left_comm

theorem sortIn_sorted (v : ValueId) (vs : List ValueId)
    (h : vs.Pairwise (fun a b => a.index ≤ b.index)) :
    (sortIn v vs).Pairwise (fun a b => a.index ≤ b.index) := by
  induction vs with
  | nil => exact List.pairwise_singleton _ _
  | cons w rest ih =>
      obtain ⟨hw, hr⟩ := List.pairwise_cons.mp h
      simp only [sortIn]
      split
      · next hle =>
        refine List.pairwise_cons.mpr ⟨fun u hu => ?_, h⟩
        rcases List.mem_cons.mp hu with rfl | hu
        · exact hle
        · exact Nat.le_trans hle (hw u hu)
      · next hle =>
        refine List.pairwise_cons.mpr ⟨fun u hu => ?_, ih hr⟩
        rcases (mem_sortIn v u rest).mp hu with rfl | hu
        · exact Nat.le_of_lt (Nat.lt_of_not_le hle)
        · exact hw u hu

theorem mem_sort (u : ValueId) (vs : List ValueId) : u ∈ sort vs ↔ u ∈ vs := by
  induction vs with
  | nil => exact Iff.rfl
  | cons v rest ih => rw [List.mem_cons, ← ih, ← mem_sortIn]; rfl

theorem sort_sorted (vs : List ValueId) : (sort vs).Pairwise (fun a b => a.index ≤ b.index) := by
  induction vs with
  | nil => exact .nil
  | cons v rest ih => exact sortIn_sorted v _ ih

theorem mem_dedup (u : ValueId) (vs : List ValueId) : u ∈ dedup vs ↔ u ∈ vs := by
  fun_induction dedup vs with
  | case1 w rest ih => simp [ih]
  | case2 v w rest hne ih => rw [List.mem_cons, ih, ← List.mem_cons]
  | case3 => exact Iff.rfl

theorem dedup_ascending (vs : List ValueId) (h : vs.Pairwise (fun a b => a.index ≤ b.index)) :
    (dedup vs).Pairwise (fun a b => a.index < b.index) := by
  fun_induction dedup vs with
  | case1 w rest ih => exact ih (List.pairwise_cons.mp h).2
  | case2 v w rest hne ih =>
      obtain ⟨hv, hr⟩ := List.pairwise_cons.mp h
      refine List.pairwise_cons.mpr ⟨fun u hu => ?_, ih hr⟩
      have least : w.index ≤ u.index := by
        rcases List.mem_cons.mp ((mem_dedup u _).mp hu) with rfl | hu
        · exact Nat.le_refl _
        · exact (List.pairwise_cons.mp hr).1 u hu
      have distinct : v.index ≠ w.index := fun e => hne (by cases v; cases w; cases e; rfl)
      have := hv w List.mem_cons_self
      omega
  | case3 vs short =>
      match vs with
      | [] => exact .nil
      | [v] => exact List.pairwise_singleton _ _
      | v :: w :: rest => exact absurd rfl (short v w rest)

def contains (s : ValueSet) (v : ValueId) : Bool := found s.members v

def insert (s : ValueSet) (v : ValueId) : ValueSet :=
  ⟨place v s.members, place_ascending v s.members s.ascending⟩

def ofList (vs : List ValueId) : ValueSet := ⟨dedup (sort vs), dedup_ascending _ (sort_sorted vs)⟩

def inter (s t : ValueSet) : ValueSet :=
  ⟨s.members.filter t.contains, s.ascending.filter _⟩

def union (s t : ValueSet) : ValueSet := t.members.foldl insert s

-- Drops the values listed.
def without (s : ValueSet) (vs : List ValueId) : ValueSet :=
  .ofList (s.members.filter (fun v => v ∉ vs))

instance : ToString ValueSet :=
  ⟨fun s => "\x7b" ++ ", ".intercalate (s.members.map toString) ++ "\x7d"⟩

theorem contains_iff (s : ValueSet) (v : ValueId) : s.contains v ↔ v ∈ s := found_iff s.ascending

@[simp] theorem notMem_empty (v : ValueId) : v ∉ empty := List.not_mem_nil

@[simp] theorem mem_single (v w : ValueId) : v ∈ single w ↔ v = w := List.mem_singleton

@[simp] theorem mem_insert (s : ValueSet) (v w : ValueId) : v ∈ s.insert w ↔ v = w ∨ v ∈ s :=
  mem_place w v s.members

@[simp] theorem mem_inter (s t : ValueSet) (v : ValueId) : v ∈ s.inter t ↔ v ∈ s ∧ v ∈ t := by
  change v ∈ s.members.filter t.contains ↔ _
  simp only [List.mem_filter, contains_iff]
  rfl

@[simp] theorem mem_ofList (vs : List ValueId) (v : ValueId) : v ∈ ofList vs ↔ v ∈ vs :=
  (mem_dedup v _).trans (mem_sort v vs)

@[simp] theorem mem_without (s : ValueSet) (vs : List ValueId) (v : ValueId) :
    v ∈ s.without vs ↔ v ∈ s ∧ v ∉ vs := by
  rw [without, mem_ofList, List.mem_filter, decide_eq_true_eq]
  rfl

theorem mem_foldl_insert (vs : List ValueId) (s : ValueSet) (v : ValueId) :
    v ∈ vs.foldl insert s ↔ v ∈ s ∨ v ∈ vs := by
  induction vs generalizing s with
  | nil => simp
  | cons w rest ih =>
      rw [List.foldl_cons, ih, mem_insert, List.mem_cons]
      constructor
      · rintro ((h | h) | h)
        · exact .inr (.inl h)
        · exact .inl h
        · exact .inr (.inr h)
      · rintro (h | h | h)
        · exact .inl (.inr h)
        · exact .inl (.inl h)
        · exact .inr h

@[simp] theorem mem_union (s t : ValueSet) (v : ValueId) : v ∈ s.union t ↔ v ∈ s ∨ v ∈ t :=
  mem_foldl_insert t.members s v

end ValueSet

end SsaReplay
