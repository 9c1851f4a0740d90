import SsaReplay.Proofs.Renumbering.Candidates
import SsaReplay.Proofs.Success.Edge

namespace SsaReplay

-- Where something was found, under other numbers of its graph.
def Location.renumber (ρ : Renumbering) : Location → Location
  | .graph g => .graph g
  | .block g b => .block g (ρ.block b)
  | .operation g b i => .operation g (ρ.block b) i

namespace Graph

-- The elements of a list that stand at the positions, in their order.
def pick {α : Type} (order : List Nat) (elements : List α) : List α :=
  order.filterMap (elements[·]?)

def Origin.renumber (ρ : Renumbering) : Origin → Origin
  | .defined b => .defined (ρ.block b)
  | .phi b arguments => .phi (ρ.block b) (arguments.map ρ.value)
  | o => o

def Operation.renumber (ρ : Renumbering) (op : Operation) : Operation :=
  ⟨op.callee, op.inputs.map ρ.value, op.outputs.map ρ.value⟩

def Branch.renumber (ρ : Renumbering) (b : Branch) : Branch :=
  ⟨ρ.value b.condition, ρ.block b.nonZero, ρ.block b.zero⟩

def Exit.renumber (ρ : Renumbering) : Exit → Exit
  | .mainExit => .mainExit
  | .jump target => .jump (ρ.block target)
  | .branch b => .branch (b.renumber ρ)
  | .functionReturn values => .functionReturn (values.map ρ.value)
  | .terminated => .terminated

def BasicBlock.renumber (ρ : Renumbering) (data : BasicBlock) : BasicBlock :=
  ⟨data.entries.map ρ.block, data.phis.map ρ.value, data.operations.map (·.renumber ρ),
    data.exit.renumber ρ⟩

namespace Cfg

-- The graph with its values and blocks under other numbers, each in its place.
def renumber (g : Cfg) (ρ : Renumbering) : Cfg where
  entry := ρ.block g.entry
  function? := g.function?
  arguments := g.arguments.map fun a => (a.1, ρ.value a.2)
  returns := g.returns
  blocks := Array.ofFn fun i : Fin g.blocks.size =>
    ((g.block? (ρ.block.symm ⟨i⟩)).getD .empty).renumber ρ
  values := Array.ofFn fun i : Fin g.values.size =>
    ((g.origin? (ρ.value.symm ⟨i⟩)).getD .unreachable).renumber ρ
  literals := g.literals.map fun l => (l.1, ρ.value l.2)

-- The numbers in use are permuted among themselves.
structure Permutes (ρ : Renumbering) (g : Cfg) : Prop where
  values : ∀ v, (ρ.value v).index < g.values.size ↔ v.index < g.values.size
  blocks : ∀ b, (ρ.block b).index < g.blocks.size ↔ b.index < g.blocks.size

-- The entries of a block stand in another order, and with them the arguments of its phis.
def reorder (g : Cfg) (b : BlockId) (order : List Nat) : Cfg :=
  { g with
    blocks := g.blocks.modify b.index fun data => { data with entries := pick order data.entries }
    values := g.values.mapIdx fun i o =>
      match o with
      | .phi owner arguments =>
          if (g.block? b).any (⟨i⟩ ∈ ·.phis) then .phi owner (pick order arguments)
          else .phi owner arguments
      | o => o }

-- The block has no entry twice, and its phis belong to no other block and take one
-- argument from each entry.
structure Reorderable (g : Cfg) (b : BlockId) (data : BasicBlock) (order : List Nat) : Prop where
  block : g.block? b = some data
  order : order.Perm (List.range data.entries.length)
  entries : data.entries.Nodup
  arguments : ∀ phi ∈ data.phis, ∃ owner arguments,
    g.origin? phi = some (.phi owner arguments) ∧ arguments.length = data.entries.length
  elsewhere : ∀ c other, c ≠ b → g.block? c = some other → ∀ phi ∈ data.phis, phi ∉ other.phis

-- The numbers are permuted, and then any entries are reordered.
inductive Rearranged (ρ : Renumbering) (g : Cfg) : Cfg → Prop
  | renumbered (permutes : g.Permutes ρ) : Rearranged ρ g (g.renumber ρ)
  | reordered {g' : Cfg} {b : BlockId} {data : BasicBlock} {order : List Nat}
      (earlier : Rearranged ρ g g') (reorderable : g'.Reorderable b data order) :
      Rearranged ρ g (g'.reorder b order)

end Cfg

end Graph

namespace Replay

open SsaReplay.Graph (BasicBlock Cfg Exit Origin)

def Mismatch.renumber (ρ : Renumbering) : Mismatch → Mismatch
  | .absentBlock b => .absentBlock (ρ.block b)
  | .absentPhi phi b => .absentPhi (ρ.value phi) (ρ.block b)
  | .missingOperation name b n => .missingOperation name (ρ.block b) n
  | .leftoverOperations n b => .leftoverOperations n (ρ.block b)
  | .operand i name input candidates =>
      .operand i name (ρ.value input) (candidates.renumber ρ)
  | .comparisonNotLast l b => .comparisonNotLast l (ρ.block b)
  | .comparedWith v l => .comparedWith (ρ.value v) l
  | .comparisonReads l v candidates => .comparisonReads l (ρ.value v) (candidates.renumber ρ)
  | .caseCondition l held comparison => .caseCondition l (ρ.value held) (ρ.value comparison)
  | .wrongExit b demand found => .wrongExit (ρ.block b) demand (found.renumber ρ)
  | .noEdge source target => .noEdge (ρ.block source) (ρ.block target)
  | .ifTarget source target expected =>
      .ifTarget (ρ.block source) (ρ.block target) (ρ.block expected)
  | .joinTarget target expected => .joinTarget (ρ.block target) (ρ.block expected)
  | .postSkipped header => .postSkipped (ρ.block header)
  | .latchTarget target header => .latchTarget (ρ.block target) (ρ.block header)
  | .loopTarget way header target expected =>
      .loopTarget way (ρ.block header) (ρ.block target) (ρ.block expected)
  | .returnCount b values returns => .returnCount (ρ.block b) values returns
  | .notAnEntry source target => .notAnEntry (ρ.block source) (ρ.block target)
  | .phiArity phi arguments b entries =>
      .phiArity (ρ.value phi) arguments (ρ.block b) entries
  | .notAPhi phi b => .notAPhi (ρ.value phi) (ρ.block b)
  | .unstable header iterations => .unstable (ρ.block header) iterations
  | .disagreement join conflict => .disagreement (ρ.block join) (conflict.renumber ρ)
  | .returnedValue v x candidates => .returnedValue (ρ.value v) x (candidates.renumber ρ)
  | .condition v candidates => .condition (ρ.value v) (candidates.renumber ρ)
  | .unownedPhi phi b => .unownedPhi (ρ.value phi) (ρ.block b)
  | m => m

-- A mismatch is of the same kind under other numbers.
@[simp] theorem Mismatch.code_renumber (ρ : Renumbering) (m : Mismatch) :
    (m.renumber ρ).code = m.code := by
  cases m <;> rfl

-- What is asked of two blocks for a replay not to tell them apart.
structure BlockMirrors (ρ : Renumbering) (data data' : BasicBlock) : Prop where
  phis : data'.phis = data.phis.map ρ.value
  operations : data'.operations = data.operations.map (·.renumber ρ)
  exit : data'.exit = data.exit.renumber ρ
  entries : ∀ b, ρ.block b ∈ data'.entries ↔ b ∈ data.entries

-- The arguments of phis, or what is wrong with them, under other numbers.
def argumentsUnder (ρ : Renumbering) (found : Except Mismatch (List (ValueId × ValueId))) :
    Except Mismatch (List (ValueId × ValueId)) :=
  (found.map (List.map fun p => (ρ.value p.1, ρ.value p.2))).mapError (·.renumber ρ)

-- A graph mirrors another one where all that a replay asks of it is the same but for
-- the numbers.
structure GraphMirrors (ρ : Renumbering) (g g' : Cfg) : Prop where
  entry : g'.entry = ρ.block g.entry
  function : g'.function? = g.function?
  arguments : g'.arguments = g.arguments.map fun a => (a.1, ρ.value a.2)
  returns : g'.returns = g.returns
  literals : ∀ w, g'.literal? w = (g.literal? w).map ρ.value
  blocks : ∀ b, Option.Rel (BlockMirrors ρ) (g.block? b) (g'.block? (ρ.block b))
  phis : ∀ source target data data', g.block? target = some data →
    g'.block? (ρ.block target) = some data' →
      phiArguments g' (ρ.block source) (ρ.block target) data' =
        argumentsUnder ρ (phiArguments g source target data)

namespace GraphMirrors

variable {ρ : Renumbering} {g g' : Cfg} {b : BlockId} {data data' : BasicBlock}

theorem block_of_some (h : GraphMirrors ρ g g') (hd : g.block? b = some data) :
    ∃ data', g'.block? (ρ.block b) = some data' ∧ BlockMirrors ρ data data' := by
  have hb := h.blocks b
  rw [hd] at hb
  generalize g'.block? (ρ.block b) = found at hb ⊢
  obtain hm | _ := hb
  exact ⟨_, rfl, hm⟩

theorem block_of_none (h : GraphMirrors ρ g g') (hd : g.block? b = none) :
    g'.block? (ρ.block b) = none := by
  have hb := h.blocks b
  rw [hd] at hb
  generalize g'.block? (ρ.block b) = found at hb ⊢
  obtain _ | _ := hb
  rfl

end GraphMirrors

theorem targets_renumber (ρ : Renumbering) (exit : Exit) :
    (exit.renumber ρ).targets = exit.targets.map ρ.block := by
  cases exit <;> rfl

theorem phisFedBy_renumber (ρ : Renumbering) (pairs : List (ValueId × ValueId)) (v : ValueId) :
    phisFedBy (pairs.map fun p => (ρ.value p.1, ρ.value p.2)) (ρ.value v) =
      (phisFedBy pairs v).renumber ρ := by
  refine ValueSet.eq_renumber fun w => ?_
  rw [mem_phisFedBy, mem_phisFedBy]
  have injective : Function.Injective fun p : ValueId × ValueId => (ρ.value p.1, ρ.value p.2) := by
    intro p q hpq
    exact Prod.ext (ρ.value.injective (congrArg Prod.fst hpq))
      (ρ.value.injective (congrArg Prod.snd hpq))
  exact List.mem_map_of_injective (a := (v, w)) injective

end Replay

section Renumber

open SsaReplay.Replay

variable {ρ : Renumbering} {g : Graph.Cfg}

theorem Graph.Cfg.Permutes.block? (h : g.Permutes ρ) (b : BlockId) :
    (g.renumber ρ).block? (ρ.block b) = (g.block? b).map (·.renumber ρ) := by
  unfold Cfg.block?
  simp only [Cfg.renumber, Array.getElem?_ofFn, h.blocks]
  split
  · next hb =>
    have here : ρ.block.symm ⟨(ρ.block b).index⟩ = b := ρ.block.symm_apply_apply b
    simp only [here, Cfg.block?, Array.getElem?_eq_getElem hb, Option.getD_some, Option.map_some]
  · next hb => rw [Array.getElem?_eq_none (Nat.le_of_not_lt hb), Option.map_none]

theorem Graph.Cfg.Permutes.origin? (h : g.Permutes ρ) (v : ValueId) :
    (g.renumber ρ).origin? (ρ.value v) = (g.origin? v).map (·.renumber ρ) := by
  unfold Cfg.origin?
  simp only [Cfg.renumber, Array.getElem?_ofFn, h.values]
  split
  · next hv =>
    have here : ρ.value.symm ⟨(ρ.value v).index⟩ = v := ρ.value.symm_apply_apply v
    simp only [here, Cfg.origin?, Array.getElem?_eq_getElem hv, Option.getD_some, Option.map_some]
  · next hv => rw [Array.getElem?_eq_none (Nat.le_of_not_lt hv), Option.map_none]

-- What is read for one element after another, each under other numbers.
theorem mapM_map_of_forall {α β γ δ ε ε' : Type} {f : α → Except ε β} {f' : γ → Except ε' δ}
    {h : α → γ} {k : β → δ} {e : ε → ε'}
    (same : ∀ x, f' (h x) = ((f x).map k).mapError e) (xs : List α) :
    (xs.map h).mapM f' = ((xs.mapM f).map (List.map k)).mapError e := by
  induction xs with
  | nil => rfl
  | cons x xs ih =>
      rw [List.map_cons, List.mapM_cons, List.mapM_cons, same, ih]
      cases f x with
      | error found => rfl
      | ok y => cases xs.mapM f <;> rfl

theorem idxOf?_map {α β : Type} [DecidableEq α] [DecidableEq β] {f : α → β}
    (hf : Function.Injective f) (xs : List α) (a : α) : (xs.map f).idxOf? (f a) = xs.idxOf? a := by
  unfold List.idxOf?
  rw [List.findIdx?_map]
  refine congrArg (List.findIdx? · xs) (funext fun x => ?_)
  simp [hf.eq_iff]

theorem phiArgument_renumber (h : g.Permutes ρ) (target : BlockId) (entries offset : Nat)
    (phi : ValueId) :
    phiArgument (g.renumber ρ) (ρ.block target) entries offset (ρ.value phi) =
      ((phiArgument g target entries offset phi).map fun p =>
        (ρ.value p.1, ρ.value p.2)).mapError (·.renumber ρ) := by
  unfold phiArgument
  rw [h.origin?]
  cases g.origin? phi with
  | none => rfl
  | some origin =>
      cases origin with
      | phi owner arguments =>
          simp only [Option.map_some, Graph.Origin.renumber, List.getElem?_map, List.length_map]
          cases arguments[offset]? with
          | none => rfl
          | some argument =>
              simp only [Option.map_some]
              split <;> rfl
      | _ => rfl

theorem phiArguments_renumber (h : g.Permutes ρ) (source target : BlockId)
    (data : Graph.BasicBlock) :
    phiArguments (g.renumber ρ) (ρ.block source) (ρ.block target) (data.renumber ρ) =
      argumentsUnder ρ (phiArguments g source target data) := by
  unfold phiArguments Graph.BasicBlock.renumber Graph.BasicBlock.entryOffset?
  simp only [List.isEmpty_map, List.length_map, idxOf?_map ρ.block.injective]
  split
  · rfl
  · cases data.entries.idxOf? source with
    | none => rfl
    | some offset => exact mapM_map_of_forall (phiArgument_renumber h target _ offset) data.phis

theorem lookup_map_snd {α β γ : Type} [BEq α] (f : β → γ) (a : α) (pairs : List (α × β)) :
    (pairs.map fun p => (p.1, f p.2)).lookup a = (pairs.lookup a).map f := by
  induction pairs with
  | nil => rfl
  | cons head rest ih =>
      rw [List.map_cons, List.lookup_cons, List.lookup_cons, ih]
      cases a == head.1 <;> rfl

theorem mirrors_renumber (h : g.Permutes ρ) : GraphMirrors ρ g (g.renumber ρ) where
  entry := rfl
  function := rfl
  arguments := rfl
  returns := rfl
  literals w := lookup_map_snd ρ.value w g.literals
  blocks b := by
    rw [h.block?]
    cases g.block? b with
    | none => exact .none
    | some data =>
        refine .some ⟨rfl, rfl, rfl, fun b => ?_⟩
        exact List.mem_map_of_injective ρ.block.injective
  phis source target data data' hd hd' := by
    rw [h.block?, hd, Option.map_some, Option.some.injEq] at hd'
    subst hd'
    exact phiArguments_renumber h source target data

end Renumber

section Reorder

open SsaReplay.Replay
open SsaReplay.Graph (BasicBlock pick)

variable {g : Graph.Cfg} {b : BlockId} {data : BasicBlock} {order : List Nat}

theorem getElem?_pick {α : Type} {elements : List α} (h : ∀ i ∈ order, i < elements.length)
    (j : Nat) : (pick order elements)[j]? = order[j]?.bind (elements[·]?) := by
  induction order generalizing j with
  | nil => simp [pick]
  | cons i rest ih =>
      obtain ⟨hi, hr⟩ := List.forall_mem_cons.mp h
      have first : pick (i :: rest) elements = elements[i] :: pick rest elements := by
        simp [pick, hi]
      rw [first]
      cases j with
      | zero => simp [hi]
      | succ j => simpa using ih hr j

theorem length_pick {α : Type} {elements : List α} (h : ∀ i ∈ order, i < elements.length) :
    (pick order elements).length = order.length := by
  induction order with
  | nil => rfl
  | cons i rest ih =>
      obtain ⟨hi, hr⟩ := List.forall_mem_cons.mp h
      have first : pick (i :: rest) elements = elements[i] :: pick rest elements := by
        simp [pick, hi]
      rw [first, List.length_cons, List.length_cons, ih hr]

namespace Graph.Cfg.Reorderable

theorem lt_of_mem (h : g.Reorderable b data order) : ∀ i ∈ order, i < data.entries.length :=
  fun _ hi => List.mem_range.mp (h.order.mem_iff.mp hi)

theorem length_order (h : g.Reorderable b data order) : order.length = data.entries.length := by
  rw [h.order.length_eq, List.length_range]

theorem block?_self (h : g.Reorderable b data order) :
    (g.reorder b order).block? b = some { data with entries := pick order data.entries } := by
  have hb := h.block
  unfold Cfg.block? at hb ⊢
  simp only [reorder, Array.getElem?_modify, if_true, hb, Option.map_some]

theorem block?_of_ne {c : BlockId} (hc : c ≠ b) : (g.reorder b order).block? c = g.block? c := by
  have hne : b.index ≠ c.index := fun he => hc (by cases b; cases c; cases he; rfl)
  unfold Cfg.block?
  simp only [reorder, Array.getElem?_modify, if_neg hne]

theorem origin?_of_notMem (h : g.Reorderable b data order) {v : ValueId} (hv : v ∉ data.phis) :
    (g.reorder b order).origin? v = g.origin? v := by
  unfold Cfg.origin?
  simp only [reorder, Array.getElem?_mapIdx, h.block, Option.any_some, decide_eq_true_eq]
  cases g.values[v.index]? with
  | none => rfl
  | some o =>
      cases o with
      | phi owner arguments => simp [hv]
      | _ => rfl

theorem origin?_of_mem (h : g.Reorderable b data order) {phi : ValueId} (hphi : phi ∈ data.phis)
    {owner : BlockId} {arguments : List ValueId}
    (ho : g.origin? phi = some (.phi owner arguments)) :
    (g.reorder b order).origin? phi = some (.phi owner (pick order arguments)) := by
  unfold Cfg.origin? at ho ⊢
  simp [reorder, Array.getElem?_mapIdx, h.block, ho, hphi]

theorem perm_pick (h : g.Reorderable b data order) :
    (pick order data.entries).Perm data.entries := by
  have whole : pick (List.range data.entries.length) data.entries = data.entries := by
    have lt : ∀ i ∈ List.range data.entries.length, i < data.entries.length :=
      fun _ hi => List.mem_range.mp hi
    refine List.ext_getElem? fun i => ?_
    rw [getElem?_pick lt]
    by_cases hi : i < data.entries.length
    · simp [hi]
    · simp [hi]
  have perm := h.order.filterMap (data.entries[·]?)
  exact perm.trans (.of_eq whole)

-- The entry at a position of the new order comes from the position given there.
theorem idxOf?_pick (h : g.Reorderable b data order) (source : BlockId) :
    (data.entries.idxOf? source = none ∧ (pick order data.entries).idxOf? source = none) ∨
      ∃ i j, data.entries.idxOf? source = some i ∧
        (pick order data.entries).idxOf? source = some j ∧ order[j]? = some i := by
  by_cases hmem : source ∈ data.entries
  · obtain ⟨i, hi⟩ := Option.isSome_iff_exists.mp (List.isSome_idxOf?.mpr hmem)
    obtain ⟨j, hj⟩ := Option.isSome_iff_exists.mp
      (List.isSome_idxOf?.mpr (h.perm_pick.mem_iff.mpr hmem))
    refine .inr ⟨i, j, hi, hj, ?_⟩
    obtain ⟨hlt, hsource, -⟩ := List.idxOf?_eq_some_iff.mp hi
    obtain ⟨hlt', hsource', -⟩ := List.idxOf?_eq_some_iff.mp hj
    have picked := getElem?_pick h.lt_of_mem j
    rw [List.getElem?_eq_getElem hlt', hsource'] at picked
    obtain ⟨k, hk, hat⟩ := Option.bind_eq_some_iff.mp picked.symm
    have same : data.entries[i]? = data.entries[k]? := by
      rw [hat, List.getElem?_eq_getElem hlt, hsource]
    rw [hk, (List.getElem?_inj hlt h.entries).mp same]
  · have hmem' := mt h.perm_pick.mem_iff.mp hmem
    exact .inl ⟨List.idxOf?_eq_none_iff.mpr hmem, List.idxOf?_eq_none_iff.mpr hmem'⟩

theorem phiArgument_self (h : g.Reorderable b data order) {i j : Nat} (hj : order[j]? = some i)
    {phi : ValueId} (hphi : phi ∈ data.phis) :
    phiArgument (g.reorder b order) b (pick order data.entries).length j phi =
      phiArgument g b data.entries.length i phi := by
  obtain ⟨owner, arguments, ho, hlength⟩ := h.arguments phi hphi
  have lt : ∀ k ∈ order, k < arguments.length := hlength ▸ h.lt_of_mem
  have picked : (pick order arguments)[j]? = arguments[i]? := by
    rw [getElem?_pick lt, hj, Option.bind_some]
  unfold phiArgument
  rw [h.origin?_of_mem hphi ho, ho]
  simp only [picked, length_pick lt, length_pick h.lt_of_mem, h.length_order, hlength]

theorem phiArgument_of_ne (h : g.Reorderable b data order) {c : BlockId} {other : BasicBlock}
    (hc : c ≠ b) (ho : g.block? c = some other) (entries offset : Nat) {phi : ValueId}
    (hphi : phi ∈ other.phis) :
    phiArgument (g.reorder b order) c entries offset phi = phiArgument g c entries offset phi := by
  have fresh : phi ∉ data.phis := fun hm => h.elsewhere c other hc ho phi hm hphi
  unfold phiArgument
  rw [h.origin?_of_notMem fresh]

theorem mapM_congr {α β ε : Type} {f f' : α → Except ε β} {xs : List α}
    (same : ∀ x ∈ xs, f' x = f x) : xs.mapM f' = xs.mapM f := by
  induction xs with
  | nil => rfl
  | cons x xs ih =>
      obtain ⟨hx, hr⟩ := List.forall_mem_cons.mp same
      rw [List.mapM_cons, List.mapM_cons, hx, ih hr]

-- Along every edge, the phis take the arguments they took before.
theorem phiArguments (h : g.Reorderable b data order) {source target : BlockId}
    {found found' : BasicBlock} (hf : g.block? target = some found)
    (hf' : (g.reorder b order).block? target = some found') :
    Replay.phiArguments (g.reorder b order) source target found' =
      Replay.phiArguments g source target found := by
  by_cases ht : target = b
  · subst ht
    obtain rfl := Option.some.inj (hf.symm.trans h.block)
    obtain rfl := Option.some.inj (hf'.symm.trans h.block?_self)
    unfold Replay.phiArguments BasicBlock.entryOffset?
    rcases h.idxOf?_pick source with ⟨hi, hj⟩ | ⟨i, j, hi, hj, hij⟩
    · simp only [hi, hj]
    · simp only [hi, hj]
      rw [mapM_congr fun phi hphi => h.phiArgument_self hij hphi]
  · rw [block?_of_ne ht] at hf'
    obtain rfl := Option.some.inj (hf.symm.trans hf')
    unfold Replay.phiArguments
    cases found.entryOffset? source with
    | none => rfl
    | some offset =>
        dsimp only
        rw [mapM_congr fun phi hphi => h.phiArgument_of_ne ht hf _ offset hphi]

end Graph.Cfg.Reorderable

variable {ρ : Renumbering} {g' : Graph.Cfg}

theorem mirrors_reorder (h : GraphMirrors ρ g g') (reorderable : g'.Reorderable b data order) :
    GraphMirrors ρ g (g'.reorder b order) where
  entry := h.entry
  function := h.function
  arguments := h.arguments
  returns := h.returns
  literals := h.literals
  blocks c := by
    by_cases he : ρ.block c = b
    · cases hc : g.block? c with
      | none => exact absurd ((h.block_of_none hc).symm.trans (he ▸ reorderable.block)) (by simp)
      | some found =>
          obtain ⟨_, hd, hm⟩ := h.block_of_some hc
          obtain rfl := Option.some.inj (hd.symm.trans (he ▸ reorderable.block))
          rw [he, reorderable.block?_self]
          exact .some ⟨hm.phis, hm.operations, hm.exit, fun s =>
            reorderable.perm_pick.mem_iff.trans (hm.entries s)⟩
    · rw [Graph.Cfg.Reorderable.block?_of_ne he]
      exact h.blocks c
  phis source target found found' hf hf' := by
    obtain ⟨middle, hm, -⟩ := h.block_of_some hf
    rw [reorderable.phiArguments hm hf', h.phis source target found middle hf hm]

-- Wherever the numbers are permuted and entries reordered, a replay finds the same.
theorem mirrors_of_rearranged (h : g.Rearranged ρ g') : GraphMirrors ρ g g' := by
  induction h with
  | renumbered permutes => exact mirrors_renumber permutes
  | reordered earlier reorderable ih => exact mirrors_reorder ih reorderable

end Reorder

end SsaReplay
