import Mathlib.Data.List.Chain
import SsaReplay.Proofs.Acceptance

namespace SsaReplay

open SsaReplay.Graph (BasicBlock Branch Cfg Exit)
open SsaReplay.Yul (Expr)

namespace Graph

-- The values that an exit reads.
def Exit.operands : Exit → List ValueId
  | .branch b => [b.condition]
  | .functionReturn values => values
  | .mainExit | .jump _ | .terminated => []

namespace Cfg

-- Values that are there before any block is run: constants and arguments.
def IsGiven (g : Cfg) (v : ValueId) : Prop :=
  (∃ w, g.literal? w = some v) ∨ ∃ x, (x, v) ∈ g.arguments

-- Among the outputs of the first operations of a block, as many as the number.
def Outputs (g : Cfg) (b : BlockId) (k : Nat) (v : ValueId) : Prop :=
  ∃ data, g.block? b = some data ∧ ∃ op ∈ data.operations.take k, v ∈ op.outputs

def IsPhi (g : Cfg) (b : BlockId) (v : ValueId) : Prop :=
  ∃ data, g.block? b = some data ∧ v ∈ data.phis

-- Blocks that follow one another from the entry on.
def Path (g : Cfg) (blocks : List BlockId) : Prop :=
  blocks.head? = some g.entry ∧ blocks.IsChain g.Leads

-- Defined where the first operations of a block are done, if the blocks before it were
-- gone through.
def DefinedAt (g : Cfg) (earlier : List BlockId) (b : BlockId) (k : Nat) (v : ValueId) : Prop :=
  g.IsGiven v ∨ (∃ c ∈ earlier, ∃ j, g.Outputs c j v) ∨ g.Outputs b k v ∨
    ∃ c ∈ earlier ++ [b], g.IsPhi c v

-- At the end of a path, all that the operations of the block and its exit read is defined.
structure StrictAt (g : Cfg) (earlier : List BlockId) (b : BlockId) : Prop where
  operations : ∀ data i op, g.block? b = some data → data.operations[i]? = some op →
    ∀ v ∈ op.inputs, g.DefinedAt earlier b i v
  exit : ∀ data, g.block? b = some data →
    ∀ v ∈ data.exit.operands, g.DefinedAt earlier b data.operations.length v

def Strict (g : Cfg) : Prop := ∀ earlier b, g.Path (earlier ++ [b]) → g.StrictAt earlier b

-- What is known at a position of a block if that much was known at its start.
def Known (g : Cfg) (D : ValueId → Prop) (b : BlockId) (k : Nat) (v : ValueId) : Prop :=
  D v ∨ g.Outputs b k v

-- From the position on, the block reads only what is known, and it leads on to blocks
-- of which the same can be said with what is known at its end.
structure FlowsInto (g : Cfg) (next : BlockId → (ValueId → Prop) → Prop) (b : BlockId) (k : Nat)
    (D : ValueId → Prop) : Prop where
  operations : ∀ data i op, g.block? b = some data → data.operations[i]? = some op → k ≤ i →
    ∀ v ∈ op.inputs, g.Known D b i v
  exit : ∀ data, g.block? b = some data →
    ∀ v ∈ data.exit.operands, g.Known D b data.operations.length v
  targets : ∀ data target, g.block? b = some data → target ∈ data.exit.targets →
    next target fun v => g.Known D b data.operations.length v ∨ g.IsPhi target v

-- The block is entered with that much known, and so are the blocks reached from it along
-- fewer edges than the number.
def Safe (g : Cfg) : Nat → BlockId → (ValueId → Prop) → Prop
  | 0, _, _ => True
  | n + 1, b, D => g.FlowsInto (g.Safe n) b 0 D

def Flows (g : Cfg) (n : Nat) (b : BlockId) (k : Nat) (D : ValueId → Prop) : Prop :=
  g.FlowsInto (g.Safe n) b k D

variable {g : Cfg} {b : BlockId} {D D' : ValueId → Prop} {n m k : Nat}

theorem Outputs.le {v : ValueId} (h : g.Outputs b k v) (hk : k ≤ m) : g.Outputs b m v := by
  obtain ⟨data, hd, op, ho, hv⟩ := h
  exact ⟨data, hd, op, List.take_subset_take_left _ hk ho, hv⟩

theorem Known.mono {v : ValueId} (h : g.Known D b k v) (hD : ∀ v, D v → D' v) (hk : k ≤ m) :
    g.Known D' b m v :=
  h.imp (hD v) (·.le hk)

-- Past the last operation, the position makes no difference.
theorem Known.ofLength {data : BasicBlock} {v : ValueId} (h : g.Known D b k v)
    (hd : g.block? b = some data) : g.Known D b data.operations.length v := by
  refine h.imp_right fun ⟨found, hf, op, ho, hv⟩ => ?_
  obtain rfl := Option.some.inj (hd.symm.trans hf)
  exact ⟨data, hd, op, List.take_length ▸ List.mem_of_mem_take ho, hv⟩

theorem FlowsInto.mono {next next' : BlockId → (ValueId → Prop) → Prop}
    (h : g.FlowsInto next b k D) (hD : ∀ v, D v → D' v)
    (hn : ∀ target (E E' : ValueId → Prop), (∀ v, E v → E' v) → next target E → next' target E') :
    g.FlowsInto next' b k D' where
  operations data i op hd ho hi v hv :=
    (h.operations data i op hd ho hi v hv).mono hD (Nat.le_refl _)
  exit data hd v hv := (h.exit data hd v hv).mono hD (Nat.le_refl _)
  targets data target hd ht :=
    hn target _ _ (fun _ hv => hv.imp_left (·.mono hD (Nat.le_refl _)))
      (h.targets data target hd ht)

theorem Safe.mono (h : g.Safe n b D) (hD : ∀ v, D v → D' v) : g.Safe n b D' := by
  induction n generalizing b D D' with
  | zero => trivial
  | succ n ih => exact FlowsInto.mono h hD fun _ _ _ hE hs => ih hs hE

theorem Safe.pred (h : g.Safe (n + 1) b D) : g.Safe n b D := by
  induction n generalizing b D with
  | zero => trivial
  | succ n ih => exact FlowsInto.mono h (fun _ h => h) fun _ _ _ hE hs => ih (hs.mono hE)

theorem Safe.le (h : g.Safe n b D) (hm : m ≤ n) : g.Safe m b D := by
  induction hm with
  | refl => exact h
  | step _ ih => exact ih h.pred

theorem Safe.of_flows (h : g.Flows n b 0 D) : g.Safe n b D :=
  Safe.pred (n := n) h

-- Where entering the block itself is all that is missing, edges back to it can be counted
-- down.
theorem Safe.of_step {S : (ValueId → Prop) → Prop}
    (step : ∀ m ≤ n, (∀ D, S D → g.Safe m b D) → ∀ D, S D → g.Flows m b 0 D) :
    ∀ D, S D → g.Safe n b D := by
  have all : ∀ m ≤ n, ∀ D, S D → g.Safe m b D := by
    intro m
    induction m with
    | zero => exact fun _ _ _ => trivial
    | succ m ih =>
        intro hm
        have hm' := Nat.le_of_succ_le hm
        exact step m hm' (ih hm')
  exact all n (Nat.le_refl n)

-- What is known on entering a block at the end of a path is defined on that path.
theorem safe_of_path (h : ∀ n, g.Safe n g.entry fun v => g.IsGiven v ∨ g.IsPhi g.entry v)
    {earlier : List BlockId} (hp : g.Path (earlier ++ [b])) :
    ∀ n, g.Safe n b (g.DefinedAt earlier b 0) := by
  induction earlier using List.reverseRecOn generalizing b with
  | nil =>
      obtain rfl : b = g.entry := Option.some.inj hp.1
      exact fun n => (h n).mono fun v hv => hv.imp_right fun hv =>
        .inr (.inr ⟨g.entry, List.mem_singleton_self _, hv⟩)
  | append_singleton earlier a ih =>
      obtain ⟨hhead, hchain⟩ := hp
      rw [List.append_assoc, List.singleton_append] at hhead hchain
      obtain ⟨hfirst, hlast⟩ : (earlier ++ [a]).IsChain g.Leads ∧ g.Leads a b := by
        have := List.isChain_split.mp hchain
        exact ⟨this.1, by simpa using this.2⟩
      obtain ⟨data, hd, hb⟩ := hlast
      have ha : g.Path (earlier ++ [a]) := by
        refine ⟨?_, hfirst⟩
        cases earlier <;> simpa using hhead
      intro n
      refine ((ih ha (n + 1)).targets data b hd hb).mono fun v hv => ?_
      rcases hv with (hv | hv) | hv
      · rcases hv with hv | ⟨c, hc, j, hj⟩ | ⟨_, _, op, ho, _⟩ | ⟨c, hc, hv⟩
        · exact .inl hv
        · exact .inr (.inl ⟨c, List.mem_append_left _ hc, j, hj⟩)
        · simp at ho
        · exact .inr (.inr (.inr ⟨c, List.mem_append_left _ hc, hv⟩))
      · exact .inr (.inl ⟨a, List.mem_append_right _ (List.mem_singleton_self a), _, hv⟩)
      · exact .inr (.inr (.inr ⟨b, List.mem_append_right _ (List.mem_singleton_self b), hv⟩))

theorem strictAt_of_safe (h : ∀ n, g.Safe n g.entry fun v => g.IsGiven v ∨ g.IsPhi g.entry v)
    {earlier : List BlockId} (hp : g.Path (earlier ++ [b])) : g.StrictAt earlier b := by
  have known : ∀ {k v}, g.Known (g.DefinedAt earlier b 0) b k v → g.DefinedAt earlier b k v := by
    rintro k v ((hv | hv | hv | hv) | hv)
    · exact .inl hv
    · exact .inr (.inl hv)
    · exact .inr (.inr (.inl (hv.le (Nat.zero_le k))))
    · exact .inr (.inr (.inr hv))
    · exact .inr (.inr (.inl hv))
  have hs := safe_of_path h hp 1
  exact ⟨fun data i op hd ho v hv => known (hs.operations data i op hd ho (Nat.zero_le i) v hv),
    fun data hd v hv => known (hs.exit data hd v hv)⟩

end Cfg

end Graph

-- The value is a candidate of some variable.
def Bindings.Holds (b : Bindings) (v : ValueId) : Prop :=
  ∃ x held, b.lookup x = some held ∧ v ∈ held

-- All candidates are among the known values.
def Bindings.Within (b : Bindings) (D : ValueId → Prop) : Prop :=
  ∀ x held v, b.lookup x = some held → v ∈ held → D v

namespace Bindings

variable {b c : Bindings} {D E : ValueId → Prop}

theorem Within.mono (h : b.Within D) (hD : ∀ v, D v → E v) : b.Within E :=
  fun x held v hb hv => hD v (h x held v hb hv)

theorem Refines.within (h : b.Refines c) (hc : c.Within D) : b.Within D := by
  intro x held v hb hv
  obtain ⟨wider, hw, hm⟩ := h x held hb
  exact hc x wider v hw (hm v hv)

theorem within_empty : Bindings.empty.Within D := fun _ _ _ hb => absurd hb (by simp)

theorem Within.assign (h : b.Within D) {x : VariableId} {values : ValueSet}
    (hv : ∀ v ∈ values, D v) : (b.assign x values).Within D := by
  intro y held v hb hm
  rw [lookup_assign] at hb
  split at hb
  · obtain rfl := Option.some.inj hb
    exact hv v hm
  · exact h y held v hb hm

theorem Within.narrow (h : b.Within D) {x : VariableId} {held : ValueSet} {v : ValueId}
    (bound : b.lookup x = some held) (member : v ∈ held) : (b.narrow x v).Within D :=
  (refines_narrow bound member).within h

end Bindings

namespace Replay

variable {ctx : Context} {s t u : State} {n m : Nat} {D F : ValueId → Prop}

theorem Carries.within {source target : BlockId} {before after : Bindings}
    (h : Carries ctx.graph source target before after) (hb : before.Within D) :
    after.Within fun v => D v ∨ ctx.graph.IsPhi target v := by
  obtain ⟨data, pairs, hd, hp, rfl⟩ := h
  intro x held v hx hv
  rw [Bindings.lookup_acrossEdge, Option.map_eq_some_iff] at hx
  obtain ⟨values, hvalues, rfl⟩ := hx
  rcases Bindings.mem_carried.mp hv with ⟨hv, -⟩ | ⟨w, hw, hv⟩
  · exact .inl (hb x values v hvalues hv)
  · refine .inr ⟨data, hd, ?_⟩
    rw [← (phiArguments_eq_ok hp).1]
    exact List.mem_map_of_mem (f := Prod.snd) (mem_phisFedBy.mp hv)

-- What is known where the replay is, if `D` was known at the start of the block.
abbrev State.Known (s : State) (ctx : Context) (D : ValueId → Prop) (v : ValueId) : Prop :=
  ctx.graph.Known D s.block s.op v

abbrev State.Flows (s : State) (ctx : Context) (n : Nat) (D : ValueId → Prop) : Prop :=
  ctx.graph.Flows n s.block s.op D

-- Everything given, everything on the floor and all candidates are known.
structure Knows (ctx : Context) (F D : ValueId → Prop) (s : State) : Prop where
  given : ∀ v, ctx.graph.IsGiven v → F v
  floor : ∀ v, F v → D v
  bindings : s.bindings.Within (s.Known ctx D)

theorem Knows.known (h : Knows ctx F D s) : ∀ v, ctx.graph.IsGiven v → D v :=
  fun v hv => h.floor v (h.given v hv)

theorem AtExit.flows {exit : Exit} (h : AtExit ctx s exit)
    (ho : ∀ v ∈ exit.operands, s.Known ctx D v)
    (ht : ∀ target ∈ exit.targets,
      ctx.graph.Safe n target fun v => s.Known ctx D v ∨ ctx.graph.IsPhi target v) :
    s.Flows ctx n D := by
  obtain ⟨data, hd, hl, rfl⟩ := h
  refine ⟨fun found i op hf hi hle => ?_, fun found hf v hv => ?_, fun found target hf hm => ?_⟩
  · obtain rfl := Option.some.inj (hd.symm.trans hf)
    exact absurd (List.getElem?_eq_some_iff.mp hi).1 (Nat.not_lt.mpr (hl.trans hle))
  · obtain rfl := Option.some.inj (hd.symm.trans hf)
    exact (ho v hv).ofLength hd
  · obtain rfl := Option.some.inj (hd.symm.trans hf)
    exact (ht target hm).mono fun v hv => hv.imp_left (·.ofLength hd)

theorem AtExit.flows_jump {target : BlockId} (h : AtExit ctx s (.jump target))
    (ht : ctx.graph.Safe n target fun v => s.Known ctx D v ∨ ctx.graph.IsPhi target v) :
    s.Flows ctx n D := by
  refine h.flows (by simp [Exit.operands]) fun other hm => ?_
  obtain rfl := List.mem_singleton.mp hm
  exact ht

section Expr

theorem Reconciled.knows {e : Expr} {candidates : ValueSet} {v : ValueId}
    (h : Reconciled ctx s e candidates v t) (hs : s.bindings.Within (s.Known ctx D))
    (hc : ∀ v ∈ candidates, s.Known ctx D v) :
    t.bindings.Within (s.Known ctx D) ∧ s.Known ctx D v := by
  cases h with
  | named resolved bound member => exact ⟨hs.narrow bound member, hs _ _ _ bound member⟩
  | result noName only => exact ⟨hs, hc v ((ValueSet.mem_of_only? only).mpr rfl)⟩

theorem OperandsReconciled.knows {operands : List (Expr × ValueSet)} {inputs : List ValueId}
    (h : OperandsReconciled ctx s operands inputs t) (hs : s.bindings.Within (s.Known ctx D))
    (hc : ∀ p ∈ operands, ∀ v ∈ p.2, s.Known ctx D v) :
    t.bindings.Within (s.Known ctx D) ∧ ∀ v ∈ inputs, s.Known ctx D v := by
  induction h with
  | nil => exact ⟨hs, by simp⟩
  | @cons s t u e candidates v operands inputs first rest ih =>
      obtain ⟨hfirst, hrest⟩ := List.forall_mem_cons.mp hc
      have hp := first.position
      have hk : t.Known ctx D = s.Known ctx D := by
        unfold State.Known
        rw [hp.1, hp.2]
      obtain ⟨ht, hv⟩ := first.knows hs hfirst
      rw [hk] at ih
      obtain ⟨hu, hin⟩ := ih ht hrest
      exact ⟨hu, List.forall_mem_cons.mpr ⟨hv, hin⟩⟩

-- A call reads what is known, and its results are known after it.
theorem CallMatched.flows {name : String} {operands : List (Expr × ValueSet)}
    {results? : Option (List ValueSet)} (h : CallMatched ctx name operands s results? t)
    (hs : s.bindings.Within (s.Known ctx D))
    (hc : ∀ p ∈ operands, ∀ v ∈ p.2, s.Known ctx D v) :
    t.bindings.Within (t.Known ctx D) ∧
      (∀ results ∈ results?, ∀ set ∈ results, ∀ v ∈ set, t.Known ctx D v) ∧
        ((results? ≠ none → t.Flows ctx n D) → s.Flows ctx n D) := by
  -- The operation at the position reads what is known, whatever comes after it.
  have step : ∀ {data : BasicBlock} {op : Graph.Operation} {u : State},
      ctx.graph.block? s.block = some data → data.operations[s.op]? = some op →
        (∀ v ∈ op.inputs, s.Known ctx D v) → u.block = s.block → u.op = s.op + 1 →
          u.Flows ctx n D → s.Flows ctx n D := by
    intro data op u hd ho hin hb hop hu
    unfold State.Flows at hu
    rw [hb, hop] at hu
    refine ⟨fun found i op' hf hi hle => ?_, hu.exit, hu.targets⟩
    rcases Nat.eq_or_lt_of_le hle with rfl | hlt
    · obtain rfl := Option.some.inj (hd.symm.trans hf)
      obtain rfl := Option.some.inj (ho.symm.trans hi)
      exact hin
    · exact hu.operations found i op' hf hi hlt
  cases h with
  | @returning data op u block atOp inputs callee =>
      obtain ⟨hb, hop⟩ := inputs.position
      obtain ⟨hu, hin⟩ := inputs.knows hs hc
      have hmono : ∀ v, s.Known ctx D v → (u.consume ctx.site op).Known ctx D v := by
        intro v hv
        unfold State.Known
        rw [State.consume_block, State.consume_op, hb, hop]
        exact hv.mono (fun _ h => h) (Nat.le_succ _)
      refine ⟨hu.mono hmono, fun results hr set hset v hv => ?_, fun hf =>
        step (u := u.consume ctx.site op) block atOp hin hb (by rw [State.consume_op, hop])
          (hf (by simp))⟩
      obtain rfl := Option.some.inj hr
      obtain ⟨w, hw, rfl⟩ := List.mem_map.mp hset
      obtain rfl := (ValueSet.mem_single v w).mp hv
      refine .inr ⟨data, hb ▸ block, op, ?_, hw⟩
      rw [State.consume_op, hop]
      obtain ⟨hlt, hop'⟩ := List.getElem?_eq_some_iff.mp atOp
      exact List.mem_take_iff_getElem.mpr ⟨s.op, by omega, hop'⟩
  | @final data op u block atOp inputs callee ends =>
      obtain ⟨hb, hop⟩ := inputs.position
      obtain ⟨hu, hin⟩ := inputs.knows hs hc
      refine ⟨hu.mono fun v hv => ?_, by simp, fun _ => ?_⟩
      · unfold State.Known
        rw [State.log_block, State.log_op, State.consume_block, State.consume_op, hb, hop]
        exact hv.mono (fun _ h => h) (Nat.le_succ _)
      · refine step block atOp hin (u := u.consume ctx.site op) hb
          (by rw [State.consume_op, hop]) ?_
        exact ends.flows (by simp [Exit.operands]) (by simp [Exit.targets])

mutual
theorem replayExpr_flows (hg : ∀ v, ctx.graph.IsGiven v → D v) (e : Expr) {s t : State}
    {values? : Option (List ValueSet)} (h : replayExpr ctx e s = .ok values? t)
    (hs : s.bindings.Within (s.Known ctx D)) :
    t.bindings.Within (t.Known ctx D) ∧
      (∀ values ∈ values?, ∀ set ∈ values, ∀ v ∈ set, t.Known ctx D v) ∧
        ((values? ≠ none → t.Flows ctx n D) → s.Flows ctx n D) := by
  cases e with
  | ident name =>
      obtain ⟨⟨x, held, hx, hb, rfl⟩, rfl⟩ := replayExpr_ident_eq_ok.mp h
      have hk : ∀ v ∈ held, s.Known ctx D v := fun v hv => hs x held v hb hv
      exact ⟨hs, by simpa using hk, fun hf => hf (by simp)⟩
  | literal l =>
      obtain ⟨⟨w, hw, rfl⟩, rfl⟩ := replayExpr_literal_eq_ok.mp h
      have hk : s.Known ctx D w := .inl (hg w (.inl ⟨l.value, hw⟩))
      exact ⟨hs, by simpa using hk, fun hf => hf (by simp)⟩
  | call name arguments =>
      rcases replayExpr_call_of_ok h with ⟨rfl, ha⟩ | ⟨operands, u, ha, hm⟩
      · obtain ⟨ht, -, hf⟩ := replayArguments_flows hg arguments ha hs
        exact ⟨ht, by simp, fun _ => hf (absurd rfl)⟩
      · obtain ⟨hu, ho, hf⟩ := replayArguments_flows hg arguments ha hs
        obtain ⟨ht, hr, hf'⟩ := hm.flows hu (ho operands rfl)
        exact ⟨ht, hr, fun hn => hf fun _ => hf' hn⟩
theorem replayArguments_flows (hg : ∀ v, ctx.graph.IsGiven v → D v) (arguments : List Expr)
    {skipped : Nat → Bool} {i : Nat} {s t : State} {operands? : Option (List (Expr × ValueSet))}
    (h : replayArguments ctx skipped i arguments s = .ok operands? t)
    (hs : s.bindings.Within (s.Known ctx D)) :
    t.bindings.Within (t.Known ctx D) ∧
      (∀ operands ∈ operands?, ∀ p ∈ operands, ∀ v ∈ p.2, t.Known ctx D v) ∧
        ((operands? ≠ none → t.Flows ctx n D) → s.Flows ctx n D) := by
  cases arguments with
  | nil =>
      obtain ⟨rfl, rfl⟩ := replayArguments_nil_eq_ok.mp h
      exact ⟨hs, by simp, fun hf => hf (by simp)⟩
  | cons e rest =>
      rcases replayArguments_cons_of_ok h with ⟨rfl, ha⟩ | ⟨operands, u, ha, hm⟩
      · obtain ⟨ht, -, hf⟩ := replayArguments_flows hg rest ha hs
        exact ⟨ht, by simp, fun _ => hf (absurd rfl)⟩
      · obtain ⟨hu, ho, hf⟩ := replayArguments_flows hg rest ha hs
        rcases hm with ⟨-, rfl, rfl⟩ | ⟨-, he, rfl⟩ | ⟨-, values, he, rfl⟩
        · exact ⟨hu, ho, hf⟩
        · obtain ⟨ht, -, hf'⟩ := replayExpr_flows hg e he hu
          exact ⟨ht, by simp, fun _ => hf fun _ => hf' (absurd rfl)⟩
        · obtain ⟨ht, hv, hf'⟩ := replayExpr_flows hg e he hu
          refine ⟨ht, ?_, fun hn => hf fun _ => hf' fun _ => hn (by simp)⟩
          intro found hfound
          obtain rfl := Option.some.inj hfound
          refine List.forall_mem_cons.mpr ⟨hv _ rfl values (List.mem_singleton_self _), ?_⟩
          have hstays : Stays False ctx u t := replayExpr_stays he
          intro p hp v hm
          unfold State.Known
          rw [hstays.block]
          exact (ho operands rfl p hp v hm).mono (fun _ h => h) hstays.op
end

theorem replayOne_flows (hg : ∀ v, ctx.graph.IsGiven v → D v) {e : Expr}
    {value? : Option ValueSet} (h : replayOne ctx e s = .ok value? t)
    (hs : s.bindings.Within (s.Known ctx D)) :
    t.bindings.Within (t.Known ctx D) ∧ (∀ value ∈ value?, ∀ v ∈ value, t.Known ctx D v) ∧
      ((value? ≠ none → t.Flows ctx n D) → s.Flows ctx n D) := by
  obtain ⟨values?, he, hv⟩ := replayOne_eq_ok.mp h
  obtain ⟨ht, hk, hf⟩ := replayExpr_flows (n := n) hg e he hs
  rcases hv with ⟨rfl, rfl⟩ | ⟨value, rfl, rfl⟩
  · exact ⟨ht, by simp, fun _ => hf (absurd rfl)⟩
  · refine ⟨ht, ?_, fun hn => hf fun _ => hn (by simp)⟩
    intro found hfound
    obtain rfl := Option.some.inj hfound
    exact hk _ rfl _ (List.mem_singleton_self _)

end Expr

-- An edge noted on the innermost loop may be followed with what its bindings hold.
def EdgesSafe (ctx : Context) (n : Nat) (F : ValueId → Prop) (way : LoopWay)
    (loops : List LoopFrame) : Prop :=
  ∀ frame outer source target, loops = frame :: outer →
    (frame.edges way).first? = some (source, target) → ∀ b ∈ (frame.edges way).bindings,
      ∀ D, (∀ v, F v → D v) → b.Within D → ctx.graph.Safe n target D

theorem EdgesSafe.mono {way : LoopWay} {loops : List LoopFrame} {E : ValueId → Prop}
    (h : EdgesSafe ctx n F way loops) (hE : ∀ v, F v → E v) (hm : m ≤ n) :
    EdgesSafe ctx m E way loops :=
  fun frame outer source target hl hf b hb D hD hw =>
    (h frame outer source target hl hf b hb D (fun v hv => hD v (hE v hv)) hw).le hm

-- Edges noted earlier are still noted later.
theorem EdgesSafe.extends {way : LoopWay} {old new : LoopFrame} {outer : List LoopFrame}
    (h : EdgesSafe ctx n F way (new :: outer)) (he : (old.edges way).Extends (new.edges way)) :
    EdgesSafe ctx n F way (old :: outer) := by
  intro frame outer' source target hl hf b hb D hD hw
  obtain ⟨rfl, rfl⟩ := List.cons.inj hl
  obtain ⟨more, hmore⟩ := he.bindings
  exact h new outer source target rfl (he.first _ hf) b
    (hmore ▸ List.mem_append_left _ hb) D hD hw

-- What follows a replay is safe, with all that is known then.
structure Followed (ctx : Context) (n : Nat) (F : ValueId → Prop) (r : Bool) (t : State) :
    Prop where
  onward : r = true → ∀ D, Knows ctx F D t → t.Flows ctx n D
  edges : ∀ way, EdgesSafe ctx n F way t.loops

theorem Followed.before {q r : Bool} (h : Followed ctx n F r t) (hf : Framed False ctx s t)
    (ho : q = true → ∀ D, Knows ctx F D s → s.Flows ctx n D) : Followed ctx n F q s := by
  refine ⟨ho, fun way => ?_⟩
  have he := h.edges way
  cases hl : s.loops with
  | nil => exact fun _ _ _ _ hl => absurd hl (by simp)
  | cons frame outer =>
      obtain ⟨g, hg, hx⟩ := (hl ▸ hf.loops).of_cons
      exact EdgesSafe.extends (hg ▸ he) (hx.edges way)

-- Where a block is entered with known bindings, it may be entered.
theorem Followed.safe {b : Bindings} {source target : BlockId}
    (h : Followed ctx n F true (s.follow ctx.site source target b))
    (hg : ∀ v, ctx.graph.IsGiven v → F v) (hD : ∀ v, F v → D v) (hb : b.Within D) :
    ctx.graph.Safe n target D :=
  .of_flows (h.onward rfl D ⟨hg, hD, hb.mono fun _ => .inl⟩)

-- Replays that shadow the paths through the graph: if what follows is safe, it is safe
-- from the start.
structure Shadows (ctx : Context) (body : Walk Bool) : Prop where
  framed : Frames False ctx body
  flows : ∀ {s r t}, body s = .ok r t → ∀ {n F D}, Knows ctx F D s →
    Followed ctx n F r t → s.Flows ctx n D

theorem Shadows.followed {body : Walk Bool} (h : Shadows ctx body) {r : Bool}
    (hb : body s = .ok r t) (hf : Followed ctx n F r t) : Followed ctx n F true s :=
  hf.before (h.framed hb) fun _ _ hk => h.flows hb hk hf

-- The two ways behind a branch are entered with what is known at it.
theorem Tested.flows {e : Expr} {branch : Branch} {zero : Bindings}
    (h : Tested ctx e s branch zero t) (hk : Knows ctx F D s) :
    ∃ E : ValueId → Prop, (∀ v, F v → E v) ∧ t.bindings.Within E ∧
      zero.Within (fun v => E v ∨ ctx.graph.IsPhi branch.zero v) ∧
        (ctx.graph.Safe n branch.nonZero (fun v => E v ∨ ctx.graph.IsPhi branch.nonZero v) →
          ctx.graph.Safe n branch.zero (fun v => E v ∨ ctx.graph.IsPhi branch.zero v) →
            s.Flows ctx n D) := by
  cases h with
  | @mk candidates _ _ u v value exit fits carries =>
      obtain ⟨hu, hc, hf⟩ :=
        replayOne_flows (n := n) hk.known value hk.bindings
      obtain ⟨hv, hcond⟩ := fits.knows (D := D) hu (hc _ rfl)
      refine ⟨u.Known ctx D, fun w hw => .inl (hk.floor w hw), hv, carries.within hv, ?_⟩
      intro hn hz
      refine hf fun _ => exit.flows ?_ ?_
      · rintro w hw
        obtain rfl := List.mem_singleton.mp hw
        exact hcond
      · simp only [Exit.targets, List.mem_cons, List.not_mem_nil, or_false]
        rintro target (rfl | rfl)
        · exact hn
        · exact hz

theorem IfReplayed.flows {condition : Expr} {body : Walk Bool} {r : Bool}
    (hb : Shadows ctx body) (h : IfReplayed ctx condition body s r t) (hk : Knows ctx F D s)
    (hc : Followed ctx n F r t) : s.Flows ctx n D := by
  have hg := hk.given
  cases h with
  | stuck value =>
      exact (replayOne_flows hk.known value hk.bindings).2.2 (absurd rfl)
  | @joined branch skipping running merged v w tested into run exit back meets owned edge =>
      obtain ⟨E, hE, hv, hz, hf⟩ := tested.flows (n := n) hk
      have zero : ∀ D, (∀ v, F v → D v) → merged.Within D →
          ctx.graph.Safe n branch.zero D := fun D hD hm => hc.safe hg hD hm
      have hw : Followed ctx n F true w := by
        refine hc.before (q := true) (Framed.refl w).joined fun _ D hkw => ?_
        have hm := (Bindings.refines_of_meet meets (by simp)).within (back.within hkw.bindings)
        exact exit.flows_jump (zero _ (fun v hv => .inl (.inl (hkw.floor v hv))) hm)
      have hn := hb.followed run hw
      refine hf (hn.safe hg (fun v hv => .inl (hE v hv)) (hv.mono fun _ => .inl)) ?_
      exact zero _ (fun v hv => .inl (hE v hv))
        ((Bindings.refines_of_meet meets List.mem_cons_self).within hz)
  | @skipped branch skipping v w tested into run edge =>
      obtain ⟨E, hE, hv, hz, hf⟩ := tested.flows (n := n) hk
      have hw : Followed ctx n F false w :=
        hc.before ((Framed.refl w).follow _ _ _) (by simp)
      have hn := hb.followed run hw
      exact hf (hn.safe hg (fun v hv => .inl (hE v hv)) (hv.mono fun _ => .inl))
        (hc.safe hg (fun v hv => .inl (hE v hv)) hz)

-- An edge that was just noted is safe if all those noted in the end are.
theorem EdgeRecorded.safe {way : LoopWay} {source target : BlockId} {b : Bindings}
    (h : EdgeRecorded ctx way source target b s t) (he : EdgesSafe ctx n F way t.loops)
    (hF : ∀ v, F v → D v) (hb : b.Within D) : ctx.graph.Safe n target D := by
  cases h with
  | @mk frame outer opened edge agrees =>
      have first : ((frame.note way source target b).edges way).first? = some (_, target) :=
        LoopFrame.first?_note_of_agrees agrees
      exact he _ outer _ target rfl first b LoopFrame.mem_bindings_note D hF hb

theorem LoopJumped.flows {way : LoopWay} {r : Bool} (h : LoopJumped ctx way s t)
    (hk : Knows ctx F D s) (hc : Followed ctx n F r t) : s.Flows ctx n D := by
  cases h with
  | mk exit carries recorded =>
      have hcarried := carries.within hk.bindings
      exact exit.flows_jump
        (recorded.safe (hc.edges way) (fun v hv => .inl (.inl (hk.floor v hv))) hcarried)

theorem ConditionReplayed.flows {condition? : Option Expr} {r : Bool}
    (h : ConditionReplayed ctx s condition? r t) (hk : Knows ctx F D s)
    (hc : Followed ctx n F r t) : s.Flows ctx n D := by
  have hg := hk.given
  cases h with
  | untested => exact hc.onward rfl D hk
  | stuck value =>
      exact (replayOne_flows hk.known value hk.bindings).2.2 (absurd rfl)
  | @tested _ branch leaving v w tested recorded into =>
      obtain ⟨E, hE, hv, hz, hf⟩ := tested.flows (n := n) hk
      exact hf (hc.safe hg (fun v hv => .inl (hE v hv)) (hv.mono fun _ => .inl))
        (recorded.safe (hc.edges .exits) (fun v hv => .inl (hE v hv)) hz)

theorem PostReplayed.flows {header : BlockId} {post : Walk Bool} (hp : Shadows ctx post)
    (h : PostReplayed ctx header post s t) (hk : Knows ctx F D s)
    (hh : ∀ D, (∀ v, F v → D v) → ctx.graph.Safe n header D)
    (he : ∀ way, EdgesSafe ctx n F way t.loops) : s.Flows ctx n D := by
  cases h with
  | stopped run => exact hp.flows run hk ⟨by simp, he⟩
  | @latched bindings frame outer w run exit edge carries opened =>
      refine hp.flows run hk ⟨fun _ E hkw => ?_, fun way => ?_⟩
      · exact exit.flows_jump (hh _ fun v hv => .inl (.inl (hkw.floor v hv)))
      · rw [opened]
        refine EdgesSafe.extends (he way) ?_
        cases way <;> exact .refl _

-- The post block may be continued to from within itself. What was known when it was
-- entered first stays known.
theorem ContinuesReplayed.safe {header : BlockId} {postEmpty : Bool} {post : Walk Bool}
    (hp : Shadows ctx post) (h : ContinuesReplayed ctx header postEmpty post s t)
    (hg : ∀ v, ctx.graph.IsGiven v → F v)
    (hh : ∀ D, (∀ v, F v → D v) → ctx.graph.Safe n header D)
    (he : EdgesSafe ctx n F .exits t.loops) (way : LoopWay) : EdgesSafe ctx n F way s.loops := by
  cases h with
  | nowhere opened noEdge =>
      cases way with
      | exits => exact he
      | continues =>
          intro frame outer source target hl hf
          obtain ⟨rfl, rfl⟩ := List.cons.inj (opened.symm.trans hl)
          exact absurd (noEdge.symm.trans hf) (by simp)
  | direct opened found empty =>
      cases way with
      | exits =>
          rw [opened]
          exact EdgesSafe.extends he (.refl _)
      | continues =>
          intro frame outer source target hl hf b hb D hD hw
          obtain ⟨rfl, rfl⟩ := List.cons.inj (opened.symm.trans hl)
          obtain ⟨-, rfl⟩ := Prod.mk.inj (Option.some.inj (found.symm.trans hf))
          exact hh D hD
  | @post frame outer start into merged _ opened found elsewhere meets owned edge run =>
      obtain ⟨last, hlast, hkept⟩ := run.edges_kept hp.framed rfl
      cases way with
      | exits =>
          rw [opened]
          exact EdgesSafe.extends (hlast ▸ he) (hkept .exits)
      | continues =>
          intro frame' outer' source target hl hf b hb D hD hw
          obtain ⟨rfl, rfl⟩ := List.cons.inj (opened.symm.trans hl)
          obtain ⟨rfl, rfl⟩ := Prod.mk.inj (Option.some.inj (found.symm.trans hf))
          -- All that was known on entering the post block joins the floor.
          have post : ∀ E, (∀ v, F v → E v) ∧ merged.Within E → ctx.graph.Safe n into E := by
            refine Graph.Cfg.Safe.of_step fun m hm ih E ⟨hFE, hmE⟩ => ?_
            refine run.flows (F := fun v => F v ∨ merged.Holds v) hp
              ⟨fun v hv => .inl (hg v hv), fun v hv => ?_, ?_⟩ (fun E' hE' => ?_) fun way => ?_
            · rcases hv with hv | ⟨x, held, hx, hv⟩
              · exact hFE v hv
              · exact hmE x held v hx hv
            · exact hmE.mono fun v hv => .inl hv
            · exact (hh E' fun v hv => hE' v (.inl hv)).le hm
            · cases way with
              | exits => exact he.mono (fun _ => .inl) hm
              | continues =>
                  intro last' outer' source' target' hl' hf' b' hb' E' hE' hw'
                  obtain ⟨rfl, rfl⟩ := List.cons.inj (hlast.symm.trans hl')
                  obtain ⟨-, rfl⟩ :=
                    Prod.mk.inj (Option.some.inj (((hkept .continues).first _ rfl).symm.trans hf'))
                  exact ih E' ⟨fun v hv => hE' v (.inl hv),
                    fun x held v hx hv => hE' v (.inr ⟨x, held, hx, hv⟩)⟩
          exact post D ⟨hD, (Bindings.refines_of_meet meets hb).within hw⟩

theorem PassReplayed.flows {header : BlockId} {parts : LoopParts} (hb : Shadows ctx parts.body)
    (hp : Shadows ctx parts.post) (h : PassReplayed ctx header parts s t) (hk : Knows ctx F D s)
    (hh : ∀ D, (∀ v, F v → D v) → ctx.graph.Safe n header D)
    (he : EdgesSafe ctx n F .exits t.loops) : s.Flows ctx n D := by
  have hg := hk.given
  cases h with
  | stuck condition =>
      generalize parts.condition? = condition? at condition
      cases condition with
      | stuck value =>
          exact (replayOne_flows hk.known value hk.bindings).2.2 (absurd rfl)
  | @stopped u v _ condition body continues =>
      have hv : Followed ctx n F false v := ⟨by simp, continues.safe hp hg hh he⟩
      exact condition.flows hk (hb.followed body hv)
  | @fallen u v w _ condition body jump continues =>
      have hw : Followed ctx n F false w := ⟨by simp, continues.safe hp hg hh he⟩
      have hv : Followed ctx n F true v := hw.before jump.framed fun _ _ hkv => jump.flows hkv hw
      exact condition.flows hk (hb.followed body hv)

-- What the header holds in the last pass joins the floor. Every back edge respects it.
theorem LastPass.safe {header : BlockId} {parts : LoopParts} {entry : Bindings} {r : Bool}
    (hb : Shadows ctx parts.body) (hp : Shadows ctx parts.post)
    (h : LastPass ctx header parts entry s r t) (hg : ∀ v, ctx.graph.IsGiven v → F v)
    (hc : Followed ctx n F r t) (hF : ∀ v, F v → D v) (hD : entry.Within D) :
    ctx.graph.Safe n header D := by
  cases h with
  | @mk _ _ stable frame before after pass fixed refines left scope loops =>
      have hexits : ∀ source target, frame.exits.first? = some (source, target) →
          ∀ b ∈ frame.exits.bindings, ∀ D, (∀ v, F v → D v) → b.Within D →
            ctx.graph.Safe n target D := by
        intro source target hf b hm D hD hw
        cases left with
        | never noEdge => exact absurd (noEdge.symm.trans hf) (by simp)
        | left found meets owned edge =>
            obtain ⟨rfl, rfl⟩ := Prod.mk.inj (Option.some.inj (found.symm.trans hf))
            exact hc.safe hg hD ((Bindings.refines_of_meet meets hm).within hw)
      have header : ∀ E, (∀ v, F v ∨ stable.Holds v → E v) → ctx.graph.Safe n header E := by
        refine Graph.Cfg.Safe.of_step fun m hm ih E hE => ?_
        cases pass with
        | mk run opened =>
            refine run.flows (F := fun v => F v ∨ stable.Holds v) hb hp
              ⟨fun v hv => .inl (hg v hv), hE, fun x held v hx hv => ?_⟩ ih ?_
            · exact .inl (hE v (.inr ⟨x, held, hx, hv⟩))
            · intro f o source target hl hf b hmem E' hE' hw
              obtain ⟨rfl, rfl⟩ := List.cons.inj (opened.symm.trans hl)
              exact (hexits source target hf b hmem E' (fun v hv => hE' v (.inl hv)) hw).le hm
      refine header D fun v hv => ?_
      rcases hv with hv | ⟨x, held, hx, hv⟩
      · exact hF v hv
      · exact refines.within hD x held v hx hv

theorem ForReplayed.flows {pre : Walk Bool} {condition : Expr} {body : Walk Bool}
    {postEmpty : Bool} {post : Walk Bool} {r : Bool} (hpre : Shadows ctx pre)
    (hb : Shadows ctx body) (hp : Shadows ctx post)
    (h : ForReplayed ctx pre condition body postEmpty post s r t) (hk : Knows ctx F D s)
    (hc : Followed ctx n F r t) : s.Flows ctx n D := by
  -- The header is entered with what the jump into it carries.
  have entered : ∀ {header : BlockId} {entry : Bindings} {u : State},
      AtExit ctx u (.jump header) → Carries ctx.graph u.block header u.bindings entry →
        (∀ D, (∀ v, F v → D v) → entry.Within D → ctx.graph.Safe n header D) →
          ∀ D, Knows ctx F D u → u.Flows ctx n D := by
    intro header entry u exit carries hh D hku
    have hcarried := carries.within hku.bindings
    exact exit.flows_jump (hh _ (fun v hv => .inl (.inl (hku.floor v hv))) hcarried)
  cases h with
  | stuck run => exact hpre.flows run hk hc
  | @never header entry u _ _ run exit carries edge constant literal zero =>
      refine hpre.flows run hk (hc.before (Framed.refl u).jumped fun _ => ?_)
      exact entered exit carries fun D hD hw => hc.safe hk.given hD hw
  | @loop header entry u _ _ run exit carries edge unlessZero iterate =>
      have passes := iterate.framed hb.framed hp.framed
      have hlast := iterate.lastPass hb.framed hp.framed
      refine hpre.flows run hk (hc.before ((Framed.refl u).jumped.trans passes) fun _ => ?_)
      exact entered exit carries fun D hD hw => hlast.safe hb hp hk.given hc hD hw

theorem Assigned.within {scope? : Option ScopeId} {b b' : Bindings}
    {pairs : List (String × ValueSet)} (h : Assigned ctx scope? b pairs b') (hb : b.Within D)
    (hp : ∀ p ∈ pairs, ∀ v ∈ p.2, D v) : b'.Within D := by
  induction h with
  | nil => exact hb
  | cons resolved others ih =>
      obtain ⟨hfirst, hrest⟩ := List.forall_mem_cons.mp hp
      exact ih (hb.assign hfirst) hrest

-- The parameters hold the arguments of the graph.
theorem SignatureBound.within_parameters {scope? : Option ScopeId} {names : List String}
    {b b' : Bindings} (h : SignatureBound ctx scope? b
      ((ctx.graph.arguments.map fun a => (a.1, .single a.2)).zip names) b') (hb : b.Within D)
    (hg : ∀ v, ctx.graph.IsGiven v → D v) : b'.Within D := by
  refine h.assigned.within hb (List.forall_mem_map.mpr fun p hp v hv => ?_)
  obtain ⟨a, ha, hpa⟩ := List.mem_map.mp (List.of_mem_zip hp).1
  obtain rfl := (ValueSet.mem_single v _).mp (hpa ▸ hv)
  exact hg _ (.inr ⟨a.1, ha⟩)

theorem ReturnsBound.within {scope? : Option ScopeId} {names : List String} {b b' : Bindings}
    (h : ReturnsBound ctx scope? names b b') (hb : b.Within D)
    (hg : ∀ v, ctx.graph.IsGiven v → D v) : b'.Within D := by
  cases h with
  | none => exact hb
  | zero found bound =>
      refine bound.assigned.within hb (List.forall_mem_map.mpr fun p hp v hv => ?_)
      obtain ⟨x, -, hx⟩ := List.mem_map.mp (List.of_mem_zip hp).1
      obtain rfl := (ValueSet.mem_single v _).mp (hx ▸ hv)
      exact hg v (.inl ⟨0, found⟩)

theorem ReturnsHeld.known {pairs : List (VariableId × ValueId)} {b b' : Bindings}
    (h : ReturnsHeld b pairs b') (hb : b.Within D) : ∀ p ∈ pairs, D p.2 := by
  induction h with
  | nil => simp
  | cons bound member others ih =>
      exact List.forall_mem_cons.mpr ⟨hb _ _ _ bound member, ih (hb.narrow bound member)⟩

theorem FunctionLeft.flows (h : FunctionLeft ctx s t) (hs : s.bindings.Within (s.Known ctx D)) :
    s.Flows ctx n D := by
  cases h with
  | @mk values b exit count held =>
      refine exit.flows (fun v hv => ?_) (by simp [Exit.targets])
      have hk := held.known hs
      have hsnd : (ctx.graph.returns.zip values).map Prod.snd = values :=
        List.map_snd_zip (Nat.le_of_eq count)
      rw [← hsnd] at hv
      obtain ⟨p, hp, rfl⟩ := List.mem_map.mp hv
      exact hk p hp

theorem replayExpr_shadows {e : Expr} {values? : Option (List ValueSet)} (hk : Knows ctx F D s)
    (h : replayExpr ctx e s = .ok values? t) :
    t.bindings.Within (t.Known ctx D) ∧
      (∀ values ∈ values?, ∀ set ∈ values, ∀ v ∈ set, t.Known ctx D v) ∧
        ((values? ≠ none → t.Flows ctx n D) → s.Flows ctx n D) :=
  replayExpr_flows hk.known e h hk.bindings

theorem InitialValues.flows {count : Nat} {value? : Option Expr}
    {values? : Option (List ValueSet)} (hk : Knows ctx F D s)
    (h : InitialValues ctx count s value? values? t) :
    t.bindings.Within (t.Known ctx D) ∧
      (∀ values ∈ values?, ∀ set ∈ values, ∀ v ∈ set, t.Known ctx D v) ∧
        ((values? ≠ none → t.Flows ctx n D) → s.Flows ctx n D) := by
  cases h with
  | given value fits => exact replayExpr_shadows hk value
  | zero found =>
      refine ⟨hk.bindings, fun values hv set hset v hm => ?_, fun hf => hf (by simp)⟩
      obtain rfl := Option.some.inj hv
      obtain rfl := (List.mem_replicate.mp hset).2
      obtain rfl := (ValueSet.mem_single v _).mp hm
      exact .inl (hk.known _ (.inl ⟨0, found⟩))

theorem shadows_compositional : Compositional False Shadows where
  done ctx := ⟨framed_compositional.done ctx, fun h _ _ _ hk hc => by
    obtain ⟨rfl, rfl⟩ := pure_eq_ok.mp h
    exact hc.onward rfl _ hk⟩
  expr ctx e := ⟨framed_compositional.expr ctx e, fun h _ _ _ hk hc => by
    rcases replayBare_eq_ok.mp h with ⟨he, rfl⟩ | ⟨he, rfl⟩
    · exact (replayExpr_shadows hk he).2.2 (absurd rfl)
    · obtain ⟨ht, -, hf⟩ := replayExpr_shadows hk he
      exact hf fun _ => hc.onward rfl _ ⟨hk.given, hk.floor, ht⟩⟩
  assign ctx names e := ⟨framed_compositional.assign ctx names e, fun h _ _ _ hk hc => by
    rcases replayAssignment_of_ok h with ⟨he, rfl⟩ | ⟨values, u, b, he, -, ha, rfl, rfl⟩
    · exact (replayExpr_shadows hk he).2.2 (absurd rfl)
    · obtain ⟨hu, hv, hf⟩ := replayExpr_shadows hk he
      refine hf fun _ => hc.onward rfl _ ⟨hk.given, hk.floor, ha.within hu fun p hp => ?_⟩
      exact hv values rfl p.2 (List.of_mem_zip hp).2⟩
  letDecl ctx names value? := ⟨framed_compositional.letDecl ctx names value?,
    fun h _ _ _ hk hc => by
    rcases replayLet_of_ok h with ⟨hi, rfl⟩ | ⟨values, u, b, hi, hd, rfl, rfl⟩
    · exact (hi.flows hk).2.2 (absurd rfl)
    · obtain ⟨hu, hv, hf⟩ := hi.flows hk
      refine hf fun _ => hc.onward rfl _ ⟨hk.given, hk.floor, hd.assigned.within hu fun p hp => ?_⟩
      exact hv values rfl p.2 (List.of_mem_zip hp).2⟩
  leave ctx := ⟨framed_compositional.leave ctx, fun h _ _ _ hk _ =>
    (functionLeft_of_ok h).1.flows hk.bindings⟩
  loopJump ctx way := ⟨framed_compositional.loopJump ctx way, fun h _ _ _ hk hc =>
    (replayLoopJump_eq_ok h).1.flows hk hc⟩
  cond ctx condition body hb := ⟨framed_compositional.cond ctx condition body hb.framed,
    fun h _ _ _ hk hc => (ifReplayed_of_ok h).flows hb hk hc⟩
  switch hs := hs.elim
  forLoop ctx pre condition body postEmpty post hpre hb hp :=
    ⟨framed_compositional.forLoop ctx pre condition body postEmpty post hpre.framed hb.framed
      hp.framed, fun h _ _ _ hk hc => (forReplayed_of_ok h).flows hpre hb hp hk hc⟩
  block ctx id body hb := ⟨framed_compositional.block ctx id body hb.framed,
    fun h _ _ _ hk hc => by
    obtain ⟨scope, u, -, hu, rfl⟩ := inBlock_eq_ok.mp h
    exact hb.flows hu ⟨hk.given, hk.floor, hk.bindings⟩
      ⟨fun hr D hku => hc.onward hr D ⟨hku.given, hku.floor, hku.bindings⟩, hc.edges⟩⟩
  definition ctx d others hs hd ho := ⟨framed_compositional.definition ctx d others hs
    (fun inner => (hd inner).framed) ho.framed, fun h _ _ _ hk hc => by
    obtain ⟨_, u, hu, ht⟩ := bind_eq_ok.mp h
    obtain ⟨warnings, more, rfl, -⟩ := (definitionReplayed_of_ok hu).apart
    exact ho.flows ht ⟨hk.given, hk.floor, hk.bindings⟩ hc⟩
  next ctx id rest first others hf ho := ⟨framed_compositional.next ctx id rest first others
    hf.framed ho.framed, fun h _ _ _ hk hc => by
    obtain ⟨falls, u, hu, ht⟩ := bind_eq_ok.mp h
    rcases ite_eq_ok.mp ht with ⟨rfl, ht⟩ | ⟨hn, ht⟩
    · exact hf.flows hu hk (ho.followed ht hc)
    · obtain rfl : falls = false := by simpa using hn
      obtain ⟨_, v, hw, hp⟩ := bind_eq_ok.mp ht
      obtain ⟨rfl, rfl⟩ := pure_eq_ok.mp hp
      exact hf.flows hu hk (hc.before (warned_of_ok hw).framed (by simp))⟩

-- A body that is replayed from the entry of the graph on, with nothing but what is given.
theorem safe_of_body {body : Yul.Block} {r : Bool} (free : body.switchFree = true)
    (run : replayBlock ctx body s = .ok r t) (hb : s.block = ctx.graph.entry) (ho : s.op = 0)
    (hl : s.loops = []) (hw : s.bindings.Within ctx.graph.IsGiven)
    (ends : r = true → ∀ D, t.bindings.Within (t.Known ctx D) → t.Flows ctx n D) :
    ctx.graph.Safe n ctx.graph.entry ctx.graph.IsGiven := by
  have hbody : Shadows ctx (replayBlock ctx body) :=
    shadows_compositional.ofBlock ctx body (.inr free)
  have outside : t.loops = [] := (hl ▸ (hbody.framed run).loops).eq_nil
  have hflows : s.Flows ctx n ctx.graph.IsGiven := by
    refine hbody.flows (F := ctx.graph.IsGiven) run
      ⟨fun _ h => h, fun _ h => h, hw.mono fun _ => .inl⟩ ⟨fun hr D hk => ends hr D hk.bindings, ?_⟩
    intro way frame outer source target hf
    exact absurd (outside.symm.trans hf) (by simp)
  unfold State.Flows at hflows
  rw [hb, ho] at hflows
  exact .of_flows hflows

theorem safe_of_main {program : Yul.Block} (free : program.switchFree = true)
    (h : replayMain ctx program (State.start ctx.graph) = .ok () t) :
    ctx.graph.Safe n ctx.graph.entry ctx.graph.IsGiven := by
  obtain ⟨falls, v, hb, ends⟩ := replayMain_of_ok h
  refine safe_of_body free hb rfl rfl rfl Bindings.within_empty fun hr D _ => ?_
  rcases ends with ⟨-, hx, -⟩ | ⟨rfl, -⟩
  · exact hx.flows (by simp [Exit.operands]) (by simp [Exit.targets])
  · exact absurd hr (by simp)

theorem DefinitionRun.safe {d : Yul.Definition} (free : d.body.switchFree = true)
    (h : DefinitionRun ctx d s t) : ctx.graph.Safe n ctx.graph.entry ctx.graph.IsGiven := by
  obtain ⟨outer, rfl⟩ := h.starts
  cases functionReplayed_of_ok h.run with
  | @mk bound all falls u _ parameters returns run ends =>
      have hw := returns.within (parameters.within_parameters Bindings.within_empty fun _ h => h)
        fun _ h => h
      refine safe_of_body free run rfl rfl rfl hw fun hr D hk => ?_
      rcases ends with ⟨rfl, -⟩ | ⟨-, left⟩
      · exact absurd hr (by simp)
      · exact left.flows hk

end Replay

open Replay

-- Along every path through an accepted graph, also around its loops any number of
-- times, what is read was defined before.
theorem strict_of_accepted (s : Subject) (settings : Settings)
    (free : s.program.switchFree = true) (h : judge s settings = .accepted) :
    ⟨(s.context settings).site, .entered none⟩ ∈ (s.run settings).history ∧
      ∀ site d?, ⟨site, .entered d?⟩ ∈ (s.run settings).history → site.graph.Strict := by
  refine ⟨Subject.mainEntered_of_accepted h, fun site d? hentered earlier b hpath => ?_⟩
  obtain ⟨t, hrun, hhistory⟩ := Subject.replayMain_of_accepted h
  rw [hhistory] at hentered
  refine Graph.Cfg.strictAt_of_safe (fun n => ?_) hpath
  have hsafe : site.graph.Safe n site.graph.entry site.graph.IsGiven := by
    rcases told_of_main (.inr free) hrun (List.mem_reverse.mp hentered) with
      ⟨rfl, -⟩ | ⟨-, d, before, after, new, hfree, hdef, -⟩
    · exact safe_of_main free hrun
    · exact hdef.safe (hfree.resolve_left not_false)
  exact hsafe.mono fun _ => .inl

theorem Counting.strict_here :
    subject.program.switchFree = true ∧ judge subject .default = .accepted ∧
      graph.Strict := by
  have free : subject.program.switchFree = true := by decide +kernel
  obtain ⟨entered, strict⟩ := strict_of_accepted subject .default free accepted
  exact ⟨free, accepted, strict _ none entered⟩

end SsaReplay
