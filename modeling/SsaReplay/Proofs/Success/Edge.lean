import SsaReplay.Proofs.Success.Walk
import SsaReplay.Replay.Edge

namespace SsaReplay

open SsaReplay.Graph (BasicBlock Branch Cfg Exit)

-- An edge that is recorded on both of its ends.
def Graph.Cfg.HasEdge (g : Cfg) (source target : BlockId) : Prop :=
  ∃ start finish, g.block? source = some start ∧ g.block? target = some finish ∧
    target ∈ start.exit.targets ∧ source ∈ finish.entries

-- A block has the other among the targets of its exit.
def Graph.Cfg.Leads (g : Cfg) (source target : BlockId) : Prop :=
  ∃ data, g.block? source = some data ∧ target ∈ data.exit.targets

namespace Replay

-- All operations of the current block are accounted for, and this is its exit.
def AtExit (ctx : Context) (s : State) (exit : Exit) : Prop :=
  ∃ data, ctx.graph.block? s.block = some data ∧ data.operations.length ≤ s.op ∧ data.exit = exit

-- What becomes of bindings along an edge.
def Carries (g : Cfg) (source target : BlockId) (before after : Bindings) : Prop :=
  ∃ data pairs, g.block? target = some data ∧ phiArguments g source target data = .ok pairs ∧
    before.acrossEdge (phisFedBy pairs) data.phis = after

-- Every phi of the join has a holder, where that is asked for.
def PhisOwned (ctx : Context) (join : BlockId) (bindings : Bindings) : Prop :=
  ctx.settings.checksPhiOwnership →
    ∃ data, ctx.graph.block? join = some data ∧
      data.phis.find? (fun phi => (bindings.holders phi).isEmpty) = none

namespace State

-- The state after an edge was followed.
def follow (s : State) (site : Site) (source target : BlockId) (bindings : Bindings) : State :=
  { s.log site (.advanced source target bindings) with block := target, op := 0, bindings }

variable (s : State) (site : Site) (source target : BlockId) (bindings : Bindings)

@[simp] theorem follow_scope : (s.follow site source target bindings).scope? = s.scope? := rfl

@[simp] theorem follow_block : (s.follow site source target bindings).block = target := rfl

@[simp] theorem follow_op : (s.follow site source target bindings).op = 0 := rfl

@[simp] theorem follow_bindings :
    (s.follow site source target bindings).bindings = bindings := rfl

@[simp] theorem follow_loops : (s.follow site source target bindings).loops = s.loops := rfl

@[simp] theorem follow_warnings :
    (s.follow site source target bindings).warnings = s.warnings := rfl

@[simp] theorem follow_history :
    (s.follow site source target bindings).history =
      ⟨site, .advanced source target bindings⟩ :: s.history := rfl

end State

variable {ctx : Context} {s t : State}

theorem AtExit.congr {exit : Exit} (h : AtExit ctx s exit) (hb : t.block = s.block)
    (ho : t.op = s.op) : AtExit ctx t exit := by
  obtain ⟨data, hd, hl, he⟩ := h
  exact ⟨data, hb ▸ hd, ho ▸ hl, he⟩

@[simp] theorem blockData_eq_ok {b : BlockId} {data : BasicBlock} :
    blockData ctx b s = .ok data t ↔ ctx.graph.block? b = some data ∧ s = t := by
  unfold blockData
  cases ctx.graph.block? b <;> simp

theorem currentExit_eq_ok {exit : Exit} :
    currentExit ctx s = .ok exit t ↔ AtExit ctx s exit ∧ s = t := by
  simp only [currentExit, AtExit, bind_eq_ok, get_eq_ok, blockData_eq_ok, ite_eq_ok,
    rejectOperation_ne_ok, pure_eq_ok, and_false, false_or, Nat.not_lt]
  constructor
  · rintro ⟨_, _, ⟨rfl, rfl⟩, data, _, ⟨hd, rfl⟩, hl, rfl, rfl⟩
    exact ⟨⟨data, hd, hl, rfl⟩, rfl⟩
  · rintro ⟨⟨data, hd, hl, rfl⟩, rfl⟩
    exact ⟨s, s, ⟨rfl, rfl⟩, data, s, ⟨hd, rfl⟩, hl, rfl, rfl⟩

-- The view of exits of one kind, made by `make`, succeeds on these and no others.
theorem leaveBy_eq_ok {α : Type} {demand : ExitDemand} {view : Exit → Option α} (make : α → Exit)
    (hview : ∀ exit a, view exit = some a ↔ exit = make a) {a : α} :
    leaveBy ctx demand view s = .ok a t ↔
      AtExit ctx s (make a) ∧ s.log ctx.site (.left s.block (make a)) = t := by
  simp only [leaveBy, bind_eq_ok, currentExit_eq_ok, get_eq_ok]
  constructor
  · rintro ⟨exit, _, ⟨hx, rfl⟩, _, _, ⟨rfl, rfl⟩, h⟩
    cases hv : view exit with
    | none => simp [hv] at h
    | some found =>
        simp only [hv, bind_eq_ok, record_eq_ok, pure_eq_ok] at h
        obtain ⟨_, _, rfl, rfl, rfl⟩ := h
        obtain rfl := (hview exit found).mp hv
        exact ⟨hx, rfl⟩
  · rintro ⟨hx, rfl⟩
    refine ⟨make a, s, ⟨hx, rfl⟩, s, s, ⟨rfl, rfl⟩, ?_⟩
    simp [(hview (make a) a).mpr rfl]

theorem leaveByJump_eq_ok {target : BlockId} :
    leaveByJump ctx s = .ok target t ↔
      AtExit ctx s (.jump target) ∧ s.log ctx.site (.left s.block (.jump target)) = t :=
  leaveBy_eq_ok .jump (by intro exit a; cases exit <;> simp)

theorem leaveByBranch_eq_ok {branch : Branch} :
    leaveByBranch ctx s = .ok branch t ↔
      AtExit ctx s (.branch branch) ∧ s.log ctx.site (.left s.block (.branch branch)) = t :=
  leaveBy_eq_ok .branch (by intro exit a; cases exit <;> simp)

theorem leaveByReturn_eq_ok {values : List ValueId} :
    leaveByReturn ctx s = .ok values t ↔
      AtExit ctx s (.functionReturn values) ∧
        s.log ctx.site (.left s.block (.functionReturn values)) = t :=
  leaveBy_eq_ok .functionReturn (by intro exit a; cases exit <;> simp)

theorem leaveByMainExit_eq_ok {u : Unit} :
    leaveByMainExit ctx s = .ok u t ↔
      AtExit ctx s .mainExit ∧ s.log ctx.site (.left s.block .mainExit) = t :=
  leaveBy_eq_ok (fun _ => .mainExit) (by intro exit a; cases exit <;> simp)

theorem leaveByTermination_eq_ok {u : Unit} :
    leaveByTermination ctx s = .ok u t ↔
      AtExit ctx s .terminated ∧ s.log ctx.site (.left s.block .terminated) = t :=
  leaveBy_eq_ok (fun _ => .terminated) (by intro exit a; cases exit <;> simp)

theorem checkEdge_eq_ok {source target : BlockId} {u : Unit} :
    checkEdge ctx source target s = .ok u t ↔ ctx.graph.HasEdge source target ∧ s = t := by
  simp only [checkEdge, bind_eq_ok, blockData_eq_ok, ite_eq_ok, reject_ne_ok, pure_eq_ok,
    and_false, or_false, true_and]
  constructor
  · rintro ⟨start, _, ⟨hs, rfl⟩, finish, _, ⟨ht, rfl⟩, he, rfl⟩
    exact ⟨⟨start, finish, hs, ht, he⟩, rfl⟩
  · rintro ⟨⟨start, finish, hs, ht, he⟩, rfl⟩
    exact ⟨start, s, ⟨hs, rfl⟩, finish, s, ⟨ht, rfl⟩, he, rfl⟩

theorem advance_eq_ok {source target : BlockId} {bindings : Bindings} {u : Unit} :
    advance ctx source target bindings s = .ok u t ↔
      ctx.graph.HasEdge source target ∧ s.follow ctx.site source target bindings = t := by
  simp [advance, checkEdge_eq_ok, State.follow, and_assoc]

theorem phiArgument_eq_ok {g : Cfg} {target : BlockId} {entries offset : Nat} {phi : ValueId}
    {p : ValueId × ValueId} (h : phiArgument g target entries offset phi = .ok p) :
    p.2 = phi ∧ ∃ b arguments, g.origin? phi = some (.phi b arguments) ∧
      arguments[offset]? = some p.1 := by
  unfold phiArgument at h
  split at h
  · next b arguments ho =>
    split at h
    · next argument ha =>
      split at h
      · obtain rfl := Except.ok.inj h
        exact ⟨rfl, b, arguments, ho, ha⟩
      · exact absurd h (by simp)
    · exact absurd h (by simp)
  · exact absurd h (by simp)
  · exact absurd h (by simp)

-- Every phi of the block is paired with its argument for the entry.
theorem phiArguments_eq_ok {g : Cfg} {source target : BlockId} {data : BasicBlock}
    {pairs : List (ValueId × ValueId)} (h : phiArguments g source target data = .ok pairs) :
    pairs.map Prod.snd = data.phis ∧ ∀ p ∈ pairs, ∃ offset b arguments,
      data.entryOffset? source = some offset ∧ g.origin? p.2 = some (.phi b arguments) ∧
        arguments[offset]? = some p.1 := by
  unfold phiArguments at h
  split at h
  · next he =>
    obtain rfl := Except.ok.inj h
    exact ⟨(List.isEmpty_iff.mp he).symm, by simp⟩
  · split at h
    · exact absurd h (by simp)
    · next offset ho =>
      have all : ∀ {phis : List ValueId} {pairs : List (ValueId × ValueId)},
          phis.mapM (phiArgument g target data.entries.length offset) = .ok pairs →
            pairs.map Prod.snd = phis ∧ ∀ p ∈ pairs, ∃ b arguments,
              g.origin? p.2 = some (.phi b arguments) ∧ arguments[offset]? = some p.1 := by
        intro phis
        induction phis with
        | nil =>
            intro pairs hp
            obtain rfl := Except.ok.inj hp
            exact ⟨rfl, by simp⟩
        | cons phi rest ih =>
            intro pairs hp
            rw [List.mapM_cons] at hp
            cases hf : phiArgument g target data.entries.length offset phi with
            | error m =>
                rw [hf] at hp
                cases hp
            | ok p =>
                cases hr : rest.mapM (phiArgument g target data.entries.length offset) with
                | error m =>
                    rw [hf, hr] at hp
                    cases hp
                | ok others =>
                    rw [hf, hr] at hp
                    obtain rfl := Except.ok.inj hp
                    obtain ⟨rfl, hfirst⟩ := phiArgument_eq_ok hf
                    obtain ⟨hm, hothers⟩ := ih hr
                    exact ⟨by rw [List.map_cons, hm], List.forall_mem_cons.mpr ⟨hfirst, hothers⟩⟩
      obtain ⟨hm, hp⟩ := all h
      refine ⟨hm, fun p hmem => ?_⟩
      obtain ⟨b, arguments, hb⟩ := hp p hmem
      exact ⟨offset, b, arguments, ho, hb⟩

theorem mem_phisFedBy {pairs : List (ValueId × ValueId)} {v phi : ValueId} :
    phi ∈ phisFedBy pairs v ↔ (v, phi) ∈ pairs := by
  rw [phisFedBy, ValueSet.mem_ofList, List.mem_map]
  constructor
  · rintro ⟨⟨argument, _⟩, hp, rfl⟩
    obtain ⟨hpair, hv⟩ := List.mem_filter.mp hp
    obtain rfl : argument = v := of_decide_eq_true hv
    exact hpair
  · exact fun hpair => ⟨(v, phi), List.mem_filter.mpr ⟨hpair, decide_eq_true rfl⟩, rfl⟩

theorem carry_eq_ok {source target : BlockId} {after : Bindings} :
    carry ctx source target s = .ok after t ↔
      Carries ctx.graph source target s.bindings after ∧
        s.log ctx.site (.carried source target s.bindings after) = t := by
  simp only [carry, bind_eq_ok, blockData_eq_ok, Carries]
  constructor
  · rintro ⟨data, _, ⟨hd, rfl⟩, h⟩
    cases hp : phiArguments ctx.graph source target data with
    | error m => simp [hp] at h
    | ok pairs =>
        simp only [hp, bind_eq_ok, get_eq_ok, record_eq_ok, pure_eq_ok] at h
        obtain ⟨_, _, ⟨rfl, rfl⟩, _, _, rfl, rfl, rfl⟩ := h
        exact ⟨⟨data, pairs, hd, hp, rfl⟩, rfl⟩
  · rintro ⟨⟨data, pairs, hd, hp, rfl⟩, rfl⟩
    refine ⟨data, s, ⟨hd, rfl⟩, ?_⟩
    simp [hp, and_assoc]

theorem merge_eq_ok {join : BlockId} {contributions : List Bindings} {merged : Bindings} :
    merge ctx join contributions s = .ok merged t ↔
      Bindings.meet contributions = .ok merged ∧ s.log ctx.site (.merged join merged) = t := by
  unfold merge
  cases Bindings.meet contributions with
  | error conflict => simp
  | ok found =>
      simp only [bind_eq_ok, record_eq_ok, pure_eq_ok, Except.ok.injEq]
      constructor
      · rintro ⟨_, _, rfl, rfl, rfl⟩
        exact ⟨rfl, rfl⟩
      · rintro ⟨rfl, rfl⟩
        exact ⟨(), _, rfl, rfl, rfl⟩

theorem checkPhiOwnership_eq_ok {join : BlockId} {bindings : Bindings} {u : Unit} :
    checkPhiOwnership ctx join bindings s = .ok u t ↔ PhisOwned ctx join bindings ∧ s = t := by
  simp only [checkPhiOwnership, PhisOwned, ite_eq_ok, bind_eq_ok, blockData_eq_ok, pure_eq_ok]
  by_cases hc : ctx.settings.checksPhiOwnership
  · simp only [hc, true_and, not_true_eq_false, false_and, or_false, forall_const]
    constructor
    · rintro ⟨data, _, ⟨hd, rfl⟩, h⟩
      cases hf : data.phis.find? (fun phi => (bindings.holders phi).isEmpty) with
      | none => exact ⟨⟨data, hd, hf⟩, by simpa [hf] using h⟩
      | some phi => simp [hf] at h
    · rintro ⟨⟨data, hd, hf⟩, rfl⟩
      refine ⟨data, s, ⟨hd, rfl⟩, ?_⟩
      simp [hf]
  · simp [hc]

end Replay

end SsaReplay
