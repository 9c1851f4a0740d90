import Mathlib.Logic.Relation
import SsaReplay.Proofs.Definedness
import SsaReplay.Proofs.Execution.Source

namespace SsaReplay.Execution

open SsaReplay.Graph (BasicBlock Callee Cfg Exit Operation)

-- A point of the run of a graph: a position in a block, and what values stand for.
structure Config where
  block : BlockId
  op : Nat
  env : ValueId → Option Word
  calls : List Call

inductive Progress
  | going (c : Config)
  | ended (e : Ending) (calls : List Call)

-- Values are given words, which hide the words they had.
def bindAll (env : ValueId → Option Word) (values : List ValueId) (words : List Word)
    (v : ValueId) : Option Word :=
  ((values.zip words).lookup v).or (env v)

end Execution

open Execution

namespace Graph

def Callee.target : Callee → Target
  | .builtin b => .builtin b
  | .function f _ => .function f

-- Whether control comes back from a call.
def Callee.continues (d : Yul.Dialect) : Callee → Bool
  | .builtin b => (d.builtin? b).all (·.effects.canContinue)
  | .function _ canContinue => canContinue

namespace Cfg

-- What is known before any block is run: constants and arguments.
def given (g : Cfg) (arguments : List Word) (v : ValueId) : Option Word :=
  match g.origin? v with
  | some (.literal w) => some w
  | some (.argument i) => arguments[i]?
  | _ => none

def first (g : Cfg) (arguments : List Word) : Config := ⟨g.entry, 0, g.given arguments, []⟩

-- The word that a phi takes from its argument for the entry.
def phiWord? (g : Cfg) (env : ValueId → Option Word) (data : BasicBlock) (source : BlockId)
    (phi : ValueId) : Option Word := do
  let offset ← data.entryOffset? source
  match g.origin? phi with
  | some (.phi _ arguments) => arguments[offset]?.bind env
  | _ => none

-- All phis of a block read their arguments before any of them changes.
def enter? (g : Cfg) (c : Config) (target : BlockId) : Option Config := do
  let data ← g.block? target
  some { c with
    block := target, op := 0
    env := fun v => if v ∈ data.phis then g.phiWord? c.env data c.block v else c.env v }

def leave? (g : Cfg) (c : Config) : Exit → Option Progress
  | .mainExit => some (.ended .exited c.calls)
  | .jump target => (g.enter? c target).map .going
  | .branch b => do
      let w ← c.env b.condition
      (g.enter? c (if w = 0 then b.zero else b.nonZero)).map .going
  | .functionReturn values => do
      let words ← values.mapM c.env
      some (.ended (.returned words) c.calls)
  -- Only a call that does not return ends such a block.
  | .terminated => none

def perform? (oracle : Oracle) (c : Config) (op : Operation) : Option Progress := do
  let operands ← op.inputs.mapM c.env
  let call : Call := ⟨op.callee.target, operands⟩
  match oracle c.calls call with
  | none => some (.ended .terminated (call :: c.calls))
  | some results =>
      some (.going { c with
        op := c.op + 1, env := bindAll c.env op.outputs results, calls := call :: c.calls })

-- The next operation of the block, or its exit when there are no more.
def step? (g : Cfg) (oracle : Oracle) (c : Config) : Option Progress := do
  let data ← g.block? c.block
  match data.operations[c.op]? with
  | some op => perform? oracle c op
  | none => g.leave? c data.exit

-- Goes on for at most the number of steps.
def runFrom (g : Cfg) (oracle : Oracle) (c : Config) : Nat → Option (Ending × List Call)
  | 0 => none
  | n + 1 =>
      match g.step? oracle c with
      | none => none
      | some (.ended e calls) => some (e, calls)
      | some (.going next) => runFrom g oracle next n

def run (g : Cfg) (oracle : Oracle) (arguments : List Word) (steps : Nat) :
    Option (Ending × List Call) :=
  g.runFrom oracle (g.first arguments) steps

def Moves (g : Cfg) (oracle : Oracle) (c c' : Config) : Prop := g.step? oracle c = some (.going c')

def Reaches (g : Cfg) (oracle : Oracle) : Config → Config → Prop :=
  Relation.ReflTransGen (g.Moves oracle)

def Finishes (g : Cfg) (oracle : Oracle) (c : Config) (e : Ending) (calls : List Call) : Prop :=
  ∃ last, g.Reaches oracle c last ∧ g.step? oracle last = some (.ended e calls)

-- Every call that the run makes is answered by as many results as its operation has
-- outputs, or by nothing exactly when control does not come back from its callee.
def Conforms (g : Cfg) (d : Yul.Dialect) (oracle : Oracle) (arguments : List Word) : Prop :=
  ∀ c data op operands, g.Reaches oracle (g.first arguments) c → g.block? c.block = some data →
    data.operations[c.op]? = some op → op.inputs.mapM c.env = some operands →
      if op.callee.continues d then
        ∃ results, oracle c.calls ⟨op.callee.target, operands⟩ = some results ∧
          results.length = op.outputs.length
      else oracle c.calls ⟨op.callee.target, operands⟩ = none

variable {g : Cfg} {oracle : Oracle} {c c' : Config} {e : Ending} {calls : List Call}

theorem Finishes.before (h : g.Reaches oracle c c') (k : g.Finishes oracle c' e calls) :
    g.Finishes oracle c e calls := by
  obtain ⟨last, hl, hs⟩ := k
  exact ⟨last, h.trans hl, hs⟩

theorem runFrom_of_finishes (h : g.Finishes oracle c e calls) :
    Eventually (g.runFrom oracle c) (e, calls) := by
  obtain ⟨last, hr, hs⟩ := h
  induction hr using Relation.ReflTransGen.head_induction_on with
  | refl =>
      refine ⟨1, fun m hm => ?_⟩
      obtain ⟨k, rfl⟩ := Nat.exists_eq_add_of_le' hm
      simp only [runFrom, hs]
  | @head a b hab _ ih =>
      obtain ⟨n, hn⟩ := ih
      refine ⟨n + 1, fun m hm => ?_⟩
      obtain ⟨k, rfl⟩ := Nat.exists_eq_add_of_le' (Nat.le_of_add_left_le hm)
      have hab : g.step? oracle a = some (.going b) := hab
      simp only [runFrom, hab]
      exact hn k (by omega)

theorem enter?_eq_some {target : BlockId} :
    g.enter? c target = some c' ↔ ∃ data, g.block? target = some data ∧
      { c with
        block := target, op := 0
        env := fun v => if v ∈ data.phis then g.phiWord? c.env data c.block v else c.env v } =
        c' := by
  simp only [enter?, Option.bind_eq_bind, Option.bind_eq_some_iff, Option.some.injEq]

theorem step?_of_op {data : BasicBlock} {op : Operation} (hd : g.block? c.block = some data)
    (ho : data.operations[c.op]? = some op) : g.step? oracle c = perform? oracle c op := by
  simp only [step?, Option.bind_eq_bind, hd, Option.bind_some, ho]

theorem step?_of_exit {data : BasicBlock} (hd : g.block? c.block = some data)
    (hl : data.operations.length ≤ c.op) : g.step? oracle c = g.leave? c data.exit := by
  simp only [step?, Option.bind_eq_bind, hd, Option.bind_some, List.getElem?_eq_none hl]

-- A move within a block or along an edge.
theorem moves_cases (h : g.Moves oracle c c') :
    (∃ data op operands results, g.block? c.block = some data ∧
      data.operations[c.op]? = some op ∧ op.inputs.mapM c.env = some operands ∧
        oracle c.calls ⟨op.callee.target, operands⟩ = some results ∧
          c' = { c with
            op := c.op + 1, env := bindAll c.env op.outputs results
            calls := ⟨op.callee.target, operands⟩ :: c.calls }) ∨
      ∃ target, g.Leads c.block target ∧ g.enter? c target = some c' := by
  simp only [Moves, step?, Option.bind_eq_bind, Option.bind_eq_some_iff] at h
  obtain ⟨data, hd, h⟩ := h
  cases ho : data.operations[c.op]? with
  | some op =>
      simp only [ho, perform?, Option.bind_eq_bind, Option.bind_eq_some_iff] at h
      obtain ⟨operands, hw, h⟩ := h
      cases hr : oracle c.calls ⟨op.callee.target, operands⟩ with
      | none => simp [hr] at h
      | some results =>
          simp only [hr, Option.some.injEq, Progress.going.injEq] at h
          exact .inl ⟨data, op, operands, results, hd, ho, hw, hr, h.symm⟩
  | none =>
      simp only [ho] at h
      have edge : ∀ target ∈ data.exit.targets, (g.enter? c target).map Progress.going =
          some (.going c') → ∃ target, g.Leads c.block target ∧ g.enter? c target = some c' := by
        intro target ht he
        obtain ⟨found, hf, heq⟩ := Option.map_eq_some_iff.mp he
        exact ⟨target, ⟨data, hd, ht⟩, Progress.going.inj heq ▸ hf⟩
      cases hx : data.exit with
      | jump target =>
          rw [hx] at h
          exact .inr (edge target (by simp [hx, Exit.targets]) h)
      | branch b =>
          rw [hx] at h
          simp only [leave?, Option.bind_eq_bind, Option.bind_eq_some_iff] at h
          obtain ⟨w, -, h⟩ := h
          exact .inr (edge _ (by split <;> simp [hx, Exit.targets]) h)
      | mainExit => simp [hx, leave?] at h
      | functionReturn values => simp [hx, leave?, Option.bind_eq_some_iff] at h
      | terminated => simp [hx, leave?] at h

end Cfg

end Graph

end SsaReplay
