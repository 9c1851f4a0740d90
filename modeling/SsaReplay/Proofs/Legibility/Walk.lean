import SsaReplay.Proofs.Legibility.Text

namespace SsaReplay

namespace Replay

open SsaReplay.Graph (Cfg Exit Operation)
open SsaReplay.Yul (Expr)

-- An edge that was noted goes from one block of the graph to another.
def Grounded (g : Cfg) (edge? : Option (BlockId × BlockId)) : Prop :=
  ∀ source target, edge? = some (source, target) → g.Has source ∧ g.Has target

def LoopFrame.Grounded (g : Cfg) (f : LoopFrame) : Prop :=
  ∀ way, Replay.Grounded g (f.edges way).first?

-- The position is in a block of the graph, and so many loops are open around it.
structure Footing (g : Cfg) (depth : Nat) (s : State) : Prop where
  here : g.Has s.block
  nesting : s.loops.length = depth
  frames : ∀ f ∈ s.loops, f.Grounded g

-- All that was told can be put into words.
def State.Legible (r : Reader) (s : State) : Prop := ∀ e ∈ s.history, e.renders r = true

-- From a footing on, a walk only tells what can be put into words. It gets through with a
-- result as described, and with a footing again, or it stops with something it tells.
def Tells {α : Type} (r : Reader) (ctx : Context) (depth : Nat) (x : Walk α) (Q : α → Prop) :
    Prop :=
  ∀ s, Footing ctx.graph depth s →
    ComesTo (State.Legible r) (fun h => ∃ f, h = .mismatch f ∧ f.renders r = true) x s
      fun a t => Footing ctx.graph depth t ∧ Q a

-- All graphs that a replay may come to are legible.
structure Context.Legible (r : Reader) (ctx : Context) : Prop where
  graph : ctx.graph.Legible r.dialect
  flow : ∀ f g, ctx.flow.graphOf? f = some g → g.Legible r.dialect

theorem Context.Legible.within {r : Reader} {ctx : Context} (h : ctx.Legible r) {f : FunctionId}
    {g : Cfg} (hg : ctx.flow.graphOf? f = some g) : (ctx.within f g).Legible r :=
  ⟨h.flow f g hg, h.flow⟩

namespace Footing

variable {g : Cfg} {depth : Nat} {s : State}

theorem log (h : Footing g depth s) (site : Site) (e : Event) : Footing g depth (s.log site e) :=
  ⟨h.here, h.nesting, h.frames⟩

-- A replay starts outside of all loops.
theorem apartOn (h : g.Has g.entry) (s : State) : Footing g 0 (s.apartOn g) :=
  ⟨h, rfl, by simp [State.apartOn, State.start]⟩

end Footing

namespace Tells

variable {α β : Type} {r : Reader} {ctx : Context} {depth : Nat} {Q : α → Prop}

section Rules

theorem pure {a : α} (h : Q a) : Tells r ctx depth (pure a) Q := fun _ hs => .pure ⟨hs, h⟩

theorem bind {x : Walk β} {f : β → Walk α} {P : β → Prop} (hx : Tells r ctx depth x P)
    (hf : ∀ b, P b → Tells r ctx depth (f b) Q) : Tells r ctx depth (x >>= f) Q :=
  fun s hs => .bind ((hx s hs).mono fun b t ht => hf b ht.2 t ht.1)

theorem ite {c : Prop} [Decidable c] {x y : Walk α} (hx : c → Tells r ctx depth x Q)
    (hy : ¬c → Tells r ctx depth y Q) : Tells r ctx depth (if c then x else y) Q :=
  fun s hs => .ite (fun h => hx h s hs) fun h => hy h s hs

theorem get : Tells r ctx depth get (Footing ctx.graph depth) := fun _ hs => .get ⟨hs, hs⟩

-- What it gives may be of no interest.
theorem forget {x : Walk α} (h : Tells r ctx depth x Q) : Tells r ctx depth x fun _ => True :=
  fun s hs => (h s hs).mono fun _ _ ht => ⟨ht.1, trivial⟩

theorem modify {f : State → State} (history : ∀ s, (f s).history = s.history)
    (footing : ∀ s, Footing ctx.graph depth s → Footing ctx.graph depth (f s)) :
    Tells r ctx depth (modify f) fun _ => True :=
  fun s hs => .modify (fun h => by rwa [State.Legible, history]) ⟨footing s hs, trivial⟩

theorem setBindings (b : Bindings) : Tells r ctx depth (setBindings b) fun _ => True :=
  modify (fun _ => rfl) fun _ hs => ⟨hs.here, hs.nesting, hs.frames⟩

theorem record {e : Event} (told : (⟨ctx.site, e⟩ : Entry).renders r = true) :
    Tells r ctx depth (record ctx e) fun _ => True :=
  fun _ hs => .modify (fun h => List.forall_mem_cons.mpr ⟨told, h⟩) ⟨hs.log _ _, trivial⟩

theorem inScope {scope : ScopeId} {act : Walk α} (ha : Tells r ctx depth act Q) :
    Tells r ctx depth (inScope scope act) Q := by
  refine bind get fun s _ => bind (modify (fun _ => rfl) fun _ hs => ?_) fun _ _ t ht => ?_
  · exact ⟨hs.here, hs.nesting, hs.frames⟩
  · refine .closing (fun _ h => h) ((ha t ht).mono fun a u hu => ?_)
    exact ⟨⟨hu.1.here, hu.1.nesting, hu.1.frames⟩, hu.2⟩

end Rules

variable (legible : ctx.Legible r)

include legible

section Edge

variable {source target b : BlockId}

theorem reject {m : Mismatch} {l : Location} (worded : m.Worded r) (shows : ctx.site.Shows l) :
    Tells r ctx depth (reject ctx m l) Q := by
  have told : (⟨m, l, ctx.site⟩ : Finding).renders r = true :=
    Finding.renders_of legible.graph worded shows
  exact bind (record told) fun _ _ _ _ => .throw ⟨_, rfl, told⟩

theorem rejectOperation {m : Mismatch} (worded : m.Worded r) :
    Tells r ctx depth (rejectOperation ctx m) Q :=
  bind get fun _ _ => reject legible worded trivial

theorem rejectBlock {m : Mismatch} (worded : m.Worded r) :
    Tells r ctx depth (rejectBlock ctx m) Q :=
  bind get fun _ hs => reject legible worded hs.here

theorem orReject {m : Mismatch} {o : Option α} (worded : m.Worded r)
    (hq : ∀ a, o = some a → Q a) : Tells r ctx depth (orReject ctx m o) Q := by
  cases o with
  | none => exact rejectOperation legible worded
  | some a => exact pure (hq a rfl)

theorem warnBlock {m : Mismatch} (worded : m.Worded r) :
    Tells r ctx depth (warnBlock ctx m) fun _ => True := by
  refine bind get fun s hs => bind (record ?_) fun _ _ => modify (fun _ => rfl) fun _ hs => ?_
  · exact Finding.renders_of (f := ⟨m, ctx.blockAt s.block, ctx.site⟩) legible.graph worded hs.here
  · exact ⟨hs.here, hs.nesting, hs.frames⟩

theorem blockData :
    Tells r ctx depth (blockData ctx b) fun data => ctx.graph.block? b = some data := by
  unfold Replay.blockData
  cases hd : ctx.graph.block? b with
  | none => exact reject legible rfl trivial
  | some data => exact pure rfl

theorem currentExit : Tells r ctx depth (currentExit ctx) fun _ => True := by
  refine bind get fun s _ => bind (blockData legible) fun data _ => ?_
  exact ite (fun _ => rejectOperation legible rfl) fun _ => pure trivial

-- Where an exit leads to need not exist.
theorem leaveBy {demand : ExitDemand} {view : Exit → Option α} :
    Tells r ctx depth (leaveBy ctx demand view) fun _ => True := by
  refine bind (currentExit legible) fun exit _ => bind get fun s _ => ?_
  cases view exit with
  | none => exact rejectOperation legible rfl
  | some a => exact bind (record rfl) fun _ _ => pure trivial

theorem leaveByJump : Tells r ctx depth (leaveByJump ctx) fun _ => True := leaveBy legible

theorem leaveByBranch : Tells r ctx depth (leaveByBranch ctx) fun _ => True := leaveBy legible

theorem checkEdge : Tells r ctx depth (checkEdge ctx source target) fun _ =>
    ctx.graph.Has source ∧ ctx.graph.Has target := by
  refine bind (blockData legible) fun start hs => bind (blockData legible) fun finish hf => ?_
  exact ite (fun _ => pure ⟨⟨start, hs⟩, finish, hf⟩) fun _ => reject legible rfl ⟨start, hs⟩

theorem advance {bindings : Bindings} :
    Tells r ctx depth (advance ctx source target bindings) fun _ => True := by
  refine bind (checkEdge legible) fun _ edge => bind (record rfl) fun _ _ => ?_
  exact modify (fun _ => rfl) fun _ hs => ⟨edge.2, hs.nesting, hs.frames⟩

theorem carry : Tells r ctx depth (carry ctx source target) fun _ => ctx.graph.Has target := by
  refine bind (blockData legible) fun data hd => ?_
  cases hp : phiArguments ctx.graph source target data with
  | error m =>
      exact reject legible (Mismatch.worded_of_ordinary (ordinary_of_phiArguments hp)) ⟨data, hd⟩
  | ok pairs => exact bind get fun _ _ => bind (record rfl) fun _ _ => pure ⟨data, hd⟩

theorem merge {contributions : List Bindings} (ht : ctx.graph.Has target) :
    Tells r ctx depth (merge ctx target contributions) fun _ => True := by
  unfold Replay.merge
  cases Bindings.meet contributions with
  | error conflict => exact reject legible rfl ht
  | ok merged => exact bind (record rfl) fun _ _ => pure trivial

theorem checkPhiOwnership {bindings : Bindings} :
    Tells r ctx depth (checkPhiOwnership ctx target bindings) fun _ => True := by
  refine ite (fun _ => bind (blockData legible) fun data hd => ?_) fun _ => pure trivial
  cases data.phis.find? (fun phi => (bindings.holders phi).isEmpty) with
  | none => exact pure trivial
  | some phi => exact reject legible rfl ⟨data, hd⟩

end Edge

section Calls

theorem resolve (name : String) : Tells r ctx depth (resolve ctx name) fun _ => True :=
  resolve_of_get (R := fun _ x _ => Tells r ctx depth x fun _ => True)
    (fun h => bind get fun s hs => h s hs) (fun _ => pure trivial)
    (fun _ _ _ => rejectBlock legible rfl) (fun _ _ => rejectBlock legible rfl) name

-- What a walk gives matters only where blocks of the graph are concerned.
theorem closed : Closed ctx ctx fun _ x _ => Tells r ctx depth x fun _ => True where
  same := rfl
  pure _ := pure trivial
  bind hx hf := bind hx fun a _ => hf a
  get := get.forget
  setBindings := setBindings
  rejectOperation hm := rejectOperation legible (Mismatch.worded_of_ordinary hm)
  rejectBlock hm := rejectBlock legible (Mismatch.worded_of_ordinary hm)
  rejectGraph _ hm := reject legible (Mismatch.worded_of_ordinary hm) trivial
  resolve := resolve legible

omit legible in
theorem consume (op : Operation) : Tells r ctx depth (consume ctx op) fun _ => True := by
  refine bind get fun s _ => bind (record rfl) fun _ _ => ?_
  exact modify (fun _ => rfl) fun _ hs => ⟨hs.here, hs.nesting, hs.frames⟩

-- Of all mismatches only one names something of the graph that might have no name.
theorem matchCall (name : String) (operands : List (Expr × ValueSet)) :
    Tells r ctx depth (matchCall ctx name operands) fun _ => True := by
  refine bind get fun s _ => bind (blockData legible) fun data hd => ?_
  refine bind (orReject legible rfl fun _ hop => hop) fun op hop => ?_
  have known := legible.graph.known hd (List.mem_of_getElem? hop)
  refine ite (fun _ => rejectOperation legible rfl) fun _ => ?_
  refine bind ((closed legible).reconcileOperands _ _ _ _) fun _ _ => ?_
  refine bind ((closed legible).checkCallee _ fun b hb => ?_) fun canContinue _ => ?_
  · exact rejectOperation legible (Mismatch.worded_otherBuiltin (hb ▸ known) name)
  · refine bind (consume op) fun _ _ => ite (fun _ => pure trivial) fun _ => ?_
    exact bind (leaveBy legible) fun _ _ => pure trivial

theorem congruence : Congruence ctx ctx fun _ x _ => Tells r ctx depth x fun _ => True where
  toClosed := closed legible
  matchCall := matchCall legible

end Calls

end Tells

end Replay

end SsaReplay
