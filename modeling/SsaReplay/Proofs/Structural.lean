import SsaReplay.Proofs.Linkage
import SsaReplay.Proofs.Outcome.Program

namespace SsaReplay

namespace Graph

-- Some phi of some block has not one argument for every entry of the block.
def Cfg.Uneven (g : Cfg) : Prop :=
  ∃ b data phi owner arguments, g.block? b = some data ∧ phi ∈ data.phis ∧
    g.origin? phi = some (.phi owner arguments) ∧ arguments.length ≠ data.entries.length

def ControlFlow.graphs (c : ControlFlow) : List Cfg := c.main :: c.functions.map Prod.snd

theorem ControlFlow.mem_graphs_of_graphOf? {c : ControlFlow} {f : FunctionId} {g : Cfg}
    (h : c.graphOf? f = some g) : g ∈ c.graphs := by
  refine List.mem_cons_of_mem _ (List.mem_map.mpr ⟨(f, g), ?_, rfl⟩)
  obtain ⟨before, after, hsplit, -⟩ := List.lookup_eq_some_iff.mp h
  exact hsplit ▸ List.mem_append_right before List.mem_cons_self

theorem BasicBlock.lt_length_of_entryOffset? {data : BasicBlock} {source : BlockId} {offset : Nat}
    (h : data.entryOffset? source = some offset) : offset < data.entries.length :=
  (List.idxOf?_eq_some_iff.mp h).1

end Graph

namespace Replay

open SsaReplay.Graph (BasicBlock Cfg ControlFlow)

-- A mismatch about how the graphs hang together can only be one about the arguments of
-- phis, if some are missing or too many.
def Hangs (flow : ControlFlow) (m : Mismatch) : Prop :=
  m.code.isStructural = true → m.code = .phiEntryMissing ∧ ∃ g ∈ flow.graphs, g.Uneven

theorem hangs_of_not_structural {flow : ControlFlow} {m : Mismatch}
    (hm : m.code.isStructural = false) : Hangs flow m := by
  intro hstructural
  rw [hm] at hstructural
  exact absurd hstructural Bool.false_ne_true

theorem Hangs.lenient (flow : ControlFlow) : Lenient (Hangs flow) :=
  fun _ hm _ => hangs_of_not_structural hm

-- Why a phi has no argument to take along an entry, if there are so many entries.
inductive PhiUnfed (g : Cfg) (block : BlockId) (entries : Nat) (phi : ValueId) : Mismatch → Prop
  | uneven {owner : BlockId} {arguments : List ValueId}
      (origin : g.origin? phi = some (.phi owner arguments)) (uneven : arguments.length ≠ entries) :
      PhiUnfed g block entries phi (.phiArity phi arguments.length block entries)
  | other {origin : Graph.Origin} (known : g.origin? phi = some origin)
      (noPhi : ∀ owner arguments, origin ≠ .phi owner arguments) :
      PhiUnfed g block entries phi (.notAPhi phi block)
  | absent (unknown : g.origin? phi = none) : PhiUnfed g block entries phi (.absentPhi phi block)

-- With as many arguments as there are entries, there is one for each of them.
theorem PhiUnfed.of_error {g : Cfg} {block : BlockId} {entries offset : Nat} {phi : ValueId}
    {m : Mismatch} (ho : offset < entries)
    (h : phiArgument g block entries offset phi = .error m) : PhiUnfed g block entries phi m := by
  unfold phiArgument at h
  cases horigin : g.origin? phi with
  | none =>
      simp only [horigin] at h
      obtain rfl := Except.error.inj h
      exact .absent horigin
  | some origin =>
      cases origin with
      | phi owner arguments =>
          simp only [horigin] at h
          cases ha : arguments[offset]? with
          | none =>
              simp only [ha] at h
              obtain rfl := Except.error.inj h
              have hle := List.getElem?_eq_none_iff.mp ha
              exact .uneven horigin (by omega)
          | some argument =>
              simp only [ha] at h
              by_cases hl : arguments.length = entries
              · simp [hl] at h
              · rw [if_neg hl] at h
                obtain rfl := Except.error.inj h
                exact .uneven horigin hl
      | _ =>
          simp only [horigin] at h
          obtain rfl := Except.error.inj h
          exact .other horigin (by simp)

-- The phis that a block lists are phis, so only the number of arguments can be wrong.
theorem phiArgument_eq_error {g : Cfg} {b : BlockId} {data : BasicBlock} (placed : g.Placed)
    (hd : g.block? b = some data) {offset : Nat} (ho : offset < data.entries.length)
    {phi : ValueId} (hphi : phi ∈ data.phis) {m : Mismatch}
    (h : phiArgument g b data.entries.length offset phi = .error m) :
    m.code = .phiEntryMissing ∧ g.Uneven := by
  obtain ⟨origin, horigin, hplace⟩ :=
    Option.map_eq_some_iff.mp ((placed.blocks b data hd).phis phi hphi)
  cases PhiUnfed.of_error ho h with
  | @uneven owner arguments origin uneven =>
      exact ⟨rfl, b, data, phi, owner, arguments, hd, hphi, origin, uneven⟩
  | other known noPhi =>
      obtain rfl := Option.some.inj (horigin.symm.trans known)
      cases origin with
      | phi owner arguments => exact absurd rfl (noPhi owner arguments)
      | _ => exact absurd hplace (by simp [Graph.Origin.place])
  | absent unknown => exact absurd (horigin.symm.trans unknown) (by simp)

-- An edge on both of its ends gives no reason to stop but for its phis' arguments.
theorem vouched_of_edge {flow : ControlFlow} {g : Cfg} (hg : g ∈ flow.graphs) (placed : g.Placed)
    {source target : BlockId} (edge : g.HasEdge source target) :
    Vouched (Hangs flow) g source target := by
  obtain ⟨start, finish, hs, hf, ht, he⟩ := edge
  refine ⟨fun h => absurd (h.symm.trans hs) (by simp), fun h => absurd (h.symm.trans hf) (by simp),
    fun h => absurd ⟨start, finish, hs, hf, ht, he⟩ h, fun data m hd hp _ => ?_⟩
  obtain rfl := Option.some.inj (hf.symm.trans hd)
  rcases phiArguments_eq_error hp with ⟨hnone, -⟩ | ⟨offset, phi, hoffset, hphi, h⟩
  · exact absurd he (List.idxOf?_eq_none_iff.mp hnone)
  · have hlt := BasicBlock.lt_length_of_entryOffset? hoffset
    obtain ⟨hcode, uneven⟩ := phiArgument_eq_error placed hf hlt hphi h
    exact ⟨hcode, g, hg, uneven⟩

-- All graphs of the program were put together without misuse, the one at hand among them.
structure Context.Sound (ctx : Context) : Prop where
  graph : ctx.graph ∈ ctx.flow.graphs
  built : ∀ g ∈ ctx.flow.graphs, g.Built

variable {ctx : Context} {scope? : Option ScopeId} {duties : List Duty}

theorem Context.Sound.tolerant (h : ctx.Sound) : Tolerant (Hangs ctx.flow) ctx := by
  have built := h.built ctx.graph h.graph
  exact ⟨Hangs.lenient _, fun source target hl =>
    vouched_of_edge h.graph built.placed (built.linked.edges source target hl)⟩

theorem Context.Sound.entry (h : ctx.Sound) {m : Mismatch} :
    ctx.graph.block? ctx.graph.entry = none → Hangs ctx.flow m := by
  intro hnone
  obtain ⟨data, hd⟩ := (h.built ctx.graph h.graph).linked.entry
  exact absurd (hnone.symm.trans hd) (by simp)

theorem Context.Sound.within (h : ctx.Sound) {f : FunctionId} {graph : Cfg}
    (hg : ctx.flow.graphOf? f = some graph) : (ctx.within f graph).Sound :=
  ⟨Graph.ControlFlow.mem_graphs_of_graphOf? hg, h.built⟩

-- Whatever the program, a replay moves along edges that are there.
def KeepsToEdges (ctx : Context) (body : Walk Bool) : Prop :=
  ctx.Sound → ∀ scope? duties, (∀ d ∈ duties.head?, Bounds.free.Le d.bounds) →
    Runs (Hangs ctx.flow) ctx scope? duties .free .free body

theorem reads_free {names : List String} : Reads (Hangs ctx.flow) ctx scope? .free names :=
  fun _ _ _ _ => .inr (hangs_of_not_structural rfl)

theorem declarable_free {scopes : Yul.Scopes} {bound : VariableId → Bool} {names : List String} :
    Declarable scopes scope? (fun name _ => Hangs ctx.flow (.redeclared name)) bound names :=
  .of_forall fun _ _ => hangs_of_not_structural rfl

theorem signature_free {scopes : Yul.Scopes} {bound : VariableId → Bool} {names : List String} :
    Declarable scopes scope? (fun _ x => Hangs ctx.flow (.signatureRedeclared x)) bound names :=
  .of_forall fun _ _ => hangs_of_not_structural rfl

theorem names_free {names : List String} (x : VariableId) (_ : Names ctx scope? names x) :
    Bounds.free.lower x ∨ Bounds.free.upper x :=
  .inr trivial

theorem keepsToEdges_compositional : Compositional True KeepsToEdges where
  done ctx _ _ _ _ := .done (.refl _)
  expr ctx e sound _ _ _ := .replayBare sound.tolerant reads_free
  assign ctx names e sound _ _ _ := .replayAssignment sound.tolerant reads_free names_free
  letDecl ctx names value? sound _ _ _ := by
    refine .replayLet sound.tolerant reads_free (fun _ _ => declarable_free) ?_ ?_
    · exact fun x hx => .inl hx
    · exact fun _ _ => trivial
  leave ctx sound _ _ _ := .replayLeave sound.tolerant fun _ _ => .inr (hangs_of_not_structural rfl)
  loopJump ctx way sound _ _ fits := .replayLoopJump sound.tolerant way fits
  cond ctx condition body hb sound scope? duties fits :=
    .replayIf sound.tolerant (.refl _) reads_free (hb sound scope? duties fits)
  switch _ ctx e arms ha sound scope? duties fits :=
    .replaySwitch sound.tolerant (.refl _) reads_free fun arm h => ha arm h sound scope? duties fits
  forLoop ctx pre condition body postEmpty post hp hb hq sound scope? duties fits := by
    have inside : ∀ collecting, ∀ d ∈ (⟨.free, collecting⟩ :: duties : List Duty).head?,
        Bounds.free.Le d.bounds := by
      intro collecting d hd
      obtain rfl := Option.some.inj hd
      exact .refl _
    exact .replayFor sound.tolerant (.refl _) (.refl _) (fun _ h => h) reads_free
      (hp sound scope? duties fits) (hb sound scope? _ (inside true))
      (hq sound scope? _ (inside false))
  block ctx id body hb sound _ duties fits :=
    .inBlock sound.tolerant fun scope _ => hb sound (some scope) duties fits
  definition ctx d others _ hd ho sound scope? duties fits := by
    refine .inTurn (fun s hs => ?_) (ho sound scope? duties fits)
    refine Runs.replayDefinition sound.tolerant.lenient (fun f graph _ hg => ?_) hs
    have inner := sound.within hg
    refine ⟨inner.tolerant, inner.entry, signature_free, .free, .free, ?_, ?_⟩
    · exact hd _ inner _ [] fun d h => absurd h (Option.not_mem_none d)
    · exact fun b _ _ => ⟨Bounds.holds_free b, fun _ _ => .inr (hangs_of_not_structural rfl)⟩
  next ctx id rest first others hf ho sound scope? duties fits :=
    .thenOthers sound.tolerant (hf sound scope? duties fits) (ho sound scope? duties fits)

end Replay

open Replay

-- Graphs that were put together without misuse hang together: what may be missing in
-- them are arguments of phis.
theorem structural_of_built {s : Subject} {settings : Settings} {report : Report}
    (built : ∀ g ∈ s.flow.graphs, g.Built) (h : validate? s settings = some report) :
    report.hasCode .brokenEdge = false ∧ report.hasCode .invalidBlockRef = false ∧
      report.hasCode .invalidPhi = false ∧ report.hasCode .invalidValueRef = false ∧
        (report.hasCode .phiEntryMissing = true → ∃ g ∈ s.flow.graphs, g.Uneven) := by
  have sound : (s.context settings).Sound := ⟨List.mem_cons_self, built⟩
  have runs := keepsToEdges_compositional.ofBlock (s.context settings) s.program (.inl trivial)
    sound none [] fun d h => absurd h (Option.not_mem_none d)
  have ends := Ends.replayMain sound.tolerant sound.entry (Bounds.holds_free _) runs
  have found : ∀ c, report.hasCode c = true → c.isStructural = true →
      c = .phiEntryMissing ∧ ∃ g ∈ s.flow.graphs, g.Uneven := by
    intro c hc hstructural
    obtain ⟨m, hm, rfl⟩ := Subject.allowed_of_hasCode ends h hc
    exact hm hstructural
  have never : ∀ c : Code, c.isStructural = true → c ≠ .phiEntryMissing →
      report.hasCode c = false := by
    intro c hstructural hne
    cases hc : report.hasCode c with
    | false => rfl
    | true => exact absurd (found c hc hstructural).1 hne
  exact ⟨never _ rfl (by simp), never _ rfl (by simp), never _ rfl (by simp), never _ rfl (by simp),
    fun hc => (found _ hc rfl).2⟩

-- A join with a phi that was never given its arguments.
namespace Unfed

open SsaReplay.Graph (Cfg ConstructionStep)

def draft : List Yul.Draft :=
  [.letDecl ["x"] (some (.literal (.number 0))),
    .cond (.call "calldatasize" []) [.assign ["x"] (.literal (.number 1))],
    .expr (.call "sstore" [.literal (.number 0), .ident "x"])]

def steps : List ConstructionStep :=
  [.literal 0, .operation (.builtin ⟨23⟩) [] 1, .literal 1, .block, .block,
    .exit (.branch ⟨⟨1⟩, ⟨1⟩, ⟨2⟩⟩), .moveTo ⟨1⟩, .exit (.jump ⟨2⟩),
    .moveTo ⟨2⟩, .phi ⟨2⟩, .operation (.builtin ⟨29⟩) [⟨0⟩, ⟨3⟩] 0, .exit .mainExit]

def graph : Cfg := Cfg.ofSteps none steps

def program : Yul.Block × Yul.Analysis := Yul.laidOut draft

def subject : Subject := ⟨program.1, program.2, .evm, ⟨graph, []⟩⟩

theorem built : graph.Built := Cfg.built_of_steps (by decide +kernel)

theorem structural_of_built_here :
    ∃ report, validate? subject .default = some report ∧ report.hasCode .brokenEdge = false ∧
      report.hasCode .phiEntryMissing = true ∧ ∃ g ∈ subject.flow.graphs, g.Uneven := by
  have reported : (validate? subject .default).any (·.hasCode .phiEntryMissing) = true := by
    decide +kernel
  obtain ⟨report, hr, hcode⟩ := (Option.any_eq_true _ _).mp reported
  have all : ∀ g ∈ subject.flow.graphs, g.Built := fun g hg => List.mem_singleton.mp hg ▸ built
  obtain ⟨edges, -, -, -, uneven⟩ := structural_of_built all hr
  exact ⟨report, hr, edges, hcode, uneven hcode⟩

end Unfed

end SsaReplay
