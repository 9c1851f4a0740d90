import SsaReplay.Proofs.Execution.Settled
import SsaReplay.Proofs.Movement
import SsaReplay.Proofs.Resumption
import SsaReplay.Proofs.Structural

namespace SsaReplay

open SsaReplay.Graph (BasicBlock Branch Cfg Exit Operation)
open SsaReplay.Yul (Definition Expr Literal)

-- An output belongs to one operation only.
theorem Graph.Cfg.Placed.unique {g : Cfg} (hg : g.Placed) {b c : BlockId}
    {data found : BasicBlock} {k i : Nat} {op other : Operation} {v : ValueId}
    (hd : g.block? b = some data) (ho : data.operations[k]? = some op) (hv : v ∈ op.outputs)
    (hf : g.block? c = some found) (hi : found.operations[i]? = some other)
    (hw : v ∈ other.outputs) : c = b ∧ i = k ∧ other = op := by
  have outputs : ∀ {b data k} {op : Operation}, g.block? b = some data →
      data.operations[k]? = some op → v ∈ op.outputs → ∀ m, k < m → g.Outputs b m v := by
    intro b data k op hd ho hv m hm
    obtain ⟨hk, hop⟩ := List.getElem?_eq_some_iff.mp ho
    exact ⟨data, hd, op, List.mem_take_iff_getElem.mpr ⟨k, by omega, hop⟩, hv⟩
  have hplace := hg.of_outputs (outputs hd ho hv (k + 1) (Nat.lt_succ_self k))
  have hplace' := hg.of_outputs (outputs hf hi hw (i + 1) (Nat.lt_succ_self i))
  obtain rfl := Graph.Origin.defined.inj (Option.some.inj (hplace'.symm.trans hplace))
  obtain rfl := Option.some.inj (hd.symm.trans hf)
  rcases Nat.lt_trichotomy i k with hlt | rfl | hlt
  · exact absurd (outputs hf hi hw k hlt) (hg.not_outputs hd ho hv)
  · exact ⟨rfl, rfl, Option.some.inj (hi.symm.trans ho)⟩
  · exact absurd (outputs hd ho hv i hlt) (hg.not_outputs hf hi hw)

namespace Replay

-- If an operation yields the value, it has been matched before, and the position is past
-- it or on a way that leads from its block.
def Came (site : Site) (history : List Entry) (b : BlockId) (k : Nat) (v : ValueId) : Prop :=
  ∀ c data i op, site.graph.block? c = some data → data.operations[i]? = some op →
    v ∈ op.outputs → (∃ bindings, ⟨site, .consumed c i op bindings⟩ ∈ history) ∧
      (c = b ∧ i < k ∨ Relation.TransGen site.graph.Leads c b)

-- An operation whose output is a candidate when it is matched was matched before, and its
-- block has been reached from itself.
def Event.Repeats (site : Site) (history : List Entry) : Event → Prop
  | .consumed b i op bindings => ∀ v ∈ op.outputs, bindings.Holds v →
      (∃ before, ⟨site, .consumed b i op before⟩ ∈ history) ∧
        Relation.TransGen site.graph.Leads b b
  | _ => True

def Repeats : List Entry → Prop
  | [] => True
  | e :: earlier => e.event.Repeats e.site earlier ∧ Repeats earlier

-- Of bindings that came along edges to one block, the first edge is known.
def Led (site : Site) (history : List Entry) (edge? : Option (BlockId × BlockId))
    (found : List Bindings) : Prop :=
  ∀ b ∈ found, ∃ source target, edge? = some (source, target) ∧
    b.Within (Came site history target 0)

def LoopFrame.Traced (f : LoopFrame) (site : Site) (history : List Entry) : Prop :=
  ∀ way, Led site history (f.edges way).first? (f.edges way).bindings

structure Traced (ctx : Context) (s : State) : Prop where
  bindings : s.bindings.Within (Came ctx.site s.history s.block s.op)
  loops : ∀ f ∈ s.loops, f.Traced ctx.site s.history
  history : Repeats s.history

-- The replay goes on, and where its candidates come from stays known.
def Tracks (ctx : Context) (s t : State) : Prop :=
  Traced ctx s → Traced ctx t ∧ ∀ e ∈ s.history, e ∈ t.history

section Values

variable {site : Site} {history more : List Entry} {source target b : BlockId} {k m : Nat}
  {v : ValueId}

theorem Came.mono (h : Came site history b k v) (hh : ∀ e ∈ history, e ∈ more) (hk : k ≤ m) :
    Came site more b m v := by
  intro c data i op hd ho hv
  obtain ⟨⟨bindings, hm⟩, way⟩ := h c data i op hd ho hv
  exact ⟨⟨bindings, hh _ hm⟩, way.imp_left fun ⟨hc, hi⟩ => ⟨hc, Nat.lt_of_lt_of_le hi hk⟩⟩

theorem Came.lead (h : Came site history source k v) (edge : site.graph.Leads source target) :
    Came site history target 0 v := by
  intro c data i op hd ho hv
  obtain ⟨matched, ⟨rfl, -⟩ | way⟩ := h c data i op hd ho hv
  · exact ⟨matched, .inr (.single edge)⟩
  · exact ⟨matched, .inr (way.tail edge)⟩

-- No operation yields a value of another origin.
theorem Came.of_place {o : Graph.Origin} (hg : site.graph.Placed)
    (hp : site.graph.place? v = some o) (ho : ∀ c, o ≠ .defined c) : Came site history b k v := by
  intro c data i op hd hi hv
  have hmem : v ∈ data.outputs := List.mem_flatMap.mpr ⟨op, List.mem_of_getElem? hi, hv⟩
  have hplace := (hg.blocks c data hd).outputs v hmem
  exact absurd (Option.some.inj (hp.symm.trans hplace)) (ho c)

theorem Came.of_given (hg : site.graph.Placed) (hv : site.graph.IsGiven v) :
    Came site history b k v := by
  rcases hv with ⟨w, hw⟩ | ⟨x, hx⟩
  · obtain ⟨before, after, hsplit, -⟩ := List.lookup_eq_some_iff.mp hw
    have hmem : (w, v) ∈ site.graph.literals := hsplit ▸ List.mem_append_right _ List.mem_cons_self
    exact .of_place hg (hg.literals _ hmem) (by simp)
  · obtain ⟨i, hi⟩ := List.mem_iff_getElem?.mp hx
    exact .of_place hg (hg.arguments i x v hi) (by simp)

-- The outputs of the operation that was matched last.
theorem Came.of_consumed (hg : site.graph.Placed) {data : BasicBlock} {op : Operation}
    {bindings : Bindings} (hd : site.graph.block? b = some data)
    (ho : data.operations[k]? = some op) (hv : v ∈ op.outputs) :
    Came site (⟨site, .consumed b k op bindings⟩ :: history) b (k + 1) v := by
  intro c found i other hf hi hw
  obtain ⟨rfl, rfl, rfl⟩ := hg.unique hd ho hv hf hi hw
  exact ⟨⟨bindings, List.mem_cons_self⟩, .inl ⟨rfl, Nat.lt_succ_self _⟩⟩

theorem Led.mono {edge? : Option (BlockId × BlockId)} {found : List Bindings}
    (h : Led site history edge? found) (hh : ∀ e ∈ history, e ∈ more) :
    Led site more edge? found := by
  intro b hb
  obtain ⟨source, target, he, hw⟩ := h b hb
  exact ⟨source, target, he, hw.mono fun _ hv => hv.mono hh (Nat.le_refl _)⟩

-- What all the paths agree on is what came along any of them, or less.
theorem Led.met {found : List Bindings} {merged : Bindings}
    (h : Led site history (some (source, target)) found)
    (meets : Bindings.meet found = .ok merged) : merged.Within (Came site history target 0) := by
  cases found with
  | nil =>
      obtain rfl := Except.ok.inj meets
      exact Bindings.within_empty
  | cons first rest =>
      obtain ⟨_, _, he, hw⟩ := h first List.mem_cons_self
      obtain ⟨rfl, rfl⟩ := Prod.mk.inj (Option.some.inj he)
      exact (Bindings.refines_of_meet meets List.mem_cons_self).within hw

-- A further path comes along an edge to the same block.
theorem Led.add {edge? : Option (BlockId × BlockId)} {first : BlockId × BlockId}
    {found : List Bindings} {b : Bindings} (h : Led site history edge? found)
    (agrees : ∀ edge ∈ edge?, edge.2 = first.2)
    (hb : b.Within (Came site history first.2 0)) :
    Led site history (some first) (found ++ [b]) := by
  intro c hc
  refine ⟨first.1, first.2, rfl, ?_⟩
  rcases List.mem_append.mp hc with hc | hc
  · obtain ⟨source, target, he, hw⟩ := h c hc
    exact agrees (source, target) he ▸ hw
  · exact List.mem_singleton.mp hc ▸ hb

theorem LoopFrame.Traced.mono {f : LoopFrame} (h : f.Traced site history)
    (hh : ∀ e ∈ history, e ∈ more) : f.Traced site more :=
  fun way => (h way).mono hh

-- Once the edges to where the body continues are taken up, nothing more is asked of them.
theorem LoopFrame.Traced.continued {f next : LoopFrame} (h : f.Traced site history)
    (exits : next.exits = f.exits) (continues : next.continues.bindings = []) :
    next.Traced site history := by
  intro way
  cases way with
  | exits =>
      change Led site history next.exits.first? next.exits.bindings
      rw [exits]
      exact h .exits
  | continues =>
      intro b hb
      exact absurd (continues ▸ hb) List.not_mem_nil

theorem Repeats.of_append {earlier later : List Entry} {e : Entry}
    (h : Repeats (later ++ e :: earlier)) : e.event.Repeats e.site earlier := by
  induction later with
  | nil => exact h.1
  | cons x later ih => exact ih h.2

-- Along an edge come the candidates of before and phis of the target.
theorem Carries.came {before after : Bindings} (hg : site.graph.Placed)
    (h : Carries site.graph source target before after) (edge : site.graph.Leads source target)
    (hb : before.Within (Came site history source k)) :
    after.Within (Came site history target 0) := by
  obtain ⟨data, pairs, hd, hp, rfl⟩ := h
  intro x held v hx hv
  rw [Bindings.lookup_acrossEdge, Option.map_eq_some_iff] at hx
  obtain ⟨values, hvalues, rfl⟩ := hx
  rcases Bindings.mem_carried.mp hv with ⟨hv, -⟩ | ⟨w, -, hv⟩
  · exact (hb x values v hvalues hv).lead edge
  · have hphi : v ∈ data.phis := by
      rw [← (phiArguments_eq_ok hp).1]
      exact List.mem_map_of_mem (f := Prod.snd) (mem_phisFedBy.mp hv)
    exact .of_place hg ((hg.blocks target data hd).phis v hphi) (by simp)

end Values

variable {ctx : Context} {s t u : State} {source target : BlockId} {b : Bindings}

theorem Tracks.refl (s : State) : Tracks ctx s s := fun hs => ⟨hs, fun _ he => he⟩

theorem Tracks.trans (h : Tracks ctx s t) (k : Tracks ctx t u) : Tracks ctx s u := by
  intro hs
  obtain ⟨ht, hh⟩ := h hs
  obtain ⟨hu, kh⟩ := k ht
  exact ⟨hu, fun e he => kh e (hh e he)⟩

-- Where only scope and warnings change.
theorem Tracks.congr (h : Tracks ctx s t) (hb : u.block = t.block) (ho : u.op = t.op)
    (hm : u.bindings = t.bindings) (hl : u.loops = t.loops) (hh : u.history = t.history) :
    Tracks ctx s u := by
  intro hs
  obtain ⟨⟨bindings, loops, history⟩, kept⟩ := h hs
  refine ⟨⟨?_, ?_, ?_⟩, ?_⟩
  · rwa [hm, hb, ho, hh]
  · rwa [hl, hh]
  · rwa [hh]
  · rwa [hh]

theorem Traced.log (h : Traced ctx t) {e : Event} (he : e.Repeats ctx.site t.history) :
    Traced ctx (t.log ctx.site e) := by
  have longer : ∀ x ∈ t.history, x ∈ (⟨ctx.site, e⟩ :: t.history : List Entry) :=
    fun _ hx => List.mem_cons_of_mem _ hx
  exact ⟨h.bindings.mono fun _ hv => hv.mono longer (Nat.le_refl _),
    fun f hf => (h.loops f hf).mono longer, he, h.history⟩

theorem Tracks.log (h : Tracks ctx s t) (e : Event)
    (he : Traced ctx t → e.Repeats ctx.site t.history) : Tracks ctx s (t.log ctx.site e) := by
  intro hs
  obtain ⟨ht, kept⟩ := h hs
  exact ⟨ht.log (he ht), fun x hx => List.mem_cons_of_mem _ (kept x hx)⟩

theorem Tracks.bindings (h : Tracks ctx s t)
    (hb : Traced ctx t → b.Within (Came ctx.site t.history t.block t.op)) :
    Tracks ctx s { t with bindings := b } := by
  intro hs
  obtain ⟨ht, kept⟩ := h hs
  exact ⟨⟨hb ht, ht.loops, ht.history⟩, kept⟩

theorem Tracks.follow (h : Tracks ctx s t)
    (hb : Traced ctx t → b.Within (Came ctx.site t.history target 0)) :
    Tracks ctx s (t.follow ctx.site source target b) := by
  intro hs
  obtain ⟨ht, kept⟩ := h hs
  have longer : ∀ x ∈ t.history, x ∈ (t.follow ctx.site source target b).history :=
    fun _ hx => List.mem_cons_of_mem _ hx
  have logged : Traced ctx (t.log ctx.site (.advanced source target b)) := ht.log trivial
  refine ⟨⟨(hb ht).mono fun _ hv => ?_, logged.loops, logged.history⟩,
    fun x hx => longer x (kept x hx)⟩
  exact hv.mono longer (Nat.le_refl _)

-- What was known of an edge earlier is still known when it is followed.
theorem Tracks.resume (h : Tracks ctx s t) (k : Tracks ctx t u)
    (hb : Traced ctx t → b.Within (Came ctx.site t.history target 0)) :
    Tracks ctx s (u.follow ctx.site source target b) := by
  refine h.trans fun ht => ?_
  have kept := (k ht).2
  have followed : Tracks ctx t (u.follow ctx.site source target b) :=
    k.follow fun _ => (hb ht).mono fun _ hv => hv.mono kept (Nat.le_refl _)
  exact followed ht

theorem Tracks.leave {exit : Exit} (h : Tracks ctx s t) :
    Tracks ctx s (t.log ctx.site (.left t.block exit)) :=
  h.log _ fun _ => trivial

theorem Tracks.carry {after : Bindings} (h : Tracks ctx s t) :
    Tracks ctx s (t.log ctx.site (.carried source target b after)) :=
  h.log _ fun _ => trivial

theorem Tracks.merge (h : Tracks ctx s t) : Tracks ctx s (t.log ctx.site (.merged target b)) :=
  h.log _ fun _ => trivial

theorem AtExit.lead {exit : Exit} (h : AtExit ctx s exit) (ht : target ∈ exit.targets) :
    ctx.graph.Leads s.block target := by
  obtain ⟨data, hd, -, rfl⟩ := h
  exact ⟨data, hd, ht⟩

section Expr

theorem Reconciled.tracks {e : Expr} {candidates : ValueSet} {v : ValueId}
    (h : Reconciled ctx s e candidates v t) : Tracks ctx s t := by
  cases h with
  | named resolved bound member =>
      exact (Tracks.refl s).bindings fun hs => hs.bindings.narrow bound member
  | result => exact .refl s

theorem OperandsReconciled.tracks {operands : List (Expr × ValueSet)} {inputs : List ValueId}
    (h : OperandsReconciled ctx s operands inputs t) : Tracks ctx s t :=
  h.invariant (fun first before => before.trans first.tracks) (.refl s)

-- If an output is a candidate already, then from its operation a way led back to it.
theorem Tracks.consume {data : BasicBlock} {op : Operation} (h : Tracks ctx s t)
    (block : ctx.graph.block? t.block = some data) (atOp : data.operations[t.op]? = some op) :
    Tracks ctx s (t.consume ctx.site op) := by
  have logged : Tracks ctx s (t.log ctx.site (.consumed t.block t.op op t.bindings)) := by
    refine h.log _ fun ht v hv => ?_
    rintro ⟨x, held, hx, hm⟩
    obtain ⟨before, ⟨-, hlt⟩ | way⟩ := ht.bindings x held v hx hm t.block data t.op op block atOp hv
    · exact absurd hlt (Nat.lt_irrefl _)
    · exact ⟨before, way⟩
  intro hs
  obtain ⟨⟨bindings, loops, history⟩, kept⟩ := logged hs
  exact ⟨⟨bindings.mono fun _ hv => hv.mono (fun _ he => he) (Nat.le_succ _), loops, history⟩, kept⟩

theorem CallMatched.tracks {name : String} {operands : List (Expr × ValueSet)}
    {results? : Option (List ValueSet)} (h : CallMatched ctx name operands s results? t) :
    Tracks ctx s t := by
  cases h with
  | returning block atOp inputs callee =>
      obtain ⟨block, atOp⟩ := inputs.nextOperation block atOp
      exact inputs.tracks.consume block atOp
  | final block atOp inputs callee ends =>
      obtain ⟨block, atOp⟩ := inputs.nextOperation block atOp
      exact (inputs.tracks.consume block atOp).leave

theorem tracks_callwise : Callwise ctx (Tracks ctx) := ⟨.refl, .trans, CallMatched.tracks⟩

theorem CallMatched.came {name : String} {operands : List (Expr × ValueSet)}
    {results : List ValueSet} (hg : ctx.graph.Placed)
    (h : CallMatched ctx name operands s (some results) t) :
    ∀ set ∈ results, ∀ v ∈ set, Came ctx.site t.history t.block t.op v := by
  cases h with
  | @returning data op u block atOp inputs callee =>
      obtain ⟨hb, ho⟩ := inputs.position
      intro set hset v hv
      obtain ⟨w, hw, rfl⟩ := List.mem_map.mp hset
      obtain rfl := (ValueSet.mem_single v w).mp hv
      exact .of_consumed hg (hb ▸ block) (ho ▸ atOp) hw

-- The candidates of an expression.
theorem replayExpr_came (hg : ctx.graph.Placed) (e : Expr) {values : List ValueSet}
    (h : replayExpr ctx e s = .ok (some values) t) (hs : Traced ctx s) :
    ∀ set ∈ values, ∀ v ∈ set, Came ctx.site t.history t.block t.op v := by
  cases e with
  | ident name =>
      obtain ⟨⟨x, held, hx, hb, hvalues⟩, rfl⟩ := replayExpr_ident_eq_ok.mp h
      obtain rfl := Option.some.inj hvalues
      simpa using fun v hv => hs.bindings x held v hb hv
  | literal l =>
      obtain ⟨⟨w, hw, hvalues⟩, rfl⟩ := replayExpr_literal_eq_ok.mp h
      obtain rfl := Option.some.inj hvalues
      have hcame : Came ctx.site s.history s.block s.op w := .of_given hg (.inl ⟨l.value, hw⟩)
      simpa using hcame
  | call name arguments =>
      rcases replayExpr_call_of_ok h with ⟨hn, -⟩ | ⟨operands, u, ha, hm⟩
      · exact absurd hn (by simp)
      · exact hm.came hg

end Expr

-- However a replay goes, it keeps track of where its candidates come from.
def Tracking (ctx : Context) (body : Walk Bool) : Prop :=
  ctx.Sound → ∀ {s r t}, body s = .ok r t → Tracks ctx s t

theorem Context.Sound.placed (h : ctx.Sound) : ctx.graph.Placed :=
  (h.built ctx.graph h.graph).placed

theorem replayOne_tracks {e : Expr} {value? : Option ValueSet}
    (h : replayOne ctx e s = .ok value? t) : Tracks ctx s t := by
  obtain ⟨values?, he, -⟩ := replayOne_eq_ok.mp h
  exact tracks_callwise.ofExpr e he

section Branch

-- The two ways behind a branch are entered with candidates that came along them.
theorem Tested.tracks {e : Expr} {branch : Branch} {zero : Bindings} (hg : ctx.graph.Placed)
    (h : Tested ctx e s branch zero t) :
    Tracks ctx s t ∧ (Traced ctx t →
      t.bindings.Within (Came ctx.site t.history branch.nonZero 0) ∧
        zero.Within (Came ctx.site t.history branch.zero 0)) := by
  cases h with
  | @mk candidates _ _ u v value exit fits carries =>
      have leads : ∀ target ∈ (Exit.branch branch).targets, ctx.graph.Leads v.block target := by
        intro target ht
        have hlead := exit.lead ht
        obtain ⟨hb, -⟩ := fits.position
        rw [hb]
        exact hlead
      refine ⟨(((replayOne_tracks value).leave).trans fits.tracks).carry, fun ht => ⟨?_, ?_⟩⟩
      · exact ht.bindings.mono fun _ hv => hv.lead (leads _ (by simp [Exit.targets]))
      · exact carries.came hg (leads _ (by simp [Exit.targets])) ht.bindings

theorem IfReplayed.tracks {condition : Expr} {body : Walk Bool} {r : Bool} (sound : ctx.Sound)
    (hb : Tracking ctx body) (h : IfReplayed ctx condition body s r t) : Tracks ctx s t := by
  cases h with
  | stuck value => exact replayOne_tracks value
  | @joined branch skipping running merged v w tested into run exit back meets owned edge =>
      obtain ⟨first, known⟩ := tested.tracks sound.placed
      have inside := (first.follow fun hv => (known hv).1).trans (hb sound run)
      refine inside.leave.carry.merge.follow fun hw => ?_
      have hrunning := back.came sound.placed (exit.lead (by simp [Exit.targets])) hw.bindings
      exact (Bindings.refines_of_meet meets (by simp)).within hrunning
  | skipped tested into run edge =>
      obtain ⟨first, known⟩ := tested.tracks sound.placed
      have inside := ((Tracks.refl _).follow fun hv => (known hv).1).trans (hb sound run)
      exact first.resume inside fun hv => (known hv).2

-- No operation that compares yields anything before it is matched.
theorem Compared.tracks {e : Expr} {candidates : ValueSet} {value : Literal} {result : ValueId}
    (h : Compared ctx e candidates value s result t) : Tracks ctx s t := by
  obtain ⟨data, op, against, read, u, fits, block, atOp, -, rfl⟩ := h.matched
  exact fits.tracks.consume block atOp

def SwitchJoin.Traced (join : SwitchJoin) (ctx : Context) (s : State) : Prop :=
  Led ctx.site s.history join.edge? join.contributions

theorem ArmReplayed.tracks {body : Walk Bool} {join next : SwitchJoin} (sound : ctx.Sound)
    (hb : Tracking ctx body) (h : ArmReplayed ctx body join s next t) : Tracks ctx s t := by
  cases h with
  | left run => exact hb sound run
  | joined run exit agrees carries => exact ((hb sound run).leave).carry

theorem ArmReplayed.traced {body : Walk Bool} {join next : SwitchJoin} (sound : ctx.Sound)
    (hb : Tracking ctx body) (h : ArmReplayed ctx body join s next t) (hs : Traced ctx s)
    (hj : join.Traced ctx s) : next.Traced ctx t := by
  have kept := (h.tracks sound hb hs).2
  cases h with
  | left run => exact Led.mono hj kept
  | @joined target bindings w run exit agrees carries =>
      have hw := (hb sound run hs).1
      have came := carries.came sound.placed (exit.lead (by simp [Exit.targets])) hw.bindings
      refine Led.add (Led.mono hj kept) agrees (came.mono fun _ hv => hv.mono ?_ (Nat.le_refl _))
      exact fun e he => List.mem_cons_of_mem _ (List.mem_cons_of_mem _ he)

-- A condition's non-zero edge is followed with the candidates of its source.
theorem AtExit.tracks {branch : Branch} (exit : AtExit ctx s (.branch branch))
    (otherwise : Bindings) :
    Tracks ctx s (((s.log ctx.site (.left s.block (.branch branch))).log ctx.site
      (.carried s.block branch.zero s.bindings otherwise)).follow ctx.site s.block branch.nonZero
        s.bindings) :=
  (((Tracks.refl s).leave).carry).follow fun hs => hs.bindings.mono fun _ hv =>
    hv.lead (exit.lead (by simp [Exit.targets]))

theorem CaseReplayed.tracks {e : Expr} {candidates : ValueSet} {value : Literal}
    {body : Walk Bool} {join next : SwitchJoin} (sound : ctx.Sound) (hb : Tracking ctx body)
    (h : CaseReplayed ctx e candidates value body join s next t) : Tracks ctx s t := by
  cases h with
  | mk compared exit zero into arm edge =>
      exact compared.tracks.resume ((exit.tracks _).trans (arm.tracks sound hb)) fun hu =>
        zero.came sound.placed (exit.lead (by simp [Exit.targets])) hu.bindings

theorem CaseReplayed.traced {e : Expr} {candidates : ValueSet} {value : Literal}
    {body : Walk Bool} {join next : SwitchJoin} (sound : ctx.Sound) (hb : Tracking ctx body)
    (h : CaseReplayed ctx e candidates value body join s next t) (hs : Traced ctx s)
    (hj : join.Traced ctx s) : next.Traced ctx t := by
  cases h with
  | @mk _ otherwise _ _ _ compared exit zero into arm edge =>
      obtain ⟨ha, kept⟩ := (compared.tracks.trans (exit.tracks otherwise)) hs
      exact Led.mono (arm.traced sound hb ha (Led.mono hj kept)) fun e he =>
        List.mem_cons_of_mem _ he

theorem CasesReplayed.tracks {e : Expr} {candidates : ValueSet} {arms : List Arm}
    {join last : SwitchJoin} (sound : ctx.Sound) (hb : ∀ arm ∈ arms, Tracking ctx arm.2)
    (h : CasesReplayed ctx e candidates arms join s last t) : Tracks ctx s t :=
  h.invariant hb (P := fun _ => Tracks ctx s)
    (fun hf first before => before.trans (first.tracks sound hf)) (.refl s)

theorem CasesReplayed.traced {e : Expr} {candidates : ValueSet} {arms : List Arm}
    {join last : SwitchJoin} (sound : ctx.Sound) (hb : ∀ arm ∈ arms, Tracking ctx arm.2)
    (h : CasesReplayed ctx e candidates arms join s last t) (hs : Traced ctx s)
    (hj : join.Traced ctx s) : last.Traced ctx t :=
  (h.invariant hb (P := fun here u => Replay.Traced ctx u ∧ here.Traced ctx u)
    (fun hf first ⟨hu, here⟩ => ⟨(first.tracks sound hf hu).1, first.traced sound hf hu here⟩)
    ⟨hs, hj⟩).2

theorem Settled.tracks {join : SwitchJoin} {r : Bool} (h : Settled ctx join s r t)
    (hj : join.Traced ctx s) : Tracks ctx s t := by
  have met : ∀ {source target merged}, join.edge? = some (source, target) →
      Bindings.meet join.contributions = .ok merged →
        merged.Within (Came ctx.site s.history target 0) := by
    intro source target merged found meets
    have led : Led ctx.site s.history (some (source, target)) join.contributions := found ▸ hj
    exact led.met meets
  cases h with
  | nowhere noEdge => exact .refl s
  | advanced found meets owned elsewhere edge =>
      exact (Tracks.refl s).resume (Tracks.refl s).merge fun _ => met found meets
  | there found meets owned here =>
      subst here
      refine (Tracks.refl s).merge.bindings fun _ => (met found meets).mono fun _ hv => ?_
      exact hv.mono (fun _ he => List.mem_cons_of_mem _ he) (Nat.zero_le _)

theorem tracking_done : Tracking ctx (pure true) := fun _ _ _ _ h => by
  obtain ⟨-, rfl⟩ := pure_eq_ok.mp h
  exact .refl _

theorem FallbackReplayed.tracks {default? : Option (Walk Bool)} {join : SwitchJoin} {r : Bool}
    (sound : ctx.Sound) (hb : ∀ body ∈ default?, Tracking ctx body)
    (h : FallbackReplayed ctx default? join s r t) (start : s.op = 0)
    (hj : join.Traced ctx s) : Tracks ctx s t := by
  intro hs
  cases h with
  | default arm settled =>
      have inside := arm.traced sound (hb _ rfl) hs hj
      exact ((arm.tracks sound (hb _ rfl)).trans (settled.tracks inside)) hs
  | unjoined noEdge => exact ⟨hs, fun _ he => he⟩
  | @direct _ edge _ _ _ found here settled =>
      refine settled.tracks ?_ hs
      have came : s.bindings.Within (Came ctx.site s.history edge.2 0) := by
        rw [← here, ← start]
        exact hs.bindings
      unfold SwitchJoin.Traced at hj ⊢
      rw [found] at hj ⊢
      exact hj.add (fun _ he => (Option.some.inj he) ▸ rfl) came
  | through found elsewhere arm settled =>
      have inside := arm.traced sound tracking_done hs hj
      exact ((arm.tracks sound tracking_done).trans (settled.tracks inside)) hs

theorem SwitchReplayed.tracks {e : Expr} {arms : List Arm} {r : Bool} (sound : ctx.Sound)
    (hb : ∀ arm ∈ arms, Tracking ctx arm.2) (h : SwitchReplayed ctx e arms s r t) :
    Tracks ctx s t := by
  cases h with
  | stuck value => exact replayOne_tracks value
  | noArms value split => exact replayOne_tracks value
  | onlyDefault value split run =>
      exact (replayOne_tracks value).trans (hb _ ((mem_of_splitDefault split).2 _ rfl) sound run)
  | cases value split some_case run fallback =>
      obtain ⟨hcases, hdefault⟩ := mem_of_splitDefault split
      have hc := fun arm ha => hb arm (hcases arm ha)
      have hd := fun body hm => hb _ (hdefault body hm)
      refine (replayOne_tracks value).trans fun hu => ?_
      have found := run.traced sound hc hu (by simp [SwitchJoin.Traced, Led, SwitchJoin.none])
      exact ((run.tracks sound hc).trans
        (fallback.tracks sound hd (run.op_eq (.inl some_case)) found)) hu

end Branch

section Loop

theorem EdgeRecorded.tracks {way : LoopWay} (h : EdgeRecorded ctx way source target b s t)
    (hb : b.Within (Came ctx.site s.history target 0)) : Tracks ctx s t := by
  intro hs
  cases h with
  | @mk frame outer opened edge agrees =>
      have longer : ∀ e ∈ s.history,
          e ∈ (⟨ctx.site, .loopEdge way frame.header source target⟩ :: s.history : List Entry) :=
        fun _ he => List.mem_cons_of_mem _ he
      have logged : Traced ctx (s.log ctx.site (.loopEdge way frame.header source target)) :=
        hs.log trivial
      have came := hb.mono fun _ hv => hv.mono longer (Nat.le_refl _)
      obtain ⟨bindings, loops, history⟩ := logged
      obtain ⟨innermost, others⟩ := List.forall_mem_cons.mp (opened ▸ loops)
      refine ⟨⟨bindings, List.forall_mem_cons.mpr ⟨fun other => ?_, others⟩, history⟩, longer⟩
      by_cases hw : other = way
      · subst hw
        rw [LoopFrame.edges_note]
        refine Led.add (innermost other) (fun e he => ?_) (agrees.symm ▸ came)
        rw [he, Option.getD_some]
      · rw [LoopFrame.edges_note_of_ne _ _ _ _ _ hw]
        exact innermost other

-- A jump takes what is known along its edge.
theorem AtExit.jumped {after : Bindings} (sound : ctx.Sound) (exit : AtExit ctx s (.jump target))
    (carries : Carries ctx.graph s.block target s.bindings after) :
    Tracks ctx s (((s.log ctx.site (.left s.block (.jump target))).log ctx.site
      (.carried s.block target s.bindings after)).follow ctx.site s.block target after) :=
  (Tracks.refl s).resume ((Tracks.refl s).leave).carry fun hs =>
    carries.came sound.placed (exit.lead (by simp [Exit.targets])) hs.bindings

theorem LoopJumped.tracks {way : LoopWay} (sound : ctx.Sound) (h : LoopJumped ctx way s t) :
    Tracks ctx s t := by
  cases h with
  | mk exit carries recorded =>
      intro hs
      have came := carries.came sound.placed (exit.lead (by simp [Exit.targets])) hs.bindings
      refine ((Tracks.refl s).leave.carry.trans (recorded.tracks ?_)) hs
      exact came.mono fun _ hv => hv.mono (fun _ he => List.mem_cons_of_mem _
        (List.mem_cons_of_mem _ he)) (Nat.le_refl _)

theorem ConditionReplayed.tracks {condition? : Option Expr} {r : Bool} (sound : ctx.Sound)
    (h : ConditionReplayed ctx s condition? r t) : Tracks ctx s t := by
  cases h with
  | untested => exact .refl s
  | stuck value => exact replayOne_tracks value
  | tested tested recorded into =>
      obtain ⟨first, known⟩ := tested.tracks sound.placed
      refine first.trans fun hv => ?_
      exact (Tracks.refl _).resume (recorded.tracks (known hv).2) (fun hv => (known hv).1) hv

theorem PostReplayed.tracks {header : BlockId} {post : Walk Bool} (sound : ctx.Sound)
    (hp : Tracking ctx post) (h : PostReplayed ctx header post s t) : Tracks ctx s t := by
  cases h with
  | stopped run => exact hp sound run
  | latched run exit edge carries opened =>
      refine ((hp sound run).leave.carry).trans fun hw => ⟨⟨hw.bindings, ?_, hw.history⟩,
        fun _ he => he⟩
      obtain ⟨innermost, others⟩ := List.forall_mem_cons.mp (opened ▸ hw.loops)
      exact List.forall_mem_cons.mpr ⟨innermost, others⟩

theorem ContinuesReplayed.tracks {header : BlockId} {postEmpty : Bool} {post : Walk Bool}
    (sound : ctx.Sound) (hp : Tracking ctx post)
    (h : ContinuesReplayed ctx header postEmpty post s t) : Tracks ctx s t := by
  cases h with
  | nowhere opened noEdge => exact .refl s
  | direct opened found empty =>
      intro hs
      obtain ⟨innermost, others⟩ := List.forall_mem_cons.mp (opened ▸ hs.loops)
      exact ⟨⟨hs.bindings, List.forall_mem_cons.mpr ⟨innermost.continued rfl rfl, others⟩,
        hs.history⟩, fun _ he => he⟩
  | @post frame outer source target merged _ opened found elsewhere meets owned edge run =>
      let taken : State := { s with
        loops := { frame with continues := ⟨some (source, target), []⟩ } :: outer }
      intro hs
      obtain ⟨innermost, others⟩ := List.forall_mem_cons.mp (opened ▸ hs.loops)
      have led : Led ctx.site s.history (some (source, target)) frame.continues.bindings :=
        found ▸ innermost .continues
      have begun : Traced ctx taken :=
        ⟨hs.bindings, List.forall_mem_cons.mpr ⟨innermost.continued rfl rfl, others⟩, hs.history⟩
      have entered : Tracks ctx taken ((taken.log ctx.site (.merged target merged)).follow
          ctx.site source target merged) :=
        (Tracks.refl taken).resume (Tracks.refl taken).merge fun _ => led.met meets
      exact (entered.trans (run.tracks sound hp)) begun

theorem PassReplayed.tracks {header : BlockId} {parts : LoopParts} (sound : ctx.Sound)
    (hb : Tracking ctx parts.body) (hp : Tracking ctx parts.post)
    (h : PassReplayed ctx header parts s t) : Tracks ctx s t := by
  cases h with
  | stuck condition => exact condition.tracks sound
  | stopped condition body continues =>
      exact ((condition.tracks sound).trans (hb sound body)).trans (continues.tracks sound hp)
  | fallen condition body jump continues =>
      exact (((condition.tracks sound).trans (hb sound body)).trans (jump.tracks sound)).trans
        (continues.tracks sound hp)

-- A pass begins at the header anew, with at most what came along the edge into the loop.
theorem LoopPassed.tracks {header : BlockId} {warnings iteration : Nat} {parts : LoopParts}
    {entry : Bindings} {frame : LoopFrame} (sound : ctx.Sound) (hb : Tracking ctx parts.body)
    (hp : Tracking ctx parts.post)
    (h : LoopPassed ctx header warnings parts iteration entry s frame t)
    (he : entry.Within (Came ctx.site s.history header 0)) (hs : Traced ctx s) :
    (Traced ctx t ∧ ∀ e ∈ s.history, e ∈ t.history) ∧ frame.Traced ctx.site t.history := by
  cases h with
  | mk run opened =>
      have logged : Traced ctx (s.log ctx.site (.loopPass header iteration entry)) :=
        hs.log trivial
      have begun : Traced ctx (s.beginPass ctx.site header warnings iteration entry) := by
        refine ⟨he.mono fun _ hv => hv.mono (fun _ hm => List.mem_cons_of_mem _ hm) (Nat.le_refl _),
          List.forall_mem_cons.mpr ⟨fun way => ?_, logged.loops⟩, logged.history⟩
        cases way <;> exact fun _ hm => absurd hm List.not_mem_nil
      obtain ⟨ht, kept⟩ := run.tracks sound hb hp begun
      obtain ⟨innermost, others⟩ := List.forall_mem_cons.mp (opened ▸ ht.loops)
      exact ⟨⟨⟨ht.bindings, others, ht.history⟩,
        fun e hm => kept e (List.mem_cons_of_mem _ hm)⟩, innermost⟩

theorem LoopLeft.tracks {exits : LoopEdges} {r : Bool} (h : LoopLeft ctx exits s r t)
    (hx : Led ctx.site s.history exits.first? exits.bindings) : Tracks ctx s t := by
  cases h with
  | never noEdge => exact .refl s
  | left found meets owned edge =>
      rw [found] at hx
      exact (Tracks.refl s).resume (Tracks.refl s).merge fun _ => hx.met meets

theorem IterateReplayed.tracks {header : BlockId} {warnings iteration : Nat} {parts : LoopParts}
    {entry : Bindings} {r : Bool} (sound : ctx.Sound) (hb : Tracking ctx parts.body)
    (hp : Tracking ctx parts.post)
    (h : IterateReplayed ctx header warnings parts iteration entry s r t)
    (he : entry.Within (Came ctx.site s.history header 0)) : Tracks ctx s t := by
  induction h with
  | settled pass stable owned left =>
      intro hs
      obtain ⟨first, exits⟩ := pass.tracks sound hb hp he hs
      have passed : Tracks ctx _ _ := fun _ => first
      refine (passed.merge.trans (left.tracks ?_)) hs
      exact (exits .exits).mono fun _ hm => List.mem_cons_of_mem _ hm
  | again pass refines next ih =>
      intro hs
      obtain ⟨first, -⟩ := pass.tracks sound hb hp he hs
      have passed : Tracks ctx _ _ := fun _ => first
      refine (passed.merge.trans (ih ?_)) hs
      have known := (Bindings.refines_of_meet refines List.mem_cons_self).within he
      exact known.mono fun _ hv => hv.mono (fun e hm => List.mem_cons_of_mem _ (first.2 e hm))
        (Nat.le_refl _)

theorem ForReplayed.tracks {pre : Walk Bool} {condition : Expr} {body : Walk Bool}
    {postEmpty : Bool} {post : Walk Bool} {r : Bool} (sound : ctx.Sound)
    (hpre : Tracking ctx pre) (hb : Tracking ctx body) (hp : Tracking ctx post)
    (h : ForReplayed ctx pre condition body postEmpty post s r t) : Tracks ctx s t := by
  cases h with
  | stuck run => exact hpre sound run
  | never run exit carries edge constant literal zero =>
      exact (hpre sound run).trans (exit.jumped sound carries)
  | loop run exit carries edge unlessZero iterate =>
      refine ((hpre sound run).trans (exit.jumped sound carries)).trans fun hu => ?_
      exact iterate.tracks sound hb hp hu.bindings hu

end Loop

section Definition

theorem ReturnsHeld.refines {pairs : List (VariableId × ValueId)} {b b' : Bindings}
    (h : ReturnsHeld b pairs b') : b'.Refines b := by
  induction h with
  | nil => exact .refl _
  | cons bound member others ih => exact ih.trans (Bindings.refines_narrow bound member)

theorem FunctionLeft.tracks (h : FunctionLeft ctx s t) : Tracks ctx s t := by
  cases h with
  | mk exit count held =>
      exact (Tracks.refl s).leave.bindings fun hs => held.refines.within hs.bindings

theorem Warned.tracks (h : Warned ctx s t) : Tracks ctx s t := by
  cases h with
  | silent => exact .refl s
  | warned m location =>
      exact ((Tracks.refl s).log (.found m location) fun _ => trivial).congr rfl rfl rfl rfl rfl

-- A definition is replayed with nothing but its arguments and the zero of its returns.
theorem FunctionReplayed.tracks {d : Definition} {body : Walk Bool} (sound : ctx.Sound)
    (hb : Tracking ctx body) (h : FunctionReplayed ctx d body s t) : Tracks ctx s t := by
  cases h with
  | @mk bound all falls u _ parameters returns run ends =>
      have entered : Tracks ctx s (s.inFunction ctx d all) := by
        have logged : Tracks ctx s (s.log ctx.site (.entered (some d))) :=
          (Tracks.refl s).log _ fun _ => trivial
        refine (logged.bindings (b := all) fun hs => ?_).congr rfl rfl rfl rfl rfl
        exact returns.within
          (parameters.within_parameters hs.bindings fun _ => .of_given sound.placed)
          fun _ => .of_given sound.placed
      rcases ends with ⟨-, rfl⟩ | ⟨-, left⟩
      · exact entered.trans (hb sound run)
      · exact (entered.trans (hb sound run)).trans left.tracks

theorem DefinitionReplayed.tracks {d : Definition} (sound : ctx.Sound)
    (hb : ∀ inner, Tracking inner (replayBlock inner d.body))
    (h : DefinitionReplayed ctx d (replayBlock · d.body) s t) : Tracks ctx s t := by
  cases h with
  | @mk f graph u resolved defined parameters returns run =>
      intro hs
      have begun : Traced (ctx.within f graph) (s.apartOn graph) :=
        ⟨Bindings.within_empty, fun _ hf => absurd hf List.not_mem_nil, hs.history⟩
      have inner := sound.within defined
      obtain ⟨hu, kept⟩ := (functionReplayed_of_ok run).tracks inner (hb _) begun
      exact ⟨⟨hs.bindings.mono fun _ hv => hv.mono kept (Nat.le_refl _),
        fun frame hf => (hs.loops frame hf).mono kept, hu.history⟩, kept⟩

end Definition

theorem InitialValues.tracks {count : Nat} {value? : Option Expr}
    {values? : Option (List ValueSet)} (sound : ctx.Sound)
    (h : InitialValues ctx count s value? values? t) :
    Tracks ctx s t ∧ (Traced ctx s → ∀ values ∈ values?, ∀ set ∈ values, ∀ v ∈ set,
      Came ctx.site t.history t.block t.op v) := by
  cases h with
  | given value fits =>
      refine ⟨tracks_callwise.ofExpr _ value, fun hs values hv => ?_⟩
      exact replayExpr_came sound.placed _ (hv ▸ value) hs
  | zero found =>
      refine ⟨.refl s, fun _ values hv set hset v hm => ?_⟩
      obtain rfl := Option.some.inj hv
      obtain rfl := (List.mem_replicate.mp hset).2
      obtain rfl := (ValueSet.mem_single v _).mp hm
      exact .of_given sound.placed (.inl ⟨0, found⟩)

theorem tracking_compositional : Compositional True Tracking where
  done ctx := tracking_done
  expr ctx e _ _ _ _ h := by
    rcases replayBare_eq_ok.mp h with ⟨he, -⟩ | ⟨he, -⟩ <;> exact tracks_callwise.ofExpr e he
  assign ctx names e sound s _ _ h := by
    rcases replayAssignment_of_ok h with ⟨he, -⟩ | ⟨values, u, b, he, -, ha, rfl, -⟩
    · exact tracks_callwise.ofExpr e he
    · intro hs
      have known := replayExpr_came sound.placed e he hs
      have first := (tracks_callwise.ofExpr e he).bindings (b := b) fun hu =>
        ha.within hu.bindings fun p hp => known p.2 (List.of_mem_zip hp).2
      exact first.congr rfl rfl rfl rfl rfl hs
  letDecl ctx names value? sound s _ _ h := by
    rcases replayLet_of_ok h with ⟨hi, -⟩ | ⟨values, u, b, hi, hd, rfl, -⟩
    · exact (hi.tracks sound).1
    · intro hs
      obtain ⟨first, known⟩ := hi.tracks sound
      have bound := first.bindings (b := b) fun hu =>
        hd.assigned.within hu.bindings fun p hp => known hs values rfl p.2 (List.of_mem_zip hp).2
      exact bound.congr rfl rfl rfl rfl rfl hs
  leave ctx _ _ _ _ h := (functionLeft_of_ok h).1.tracks
  loopJump ctx way sound _ _ _ h := (replayLoopJump_eq_ok h).1.tracks sound
  cond ctx condition body hb sound _ _ _ h := (ifReplayed_of_ok h).tracks sound hb
  switch _ ctx e arms ha sound _ _ _ h := (switchReplayed_of_ok h).tracks sound ha
  forLoop ctx pre condition body postEmpty post hpre hb hp sound _ _ _ h :=
    (forReplayed_of_ok h).tracks sound hpre hb hp
  block ctx id body hb sound s _ _ h := by
    obtain ⟨scope, u, -, hu, rfl⟩ := inBlock_eq_ok.mp h
    have opened : Tracks ctx s { s with scope? := some scope } :=
      (Tracks.refl s).congr rfl rfl rfl rfl rfl
    exact (opened.trans (hb sound hu)).congr rfl rfl rfl rfl rfl
  definition ctx d others _ hd ho sound _ _ _ h := by
    obtain ⟨_, u, hu, ht⟩ := bind_eq_ok.mp h
    exact ((definitionReplayed_of_ok hu).tracks sound hd).trans (ho sound ht)
  next ctx id rest first others hf ho sound _ _ _ h := by
    obtain ⟨falls, u, hu, ht⟩ := bind_eq_ok.mp h
    rcases ite_eq_ok.mp ht with ⟨-, ht⟩ | ⟨-, ht⟩
    · exact (hf sound hu).trans (ho sound ht)
    · obtain ⟨_, v, hw, hv⟩ := bind_eq_ok.mp ht
      obtain ⟨-, rfl⟩ := pure_eq_ok.mp hv
      exact (hf sound hu).trans (warned_of_ok hw).tracks

theorem repeats_of_main {program : Yul.Block} (sound : ctx.Sound)
    (h : replayMain ctx program (State.start ctx.graph) = .ok () t) : Repeats t.history := by
  obtain ⟨falls, v, hb, ends⟩ := replayMain_of_ok h
  have begun : Traced ctx ((State.start ctx.graph).log ctx.site (.entered none)) :=
    ⟨Bindings.within_empty, fun _ hf => absurd hf List.not_mem_nil, trivial, trivial⟩
  have body : Tracking ctx (replayBlock ctx program) :=
    tracking_compositional.ofBlock ctx program (.inl trivial)
  rcases ends with ⟨-, -, rfl⟩ | ⟨-, rfl⟩
  · exact ((body sound hb).leave begun).1.history
  · exact (body sound hb begun).1.history

end Replay

open Replay

-- In an accepted run, an output of the operation that is being matched is a candidate
-- already only where the same operation was matched before and a way through the graph
-- leads from its block back to it.
theorem repeats_of_accepted {s : Subject} {settings : Settings}
    (built : ∀ g ∈ s.flow.graphs, g.Built) (h : judge s settings = .accepted)
    {earlier later : List Entry} {site : Site} {b : BlockId} {i : Nat} {op : Operation}
    {bindings : Bindings}
    (matched : (s.run settings).history =
      earlier ++ ⟨site, .consumed b i op bindings⟩ :: later)
    {v : ValueId} (output : v ∈ op.outputs) (held : bindings.Holds v) :
    (∃ before, ⟨site, .consumed b i op before⟩ ∈ earlier) ∧
      Relation.TransGen site.graph.Leads b b := by
  obtain ⟨t, hrun, hhistory⟩ := Subject.replayMain_of_accepted h
  have hsplit : t.history =
      later.reverse ++ ⟨site, .consumed b i op bindings⟩ :: earlier.reverse := by
    rw [← List.reverse_reverse t.history, ← hhistory, matched]
    simp
  have sound : (s.context settings).Sound := ⟨List.mem_cons_self, built⟩
  have repeats : Repeats t.history := repeats_of_main sound hrun
  rw [hsplit] at repeats
  obtain ⟨⟨before, hm⟩, way⟩ := repeats.of_append v output held
  exact ⟨⟨before, List.mem_reverse.mp hm⟩, way⟩

-- Two blocks that lead into each other. Loops that are never entered are matched by the
-- edges between them, so the first block is replayed once more after the second, while
-- the variable holds what it has computed the first time.
namespace Recomputing

open SsaReplay.Graph (ConstructionStep)

def never : Yul.Draft := .forLoop [] (.literal (.number 0)) [] []

def draft : List Yul.Draft :=
  [.letDecl ["x"] (some (.call "gas" [])), never,
    .expr (.call "sstore" [.ident "x", .ident "x"]), never,
    .letDecl ["y"] (some (.call "gas" [])), never,
    .expr (.call "sstore" [.ident "x", .ident "y"]),
    .forLoop [] (.literal (.number 1)) []
      [.letDecl ["z"] (some (.call "gas" [])), never,
        .expr (.call "sstore" [.ident "z", .ident "z"])]]

def steps : List ConstructionStep :=
  [.literal 0, .literal 1, .operation (.builtin ⟨30⟩) [] 1, .block, .exit (.jump ⟨1⟩),
    .moveTo ⟨1⟩, .operation (.builtin ⟨29⟩) [⟨2⟩, ⟨2⟩] 0, .exit (.jump ⟨0⟩)]

def graph : Cfg := Cfg.ofSteps none steps

def program : Yul.Block × Yul.Analysis := Yul.laidOut draft

def subject : Subject := ⟨program.1, program.2, .evm, ⟨graph, []⟩⟩

def site : Site := (subject.context .default).site

def gas : Operation := ⟨.builtin ⟨30⟩, [], [⟨2⟩]⟩

theorem accepted : judge subject .default = .accepted := by decide +kernel

theorem built : graph.Built := Graph.Cfg.built_of_steps (by decide +kernel)

theorem exists_matched :
    ∃ bindings : Bindings,
      ⟨site, .consumed ⟨0⟩ 0 gas bindings⟩ ∈ (subject.run .default).history ∧
        bindings.Holds ⟨2⟩ := by
  have told : (subject.run .default).history.any (fun e => e.site.depth = 0 &&
      match e.event with
      | .consumed b i op bindings => b = ⟨0⟩ && i = 0 && op = gas &&
          bindings.lookup ⟨0⟩ = some (.single ⟨2⟩)
      | _ => false) = true := by decide +kernel
  obtain ⟨⟨at', event⟩, he, hevent⟩ := List.any_eq_true.mp told
  obtain ⟨hd, hevent⟩ := Bool.and_eq_true_iff.mp hevent
  obtain rfl : at' = site := Subject.site_eq_of_depth accepted he (of_decide_eq_true hd)
  cases event with
  | consumed b i op bindings =>
      simp only [Bool.and_eq_true, decide_eq_true_eq] at hevent
      obtain ⟨⟨⟨rfl, rfl⟩, rfl⟩, hx⟩ := hevent
      exact ⟨bindings, he, ⟨0⟩, _, hx, (ValueSet.mem_single _ _).mpr rfl⟩
  | _ => exact absurd hevent Bool.false_ne_true

-- The variable holds the output already when the operation is matched.
theorem output_held :
    judge subject .default = .accepted ∧ graph.Built ∧ ∃ bindings : Bindings,
      ⟨site, .consumed ⟨0⟩ 0 gas bindings⟩ ∈ (subject.run .default).history ∧
        ∃ v ∈ gas.outputs, bindings.Holds v := by
  obtain ⟨bindings, he, held⟩ := exists_matched
  exact ⟨accepted, built, bindings, he, ⟨2⟩, List.mem_cons_self, held⟩

theorem repeats_here :
    judge subject .default = .accepted ∧ ∃ earlier later bindings,
      (subject.run .default).history =
        earlier ++ ⟨site, .consumed ⟨0⟩ 0 gas bindings⟩ :: later ∧ bindings.Holds ⟨2⟩ ∧
          (∃ before, ⟨site, .consumed ⟨0⟩ 0 gas before⟩ ∈ earlier) ∧
            Relation.TransGen graph.Leads ⟨0⟩ ⟨0⟩ := by
  obtain ⟨bindings, he, held⟩ := exists_matched
  obtain ⟨earlier, later, matched⟩ := List.append_of_mem he
  have all : ∀ g ∈ subject.flow.graphs, g.Built := fun g hg => List.mem_singleton.mp hg ▸ built
  exact ⟨accepted, earlier, later, bindings, matched, held,
    repeats_of_accepted all accepted matched List.mem_cons_self held⟩

end Recomputing

end SsaReplay
