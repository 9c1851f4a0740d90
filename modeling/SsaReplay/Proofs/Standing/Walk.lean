import SsaReplay.Proofs.Congruence.Loop

namespace SsaReplay.Replay

-- What surrounds a statement while it is replayed: the scope in which names are looked up,
-- and the headers of the loops of its graph that are open, the innermost first.
structure Standing where
  scope? : Option ScopeId
  loops : List BlockId

def State.standing (s : State) : Standing := ⟨s.scope?, s.loops.map LoopFrame.header⟩

-- One loop further in.
def Standing.inLoop (here : Standing) (header : BlockId) : Standing :=
  { here with loops := header :: here.loops }

-- What a program may do without being in order: have a place without a scope, or leave the
-- main graph by a return.
structure Lapses where
  unscoped : Prop
  returning : Prop

variable {may : Lapses} {ctx : Context} {here there after : Standing}

-- The exit of a main graph is for the main program, and a return for a function. A scope is
-- never missing.
def Entry.Regular (may : Lapses) (e : Entry) : Prop :=
  match e.event with
  | .found m _ => m.code = .missingScope → may.unscoped
  | .left _ .mainExit => e.site.owner? = none
  | .left _ (.functionReturn _) => e.site.owner? = none → may.returning
  | _ => True

def Finding.Regular (may : Lapses) (f : Finding) : Prop :=
  f.mismatch.code = .missingScope → may.unscoped

-- All that was told so far is in order.
structure State.Regular (may : Lapses) (s : State) : Prop where
  history : ∀ e ∈ s.history, e.Regular may
  warnings : ∀ f ∈ s.warnings, f.Regular may

def Halt.Regular (may : Lapses) (h : Halt) : Prop := ∃ f, h = .mismatch f ∧ f.Regular may

-- From where it stands, the other walk does the same as this one. If they get through they
-- stand as described, and all that they tell is in order.
def Accords {α : Type} (may : Lapses) (here there : Standing) (x x' : Walk α) : Prop :=
  ∀ s, s.standing = here → s.Regular may →
    x' s = x s ∧
      match x s with
      | .ok _ t => t.standing = there ∧ t.Regular may
      | .error h t => t.Regular may ∧ h.Regular may

-- A walk that ends where it began.
abbrev KeepsPlace {α : Type} (may : Lapses) (here : Standing) (x : Walk α) : Prop :=
  Accords may here here x x

theorem Entry.regular_of_ordinary {site : Site} {e : Event} (h : e.ordinary = true) :
    (⟨site, e⟩ : Entry).Regular may := by
  cases e with
  | found m l => exact absurd h Bool.false_ne_true
  | left b exit => cases exit <;> first | exact trivial | exact absurd h Bool.false_ne_true
  | _ => exact trivial

namespace State

variable {s : State}

theorem Regular.log (h : s.Regular may) {site : Site} {e : Event}
    (he : (⟨site, e⟩ : Entry).Regular may) : (s.log site e).Regular may :=
  ⟨List.forall_mem_cons.mpr ⟨he, h.history⟩, h.warnings⟩

end State

namespace Accords

variable {α β : Type} {x x' y y' : Walk α}

section Rules

theorem pure (a : α) : KeepsPlace may here (pure a) := fun _ hs hr => ⟨rfl, hs, hr⟩

theorem bind {f f' : α → Walk β} (h : Accords may here there x x')
    (hf : ∀ a, Accords may there after (f a) (f' a)) :
    Accords may here after (x >>= f) (x' >>= f') := by
  intro s hs hr
  obtain ⟨heq, hx⟩ := h s hs hr
  have run : ∀ (y : Walk α) (g : α → Walk β), (y >>= g) s = EStateM.bind y g s := fun _ _ => rfl
  rw [run, run]
  unfold EStateM.bind
  rw [heq]
  cases hrun : x s with
  | ok a t =>
      rw [hrun] at hx
      exact hf a t hx.1 hx.2
  | error e t =>
      rw [hrun] at hx
      exact ⟨rfl, hx⟩

theorem ite {c : Prop} [Decidable c] (h : Accords may here there x x')
    (h' : Accords may here there y y') :
    Accords may here there (if c then x else y) (if c then x' else y') :=
  Closed.ite (R := fun _ => Accords may here there) h h'

-- The state that is read is one that stands here.
theorem getting {f f' : State → Walk β}
    (hf : ∀ s, s.standing = here → Accords may here there (f s) (f' s)) :
    Accords may here there (get >>= f) (get >>= f') :=
  fun s hs hr => hf s hs s hs hr

theorem modify {g : State → State} (standing : ∀ s, s.standing = here → (g s).standing = there)
    (history : ∀ s, (g s).history = s.history) (warnings : ∀ s, (g s).warnings <+: s.warnings) :
    Accords may here there (modify g) (modify g) := by
  refine fun s hs hr => ⟨rfl, standing s hs, fun e he => ?_, fun f hf => ?_⟩
  · exact hr.history e (history s ▸ he)
  · exact hr.warnings f ((warnings s).subset hf)

theorem record {e : Event} (regular : (⟨ctx.site, e⟩ : Entry).Regular may) :
    KeepsPlace may here (record ctx e) :=
  fun _ hs hr => ⟨rfl, hs, hr.log regular⟩

theorem reject {m : Mismatch} {l : Location} (hm : m.code = .missingScope → may.unscoped) :
    Accords may here there (reject ctx m l : Walk α) (reject ctx m l) :=
  fun _ _ hr => ⟨rfl, hr.log hm, _, rfl, hm⟩

theorem rejectOperation {m : Mismatch} (hm : m.code = .missingScope → may.unscoped) :
    Accords may here there (rejectOperation ctx m : Walk α) (rejectOperation ctx m) :=
  getting fun _ _ => reject hm

theorem rejectBlock {m : Mismatch} (hm : m.code = .missingScope → may.unscoped) :
    Accords may here there (rejectBlock ctx m : Walk α) (rejectBlock ctx m) :=
  getting fun _ _ => reject hm

theorem warnBlock {m : Mismatch} (hm : m.code = .missingScope → may.unscoped) :
    KeepsPlace may here (warnBlock ctx m) := by
  refine getting fun s _ => bind (record hm) fun _ t ht hr => ⟨rfl, ht, hr.history, ?_⟩
  exact List.forall_mem_append.mpr ⟨hr.warnings, List.forall_mem_singleton.mpr hm⟩

theorem closing {close : State → State} (h : Accords may here there x x')
    (standing : ∀ s, s.standing = there → (close s).standing = after)
    (history : ∀ s, (close s).history = s.history)
    (warnings : ∀ s, (close s).warnings = s.warnings) :
    Accords may here after (closing close x) (closing close x') := by
  intro s hs hr
  obtain ⟨heq, hx⟩ := h s hs hr
  have regular : ∀ t : State, t.Regular may → (close t).Regular may := fun t ht =>
    ⟨history t ▸ ht.history, warnings t ▸ ht.warnings⟩
  rw [closing_eq, closing_eq, heq]
  cases hrun : x s with
  | ok a t =>
      rw [hrun] at hx
      exact ⟨rfl, standing t hx.1, regular t hx.2⟩
  | error e t =>
      rw [hrun] at hx
      exact ⟨rfl, regular t hx.1, hx.2⟩

-- The scope is another one for a while.
theorem inScope {scope : ScopeId}
    (h : Accords may ⟨some scope, here.loops⟩ ⟨some scope, here.loops⟩ x x') :
    Accords may here here (inScope scope x) (inScope scope x') := by
  refine getting fun s hs => bind (modify (fun t ht => ?_) (fun _ => rfl) fun _ =>
    List.prefix_rfl) fun _ => h.closing (fun t ht => ?_) (fun _ => rfl) fun _ => rfl
  · exact congrArg (Standing.mk (some scope)) (congrArg Standing.loops ht)
  · rw [← hs]
    exact congrArg (Standing.mk s.scope?) ((congrArg Standing.loops ht).trans
      (congrArg Standing.loops hs).symm)

-- Another graph is replayed from its start, with no scope yet and outside of all loops.
theorem apart {graph : Graph.Cfg} {x x' : Walk Unit} (h : Accords may ⟨none, []⟩ there x x') :
    Accords may here here (apart graph x) (apart graph x') := by
  intro s hs hr
  obtain ⟨heq, hx⟩ := h { State.start graph with warnings := s.warnings, history := s.history }
    rfl ⟨hr.history, hr.warnings⟩
  unfold Replay.apart
  rw [heq]
  cases hrun : x { State.start graph with warnings := s.warnings, history := s.history } with
  | ok u t =>
      rw [hrun] at hx
      exact ⟨rfl, hs, hx.2.history, hx.2.warnings⟩
  | error e t =>
      rw [hrun] at hx
      exact ⟨rfl, ⟨hx.1.history, hx.1.warnings⟩, hx.2⟩

end Rules

theorem unmoved : Unmoved ctx fun _ => Accords may here here where
  pure := pure
  bind := bind
  get _ hs hr := ⟨rfl, hs, hr⟩
  move scope loops warnings history := by
    refine modify (fun s hs => ?_) history fun s => (warnings s).symm ▸ List.prefix_rfl
    rw [State.standing, scope, loops]
    exact hs
  record he := record (Entry.regular_of_ordinary he)
  reject hm := reject fun missing => absurd missing hm

theorem resolve (placed : here.scope? = none → may.unscoped) (name : String) :
    KeepsPlace may here (resolve ctx name) :=
  resolve_of_get (R := fun _ => Accords may here here) getting pure (fun _ hs hscope =>
    rejectBlock fun _ => placed ((congrArg Standing.scope? hs).symm.trans hscope))
    (fun _ _ => rejectBlock nofun) name

theorem routes (placed : here.scope? = none → may.unscoped) :
    Routes ctx ctx fun _ => Accords may here here :=
  unmoved.routes (resolve placed)

-- The two exits that need a reason are the return and the end of the main program.
theorem leaveByReturn (returns : ctx.site.owner? = none → may.returning) :
    KeepsPlace may here (leaveByReturn ctx) :=
  unmoved.leaveBy fun b exit a h => record (by
    cases exit <;> first | exact returns | exact absurd h nofun)

theorem leaveByMainExit (main : ctx.site.owner? = none) :
    KeepsPlace may here (leaveByMainExit ctx) :=
  unmoved.leaveBy fun b exit a h => record (by
    cases exit <;> first | exact main | exact absurd h nofun)

end Accords

end SsaReplay.Replay
