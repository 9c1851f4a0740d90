import SsaReplay.Graph.Edit
import SsaReplay.Proofs.Legibility.Statement

namespace SsaReplay

namespace Yul.Scopes

-- Every scope is made after the one that it stands in.
def Ordered (s : Scopes) : Prop :=
  ∀ i < s.scopes.size, ∀ outer ∈ (s.scope? ⟨i⟩).bind Scope.parent?, outer.index < i

instance (s : Scopes) : Decidable s.Ordered := inferInstanceAs (Decidable (∀ _ < _, _))

variable {s : Scopes} {name : String}

theorem lt_size_of_scope? {id : ScopeId} {data : Scope} (hd : s.scope? id = some data) :
    id.index < s.scopes.size :=
  (Array.getElem?_eq_some_iff.mp hd).1

theorem Ordered.outer_lt (h : s.Ordered) {id outer : ScopeId} {data : Scope}
    (hd : s.scope? id = some data) (hp : data.parent? = some outer) : outer.index < id.index := by
  have parent : (s.scope? ⟨id.index⟩).bind Scope.parent? = some outer := by
    rw [hd, Option.bind_some, hp]
  exact h id.index (lt_size_of_scope? hd) outer parent

theorem search_none (n : Nat) (crossed : Bool) : s.search name n crossed none = none := by
  cases n <;> rfl

-- Going outwards the numbers of the scopes fall, so there are fewer of them than the first
-- number says.
theorem Ordered.search_eq (h : s.Ordered) {n m : Nat} {id : ScopeId} {crossed : Bool}
    (hn : id.index < n) (hm : id.index < m) :
    s.search name n crossed (some id) = s.search name m crossed (some id) := by
  induction n generalizing m id crossed with
  | zero => exact absurd hn (Nat.not_lt_zero _)
  | succ n ih =>
      obtain ⟨m, rfl⟩ := Nat.exists_eq_succ_of_ne_zero (Nat.ne_zero_of_lt hm)
      cases hd : s.scope? id with
      | none => simp only [search, hd]
      | some data =>
          simp only [search, hd]
          cases visible? data crossed name with
          | some symbol => rfl
          | none =>
              cases hp : data.parent? with
              | none => rw [search_none, search_none]
              | some outer =>
                  have hlt := h.outer_lt hd hp
                  exact ih (by omega) (by omega)

-- A lookup gets to the outermost scope, if need be: with more steps it finds the same.
theorem Ordered.lookup_settled (h : s.Ordered) (scope : ScopeId) (name : String) {n : Nat}
    (hn : s.scopes.size ≤ n) : s.search name n false (some scope) = s.lookup scope name := by
  unfold lookup
  by_cases hlt : scope.index < s.scopes.size
  · exact h.search_eq (Nat.lt_of_lt_of_le hlt hn) hlt
  · have absent : s.scope? scope = none := Array.getElem?_eq_none (Nat.le_of_not_lt hlt)
    have nothing : ∀ m, s.search name m false (some scope) = none := by
      intro m
      cases m with
      | zero => rfl
      | succ m => simp only [search, absent]
    rw [nothing, nothing]

end Yul.Scopes

namespace Replay

open SsaReplay.Graph (BasicBlock Cfg)
open SsaReplay.Yul (Block)

-- The number of arguments is reported only where it is wrong, and no argument is missing
-- otherwise.
theorem phiArity_ne {g : Cfg} {source target block : BlockId} {data : BasicBlock} {phi : ValueId}
    {arguments entries : Nat}
    (h : phiArguments g source target data = .error (.phiArity phi arguments block entries)) :
    arguments ≠ entries := by
  rcases phiArguments_eq_error h with ⟨-, hm⟩ | ⟨offset, listed, hoffset, -, h⟩
  · exact absurd hm (by simp)
  · have hlt := BasicBlock.lt_length_of_entryOffset? hoffset
    cases PhiUnfed.of_error hlt h with
    | uneven origin uneven => exact uneven

variable {r : Reader}

-- However corrupt the graphs are, a replay tells only what can be put into words.
def StaysLegible (r : Reader) (ctx : Context) (body : Walk Bool) : Prop :=
  ctx.Legible r → ∀ depth, Tells r ctx depth body fun _ => True

theorem staysLegible_compositional : Compositional True (StaysLegible r) where
  done _ _ _ := .pure trivial
  expr _ e legible _ := (Tells.congruence legible).replayBare e
  assign _ names e legible _ := (Tells.congruence legible).replayAssignment names e
  letDecl _ names value? legible _ := (Tells.congruence legible).replayLet names value?
  leave _ legible _ := .replayLeave legible
  loopJump _ way legible _ := .replayLoopJump legible way
  cond _ condition _ hb legible depth := .replayIf legible condition (hb legible depth)
  switch _ _ e _ ha legible depth :=
    .replaySwitch legible e fun arm h => ha arm h legible depth
  forLoop _ _ condition _ _ _ hp hb hq legible depth :=
    .replayFor legible condition (hp legible depth) (hb legible (depth + 1))
      (hq legible (depth + 1))
  block _ id _ hb legible depth := .inBlock legible id (hb legible depth)
  definition _ _ _ _ hd ho legible depth :=
    .bind (.replayDefinition legible fun inner h => hd inner h 0) fun _ _ => ho legible depth
  next _ id rest _ _ hf ho legible depth :=
    .thenOthers legible id rest (hf legible depth) (ho legible depth)

theorem Tells.replayMain {ctx : Context} (legible : ctx.Legible r) (program : Block) :
    Tells r ctx 0 (replayMain ctx program) fun _ => True := by
  have body := staysLegible_compositional.ofBlock ctx program (.inl trivial) legible 0
  refine bind (record rfl) fun _ _ => bind body fun falls _ => ?_
  exact ite (fun _ => leaveBy legible) fun _ => pure trivial

end Replay

open Replay

-- What it takes for a run to be reported on.
theorem Run.reportable_iff {run : Run} {r : Reader} : run.reportable r = true ↔
    run.halt? ≠ some .noOpenLoop ∧ (∀ f, run.halt? = some (.mismatch f) → f.renders r = true) ∧
      ∀ e ∈ run.history, e.renders r = true := by
  unfold reportable
  rw [Bool.and_eq_true, List.all_eq_true]
  match run with
  | ⟨none, warnings, history⟩ => simp
  | ⟨some .noOpenLoop, warnings, history⟩ => simp
  | ⟨some (.mismatch f), warnings, history⟩ => simp

-- Neither is the replay at a loss for a loop, nor is there a finding without words.
theorem Subject.reportable {s : Subject} (legible : ∀ g ∈ s.flow.graphs, g.Legible s.dialect)
    (settings : Settings) : (s.run settings).reportable (s.reader settings) = true := by
  have all : (s.context settings).Legible (s.reader settings) :=
    ⟨legible _ List.mem_cons_self,
      fun _ g hg => legible g (Graph.ControlFlow.mem_graphs_of_graphOf? hg)⟩
  have entry : s.flow.main.Has s.flow.main.entry := Option.isSome_iff_exists.mp all.graph.entry
  have start : Footing s.flow.main 0 (State.start s.flow.main) :=
    Footing.apartOn entry (State.start s.flow.main)
  have untold : (State.start s.flow.main).Legible (s.reader settings) :=
    fun e he => absurd he List.not_mem_nil
  have told := Tells.replayMain all s.program _ start untold
  rw [Run.reportable_iff]
  unfold Subject.run
  cases hm : replayMain (s.context settings) s.program (State.start s.flow.main) with
  | ok u t =>
      rw [hm] at told
      exact ⟨by simp, by simp, fun e he => told.1 e (List.mem_reverse.mp he)⟩
  | error h t =>
      rw [hm] at told
      obtain ⟨legible, f, rfl, renders⟩ := told
      refine ⟨by simp, fun f' hf => ?_, fun e he => legible e (List.mem_reverse.mp he)⟩
      obtain rfl := Halt.mismatch.inj (Option.some.inj hf)
      exact renders

-- Nothing goes wrong in a validation itself. There is a report, whatever is asked for on
-- the way is there, and each finding has its words, its surroundings and its snippet.
structure Subject.Unfailing (s : Subject) (settings : Settings) : Prop where
  report : ∃ report, validate? s settings = some report
  loops : (s.run settings).halt? ≠ some .noOpenLoop
  findings : ∀ e ∈ (s.run settings).history, e.renders (s.reader settings) = true
  names : ∀ scope name n, s.analysis.scopes.scopes.size ≤ n →
    s.analysis.scopes.search name n false (some scope) = s.analysis.scopes.lookup scope name
  arguments : ∀ g ∈ s.flow.graphs, ∀ source target data phi given block entries,
    g.block? target = some data →
      phiArguments g source target data = .error (.phiArity phi given block entries) →
        given ≠ entries

-- However corrupt graphs are, as long as each has a block to start in and calls builtins
-- that exist, they are reported on under all settings.
theorem unfailing_of_legible {s : Subject} (ordered : s.analysis.scopes.Ordered)
    (legible : ∀ g ∈ s.flow.graphs, g.Legible s.dialect) (settings : Settings) :
    s.Unfailing settings := by
  have reportable := s.reportable legible settings
  obtain ⟨loops, -, told⟩ := Run.reportable_iff.mp reportable
  refine ⟨⟨(s.run settings).report (s.reader settings), if_pos reportable⟩, loops, told, ?_, ?_⟩
  · exact fun scope name n hn => ordered.lookup_settled scope name hn
  · intro g _ source target data phi given block entries _ h
    exact phiArity_ne h

-- A join that lists a value as its phi that there is none of, and a jump to a block that
-- does not exist.
namespace Torn

open SsaReplay.Graph (Cfg Edit)

def edits : List Edit :=
  [.phis ⟨2⟩ [⟨40⟩, ⟨3⟩], .entries ⟨2⟩ [⟨0⟩, ⟨7⟩], .exit ⟨1⟩ (.jump ⟨9⟩)]

def graph : Cfg := (edits.foldlM Cfg.edit? Unfed.graph).getD (Cfg.start none)

def subject : Subject := { Unfed.subject with flow := ⟨graph, []⟩ }

theorem unfailing_of_legible_here :
    (graph.block? ⟨9⟩ = none ∧ graph.origin? ⟨40⟩ = none) ∧ subject.analysis.scopes.Ordered ∧
      (∀ g ∈ subject.flow.graphs, g.Legible subject.dialect) ∧
      subject.Unfailing (.ofLevel .full) ∧
      (validate? subject (.ofLevel .full)).any (·.hasCode .invalidValueRef) = true := by
  have ordered : subject.analysis.scopes.Ordered := by decide +kernel
  have legible : ∀ g ∈ subject.flow.graphs, g.Legible subject.dialect := by
    intro g hg
    obtain rfl := List.mem_singleton.mp hg
    exact ⟨by decide +kernel, by decide +kernel⟩
  have unfailing := unfailing_of_legible ordered legible (.ofLevel .full)
  refine ⟨⟨?_, ?_⟩, ordered, legible, unfailing, ?_⟩ <;> decide +kernel

end Torn

end SsaReplay
