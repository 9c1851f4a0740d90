import SsaReplay.Proofs.Execution.Source

namespace SsaReplay

open SsaReplay.Yul (Block Case Expr Stmt)

-- Whether a program only leaves functions. What stands in the functions that are defined
-- in it does not matter.
mutual
def Yul.Block.leaveFree : Yul.Block → Bool
  | .mk _ statements => Yul.stmtsLeaveFree statements
def Yul.Stmt.leaveFree : Yul.Stmt → Bool
  | .leave => false
  | .cond _ body => body.leaveFree
  | .switch _ cases => Yul.casesLeaveFree cases
  | .forLoop pre _ post body => pre.leaveFree && post.leaveFree && body.leaveFree
  | .block body => body.leaveFree
  | _ => true
def Yul.stmtsLeaveFree : List Yul.Stmt → Bool
  | [] => true
  | s :: rest => s.leaveFree && Yul.stmtsLeaveFree rest
def Yul.casesLeaveFree : List Yul.Case → Bool
  | [] => true
  | .mk _ body :: rest => body.leaveFree && Yul.casesLeaveFree rest
end

namespace Execution

-- An action that never ends by leaving a function.
def NeverLeaves (action : Action) : Prop :=
  ∀ memory flow memory', action memory = some (flow, memory') → flow ≠ .left

section NeverLeaves

variable {first second body post again : Action}

theorem neverLeaves_ends {flow : Flow} (hf : flow ≠ .left) :
    NeverLeaves fun memory => some (flow, memory) := by
  intro memory flow' memory' h
  obtain ⟨rfl, -⟩ := Prod.mk.inj (Option.some.inj h)
  exact hf

theorem neverLeaves_andThen (hf : NeverLeaves first) (hs : NeverLeaves second) :
    NeverLeaves (andThen first second) := by
  intro memory flow memory' h
  obtain ⟨⟨flow', mid⟩, he, -⟩ := Option.bind_eq_some_iff.mp h
  by_cases hn : flow' = .next
  · subst hn
    rw [andThen_of_next he] at h
    exact hs mid flow memory' h
  · rw [andThen_of_ne he hn] at h
    exact neverLeaves_ends (hf memory flow' mid he) mid flow memory' h

theorem neverLeaves_afterBody (hp : NeverLeaves post) (ha : NeverLeaves again) {flow : Flow}
    (hf : flow ≠ .left) : NeverLeaves (afterBody post again flow) := by
  have after : NeverLeaves (afterBody post again .continued) := by
    intro memory flow memory' h
    obtain ⟨⟨flow', mid⟩, he, h⟩ := Option.bind_eq_some_iff.mp h
    cases flow' with
    | next => exact ha mid flow memory' h
    | continued => exact absurd h (by simp)
    | left => exact absurd rfl (hp memory _ mid he)
    | _ => exact neverLeaves_ends (by simp [Flow.pastLoop]) mid flow memory' h
  cases flow with
  | next => exact after
  | continued => exact after
  | left => exact absurd rfl hf
  | _ => exact neverLeaves_ends (by simp [Flow.pastLoop])

theorem neverLeaves_repeatLoop {test : Memory → Option (Option Word × Memory)}
    (hb : NeverLeaves body) (hp : NeverLeaves post) (n : Nat) :
    NeverLeaves (repeatLoop test body post n) := by
  induction n with
  | zero => exact fun _ _ _ h => absurd h (by simp [repeatLoop])
  | succ n ih =>
      intro memory flow memory' h
      obtain ⟨⟨w?, mid⟩, ht, -⟩ := Option.bind_eq_some_iff.mp h
      cases w? with
      | none =>
          rw [repeatLoop_of_none ht] at h
          exact neverLeaves_ends (by simp) mid flow memory' h
      | some w =>
          by_cases hw : w = 0
          · subst hw
            rw [repeatLoop_of_zero ht] at h
            exact neverLeaves_ends (by simp) mid flow memory' h
          · rw [repeatLoop_of_ne ht hw] at h
            obtain ⟨⟨flow', last⟩, he, h⟩ := Option.bind_eq_some_iff.mp h
            exact neverLeaves_afterBody hp ih (hb mid flow' last he) last flow memory' h

end NeverLeaves

namespace Machine

variable (m : Machine) (passes : Nat)

theorem neverLeaves_execAssign (scope? : Option ScopeId) (names : List String) (e : Expr) :
    NeverLeaves (m.execAssign scope? names e) := by
  intro memory flow memory' h
  obtain ⟨⟨words?, mid⟩, -, h⟩ := Option.bind_eq_some_iff.mp h
  cases words? with
  | none => exact neverLeaves_ends (by simp) mid flow memory' h
  | some words =>
      by_cases hl : words.length = names.length
      · obtain ⟨last, -, hp⟩ := Option.map_eq_some_iff.mp ((if_pos hl).symm.trans h)
        obtain ⟨rfl, -⟩ := Prod.mk.inj hp
        simp
      · exact absurd ((if_neg hl).symm.trans h) (by simp)

mutual
theorem neverLeaves_exec (scope? : Option ScopeId) (s : Stmt) (free : s.leaveFree = true) :
    NeverLeaves (m.exec passes scope? s) := by
  cases s with
  | expr e =>
      intro memory flow memory' h
      simp only [exec, Option.bind_eq_bind, Option.bind_eq_some_iff] at h
      obtain ⟨⟨words?, mid⟩, -, h⟩ := h
      match words?, h with
      | none, h => exact neverLeaves_ends (by simp) mid flow memory' h
      | some [], h => exact neverLeaves_ends (by simp) mid flow memory' h
  | assign names e =>
      rw [exec]
      exact m.neverLeaves_execAssign scope? names e
  | letDecl names value? =>
      cases value? with
      | some e =>
          rw [exec]
          exact m.neverLeaves_execAssign scope? names e
      | none =>
          intro memory flow memory' h
          rw [exec] at h
          obtain ⟨last, -, hp⟩ := Option.map_eq_some_iff.mp h
          obtain ⟨rfl, -⟩ := Prod.mk.inj hp
          simp
  | funDef name parameters returns body =>
      rw [exec]
      exact neverLeaves_ends (by simp)
  | cond condition body =>
      have hb := neverLeaves_execBlock body free
      intro memory flow memory' h
      simp only [exec, Option.bind_eq_bind, Option.bind_eq_some_iff] at h
      obtain ⟨⟨w?, mid⟩, -, h⟩ := h
      cases w? with
      | none => exact neverLeaves_ends (by simp) mid flow memory' h
      | some w =>
          by_cases hw : w = 0
          · exact neverLeaves_ends (by simp) mid flow memory' ((if_pos hw).symm.trans h)
          · exact hb mid flow memory' ((if_neg hw).symm.trans h)
  | switch e cases =>
      intro memory flow memory' h
      simp only [exec, Option.bind_eq_bind, Option.bind_eq_some_iff] at h
      obtain ⟨⟨w?, mid⟩, -, h⟩ := h
      cases w? with
      | none => exact neverLeaves_ends (by simp) mid flow memory' h
      | some w => exact neverLeaves_execCases w cases free mid flow memory' h
  | forLoop pre condition post body =>
      cases pre with
      | mk id statements =>
          simp only [Stmt.leaveFree, Block.leaveFree, Bool.and_eq_true] at free
          intro memory flow memory' h
          simp only [exec, Option.bind_eq_bind, Option.bind_eq_some_iff] at h
          obtain ⟨scope, -, h⟩ := h
          exact neverLeaves_andThen (neverLeaves_execAll (some scope) statements free.1.1)
            (neverLeaves_repeatLoop (neverLeaves_execBlock body free.2)
              (neverLeaves_execBlock post free.1.2) passes)
            memory flow memory' h
  | breakLoop =>
      rw [exec]
      exact neverLeaves_ends (by simp)
  | continueLoop =>
      rw [exec]
      exact neverLeaves_ends (by simp)
  | leave => exact absurd free (by simp [Stmt.leaveFree])
  | block body =>
      rw [exec]
      exact neverLeaves_execBlock body free
theorem neverLeaves_execBlock (b : Block) (free : b.leaveFree = true) :
    NeverLeaves (m.execBlock passes b) := by
  cases b with
  | mk id statements =>
      intro memory flow memory' h
      simp only [execBlock, Option.bind_eq_bind, Option.bind_eq_some_iff] at h
      obtain ⟨scope, -, h⟩ := h
      exact neverLeaves_execAll (some scope) statements free memory flow memory' h
theorem neverLeaves_execAll (scope? : Option ScopeId) (statements : List Stmt)
    (free : Yul.stmtsLeaveFree statements = true) :
    NeverLeaves (m.execAll passes scope? statements) := by
  cases statements with
  | nil =>
      rw [execAll]
      exact neverLeaves_ends (by simp)
  | cons s rest =>
      simp only [Yul.stmtsLeaveFree, Bool.and_eq_true] at free
      rw [execAll]
      exact neverLeaves_andThen (neverLeaves_exec scope? s free.1)
        (neverLeaves_execAll scope? rest free.2)
theorem neverLeaves_execCases (w : Word) (cases : List Case)
    (free : Yul.casesLeaveFree cases = true) : NeverLeaves (m.execCases passes w cases) := by
  cases cases with
  | nil =>
      rw [execCases]
      exact neverLeaves_ends (by simp)
  | cons c rest =>
      cases c with
      | mk value? body =>
          simp only [Yul.casesLeaveFree, Bool.and_eq_true] at free
          cases value? with
          | none =>
              rw [execCases]
              exact neverLeaves_execBlock body free.1
          | some l =>
              rw [execCases]
              split
              · exact neverLeaves_execBlock body free.1
              · exact neverLeaves_execCases w rest free.2
end

end Machine

end Execution

end SsaReplay
