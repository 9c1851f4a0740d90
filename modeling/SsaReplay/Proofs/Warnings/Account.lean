import SsaReplay.Proofs.Warnings.Undertaking

namespace SsaReplay

open SsaReplay.Replay
open SsaReplay.Yul (Block Stmt)

-- The block that a finding names as one with statements that are never reached.
def Replay.Finding.node? (f : Finding) : Option NodeId :=
  match f.mismatch with
  | .unreachable _ id => some id
  | _ => none

-- The finding is right about a block that the run comes to.
def Subject.Bears (subject : Subject) (settings : Settings) (f : Finding) : Prop :=
  ∃ ctx b s count w, subject.Undertakes settings ctx (.block b) s ∧ StopsShort ctx b s count w ∧
    0 < count ∧ f = ⟨.unreachable count b.id, ctx.blockAt w.block, ctx.site⟩

-- The blocks of statements, by their identities.
def Yul.blockIds (statements : List Stmt) : List NodeId := (Yul.stmtsBlocks statements).map Block.id

-- What is replayed of a statement in its place: of a definition, the body of the function.
def Yul.Stmt.core : Stmt → Stmt
  | .funDef _ _ _ body => .block body
  | a => a

namespace Replay

open SsaReplay.Yul (blockIds)

-- Warnings that the run bears out were added, and for no block more than it has blocks among
-- those given.
def Added (subject : Subject) (settings : Settings) (ids : List NodeId)
    (old new : List Finding) : Prop :=
  ∃ more, new = old ++ more ∧ (∀ f ∈ more, subject.Bears settings f) ∧
    ∀ id, (more.map Finding.node?).count (some id) ≤ ids.count id

-- The same of the warnings of a walk from the state on, however it ends.
def Adds {α : Type} (subject : Subject) (settings : Settings) (ids : List NodeId) (x : Walk α)
    (s : State) : Prop :=
  Added subject settings ids s.warnings (ending x s).warnings

-- Wherever the run comes to the statement, it warns at most once of each block in it.
def Accounts (subject : Subject) (settings : Settings) (a : Stmt) : Prop :=
  ∀ ctx s, subject.Undertakes settings ctx a s →
    Adds subject settings (blockIds [a]) (replayStmt ctx a) s

variable {subject : Subject} {settings : Settings} {ctx : Context} {ids ids' : List NodeId}
  {old mid new : List Finding} {s t u v : State}

namespace Added

theorem refl : Added subject settings ids old old := ⟨[], by simp⟩

theorem trans (h : Added subject settings ids old mid) (k : Added subject settings ids' mid new) :
    Added subject settings (ids ++ ids') old new := by
  obtain ⟨more, rfl, hm, hc⟩ := h
  obtain ⟨further, rfl, hf, hd⟩ := k
  refine ⟨more ++ further, List.append_assoc _ _ _, ?_, fun id => ?_⟩
  · exact fun f hmem => (List.mem_append.mp hmem).elim (hm f) (hf f)
  · rw [List.map_append, List.count_append, List.count_append]
    exact Nat.add_le_add (hc id) (hd id)

theorem mono (h : Added subject settings ids old new) (le : ∀ id, ids.count id ≤ ids'.count id) :
    Added subject settings ids' old new := by
  obtain ⟨more, hnew, hm, hc⟩ := h
  exact ⟨more, hnew, hm, fun id => Nat.le_trans (hc id) (le id)⟩

end Added

namespace Adds

variable {α β : Type} {x : Walk α} {f : α → Walk β}

theorem mono (h : Adds subject settings ids x s) (le : ∀ id, ids.count id ≤ ids'.count id) :
    Adds subject settings ids' x s := Added.mono h le

theorem quiet (h : Quiet x) : Adds subject settings ids x s := by
  rw [Adds, h s]
  exact .refl

theorem bind (hx : Adds subject settings ids x s)
    (hf : ∀ a t, x s = .ok a t → Adds subject settings ids' (f a) t) :
    Adds subject settings (ids ++ ids') (x >>= f) s := by
  refine ending_bind (P := fun t => Added subject settings (ids ++ ids') s.warnings t.warnings)
    (fun e _ => ?_) fun a ha => Added.trans hx (hf a _ ha)
  exact Added.mono hx fun id => by simp [List.count_append]

theorem after (hx : Quiet x) (hf : ∀ a t, x s = .ok a t → Adds subject settings ids (f a) t) :
    Adds subject settings ids (x >>= f) s := by
  have whole : Adds subject settings ([] ++ ids) (x >>= f) s := bind (quiet hx) hf
  exact whole

theorem before (hx : Adds subject settings ids x s) (hf : ∀ a, Quiet (f a)) :
    Adds subject settings ids (x >>= f) s := by
  have whole : Adds subject settings (ids ++ []) (x >>= f) s :=
    bind hx fun a _ _ => quiet (hf a)
  rwa [List.append_nil] at whole

theorem closing {close : State → State} (kept : ∀ t, (close t).warnings = t.warnings)
    (hx : Adds subject settings ids x s) : Adds subject settings ids (closing close x) s := by
  rw [Adds, ending_closing, kept]
  exact hx

theorem ite {c : Prop} [Decidable c] {y : Walk α} (hx : c → Adds subject settings ids x s)
    (hy : ¬c → Adds subject settings ids y s) :
    Adds subject settings ids (if c then x else y) s := by
  by_cases h : c
  · rw [if_pos h]
    exact hx h
  · rw [if_neg h]
    exact hy h

end Adds

section Blocks

theorem blockIds_cons (a : Stmt) (rest : List Stmt) :
    blockIds (a :: rest) = blockIds [a] ++ blockIds rest := by
  simp [blockIds, Yul.stmtsBlocks]

theorem core_of_other {a : Stmt} (h : a.isFunDef = false) : a.core = a := by
  cases a with
  | funDef name parameters returns body => exact absurd h (by simp [Stmt.isFunDef])
  | _ => rfl

-- Of the statements of a block, some are definitions and the others are not.
theorem count_blockIds (statements : List Stmt) (id : NodeId) :
    (blockIds (statements.filter Stmt.isFunDef)).count id +
      (blockIds (statements.filter (!·.isFunDef))).count id = (blockIds statements).count id := by
  induction statements with
  | nil => rfl
  | cons a rest ih =>
      rw [blockIds_cons a rest, List.count_append, ← ih]
      cases h : a.isFunDef with
      | true =>
          rw [List.filter_cons_of_pos (by simp [h]), List.filter_cons_of_neg (by simp [h]),
            blockIds_cons, List.count_append]
          omega
      | false =>
          rw [List.filter_cons_of_neg (by simp [h]), List.filter_cons_of_pos (by simp [h]),
            blockIds_cons, List.count_append]
          omega

-- There is a warning only if statements follow and warnings are asked for.
theorem warnings_warnUnreachable (ctx : Context) (id : NodeId) (rest : List Stmt) (s : State) :
    (ending (warnUnreachable ctx id rest) s).warnings = s.warnings ∨
      0 < (rest.filter (!·.isFunDef)).length ∧
        (ending (warnUnreachable ctx id rest) s).warnings = s.warnings ++
          [⟨.unreachable (rest.filter (!·.isFunDef)).length id, ctx.blockAt s.block,
            ctx.site⟩] := by
  unfold warnUnreachable
  dsimp only
  split
  · next h =>
    simp only [Bool.and_eq_true, decide_eq_true_eq] at h
    exact .inr ⟨h.1, rfl⟩
  · exact .inl rfl

theorem adds_warnUnreachable {b : Block} {later : List Stmt}
    (begun : subject.Undertakes settings ctx (.block b) s)
    (short : StopsShort ctx b s (later.filter (!·.isFunDef)).length v) :
    Adds subject settings [b.id] (warnUnreachable ctx b.id later) v := by
  rcases warnings_warnUnreachable ctx b.id later v with same | ⟨some, one⟩
  · rw [Adds, same]
    exact .refl
  · rw [Adds, one]
    refine ⟨_, rfl, ?_, fun id => ?_⟩
    · simp only [List.mem_singleton, forall_eq]
      exact ⟨ctx, b, s, _, v, begun, short, some, rfl⟩
    · simp [Finding.node?, List.count_singleton]

theorem replayDefinitions_append {earlier : List Stmt} (rest : List Stmt)
    (h : replayDefinitions ctx earlier s = .ok () t) :
    replayDefinitions ctx (earlier ++ rest) s = replayDefinitions ctx rest t := by
  induction earlier generalizing s with
  | nil =>
      obtain ⟨-, rfl⟩ := pure_eq_ok.mp h
      rfl
  | cons first earlier ih =>
      rw [List.cons_append, replayDefinitions]
      rw [replayDefinitions] at h
      split
      · next hf =>
        rw [if_pos hf] at h
        obtain ⟨_, w, run, h⟩ := bind_eq_ok.mp h
        rw [bind_of_ok run]
        exact ih h
      · next hf =>
        rw [if_neg hf] at h
        exact ih h

variable {id : NodeId} {rest : List Stmt} {scope : ScopeId}

-- The induction is on the statements that are left. Those before them were all passed.
theorem adds_others (earlier : List Stmt) (accounts : ∀ a ∈ rest, Accounts subject settings a.core)
    (begun : subject.Undertakes settings ctx (.block (.mk id (earlier ++ rest))) s)
    (opened : ctx.analysis.scopeOf? id = some scope)
    (definitions : replayDefinitions ctx (earlier ++ rest) { s with scope? := some scope } =
      .ok () u)
    (passed : replayOthers ctx id earlier u = .ok true v) :
    Adds subject settings (id :: blockIds (rest.filter (!·.isFunDef)))
      (replayOthers ctx id rest) v := by
  induction rest generalizing earlier v with
  | nil => exact .quiet (.pure true)
  | cons first rest ih =>
      obtain ⟨hfirst, hrest⟩ := List.forall_mem_cons.mp accounts
      have further : ∀ w, replayOthers ctx id [first] v = .ok true w →
          Adds subject settings (id :: blockIds (rest.filter (!·.isFunDef)))
            (replayOthers ctx id rest) w := by
        intro w hw
        rw [List.append_cons] at begun definitions
        have passed' := (replayOthers_append [first] passed).trans hw
        exact ih (earlier ++ [first]) hrest begun definitions passed'
      rw [replayOthers_cons]
      cases other : first.isFunDef with
      | true =>
          rw [if_pos rfl, List.filter_cons_of_neg (by simp [other])]
          refine further v ?_
          rw [replayOthers_cons, if_pos other]
          rfl
      | false =>
          have alone : ∀ {r w}, replayStmt ctx first v = .ok r w →
              replayOthers ctx id [first] v = thenOthers ctx id [] (pure r) (pure true) w := by
            intro r w run
            rw [replayOthers_cons, if_neg (by simp [other]), thenOthers, bind_of_ok run]
            rfl
          rw [if_neg Bool.false_ne_true, List.filter_cons_of_pos (by simp [other])]
          have inside := Subject.Undertakes.inside begun (.block opened definitions passed other)
          rw [core_of_other other] at hfirst
          have both : Adds subject settings
              (blockIds [first] ++ id :: blockIds (rest.filter (!·.isFunDef)))
              (thenOthers ctx id rest (replayStmt ctx first) (replayOthers ctx id rest)) v := by
            refine .bind (hfirst ctx v inside) fun falls w run => .ite (fun hf => ?_) fun hf => ?_
            · subst hf
              exact further w (alone run)
            · obtain rfl : falls = false := by simpa using hf
              have short : StopsShort ctx (.mk id (earlier ++ first :: rest)) s
                  (rest.filter (!·.isFunDef)).length w :=
                .mk opened definitions rfl passed other run
              have warned := adds_warnUnreachable begun short
              refine (warned.before fun _ => .pure false).mono fun _ => ?_
              simp [Block.id, List.count_cons]
          refine both.mono fun _ => ?_
          rw [blockIds_cons first (rest.filter _), List.count_append, List.count_cons,
            List.count_cons, List.count_append]
          omega

end Blocks

end Replay

end SsaReplay
