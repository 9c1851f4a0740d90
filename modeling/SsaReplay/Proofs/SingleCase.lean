import SsaReplay.Graph.Edit
import SsaReplay.Proofs.Acceptance
import SsaReplay.Proofs.Linkage
import SsaReplay.Proofs.Monotonicity.Order
import SsaReplay.Proofs.Renumbering.Candidates
import SsaReplay.Proofs.Success.Match
import SsaReplay.Proofs.Success.Statement

namespace SsaReplay

-- The builtin that the value of a switch is compared with is the one of its own name,
-- gives one value, comes back, and takes both of its arguments from the graph.
structure Yul.Dialect.Compares (d : Yul.Dialect) (b : BuiltinId) (equality : Yul.Builtin) :
    Prop where
  compares : d.equality? = some b
  data : d.builtin? b = some equality
  named : d.find? equality.name = some b
  returns : equality.returns = 1
  continues : equality.effects.canContinue = true
  plain : equality.literalArguments = []

namespace Bindings

theorem lookup_shared_pair {a b : Bindings} {x : VariableId} {found : ValueSet} :
    (shared a [b]).lookup x = some found ↔
      ∃ values held, a.lookup x = some values ∧ b.lookup x = some held ∧
        values.inter held = found := by
  rw [lookup_shared]
  constructor
  · rintro ⟨values, ha, hc⟩
    simp only [common?] at hc
    cases hb : b.lookup x with
    | none => simp [hb] at hc
    | some held =>
        simp only [hb, Option.some.injEq] at hc
        exact ⟨values, held, ha, rfl, hc⟩
  · rintro ⟨values, held, ha, hb, rfl⟩
    exact ⟨values, ha, by simp [common?, hb]⟩

theorem shared_pair_comm (a b : Bindings) : shared a [b] = shared b [a] := by
  have swap : ∀ {a b : Bindings} {x : VariableId} {found : ValueSet},
      (shared a [b]).lookup x = some found → (shared b [a]).lookup x = some found := by
    intro a b x found h
    obtain ⟨values, held, ha, hb, rfl⟩ := lookup_shared_pair.mp h
    refine lookup_shared_pair.mpr ⟨held, values, hb, ha, ValueSet.ext fun v => ?_⟩
    rw [ValueSet.mem_inter, ValueSet.mem_inter, and_comm]
  exact ext fun x => Option.ext fun found => ⟨swap, swap⟩

-- Two paths into a join are merged to the same, whichever comes first.
theorem meet_pair_comm {a b merged : Bindings} (h : meet [a, b] = .ok merged) :
    meet [b, a] = .ok merged := by
  simp only [meet] at h ⊢
  cases hc : conflict? a [b] with
  | some x => simp [hc] at h
  | none =>
      simp only [hc, Except.ok.injEq] at h
      have agree : conflict? b [a] = none := by
        rw [conflict?_eq_none] at hc ⊢
        rwa [shared_pair_comm b a]
      simp only [agree, shared_pair_comm b a, h]

end Bindings

namespace Replay

open SsaReplay.Graph (Branch Exit Operation)
open SsaReplay.Yul (Block Builtin Expr Literal)

-- The same state, but for what led to it.
def State.Alike (s t : State) : Prop := { s with history := t.history } = t

variable {ctx : Context} {s t : State}

theorem comparison?_eq_some {op : Operation} {against read result : ValueId} :
    comparison? ctx op = some (against, read, result) ↔
      ∃ b, ctx.dialect.equality? = some b ∧ op.callee = .builtin b ∧ op.inputs = [against, read] ∧
        op.outputs = [result] := by
  unfold comparison?
  constructor
  · intro h
    split at h
    · next b a r o hc hi ho =>
      split at h
      · next he =>
        obtain ⟨rfl, rfl, rfl⟩ : a = against ∧ r = read ∧ o = result := by simpa using h
        exact ⟨b, he, hc, hi, ho⟩
      · exact absurd h (by simp)
    · exact absurd h (by simp)
  · rintro ⟨b, he, hc, hi, ho⟩
    simp [hc, hi, ho, he]

section Comparison

variable {b : BuiltinId} {equality : Builtin} {e : Expr} {k : Literal}

theorem replayOne_literal_eq_ok {l : Literal} {value? : Option ValueSet} :
    replayOne ctx (.literal l) s = .ok value? t ↔
      ∃ v, ctx.graph.literal? l.value = some v ∧ value? = some (.single v) ∧ s = t := by
  simp only [replayOne_eq_ok, replayExpr_literal_eq_ok]
  constructor
  · rintro ⟨_, ⟨⟨v, hv, rfl⟩, rfl⟩, ⟨hn, -⟩ | ⟨value, hs, rfl⟩⟩
    · exact absurd hn (by simp)
    · obtain rfl : ValueSet.single v = value := by simpa using hs
      exact ⟨v, hv, rfl, rfl⟩
  · rintro ⟨v, hv, rfl, rfl⟩
    exact ⟨_, ⟨⟨v, hv, rfl⟩, rfl⟩, .inr ⟨_, rfl, rfl⟩⟩

theorem replayArguments_last_eq_ok {skipped : Nat → Bool} {i : Nat} (hs : skipped i = false)
    {operands? : Option (List (Expr × ValueSet))} :
    replayArguments ctx skipped i [e] s = .ok operands? t ↔
      operands? = none ∧ replayOne ctx e s = .ok none t ∨
        ∃ candidates, operands? = some [(e, candidates)] ∧
          replayOne ctx e s = .ok (some candidates) t := by
  simp only [replayArguments_cons_eq_ok, replayArguments_nil_eq_ok, hs]
  constructor
  · rintro (⟨-, h, -⟩ | ⟨_, _, ⟨h, rfl⟩, ⟨h', -⟩ | ⟨-, value?, he, rfl⟩⟩)
    · exact absurd h (by simp)
    · exact absurd h' (by simp)
    · obtain rfl := Option.some.inj h
      cases value? with
      | none => exact .inl ⟨rfl, he⟩
      | some candidates => exact .inr ⟨candidates, rfl, he⟩
  · rintro (⟨rfl, he⟩ | ⟨candidates, rfl, he⟩)
    · exact .inr ⟨[], s, ⟨rfl, rfl⟩, .inr ⟨trivial, none, he, rfl⟩⟩
    · exact .inr ⟨[], s, ⟨rfl, rfl⟩, .inr ⟨trivial, some candidates, he, rfl⟩⟩

-- The compared expression comes first. The literal is looked up when it is there.
theorem replayArguments_comparison_eq_ok {skipped : Nat → Bool} (hs : ∀ i, skipped i = false)
    {operands? : Option (List (Expr × ValueSet))} :
    replayArguments ctx skipped 0 [.literal k, e] s = .ok operands? t ↔
      operands? = none ∧ replayOne ctx e s = .ok none t ∨
        ∃ candidates v, operands? = some [(.literal k, .single v), (e, candidates)] ∧
          replayOne ctx e s = .ok (some candidates) t ∧ ctx.graph.literal? k.value = some v := by
  rw [replayArguments_cons_eq_ok]
  simp only [replayArguments_last_eq_ok (hs (0 + 1)), hs 0, replayOne_literal_eq_ok]
  constructor
  · rintro (⟨rfl, ⟨-, he⟩ | ⟨_, h, -⟩⟩ |
      ⟨operands, u, ⟨h, -⟩ | ⟨candidates, h, he⟩, ⟨h', -⟩ | ⟨-, _, ⟨v, hv, rfl, rfl⟩, rfl⟩⟩)
    · exact .inl ⟨rfl, he⟩
    · exact absurd h (by simp)
    · exact absurd h (by simp)
    · exact absurd h (by simp)
    · exact absurd h' (by simp)
    · obtain rfl := Option.some.inj h
      exact .inr ⟨candidates, v, rfl, he, hv⟩
  · rintro (⟨rfl, he⟩ | ⟨candidates, v, rfl, he, hv⟩)
    · exact .inl ⟨rfl, .inl ⟨trivial, he⟩⟩
    · exact .inr ⟨_, t, .inr ⟨candidates, rfl, he⟩, .inr ⟨trivial, _, ⟨v, hv, rfl, rfl⟩, rfl⟩⟩

theorem drop_eq_singleton {α : Type} {xs : List α} {i : Nat} {a : α} :
    xs.drop i = [a] ↔ xs[i]? = some a ∧ xs.length ≤ i + 1 := by
  constructor
  · intro h
    have hl := congrArg List.length h
    have ha := congrArg (·[0]?) h
    simp only [List.length_drop, List.length_singleton] at hl
    simp only [List.getElem?_drop, Nat.add_zero, List.getElem?_cons_zero] at ha
    exact ⟨ha, by omega⟩
  · rintro ⟨ha, hl⟩
    obtain ⟨hi, rfl⟩ := List.getElem?_eq_some_iff.mp ha
    rw [List.drop_eq_getElem_cons hi, List.drop_eq_nil_of_le hl]

-- At the end of a block, the call of the comparison is matched just as the comparison
-- of a case is.
theorem callMatched_comparison_iff (hd : ctx.dialect.Compares b equality) {v result : ValueId}
    {candidates : ValueSet} (literal : ctx.graph.literal? k.value = some v) {exit : Exit}
    (ends : AtExit ctx t exit) :
    CallMatched ctx equality.name [(.literal k, .single v), (e, candidates)] s
        (some [.single result]) t ↔ Compared ctx e candidates k s result t := by
  constructor
  · intro h
    generalize hresults : (some [ValueSet.single result]) = results? at h
    cases h with
    | final => simp at hresults
    | @returning data op u block atOp inputs callee =>
        obtain ⟨hcallee, houtputs, -⟩ := callee.of_builtin hd.named hd.data
        obtain ⟨output, houtput⟩ := List.length_eq_one_iff.mp (houtputs.trans hd.returns)
        obtain rfl : result = output := by simpa [houtput, ValueSet.single] using hresults
        obtain ⟨hblock, hop⟩ := inputs.position
        obtain ⟨last, hlast, hl, -⟩ := ends
        obtain rfl := Option.some.inj (block.symm.trans (hblock ▸ hlast))
        simp only [operandsReconciled_cons, operandsReconciled_nil, reconciled_literal] at inputs
        obtain ⟨against, _, _, hinputs, ⟨honly, rfl⟩, read, _, w, rfl, fits, rfl, rfl⟩ := inputs
        obtain rfl : v = against := Option.some.inj honly
        have compares := comparison?_eq_some.mpr ⟨b, hd.compares, hcallee, hinputs, houtput⟩
        refine .mk block (drop_eq_singleton.mpr ⟨atOp, ?_⟩) compares literal fits
        exact hop ▸ hl
  · intro h
    cases h with
    | @mk data op against read _ u block last compares found fits =>
        obtain ⟨id, hid, hcallee, hinputs, houtput⟩ := comparison?_eq_some.mp compares
        obtain rfl := Option.some.inj (hd.compares.symm.trans hid)
        obtain rfl := Option.some.inj (literal.symm.trans found)
        obtain ⟨atOp, -⟩ := drop_eq_singleton.mp last
        have inputs : OperandsReconciled ctx s [(.literal k, .single v), (e, candidates)] op.inputs
            u := hinputs ▸ .cons (.result (by simp) rfl) (.cons fits .nil)
        have callee : Callable ctx u.scope? equality.name (.builtin b) equality.returns
            equality.effects.canContinue := .builtin hd.named hd.data
        rw [hd.returns, hd.continues] at callee
        have matched := CallMatched.returning block atOp inputs (by rwa [hcallee, houtput])
        rwa [houtput] at matched

-- The comparison gives one value, and control comes back from it.
theorem replayOne_comparison_eq_ok (hd : ctx.dialect.Compares b equality)
    {value? : Option ValueSet} :
    replayOne ctx (.call equality.name [.literal k, e]) s = .ok value? t ↔
      value? = none ∧ replayOne ctx e s = .ok none t ∨
        ∃ candidates v result u, replayOne ctx e s = .ok (some candidates) u ∧
          ctx.graph.literal? k.value = some v ∧
            CallMatched ctx equality.name [(.literal k, .single v), (e, candidates)] u
              (some [.single result]) t ∧ value? = some (.single result) := by
  have plain : ∀ i, skips ctx equality.name i = false := by
    intro i
    simp [skips, Yul.Dialect.named?, hd.named, hd.data, Builtin.isLiteralArgument, hd.plain]
  have matched : ∀ {operands : List (Expr × ValueSet)} {results? : Option (List ValueSet)}
      {u : State}, CallMatched ctx equality.name operands u results? t →
        ∃ result, results? = some [.single result] := by
    intro operands results? u h
    cases h with
    | returning block atOp inputs callee =>
        obtain ⟨-, houtputs, -⟩ := callee.of_builtin hd.named hd.data
        obtain ⟨result, hr⟩ := List.length_eq_one_iff.mp (houtputs.trans hd.returns)
        exact ⟨result, by rw [hr]; rfl⟩
    | final block atOp inputs callee ends =>
        obtain ⟨-, -, hends⟩ := callee.of_builtin hd.named hd.data
        exact absurd (hends.trans hd.continues) (by simp)
  simp only [replayOne_eq_ok (e := .call _ _), replayExpr_call_eq_ok,
    replayArguments_comparison_eq_ok plain]
  constructor
  · rintro ⟨values?, ⟨rfl, ⟨-, he⟩ | ⟨_, _, h, -⟩⟩ |
      ⟨operands, u, ⟨h, -⟩ | ⟨candidates, v, h, he, hv⟩, hm⟩, hvalues⟩
    · obtain ⟨-, rfl⟩ | ⟨value, h, -⟩ := hvalues
      · exact .inl ⟨rfl, he⟩
      · exact absurd h (by simp)
    · exact absurd h (by simp)
    · exact absurd h (by simp)
    · obtain rfl := Option.some.inj h
      obtain ⟨result, rfl⟩ := matched hm
      obtain ⟨h, -⟩ | ⟨value, h, rfl⟩ := hvalues
      · exact absurd h (by simp)
      · obtain rfl : ValueSet.single result = value := by simpa using h
        exact .inr ⟨candidates, v, result, u, he, hv, hm, rfl⟩
  · rintro (⟨rfl, he⟩ | ⟨candidates, v, result, u, he, hv, hm, rfl⟩)
    · exact ⟨none, .inl ⟨rfl, .inl ⟨trivial, he⟩⟩, .inl ⟨rfl, rfl⟩⟩
    · exact ⟨_, .inr ⟨_, u, .inr ⟨candidates, v, rfl, he, hv⟩, hm⟩, .inr ⟨_, rfl, rfl⟩⟩

end Comparison

-- The value of a switch is replayed and compared with a case, and the outcome is branched
-- on. The bindings are those with which the zero target is entered.
inductive Branched (ctx : Context) (e : Expr) (k : Literal) (s : State) :
    Branch → Bindings → State → Prop
  | mk {candidates : ValueSet} {branch : Branch} {otherwise : Bindings} {u v : State}
      (value : replayOne ctx e s = .ok (some candidates) u)
      (compared : Compared ctx e candidates k u branch.condition v)
      (exit : AtExit ctx v (.branch branch))
      (zero : Carries ctx.graph v.block branch.zero v.bindings otherwise) :
      Branched ctx e k s branch otherwise
        ((v.log ctx.site (.left v.block (.branch branch))).log ctx.site
          (.carried v.block branch.zero v.bindings otherwise))

-- What holds of the branch, the state in which it is taken and the one behind the case,
-- whenever control falls through the case.
def WhereFallen (ctx : Context) (e : Expr) (k : Literal) (body : Walk Bool) (s : State)
    (holds : Branch → State → State → Prop) : Prop :=
  ∀ branch otherwise v w, Branched ctx e k s branch otherwise v →
    body (v.follow ctx.site v.block branch.nonZero v.bindings) = .ok true w → holds branch v w

-- The way past the case is an edge that both of its ends record.
def Passes (ctx : Context) (branch : Branch) (v _w : State) : Prop :=
  ctx.graph.HasEdge v.block branch.zero

-- From the end of the case, control jumps to where the way past it leads.
def Returns (ctx : Context) (branch : Branch) (_v w : State) : Prop :=
  AtExit ctx w (.jump branch.zero)

-- Besides, both of its ends record that edge.
def Rejoins (ctx : Context) (branch : Branch) (v w : State) : Prop :=
  Returns ctx branch v w ∧ ctx.graph.HasEdge w.block branch.zero

section Branched

variable {b : BuiltinId} {equality : Builtin} {e : Expr} {k : Literal} {body : Walk Bool}

-- The way to the branch is the only one.
theorem Branched.unique {branch branch' : Branch} {otherwise otherwise' : Bindings} {t' : State}
    (h : Branched ctx e k s branch otherwise t) (h' : Branched ctx e k s branch' otherwise' t') :
    branch = branch' ∧ otherwise = otherwise' ∧ t = t' := by
  cases h with
  | @mk candidates _ _ u v value compared exit zero =>
      cases h' with
      | @mk candidates' _ _ u' v' value' compared' exit' zero' =>
          obtain ⟨hc, rfl⟩ := EStateM.Result.ok.inj (value.symm.trans value')
          obtain rfl := Option.some.inj hc
          obtain ⟨-, rfl⟩ := compared.unique compared'
          obtain rfl := Exit.branch.inj (exit.unique exit')
          obtain rfl := zero.unique zero'
          exact ⟨rfl, rfl, rfl⟩

theorem Branched.tests {branch : Branch} {otherwise : Bindings} {t' : State}
    (h : Branched ctx e k s branch otherwise t) : replayOne ctx e s ≠ .ok none t' := by
  cases h with
  | mk value compared exit zero => simp [value]

theorem tested_iff_branched (hd : ctx.dialect.Compares b equality) {branch : Branch}
    {skipping : Bindings} :
    Tested ctx (.call equality.name [.literal k, e]) s branch skipping t ↔
      Branched ctx e k s branch skipping t := by
  constructor
  · rintro ⟨value, exit, fits, zero⟩
    obtain ⟨h, -⟩ | ⟨candidates, v, result, u, he, hv, hm, hr⟩ :=
      (replayOne_comparison_eq_ok hd).mp value
    · exact absurd h (by simp)
    · obtain rfl := Option.some.inj hr
      obtain ⟨only, rfl⟩ := reconciled_call.mp fits
      obtain rfl := Option.some.inj only
      exact .mk he ((callMatched_comparison_iff hd hv exit).mp hm) exit zero
  · rintro ⟨value, compared, exit, zero⟩
    have literal : ∃ v, ctx.graph.literal? k.value = some v := by
      cases compared with
      | mk block last compares literal fits => exact ⟨_, literal⟩
    obtain ⟨v, hv⟩ := literal
    have matched := (callMatched_comparison_iff hd hv exit).mpr compared
    have tests := (replayOne_comparison_eq_ok hd).mpr (.inr ⟨_, v, _, _, value, hv, matched, rfl⟩)
    exact .mk tests exit (reconciled_call.mpr ⟨rfl, rfl⟩) zero

theorem replaySwitch_single_eq_ok {r : Bool} :
    replaySwitch ctx e [(some k, body)] s = .ok r t ↔
      replayOne ctx e s = .ok none t ∧ r = false ∨
        ∃ branch otherwise v join w, Branched ctx e k s branch otherwise v ∧
          ctx.graph.HasEdge v.block branch.nonZero ∧
            ArmReplayed ctx body .none (v.follow ctx.site v.block branch.nonZero v.bindings)
              join w ∧
              ctx.graph.HasEdge v.block branch.zero ∧
                FallbackReplayed ctx none join (w.follow ctx.site v.block branch.zero otherwise)
                  r t := by
  have split : splitDefault [(some k, body)] = ([(some k, body)], none) := rfl
  simp only [replaySwitch, bind_eq_ok]
  constructor
  · rintro ⟨candidates?, u, hv, h⟩
    cases candidates? with
    | none =>
        obtain ⟨rfl, rfl⟩ := pure_eq_ok.mp h
        exact .inl ⟨hv, rfl⟩
    | some candidates =>
        simp only [split, replayCases, bind_eq_ok, replayCase_eq_ok, pure_eq_ok,
          replayFallback_none_eq_ok] at h
        obtain ⟨join, w, ⟨_, _, hc, rfl, rfl⟩, hf⟩ := h
        cases hc with
        | mk compared exit zero into arm edge =>
            exact .inr ⟨_, _, _, _, _, .mk hv compared exit zero, into, arm, edge, hf⟩
  · rintro (⟨hv, rfl⟩ | ⟨branch, otherwise, v, join, w, ⟨hv, compared, exit, zero⟩, into, arm,
      edge, hf⟩)
    · exact ⟨none, t, hv, pure_eq_ok.mpr ⟨rfl, rfl⟩⟩
    · refine ⟨_, _, hv, ?_⟩
      simp only [split, replayCases, bind_eq_ok, replayCase_eq_ok, pure_eq_ok,
        replayFallback_none_eq_ok]
      exact ⟨join, _, ⟨_, _, .mk compared exit zero into arm edge, rfl, rfl⟩, hf⟩

theorem passes_of_replaySwitch {r : Bool} (h : replaySwitch ctx e [(some k, body)] s = .ok r t) :
    WhereFallen ctx e k body s (Passes ctx) := by
  intro branch otherwise v w hb _
  rcases replaySwitch_single_eq_ok.mp h with ⟨hn, -⟩ | ⟨_, _, _, _, _, hb', -, -, edge, -⟩
  · exact absurd hn hb.tests
  · obtain ⟨rfl, rfl, rfl⟩ := hb.unique hb'
    exact edge

theorem rejoins_of_replayIf (hd : ctx.dialect.Compares b equality) {r : Bool}
    (h : replayIf ctx (.call equality.name [.literal k, e]) body s = .ok r t) :
    WhereFallen ctx e k body s (Rejoins ctx) := by
  intro branch otherwise v w hb hrun
  cases ifReplayed_of_ok h with
  | stuck value =>
      obtain ⟨-, he⟩ | ⟨_, _, _, _, _, _, _, h⟩ := (replayOne_comparison_eq_ok hd).mp value
      · exact absurd he hb.tests
      · exact absurd h (by simp)
  | joined tested into run exit back meets owned edge =>
      obtain ⟨rfl, rfl, rfl⟩ := hb.unique ((tested_iff_branched hd).mp tested)
      obtain ⟨-, rfl⟩ := EStateM.Result.ok.inj (hrun.symm.trans run)
      exact ⟨exit, edge⟩
  | skipped tested into run edge =>
      obtain ⟨rfl, rfl, rfl⟩ := hb.unique ((tested_iff_branched hd).mp tested)
      exact absurd (hrun.symm.trans run) (by simp)

-- What an `if` on the comparison comes to, a switch with that one case comes to as well, if
-- it finds the edge past the case.
theorem replaySwitch_of_replayIf (hd : ctx.dialect.Compares b equality) {r : Bool}
    (h : replayIf ctx (.call equality.name [.literal k, e]) body s = .ok r t)
    (passes : WhereFallen ctx e k body s (Passes ctx)) :
    ∃ u, replaySwitch ctx e [(some k, body)] s = .ok r u ∧ u.Alike t := by
  simp only [replaySwitch_single_eq_ok]
  cases ifReplayed_of_ok h with
  | stuck value =>
      obtain ⟨-, he⟩ | ⟨_, _, _, _, _, _, _, h⟩ := (replayOne_comparison_eq_ok hd).mp value
      · exact ⟨t, .inl ⟨he, rfl⟩, rfl⟩
      · exact absurd h (by simp)
  | joined tested into run exit back meets owned edge =>
      have hb := (tested_iff_branched hd).mp tested
      have arm : ArmReplayed ctx body .none _ _ _ :=
        .joined run exit (by simp [SwitchJoin.none]) back
      exact ⟨_, .inr ⟨_, _, _, _, _, hb, into, arm, passes _ _ _ _ hb run,
        .direct rfl rfl (.there rfl (Bindings.meet_pair_comm meets) owned rfl)⟩, rfl⟩
  | skipped tested into run edge =>
      have hb := (tested_iff_branched hd).mp tested
      exact ⟨_, .inr ⟨_, _, _, _, _, hb, into, .left run, edge, .unjoined rfl⟩, rfl⟩

theorem replayIf_of_replaySwitch (hd : ctx.dialect.Compares b equality) {r : Bool}
    (h : replaySwitch ctx e [(some k, body)] s = .ok r t)
    (rejoins : WhereFallen ctx e k body s (Rejoins ctx)) :
    ∃ u, replayIf ctx (.call equality.name [.literal k, e]) body s = .ok r u ∧ u.Alike t := by
  simp only [replayIf_eq_ok]
  rcases replaySwitch_single_eq_ok.mp h with
    ⟨he, rfl⟩ | ⟨branch, otherwise, v, join, w, hb, into, arm, past, fallback⟩
  · exact ⟨t, .stuck ((replayOne_comparison_eq_ok hd).mpr (.inl ⟨rfl, he⟩)), rfl⟩
  · have tested := (tested_iff_branched hd).mpr hb
    cases arm with
    | left run =>
        cases fallback with
        | unjoined noEdge => exact ⟨_, .skipped tested into run past, rfl⟩
        | direct found => exact absurd found (by simp [SwitchJoin.none])
        | through found => exact absurd found (by simp [SwitchJoin.none])
    | @joined target running w run exit agrees back =>
        obtain ⟨exit', edge⟩ := rejoins branch otherwise v w hb run
        obtain rfl := Exit.jump.inj (exit.unique exit')
        cases fallback with
        | unjoined noEdge => exact absurd noEdge (by simp)
        | through found elsewhere arm settled =>
            obtain rfl := Option.some.inj found
            exact absurd rfl elsewhere
        | direct found here settled =>
            cases settled with
            | nowhere noEdge => exact absurd noEdge (by simp)
            | advanced found meets owned elsewhere edge =>
                obtain ⟨rfl, rfl⟩ := Prod.mk.inj (Option.some.inj found)
                exact absurd rfl elsewhere
            | there found meets owned here =>
                obtain ⟨rfl, rfl⟩ := Prod.mk.inj (Option.some.inj found)
                exact ⟨_, .joined tested into run exit' back (Bindings.meet_pair_comm meets) owned
                  edge, rfl⟩

theorem passes_of_linked (hg : ctx.graph.Linked) : WhereFallen ctx e k body s (Passes ctx) := by
  intro branch otherwise v w hb _
  cases hb with
  | mk value compared exit zero =>
      obtain ⟨data, hdata, -, hexit⟩ := exit
      exact hg.edges _ _ ⟨data, hdata, by simp [hexit, Exit.targets]⟩

theorem rejoins_of_linked (hg : ctx.graph.Linked) (h : WhereFallen ctx e k body s (Returns ctx)) :
    WhereFallen ctx e k body s (Rejoins ctx) := by
  intro branch otherwise v w hb run
  obtain ⟨data, hdata, hl, hexit⟩ := h branch otherwise v w hb run
  exact ⟨⟨data, hdata, hl, hexit⟩,
    hg.edges _ _ ⟨data, hdata, by simp [hexit, Exit.targets]⟩⟩

-- In a graph whose edges are there on both of their ends, the switch is passed where the
-- `if` is, and the `if` where the switch is and the case returns.
theorem cond_agrees_with_switch_of_linked (hd : ctx.dialect.Compares b equality)
    (hg : ctx.graph.Linked) {body : Block} {r : Bool} :
    (replayStmt ctx (.cond (.call equality.name [.literal k, e]) body) s = .ok r t →
      ∃ u, replayStmt ctx (.switch e [.mk (some k) body]) s = .ok r u ∧ u.Alike t) ∧
    (replayStmt ctx (.switch e [.mk (some k) body]) s = .ok r t →
      WhereFallen ctx e k (replayBlock ctx body) s (Returns ctx) →
        ∃ u, replayStmt ctx (.cond (.call equality.name [.literal k, e]) body) s = .ok r u ∧
          u.Alike t) := by
  simp only [replayStmt, replayArms]
  exact ⟨fun h => replaySwitch_of_replayIf hd h (passes_of_linked hg),
    fun h returns => replayIf_of_replaySwitch hd h (rejoins_of_linked hg returns)⟩

-- A switch with one case and the `if` that it stands for are replayed to the same, but for
-- one edge each: the switch does not look at the edge from the case to the join, and the
-- `if` not at the one past it.
theorem cond_agrees_with_switch (hd : ctx.dialect.Compares b equality) {body : Block} {r : Bool} :
    (replayStmt ctx (.cond (.call equality.name [.literal k, e]) body) s = .ok r t →
      ((∃ u, replayStmt ctx (.switch e [.mk (some k) body]) s = .ok r u ∧ u.Alike t) ↔
        WhereFallen ctx e k (replayBlock ctx body) s (Passes ctx))) ∧
    (replayStmt ctx (.switch e [.mk (some k) body]) s = .ok r t →
      ((∃ u, replayStmt ctx (.cond (.call equality.name [.literal k, e]) body) s = .ok r u ∧
        u.Alike t) ↔ WhereFallen ctx e k (replayBlock ctx body) s (Rejoins ctx))) := by
  simp only [replayStmt, replayArms]
  refine ⟨fun h => ⟨?_, replaySwitch_of_replayIf hd h⟩,
    fun h => ⟨?_, replayIf_of_replaySwitch hd h⟩⟩
  · exact fun ⟨u, hu, _⟩ => passes_of_replaySwitch hu
  · exact fun ⟨u, hu, _⟩ => rejoins_of_replayIf hd hu

end Branched

end Replay

-- A switch whose case falls through to where it is passed over, in a graph that does not
-- list the end of the case among the entries there.
namespace Skirting

open SsaReplay.Graph (Cfg Exit)
open SsaReplay.Replay
open SsaReplay.Yul (Block Expr)

-- The graph as it is built, and without the case among the entries of its join.
def built : Cfg :=
  Cfg.ofSteps none [.literal 1, .operation (.builtin ⟨23⟩) [] 1,
    .operation (.builtin ⟨11⟩) [⟨0⟩, ⟨1⟩] 1, .block, .block, .exit (.branch ⟨⟨2⟩, ⟨1⟩, ⟨2⟩⟩),
    .moveTo ⟨1⟩, .exit (.jump ⟨2⟩), .moveTo ⟨2⟩, .exit .mainExit]

def graph : Cfg := (built.edit? (.entries ⟨2⟩ [⟨0⟩])).getD (Cfg.start none)

def value : Expr := .call "calldatasize" []

def body : Block := .mk ⟨1⟩ []

def laid : Block × Yul.Analysis :=
  Yul.laidOut [.switch value [.mk (some 1) []]]

def contextOf (g : Cfg) : Context := (Subject.mk laid.1 laid.2 .evm ⟨g, []⟩).context .default

def startOf (g : Cfg) : State :=
  { State.start g with scope? := (contextOf g).analysis.scopeOf? ⟨0⟩ }

def context : Context := contextOf graph

def start : State := startOf graph

theorem accepted : judge ⟨laid.1, laid.2, .evm, ⟨graph, []⟩⟩ .default = .accepted := by
  decide +kernel

theorem linked : built.Linked := (Cfg.built_of_steps (by decide +kernel) : built.Built).linked

theorem compares (g : Cfg) : (contextOf g).dialect.Compares ⟨11⟩ (.continuing "eq" 2 1) where
  compares := rfl
  data := rfl
  named := (by decide +kernel : Yul.Dialect.evm.find? "eq" = some ⟨11⟩)
  returns := rfl
  continues := rfl
  plain := rfl

-- The switch is passed.
theorem switch_passed :
    ∃ t, replayStmt context (.switch value [.mk (some (.number 1)) body]) start = .ok true t :=
  exists_ok_of_isSome_after? (by decide +kernel)

-- The case does nothing and jumps to where the switch goes on.
theorem body_returns {g : Cfg}
    (tested : (match replayOne (contextOf g) value (startOf g) with
      | .ok _ u => u.block
      | .error _ u => u.block) = ⟨0⟩)
    (forks : (g.block? ⟨0⟩).map (·.exit) = some (.branch ⟨⟨2⟩, ⟨1⟩, ⟨2⟩⟩))
    (jumps : (g.block? ⟨1⟩).any (fun data => data.operations.isEmpty ∧ data.exit = .jump ⟨2⟩) =
      true) :
    WhereFallen (contextOf g) value (.number 1) (replayBlock (contextOf g) body) (startOf g)
      (Returns (contextOf g)) := by
  intro branch otherwise v w hb run
  cases hb with
  | @mk candidates _ _ u v tests compared exit zero =>
      have hv : v.block = ⟨0⟩ := by
        cases compared with
        | mk block last compares literal fits =>
            rw [tests] at tested
            exact fits.position.1.trans tested
      have hbranch : branch = ⟨⟨2⟩, ⟨1⟩, ⟨2⟩⟩ := by
        obtain ⟨data, hd, -, he⟩ := exit
        rw [hv] at hd
        have hd : g.block? ⟨0⟩ = some data := hd
        rw [hd, Option.map_some, he] at forks
        exact Exit.branch.inj (Option.some.inj forks)
      subst hbranch
      simp only [body, replayBlock, inBlock_eq_ok, inTurn, replayDefinitions, replayOthers,
        bind_eq_ok, pure_eq_ok] at run
      obtain ⟨_, _, -, ⟨_, _, ⟨-, rfl⟩, -, rfl⟩, rfl⟩ := run
      obtain ⟨data, hd, h⟩ := (Option.any_eq_true _ _).mp jumps
      obtain ⟨hempty, hjump⟩ := of_decide_eq_true h
      exact ⟨data, hd, by simp [List.isEmpty_iff.mp hempty], hjump⟩

-- The switch is passed and its case returns to where it goes on, but the `if` that the switch
-- stands for is not passed.
theorem edge_skirted :
    context.dialect.Compares ⟨11⟩ (.continuing "eq" 2 1) ∧
      (∃ t, replayStmt context (.switch value [.mk (some (.number 1)) body]) start = .ok true t) ∧
        WhereFallen context value (.number 1) (replayBlock context body) start
          (Returns context) ∧
          ∀ r t, replayStmt context (.cond (.call "eq" [.literal (.number 1), value]) body) start ≠
            .ok r t := by
  refine ⟨compares graph, switch_passed, body_returns (by decide +kernel) (by decide +kernel)
    (by decide +kernel), fun r t h => ?_⟩
  have stopped : (match replayStmt context (.cond (.call "eq" [.literal (.number 1), value]) body)
      start with
    | .ok _ _ => false
    | .error _ _ => true) = true := by decide +kernel
  rw [h] at stopped
  exact absurd stopped (by simp)

-- Over the graph as it is built, each of the two follows from the other.
theorem cond_agrees_with_switch_here :
    context.dialect.Compares ⟨11⟩ (.continuing "eq" 2 1) ∧
      (∃ t, replayStmt context (.switch value [.mk (some (.number 1)) body]) start = .ok true t ∧
        ((∃ u, replayStmt context (.cond (.call "eq" [.literal (.number 1), value]) body) start =
          .ok true u ∧ u.Alike t) ↔
            WhereFallen context value (.number 1) (replayBlock context body) start
              (Rejoins context))) ∧
        ∃ t u w,
          replayStmt (contextOf built) (.cond (.call "eq" [.literal (.number 1), value]) body)
              (startOf built) = .ok true t ∧
            (replayStmt (contextOf built) (.switch value [.mk (some (.number 1)) body])
              (startOf built) = .ok true u ∧ u.Alike t) ∧
            replayStmt (contextOf built) (.cond (.call "eq" [.literal (.number 1), value]) body)
              (startOf built) = .ok true w ∧ w.Alike u := by
  obtain ⟨t, ht⟩ := switch_passed
  refine ⟨compares graph, ⟨t, ht, (cond_agrees_with_switch (compares graph)).2 ht⟩, ?_⟩
  obtain ⟨t, ht⟩ : ∃ t, replayStmt (contextOf built)
      (.cond (.call "eq" [.literal (.number 1), value]) body) (startOf built) = .ok true t :=
    exists_ok_of_isSome_after? (by decide +kernel)
  have returns := body_returns (g := built) (by decide +kernel) (by decide +kernel)
    (by decide +kernel)
  obtain ⟨u, hu, alike⟩ :=
    ((cond_agrees_with_switch (compares built)).1 ht).mpr (passes_of_linked linked)
  obtain ⟨w, hw, back⟩ :=
    ((cond_agrees_with_switch (compares built)).2 hu).mpr (rejoins_of_linked linked returns)
  exact ⟨t, u, w, ht, ⟨hu, alike⟩, hw, back⟩

end Skirting

end SsaReplay
