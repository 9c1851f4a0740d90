import SsaReplay.Proofs.Acceptance
import SsaReplay.Proofs.Lexical
import SsaReplay.Proofs.Mirroring.Repeats

namespace SsaReplay

namespace Yul

-- What is returned by the declarations of a draft, in turn.
def returnedBy (draft : List Draft) : List Declared :=
  ((layProgram draft).run Layout.start).2.returned

-- The scopes are those of the program. Its blocks are numbered in order, each has a scope of
-- its own, and these are nested and filled as the program is. All other scopes are those of
-- signatures: only they are marked, and they lie around the bodies of functions.
structure Analysis.Mirrors (a : Analysis) (program : Block) (returned : List Declared) : Prop where
  numbered : program.subBlocks.map Block.id = (List.range program.subBlocks.length).map NodeId.mk
  opened : ∃ scopes : List ScopeId,
    program.subBlocks.map (fun b => a.scopeOf? b.id) = scopes.map some ∧ scopes.Nodup
  nested : program.Mirrored a none returned
  signatures : ∀ id outer?, a.scopes.Shaped id outer? true →
    ∃ d ∈ program.definitions, a.Encloses id d.body

namespace Layout

variable {draft : List Draft} {program : Block} {a : Analysis}

-- What was laid out step by step, for a whole program.
theorem mirrors_of_ok (h : program? draft = .ok (program, a)) :
    a.Mirrors program (returnedBy draft) := by
  obtain ⟨l, hl, he, rfl⟩ := layBlock_of_program h
  have kept := kept_analysis start l
  have spread := layBlock_spread none draft start
  obtain ⟨new, returned, mirrored⟩ := layBlock_mirrors none draft start
  rw [hl] at spread returned mirrored
  have whole : returnedBy draft = new := by
    change (layBlock none draft start).2.returned = new
    rw [hl]
    exact returned
  refine ⟨?_, ?_, whole ▸ mirrored _ he kept, fun id outer? hs => ?_⟩
  · exact List.range_eq_range' ▸ spread.numbered
  · obtain ⟨scopes, hmap, nodup, -⟩ := spread.opened _ kept
    exact ⟨scopes, hmap, nodup⟩
  · obtain ⟨symbols, hd⟩ := hs
    have hlt : id.index < l.size := (Array.getElem?_eq_some_iff.mp hd).1
    exact spread.signatures _ kept id outer? (Nat.zero_le _) hlt ⟨symbols, hd⟩

theorem program?_eq_error_iff {e : DeclareError} :
    program? draft = .error e ↔
      ∃ name, addAllNames [] draft = .error name ∧ e = .alreadyDeclared name := by
  have ends := layBlock_ends none draft start rfl
  rw [program?_eq]
  cases h : addAllNames [] draft with
  | error name =>
      rw [h] at ends
      have failed : _ = some (DeclareError.alreadyDeclared name) := ends
      rw [failed]
      constructor
      · intro he
        exact ⟨name, rfl, (Except.error.inj he).symm⟩
      · rintro ⟨_, hn, rfl⟩
        rw [Except.error.inj hn]
  | ok names =>
      rw [h] at ends
      have passed : _ = none := ends.1
      rw [passed]
      exact ⟨nofun, nofun⟩

end Layout

end Yul

open Replay

-- Where every block has a scope, no scope is found to be missing.
theorem missingScope_of_opened {s : Subject} {settings : Settings}
    (opened : ∀ b ∈ s.program.subBlocks, s.analysis.scopeOf? b.id ≠ none) :
    (∀ e ∈ (s.run settings).history, ∀ m l, e.event = .found m l → m.code ≠ .missingScope) ∧
      ∀ report, validate? s settings = some report → report.hasCode .missingScope = false := by
  have orderly : Orderly ⟨False, True⟩ (s.context settings) s.program.subBlocks s.program.leaves :=
    ⟨opened, fun _ _ => trivial⟩
  obtain ⟨-, told, warned, stopped⟩ := Subject.accords orderly
  refine ⟨fun e he m l hm hc => ?_, fun report h => ?_⟩
  · have regular := told e he
    unfold Entry.Regular at regular
    rw [hm] at regular
    exact regular hc
  · refine Bool.eq_false_iff.mpr fun hc => ?_
    obtain ⟨f, hf, hcode⟩ := Subject.found_of_hasCode h hc
    exact hf.elim (fun hf => stopped f hf hcode) fun hf => warned f hf hcode

-- A draft whose scopes each declare a name at most once is laid out so that the scopes mirror
-- the program, and then no replay finds a scope missing. Any other is refused for the first
-- name that its scope declares again.
theorem mirrors_of_program (draft : List Yul.Draft) :
    (∀ program a, Yul.program? draft = .ok (program, a) →
      a.Mirrors program (Yul.returnedBy draft) ∧
      ∀ dialect flow settings,
        (∀ e ∈ ((⟨program, a, dialect, flow⟩ : Subject).run settings).history,
          ∀ m l, e.event = .found m l → m.code ≠ .missingScope) ∧
        ∀ report, validate? ⟨program, a, dialect, flow⟩ settings = some report →
          report.hasCode .missingScope = false) ∧
    ∀ e, Yul.program? draft = .error e ↔
      ∃ name, Yul.addAllNames [] draft = .error name ∧ e = .alreadyDeclared name := by
  refine ⟨fun program a h => ?_, fun e => Yul.Layout.program?_eq_error_iff⟩
  have mirrors := Yul.Layout.mirrors_of_ok h
  refine ⟨mirrors, fun dialect flow settings => missingScope_of_opened fun b hb hnone => ?_⟩
  obtain ⟨scopes, hmap, -⟩ := mirrors.opened
  have hmem : a.scopeOf? b.id ∈ scopes.map some := hmap ▸ List.mem_map_of_mem hb
  rw [hnone] at hmem
  exact absurd (List.mem_map.mp hmem) nofun

-- A function with a loop that declares variables in each of its blocks, one of them under a
-- name from outside the function. In the other draft a name comes again inside a block, which
-- is in order, and then one comes again in the scope of a post block.
namespace Redeclared

def draft : List Yul.Draft :=
  [.letDecl ["a", "b"] none,
    .funDef "f" ["n"] ["r"]
      [.forLoop [.letDecl ["i"] (some (.ident "n"))] (.ident "i") [.letDecl ["a"] none]
        [.letDecl ["t"] (some (.ident "i")), .breakLoop]],
    .switch (.ident "a") [.mk none [.letDecl ["b"] none]]]

def doubled : List Yul.Draft :=
  [.letDecl ["a"] none, .block [.letDecl ["a"] none],
    .forLoop [.letDecl ["i"] none] (.ident "i") [.letDecl ["c", "c"] none] [.letDecl ["i"] none],
    .letDecl ["a"] none]

theorem laid : Yul.program? draft = .ok ((Yul.laidOut draft).1, (Yul.laidOut draft).2) :=
  Yul.program?_eq_laidOut (by decide +kernel)

theorem mirrors_here :
    (∃ program a, Yul.program? draft = .ok (program, a) ∧ program.subBlocks.length = 6 ∧
      a.Mirrors program (Yul.returnedBy draft)) ∧
    Yul.program? doubled = .error (.alreadyDeclared "c") := by
  refine ⟨⟨_, _, laid, by decide +kernel, ((mirrors_of_program draft).1 _ _ laid).1⟩, ?_⟩
  exact ((mirrors_of_program doubled).2 _).mpr ⟨"c", rfl, rfl⟩

end Redeclared

end SsaReplay
