import SsaReplay.Proofs.Congruence.Walk

namespace SsaReplay

namespace Graph

variable {dialect : Yul.Dialect} {g : Cfg} {b : BlockId} {data : BasicBlock}

-- Whether the dialect has the builtin that is called, if it is one.
def Callee.knownTo (dialect : Yul.Dialect) : Callee → Bool
  | .builtin id => (dialect.builtin? id).isSome
  | .function .. => true

-- There is a place to start, and every operation can be shown. Nothing is asked of how the
-- blocks, their phis and their exits fit together.
structure Cfg.Legible (dialect : Yul.Dialect) (g : Cfg) : Prop where
  entry : (g.block? g.entry).isSome = true
  builtins : ∀ data ∈ g.blocks.toList, ∀ op ∈ data.operations, op.callee.knownTo dialect = true

def Cfg.Has (g : Cfg) (b : BlockId) : Prop := ∃ data, g.block? b = some data

theorem Cfg.Legible.known (h : g.Legible dialect) (hd : g.block? b = some data) {op : Operation}
    (ho : op ∈ data.operations) : op.callee.knownTo dialect = true :=
  h.builtins data (Array.mem_toList_iff.mpr (Array.mem_of_getElem? hd)) op ho

theorem exists_mapM {α β : Type} {f : α → Option β} {xs : List α}
    (h : ∀ x ∈ xs, ∃ y, f x = some y) : ∃ ys, xs.mapM f = some ys := by
  induction xs with
  | nil => exact ⟨[], rfl⟩
  | cons x xs ih =>
      obtain ⟨⟨y, hy⟩, hrest⟩ := List.forall_mem_cons.mp h
      obtain ⟨ys, hys⟩ := ih hrest
      exact ⟨y :: ys, by rw [List.mapM_cons, hy, hys]; rfl⟩

namespace Listing

variable {l : Listing}

theorem exists_operation (hl : l.dialect? = some dialect) {op : Operation}
    (known : op.callee.knownTo dialect = true) : ∃ text, l.operation? op = some text := by
  have named : ∃ text, l.callee? op.callee = some text := by
    cases hc : op.callee with
    | builtin id =>
        rw [hc] at known
        obtain ⟨builtin, hb⟩ := Option.isSome_iff_exists.mp known
        exact ⟨builtin.name, by simp [callee?, builtinName?, hl, hb]⟩
    | function f canContinue => exact ⟨_, rfl⟩
  obtain ⟨text, htext⟩ := named
  unfold operation?
  rw [htext]
  exact ⟨_, rfl⟩

theorem exists_block (hl : l.dialect? = some dialect) (legible : l.graph.Legible dialect)
    (h : l.graph.Has b) : ∃ text, l.block? b = some text := by
  obtain ⟨data, hd⟩ := h
  obtain ⟨operations, ho⟩ := exists_mapM fun op hop => exists_operation hl (legible.known hd hop)
  unfold block?
  rw [hd, Option.bind_eq_bind, Option.bind_some, ho]
  exact ⟨_, rfl⟩

end Listing

end Graph

namespace Replay

open SsaReplay.Graph (BasicBlock)

-- A location that is a block is one of the graph. An operation need not exist to be pointed at.
def Site.Shows (site : Site) : Location → Prop
  | .block _ b => site.graph.Has b
  | .graph _ | .operation .. => True

-- A mismatch that there are words for.
def Mismatch.Worded (r : Reader) (m : Mismatch) : Prop :=
  (m.message? r.scopes r.dialect).isSome = true

namespace Site

variable {site : Site} {r : Reader}

theorem exists_operationText (legible : site.graph.Legible r.dialect) (location : Location) :
    ∃ text?, site.operationText? r location = some text? := by
  cases location with
  | graph g => exact ⟨none, rfl⟩
  | block g b => exact ⟨none, rfl⟩
  | operation g b i =>
      cases hop : (site.graph.block? b).bind fun data => data.operations[i]? with
      | none => exact ⟨none, by simp [operationText?, hop]⟩
      | some op =>
          obtain ⟨data, hd, hi⟩ := Option.bind_eq_some_iff.mp hop
          have known := legible.known hd (List.mem_of_getElem? hi)
          obtain ⟨text, htext⟩ := Graph.Listing.exists_operation (l := site.listing r) rfl known
          exact ⟨some text, by simp [operationText?, hop, htext]⟩

theorem exists_surroundings (legible : site.graph.Legible r.dialect) (location : Location) :
    ∃ found, site.surroundings? r location = some found := by
  obtain ⟨text?, htext⟩ := exists_operationText legible location
  unfold surroundings?
  rw [htext]
  exact ⟨_, rfl⟩

-- The window around an index lies within the operations, however large the index is.
theorem exists_window (legible : site.graph.Legible r.dialect) {b : BlockId} {data : BasicBlock}
    (hd : site.graph.block? b = some data) (i : Nat) :
    ∃ text, site.window? r b i data = some text := by
  have shown : ∀ first last, ∃ texts,
      ((data.operations.take last).drop first).mapM (site.listing r).operation? = some texts := by
    intro first last
    refine Graph.exists_mapM fun op hop => Graph.Listing.exists_operation rfl ?_
    exact legible.known hd (List.mem_of_mem_take (List.mem_of_mem_drop hop))
  obtain ⟨texts, htexts⟩ := shown _ _
  unfold window?
  simp only
  rw [htexts]
  exact ⟨_, rfl⟩

theorem exists_snippet (legible : site.graph.Legible r.dialect) {location : Location}
    (shows : site.Shows location) : ∃ snippet?, site.snippet? r location = some snippet? := by
  cases location with
  | graph g => exact ⟨none, rfl⟩
  | block g b =>
      obtain ⟨text, htext⟩ := Graph.Listing.exists_block (l := site.listing r) rfl legible shows
      exact ⟨some text, by rw [snippet?, htext, Option.map_some]⟩
  | operation g b i =>
      cases hd : site.graph.block? b with
      | none => exact ⟨none, by simp [snippet?, hd]⟩
      | some data =>
          obtain ⟨text, htext⟩ := exists_window legible hd i
          exact ⟨some text, by simp [snippet?, hd, htext]⟩

end Site

-- In a legible graph a finding is put into words if its mismatch is and its location exists.
theorem Finding.renders_of {r : Reader} {f : Finding} (legible : f.site.graph.Legible r.dialect)
    (worded : f.mismatch.Worded r) (shows : f.site.Shows f.location) : f.renders r = true := by
  obtain ⟨message, hm⟩ := Option.isSome_iff_exists.mp worded
  obtain ⟨context?, hc⟩ := Site.exists_surroundings legible f.location
  obtain ⟨snippet?, hs⟩ := Site.exists_snippet legible shows
  unfold renders diagnostic?
  simp only [hm, hc, hs]
  cases r.settings.attachesContext <;> cases r.settings.attachesSnippets <;> rfl

-- An operation of a legible graph calls a builtin that has a name.
theorem Mismatch.worded_otherBuiltin {r : Reader} {id : BuiltinId}
    (known : (Graph.Callee.builtin id).knownTo r.dialect = true) (name : String) :
    (Mismatch.otherBuiltin id name).Worded r := by
  obtain ⟨builtin, hb⟩ := Option.isSome_iff_exists.mp known
  simp [Worded, message?, hb]

-- Of the others, none that a walk may ordinarily make names anything without a name.
theorem Mismatch.worded_of_ordinary {r : Reader} {m : Mismatch} (h : m.ordinary = true) :
    m.Worded r := by
  cases m with
  | noActiveScope => exact absurd h Bool.false_ne_true
  | unscopedBlock node => exact absurd h Bool.false_ne_true
  | otherBuiltin b name => exact absurd h Bool.false_ne_true
  | outsideLoop way => cases way <;> rfl
  | loopTarget way header target expected => cases way <;> rfl
  | _ => rfl

end Replay

end SsaReplay
