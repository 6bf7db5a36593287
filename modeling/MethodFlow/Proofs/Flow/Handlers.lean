import MethodFlow.Proofs.Flow.Growth

/-!
Exception tables. Either no entry of a table names a missing handler, protects nothing or catches an
unknown class, and then each entry becomes a handler, or nothing changes. The edges that this adds
are those that the handlers ask for and that were missing.
-/

namespace MethodFlow

def Handler.pairs (h : Handler) : List (BlockId × BlockId) :=
  h.protectedBlocks.map fun b => (b, h.entry)

namespace FlowGraph

open Edit

variable {f f' f'' : FlowGraph} {b s t : BlockId} {pairs pairs' : List (BlockId × BlockId)}
  {hs hs' : List Handler} {h : Handler}

/-- Exception edges have been added for the pairs of blocks that were not joined, and handlers have
been appended to those that were there. Nothing else has changed. -/
structure Extends (pairs : List (BlockId × BlockId)) (hs : List Handler)
    (f f' : FlowGraph) : Prop where
  edges : ∃ new, f'.graph.edges = f.graph.edges ++ new ∧ new.Nodup ∧
    (∀ e, e ∈ new ↔ e.label = .exception ∧ (e.source, e.target) ∈ pairs ∧
      e.target ∉ f.succs e.source) ∧
    f'.version = f.version + new.length
  nodes : f'.graph.nodes = f.graph.nodes
  handlers : f'.handlers = f.handlers ++ hs
  tree : f'.tree = f.tree
  subroutines : f'.subroutines = f.subroutines

namespace Extends

theorem refl (f : FlowGraph) : Extends [] [] f f :=
  ⟨⟨[], by simp⟩, rfl, (List.append_nil _).symm, rfl, rfl⟩

theorem contains (h : Extends pairs hs f f') (hb : f.contains b = true) : f'.contains b = true := by
  rwa [FlowGraph.contains, Digraph.contains, h.nodes]

theorem mem_succs (h : Extends pairs hs f f') :
    t ∈ f'.succs s ↔ t ∈ f.succs s ∨ (s, t) ∈ pairs := by
  obtain ⟨new, hnew, -, hmem, -⟩ := h.edges
  simp only [succs, Digraph.mem_successors, hnew, List.mem_append]
  constructor
  · rintro ⟨e, he | he, hs, ht⟩
    · exact .inl ⟨e, he, hs, ht⟩
    · exact .inr (hs ▸ ht ▸ ((hmem e).1 he).2.1)
  · rintro (⟨e, he, hjoins⟩ | hpair)
    · exact ⟨e, .inl he, hjoins⟩
    · by_cases hold : t ∈ f.succs s
      · obtain ⟨e, he, hjoins⟩ := Digraph.mem_successors.1 hold
        exact ⟨e, .inl he, hjoins⟩
      · exact ⟨⟨s, t, .exception⟩, .inr ((hmem _).2 ⟨rfl, hpair, hold⟩), rfl, rfl⟩

/-- An edge keeps its kind, and an edge that is new is one of exceptions. -/
theorem edgeKind? (h : Extends pairs hs f f') : f'.edgeKind? s t =
    if t ∈ f.succs s then f.edgeKind? s t else if (s, t) ∈ pairs then some .exception
      else none := by
  obtain ⟨new, hnew, -, hmem, -⟩ := h.edges
  have hread : f'.edgeKind? s t = (f.edgeKind? s t).or
      ((new.find? fun e => Digraph.Joins s t e).map Edge.label) := by
    rw [FlowGraph.edgeKind?, FlowGraph.edgeKind?, Digraph.edge?, Digraph.edge?, hnew,
      List.find?_append, Option.map_or]
  rw [hread]
  by_cases hold : t ∈ f.succs s
  · have hsome : (f.edgeKind? s t).isSome = true := hasEdge_iff.2 hold
    rw [if_pos hold, Option.or_of_isSome hsome]
  · have hnone : f.edgeKind? s t = none :=
      Option.not_isSome_iff_eq_none.1 fun hsome => hold (hasEdge_iff.1 hsome)
    rw [if_neg hold, hnone, Option.none_or]
    cases hfind : new.find? fun e => Digraph.Joins s t e with
    | none =>
      have hmissing := List.find?_eq_none.1 hfind
      have hpair : (s, t) ∉ pairs := fun hpair =>
        hmissing ⟨s, t, .exception⟩ ((hmem _).2 ⟨rfl, hpair, hold⟩) (by simp [Digraph.Joins])
      rw [if_neg hpair, Option.map_none]
    | some e =>
      obtain ⟨hlabel, hpair, -⟩ := (hmem e).1 (List.mem_of_find?_eq_some hfind)
      have hjoins : Digraph.Joins s t e := by simpa using List.find?_some hfind
      obtain ⟨rfl, rfl⟩ := hjoins
      rw [if_pos hpair, Option.map_some, hlabel]

theorem trans (h : Extends pairs hs f f') (h' : Extends pairs' hs' f' f'') :
    Extends (pairs ++ pairs') (hs ++ hs') f f'' := by
  obtain ⟨new, hnew, hnodup, hmem, hversion⟩ := h.edges
  obtain ⟨new', hnew', hnodup', hmem', hversion'⟩ := h'.edges
  refine
    { edges := ⟨new ++ new', ?_, ?_, fun e => ?_, ?_⟩
      nodes := h'.nodes.trans h.nodes
      handlers := by rw [h'.handlers, h.handlers, List.append_assoc]
      tree := h'.tree.trans h.tree
      subroutines := h'.subroutines.trans h.subroutines }
  · rw [hnew', hnew, List.append_assoc]
  · refine List.nodup_append.2 ⟨hnodup, hnodup', fun e he e' he' hsame => ?_⟩
    subst hsame
    exact ((hmem' e).1 he').2.2 (h.mem_succs.2 (.inr ((hmem e).1 he).2.1))
  · rw [List.mem_append, List.mem_append, hmem, hmem', h.mem_succs]
    tauto
  · rw [hversion', hversion, List.length_append, Nat.add_assoc]

theorem withEdge (f : FlowGraph) (s t : BlockId) :
    Extends [(s, t)] [] f (f.withEdge s t .exception) := by
  unfold FlowGraph.withEdge
  split
  · next hjoined =>
    refine ⟨⟨[], by simp, .nil, fun e => ?_, rfl⟩, rfl, (List.append_nil _).symm, rfl, rfl⟩
    have hjoined := hasEdge_iff.1 hjoined
    simp only [List.not_mem_nil, List.mem_singleton, Prod.mk.injEq, false_iff]
    rintro ⟨-, ⟨rfl, rfl⟩, hnot⟩
    exact hnot hjoined
  · next hmissing =>
    refine ⟨⟨[⟨s, t, .exception⟩], rfl, List.nodup_singleton _, fun e => ?_, rfl⟩, rfl,
      (List.append_nil _).symm, rfl, rfl⟩
    have hmissing : t ∉ f.succs s := fun ht => hmissing (hasEdge_iff.2 ht)
    obtain ⟨source, target, label⟩ := e
    simp only [List.mem_singleton, Edge.mk.injEq, Prod.mk.injEq]
    constructor
    · rintro ⟨rfl, rfl, rfl⟩
      exact ⟨rfl, ⟨rfl, rfl⟩, hmissing⟩
    · rintro ⟨rfl, ⟨rfl, rfl⟩, -⟩
      exact ⟨rfl, rfl, rfl⟩

theorem withHandler (f : FlowGraph) (h : Handler) :
    Extends [] [h] f { f with handlers := f.handlers ++ [h] } :=
  ⟨⟨[], by simp⟩, rfl, rfl, rfl, rfl⟩

end Extends

/-- The edges of a handler between blocks of the graph are added, and then the handler itself. -/
theorem addHandler_extends (h : Handler) (hentry : f.contains h.entry = true)
    (hprotected : ∀ b ∈ h.protectedBlocks, f.contains b = true) :
    Yields (addHandler h.protectedBlocks h.entry h.caught) f fun _ => Extends h.pairs [h] f := by
  have hedges :
      Yields (h.protectedBlocks.forM fun b => do let _ ← addEdge b h.entry .exception) f fun _ =>
      Extends h.pairs [] f := by
    refine Yields.forM (fun before => Extends (before.map fun b => (b, h.entry)) [] f) (.refl f) ?_
    intro before b after m hxs hm
    have hb := hm.contains (hprotected b (by simp [hxs]))
    refine .of_first (addEdge_ok hb (hm.contains hentry) .exception) (.pure ?_)
    rw [List.map_append]
    exact hm.trans (.withEdge m b h.entry)
  refine .of_ask (a := ⟨⟩) (checkBlock_ok.2 hentry) (.of_first (checkBlocks_ok hprotected) ?_)
  refine hedges.bind fun _ m _ hm => ⟨_, _, rfl, ?_⟩
  simpa using hm.trans (.withHandler m h)

theorem addHandlers_extends (hs : List Handler) (h : ∀ h ∈ hs, f.contains h.entry = true ∧
      ∀ b ∈ h.protectedBlocks, f.contains b = true) :
    Yields (hs.forM fun h => do let _ ← addHandler h.protectedBlocks h.entry h.caught) f fun _ =>
      Extends (hs.flatMap Handler.pairs) hs f := by
  refine Yields.forM (fun before => Extends (before.flatMap Handler.pairs) before f) (.refl f) ?_
  intro before handler after m hxs hm
  obtain ⟨hentry, hprotected⟩ := h handler (by simp [hxs])
  refine (addHandler_extends handler (hm.contains hentry) fun b hb =>
    hm.contains (hprotected b hb)).bind fun _ m' _ hm' => .pure ?_
  simpa using hm.trans hm'

section entries

variable {resolve : UInt16 → Except Fault Descriptor} {range : ProtectedRange}

def StartsIn (f : FlowGraph) (range : ProtectedRange) (b : BlockId) : Prop :=
  ∃ block, f.block? b = some block ∧ range.start.toNat ≤ block.label.toNat ∧
    block.label.toNat < range.stop.toNat

/-- A block has the label that a range gives for its handler. -/
def Handles (f : FlowGraph) (range : ProtectedRange) (b : BlockId) : Prop :=
  ∃ block, f.block? b = some block ∧ block.label.toNat = range.handler.toNat

/-- The handler is the one that an entry of a table describes. -/
structure Describes (f : FlowGraph) (resolve : UInt16 → Except Fault Descriptor)
    (range : ProtectedRange) (h : Handler) : Prop where
  mem_protected : ∀ b, b ∈ h.protectedBlocks ↔ f.StartsIn range b
  ordered : h.protectedBlocks.Pairwise fun b c => b.index < c.index
  handles : f.Handles range h.entry
  first : ∀ b, f.Handles range b → h.entry.index ≤ b.index
  catchesAll : range.caught = 0 → h.caught = none
  catches : range.caught ≠ 0 → ∃ type, resolve range.caught = .ok type ∧ h.caught = some type

/-- An entry has no handler, or protects nothing, or its class is unknown. -/
def Rejects (f : FlowGraph) (resolve : UInt16 → Except Fault Descriptor)
    (range : ProtectedRange) : Prop :=
  (∀ b, ¬f.Handles range b) ∨ (∀ b, ¬f.StartsIn range b) ∨
    range.caught ≠ 0 ∧ ∃ e, resolve range.caught = .error e

theorem handles_iff : f.Handles range b ↔
    ((f.block? b).any fun block => block.label = range.handler.toUInt32) = true := by
  simp [Handles, Option.any_eq_true, ← UInt32.toNat_inj]

theorem startsIn_iff : f.StartsIn range b ↔
    ((f.block? b).any fun block => range.covers block.label) = true := by
  simp [StartsIn, Option.any_eq_true, ProtectedRange.covers]

theorem mem_blocks_of_block? {block : Block} (hb : f.block? b = some block) : b ∈ f.blocks := by
  refine Digraph.mem_nodeIds.2 (decide_eq_true ?_)
  exact (Array.getElem?_eq_some_iff.1 hb).1

theorem blockAt?_eq_some (hb : f.blockAt? range.handler.toUInt32 = some b) :
    f.Handles range b ∧ ∀ c, f.Handles range c → b.index ≤ c.index := by
  obtain ⟨hhandles, before, after, hblocks, hbefore⟩ := List.find?_eq_some_iff_append.1 hb
  refine ⟨handles_iff.2 hhandles, fun c hc => ?_⟩
  have hmem : c ∈ before ++ b :: after := by
    obtain ⟨block, hblock, -⟩ := hc
    exact hblocks ▸ mem_blocks_of_block? hblock
  have hordered : (before ++ b :: after).Pairwise fun b c => b.index < c.index :=
    hblocks ▸ f.graph.pairwise_nodeIds
  rcases List.mem_append.1 hmem with hc' | hc'
  · have := hbefore c hc'
    rw [handles_iff.1 hc] at this
    exact absurd this (by simp)
  rcases List.mem_cons.1 hc' with rfl | hc'
  · exact Nat.le_refl _
  · exact ((List.pairwise_cons.1 (List.pairwise_append.1 hordered).2.1).1 c hc').le

theorem blockAt?_eq_none (hb : f.blockAt? range.handler.toUInt32 = none) (b : BlockId) :
    ¬f.Handles range b := by
  intro hhandles
  have hlabel := handles_iff.1 hhandles
  obtain ⟨block, hblock, -⟩ := hhandles
  exact List.find?_eq_none.1 hb b (mem_blocks_of_block? hblock) hlabel

theorem mem_blocksIn : b ∈ f.blocksIn range ↔ f.StartsIn range b := by
  rw [blocksIn, List.mem_filter, startsIn_iff, and_iff_right_iff_imp]
  intro hcovers
  obtain ⟨block, hblock, -⟩ := startsIn_iff.2 hcovers
  exact mem_blocks_of_block? hblock

theorem caughtBy_cases (resolve : UInt16 → Except Fault Descriptor) (range : ProtectedRange) :
    (range.caught ≠ 0 ∧ ∃ e, resolve range.caught = .error e ∧ caughtBy resolve range = .error e) ∨
      ∃ caught, caughtBy resolve range = .ok caught ∧ (range.caught = 0 → caught = none) ∧
        (range.caught ≠ 0 → ∃ type, resolve range.caught = .ok type ∧ caught = some type) := by
  unfold caughtBy ProtectedRange.catchesAll
  by_cases hall : range.caught = 0
  · exact .inr ⟨none, by simp [hall], fun _ => rfl, fun hne => absurd hall hne⟩
  · cases hresolve : resolve range.caught with
    | error e => exact .inl ⟨hall, e, rfl, by simp [hall]⟩
    | ok type =>
      exact .inr ⟨some type, by simp [hall], fun h => absurd h hall, fun _ => ⟨type, rfl, rfl⟩⟩

/-- An entry is rejected, or it describes a handler. -/
theorem handlerOf_cases (f : FlowGraph) (resolve : UInt16 → Except Fault Descriptor)
    (range : ProtectedRange) :
    f.Rejects resolve range ∧ (∃ e, f.handlerOf resolve range = .error e) ∨
      ¬f.Rejects resolve range ∧ ∃ h, f.handlerOf resolve range = .ok h ∧
        f.Describes resolve range h := by
  unfold handlerOf
  cases hentry : f.blockAt? range.handler.toUInt32 with
  | none => exact .inl ⟨.inl (blockAt?_eq_none hentry), _, rfl⟩
  | some entry =>
    obtain ⟨hhandles, hfirst⟩ := blockAt?_eq_some hentry
    dsimp only
    by_cases hempty : f.blocksIn range = []
    · refine .inl ⟨.inr (.inl fun b hb => ?_), _, by rw [hempty]; rfl⟩
      have hmem := mem_blocksIn.2 hb
      rw [hempty] at hmem
      exact List.not_mem_nil hmem
    · have hsome : (f.blocksIn range).isEmpty = false := by simpa using hempty
      obtain ⟨guarded, hguarded⟩ := List.exists_mem_of_ne_nil _ hempty
      rcases caughtBy_cases resolve range with ⟨hne, e, he, hcaught⟩ |
        ⟨caught, hcaught, hall, hresolved⟩
      · exact .inl ⟨.inr (.inr ⟨hne, e, he⟩), e, by rw [hsome, hcaught]; rfl⟩
      · refine .inr ⟨?_, ⟨f.blocksIn range, entry, caught⟩, by rw [hsome, hcaught]; rfl, ?_⟩
        · rintro (hnone | hnone | ⟨hne, e, he⟩)
          · exact hnone entry hhandles
          · exact hnone guarded (mem_blocksIn.1 hguarded)
          · obtain ⟨type, htype, -⟩ := hresolved hne
            exact nomatch he.symm.trans htype
        · exact ⟨fun b => mem_blocksIn, f.graph.pairwise_nodeIds.filter _, hhandles, hfirst,
            hall, hresolved⟩

theorem handlerOf_ok (hrun : f.handlerOf resolve range = .ok h) :
    ¬f.Rejects resolve range ∧ f.Describes resolve range h := by
  rcases handlerOf_cases f resolve range with ⟨-, e, he⟩ | ⟨hnot, h', hrun', hdescribes⟩
  · exact nomatch he.symm.trans hrun
  · obtain rfl := Except.ok.inj (hrun.symm.trans hrun')
    exact ⟨hnot, hdescribes⟩

end entries

/-- A table with an entry that is rejected changes nothing. Any other table adds one handler for
each entry, and the exception edges of these handlers that were missing. -/
theorem addExceptionTable_cases (f : FlowGraph) (table : CodeTable ProtectedRange)
    (resolve : UInt16 → Except Fault Descriptor) :
    (∃ range ∈ table.entries, f.Rejects resolve range) ∧
      (∃ e, addExceptionTable table resolve f = .error e f) ∨
      (∀ range ∈ table.entries, ¬f.Rejects resolve range) ∧
        ∃ hs f', addExceptionTable table resolve f = .ok () f' ∧
          List.Forall₂ (f.Describes resolve) table.entries hs ∧
          Extends (hs.flatMap Handler.pairs) hs f f' ∧
          ∀ s t, f'.edgeKind? s t = if t ∈ f.succs s then f.edgeKind? s t
            else if (s, t) ∈ hs.flatMap Handler.pairs then some .exception else none := by
  rcases Classical.em (∃ range ∈ table.entries, f.Rejects resolve range) with hsome | hnone
  · refine .inl ⟨hsome, ?_⟩
    obtain ⟨range, hrange, hrejects⟩ := hsome
    cases hstaged : table.entries.mapM (f.handlerOf resolve) with
    | error e => exact ⟨e, bind_error.2 (.inl (ask_error.2 ⟨hstaged, rfl⟩))⟩
    | ok hs =>
      obtain ⟨h, hrun⟩ := Except.exists_of_mapM hstaged range hrange
      exact absurd hrejects (handlerOf_ok hrun).1
  · have hall : ∀ range ∈ table.entries, ¬f.Rejects resolve range := fun range hrange hrejects =>
      hnone ⟨range, hrange, hrejects⟩
    obtain ⟨hs, hstaged⟩ := Except.exists_mapM fun range hrange =>
      (handlerOf_cases f resolve range).elim (fun h => absurd h.1 (hall range hrange))
        fun ⟨_, h, hrun, _⟩ => ⟨h, hrun⟩
    have hcontains : ∀ h ∈ hs, f.contains h.entry = true ∧
        ∀ b ∈ h.protectedBlocks, f.contains b = true := by
      intro h hh
      obtain ⟨range, -, hrange⟩ := Except.mem_of_mapM hstaged hh
      exact contains_handlerOf hrange
    obtain ⟨⟨⟩, f', hrun, hextends⟩ := addHandlers_extends hs hcontains
    refine .inr ⟨hall, hs, f', ?_, ?_, hextends, fun s t => hextends.edgeKind?⟩
    · exact bind_ok.2 ⟨hs, f, ask_ok.2 ⟨hstaged, rfl⟩, hrun⟩
    · exact (Except.forall₂_of_mapM hstaged).imp fun range h hrun => (handlerOf_ok hrun).2

end FlowGraph

end MethodFlow
