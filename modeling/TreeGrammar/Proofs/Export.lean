import TreeGrammar.Command.Run
import TreeGrammar.Proofs.Decoding
import TreeGrammar.Proofs.Loadable

/-! # What an export keeps

    The export of a grammar has names in place of handles, in the order of the
    handles. It keeps both tables of a grammar that was loaded from a text,
    and loses nothing but the order of the definitions.

    Key idea:
    - the text settles the JSON value (`Json.pretty_injective`), and this the
      names of the nodes, their rules with names, and the tokens;
    - no table of a loaded grammar has a name twice, and rules refer to what
      is in the tables, so the names settle the handles
      (`Canonical.nodes_eq`).
-/

namespace TreeGrammar

namespace Grammar

/-- The names of the nodes, with their rules over names. -/
def namedNodes (g : Grammar) : List (String × NamedRule) :=
  g.nodes.map fun node => (node.name, g.named node.rule)

/-- The export shows the nodes and tokens by name, and nothing else. -/
theorem toJson_eq_iff {g h : Grammar} :
    g.toJson = h.toJson ↔ g.namedNodes = h.namedNodes ∧ g.tokens = h.tokens := by
  have hnode : ∀ p q : String × NamedRule,
      Json.object [("name", .string p.1), ("rule", p.2.toJson)] =
        .object [("name", .string q.1), ("rule", q.2.toJson)] → p = q := by
    intro p q heq
    simp only [Json.object.injEq, List.cons.injEq, Prod.mk.injEq, Json.string.injEq,
      Rule.toJson_inj] at heq
    exact Prod.ext heq.1.2 heq.2.1.2
  have hnodes : g.nodes.map g.nodeToJson = h.nodes.map h.nodeToJson ↔
      g.namedNodes = h.namedNodes := by
    have hshown : ∀ g : Grammar, g.nodes.map g.nodeToJson = g.namedNodes.map fun p =>
        Json.object [("name", .string p.1), ("rule", p.2.toJson)] := by
      intro g
      rw [namedNodes, List.map_map]
      rfl
    rw [hshown, hshown]
    exact (List.map_injective_iff.2 hnode).eq_iff
  have htokens : g.tokens.map Json.string = h.tokens.map Json.string ↔ g.tokens = h.tokens :=
    (List.map_injective_iff.2 fun _ _ => Json.string.inj).eq_iff
  simp [toJson, hnodes, htokens]

/-- The nodes of a canonical grammar are settled by its names. -/
theorem Canonical.nodes_eq {g : Grammar} (h : g.Canonical) :
    g.nodes = g.namedNodes.map fun p =>
      ⟨p.1, p.2.map (nodeHandle (g.namedNodes.map Prod.fst)) (tokenHandle g.tokens)⟩ := by
  have hnames : g.namedNodes.map Prod.fst = g.nodes.map Node.name := by
    rw [namedNodes, List.map_map]
    rfl
  rw [hnames, namedNodes, List.map_map]
  refine (List.map_id g.nodes).symm.trans (List.map_congr_left ?_)
  intro node hnode
  have hrule := h.handled_named hnode
  rw [handled, h.entryNames_entries, h.entryTokens_entries] at hrule
  exact congrArg (Node.mk node.name) hrule.symm

/-- Grammars with the same tables differ in nothing that the export shows. -/
theorem toJson_congr {g h : Grammar} (hnodes : g.nodes = h.nodes) (htokens : g.tokens = h.tokens) :
    g.toJson = h.toJson := by
  obtain ⟨nodes, tokens, definitions⟩ := g
  obtain ⟨nodes', tokens', definitions'⟩ := h
  obtain rfl : nodes = nodes' := hnodes
  obtain rfl : tokens = tokens' := htokens
  rfl

/-- What is written for two grammars of texts as JSON is the same exactly if the grammars have the
    same nodes, with the same rules, and the same tokens. -/
theorem output_json_eq_iff {strictness strictness' : Strictness} {source source' : String}
    {g h : Grammar} (hg : load strictness source = .ok g) (hh : load strictness' source' = .ok h)
    {o : Options} (hjson : o.json = true) (hquiet : o.quiet = false) :
    o.output g = o.output h ↔ g.nodes = h.nodes ∧ g.tokens = h.tokens := by
  have houtput : ∀ g : Grammar, o.output g = g.toJson.pretty ++ "\n" := by
    intro g
    rw [Options.output, hjson, hquiet]
    rfl
  rw [houtput, houtput, String.append_left_inj]
  constructor
  · intro heq
    obtain ⟨hnodes, htokens⟩ := toJson_eq_iff.1 (Json.pretty_injective heq)
    refine ⟨?_, htokens⟩
    rw [(canonical_of_load hg).nodes_eq, (canonical_of_load hh).nodes_eq, hnodes, htokens]
  · intro heq
    rw [toJson_congr heq.1 heq.2]

/-- Two grammars with their definitions in different orders have the same export. -/
theorem output_json_of_reordered :
    let o : Options := ⟨"-", false, true, false, false⟩
    ∃ g h, load .strict "A = B C '\\\\\"' B = A C = A" = .ok g ∧
      load .lenient "A = B C '\\\\\"' C = A B = A ~" = .ok h ∧
      g.definitions ≠ h.definitions ∧ o.output g = o.output h := by
  intro o
  have hg : load .strict "A = B C '\\\\\"' B = A C = A" =
      .ok ⟨[⟨"A", .seq [.node ⟨1⟩, .node ⟨2⟩, .token ⟨0⟩]⟩, ⟨"B", .node ⟨0⟩⟩, ⟨"C", .node ⟨0⟩⟩],
        ["\\\""], [⟨0⟩, ⟨1⟩, ⟨2⟩]⟩ := by cbv
  have hh : load .lenient "A = B C '\\\\\"' C = A B = A ~" =
      .ok ⟨[⟨"A", .seq [.node ⟨1⟩, .node ⟨2⟩, .token ⟨0⟩]⟩, ⟨"B", .node ⟨0⟩⟩, ⟨"C", .node ⟨0⟩⟩],
        ["\\\""], [⟨0⟩, ⟨2⟩, ⟨1⟩]⟩ := by cbv
  exact ⟨_, _, hg, hh, by decide, (output_json_eq_iff hg hh rfl rfl).2 ⟨rfl, rfl⟩⟩

end Grammar

end TreeGrammar
