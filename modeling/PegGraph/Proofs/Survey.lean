/-
PegGraph.Proofs.Survey — references that were never bound, and the preparation that
names them.

  §1 Surveys     — what a survey lists, in which order, and how labels tell it.
  §2 Faults      — where the fault of a pass comes from that names such a reference.
  §3 Preparation — `prepareParser_unbound`: all of them are named before anything is
                   changed.

A pass meets references one at a time, and may come upon a ring first. So preparation
does not leave it to the pass: it surveys the walk and stops before the pass if that
finds anything. It remains to be seen that a pass after an empty survey has no such
fault, whatever is marked. Its fault is that of a node that is reached, and the chain
from there ends in a reference that is reached too (`Stops.exists_unbound`).
-/
import PegGraph.Proofs.DepthFirst
import PegGraph.Proofs.Obstacle
import PegGraph.Session

namespace PegGraph

namespace Grammar

variable {g g' : Grammar} {root n : NodeId} {fault : Fault} {config : Parser.Config}

/-! ## §1 Surveys -/

/-- A survey lists the unbound references in the order of the recursion. -/
theorem unboundReferences_eq_preorder (g : Grammar) (root : NodeId) :
    g.unboundReferences root = (g.preorder root).filter g.isUnbound := by
  rw [← walk_eq_preorder]
  rfl

/-- A survey finds the unbound references that are reached. -/
theorem mem_unboundReferences_iff :
    n ∈ g.unboundReferences root ↔ g.Reaches root n ∧ g.isUnbound n = true := by
  simp [unboundReferences, mem_walk_iff]

/-- A survey lists nothing twice. -/
theorem nodup_unboundReferences (g : Grammar) (root : NodeId) :
    (g.unboundReferences root).Nodup :=
  (nodup_walk g root).filter _

/-- The label of a reference without a name is that of no other node. -/
theorem label_eq_iff {m : NodeId} {target : Option NodeId}
    (h : g.node n = .reference none target) : g.label m = g.label n ↔ m = n := by
  refine ⟨fun heq => ?_, congrArg g.label⟩
  have hlabel : (g.node m).label m = Node.labelOf n none := by
    simpa only [label, h, Node.label] using heq
  cases hm : g.node m with
  | reference name target' =>
    rw [hm] at hlabel
    exact (Node.labelOf_eq_none_iff.1 hlabel).2
  | _ =>
    rw [hm] at hlabel
    exact absurd hlabel.symm (Node.anonymous_ne_empty n)

/-- So labels tell which references without a name are in a list. -/
theorem mem_labels_iff {refs : List NodeId} {target : Option NodeId}
    (h : g.node n = .reference none target) : g.label n ∈ refs.map g.label ↔ n ∈ refs := by
  simp [label_eq_iff h]

/-! ## §2 Faults -/

/-- A node that stops a pass for want of a target leads to a reference without one. -/
theorem Stops.exists_unbound (h : g.Stops n fault)
    (hc : fault.category = .classified .unboundReference) :
    ∃ e, g.Leads n e ∧ g.isUnbound e = true := by
  rcases h with ⟨-, rfl⟩ | hres
  · cases hc
  · rcases resolve_eq_error hres with ⟨e, name, hlead, hnode, rfl⟩ | ⟨e, labels, -, -, rfl⟩
    · exact ⟨e, hlead, isUnbound_iff.2 ⟨name, hnode⟩⟩
    · cases hc

/-- Compression complains of unbound references only where one is reached. -/
theorem compress_reaches_unbound (h : g.compress root = (.error fault, g'))
    (hc : fault.category = .classified .unboundReference) :
    ∃ e, g.Reaches root e ∧ g.isUnbound e = true := by
  obtain ⟨b, hr, hstops⟩ := compress_reaches_stop h
  obtain ⟨e, hlead, he⟩ := hstops.exists_unbound hc
  exact ⟨e, hr.trans hlead.reaches, he⟩

/-! ## §3 Preparation -/

/-- With something to survey, preparation stops before the pass. -/
theorem prepare_of_unbound (h : g.unboundReferences root ≠ []) :
    Parser.prepare root config g =
      (.error (.unboundReference ((g.unboundReferences root).map g.label)), g) := by
  unfold Parser.prepare
  split
  · next hnone => exact absurd hnone h
  · rfl

/-- With nothing to survey, preparation has no complaint of that kind. -/
theorem prepare_of_bound (h : g.unboundReferences root = [])
    (hf : (Parser.prepare root config g).1 = .error fault) :
    fault.category ≠ .classified .unboundReference := by
  intro hc
  simp only [Parser.prepare, h] at hf
  split at hf
  · cases hf
  · next heq =>
    cases hf
    obtain ⟨e, hr, he⟩ := compress_reaches_unbound heq hc
    have hmem := mem_unboundReferences_iff.2 ⟨hr, he⟩
    rw [h] at hmem
    cases hmem

end Grammar

/-- The message that names references without a target. -/
theorem Fault.message_unboundReference (labels : List String) :
    (Fault.unboundReference labels).message =
      "error[REFERENCE_UNBOUND]: Forward reference " ++ ", ".intercalate labels ++
        " was never bound\n  = help: Call bind() on every forward reference before compressing" := by
  have hhint : "Call bind() on every forward reference before compressing".isEmpty = false := by
    decide +kernel
  have hhead : "error[REFERENCE_UNBOUND]: Forward reference " =
      "error[" ++ ("REFERENCE_UNBOUND" ++ ("]: " ++ "Forward reference ")) := by decide +kernel
  have htail :
      " was never bound\n  = help: Call bind() on every forward reference before compressing" =
        " was never bound" ++
          ("\n  = help: " ++ "Call bind() on every forward reference before compressing") := by
    decide +kernel
  show (Diagnostic.unboundReference (", ".intercalate labels)).format = _
  simp only [Diagnostic.format, Diagnostic.unboundReference, Diagnostic.Code.name, hhint, hhead,
    htail, String.append_assoc]
  simp

namespace Session

open Grammar

variable {s : Session} {root : NodeId} {config : Parser.Config} {fault : Fault}

/-- Preparation in a session fails as it does on the grammar. -/
theorem prepareParser_fst (root : NodeId) (config : Parser.Config) (s : Session) :
    (prepareParser root config s).1 = (Parser.prepare root config s.grammar).1 := by
  unfold prepareParser
  split <;> next heq => rw [heq]

/-- Preparation that stops before the pass leaves the session alone. -/
theorem prepareParser_of_unbound (h : s.grammar.unboundReferences root ≠ []) :
    prepareParser root config s =
      (.error (.unboundReference
        ((s.grammar.unboundReferences root).map s.grammar.label)), s) := by
  unfold prepareParser
  rw [prepare_of_unbound h]

/-- **Preparation names every unbound reference**: it complains of such references
exactly where one is reached, and then names those that are, each once and in the order
of a recursive walk, and nothing has changed. -/
theorem prepareParser_unbound (s : Session) (root : NodeId) (config : Parser.Config) :
    ((∃ fault, (prepareParser root config s).1 = .error fault ∧
        fault.category = .classified .unboundReference) ↔
      ∃ n, s.grammar.Reaches root n ∧ s.grammar.isUnbound n = true) ∧
    ∀ fault, (prepareParser root config s).1 = .error fault →
      fault.category = .classified .unboundReference →
      ∃ refs, refs = (s.grammar.preorder root).filter s.grammar.isUnbound ∧ refs.Nodup ∧
        (∀ n, n ∈ refs ↔ s.grammar.Reaches root n ∧ s.grammar.isUnbound n = true) ∧
        fault.diagnostic?.map Diagnostic.code = some .referenceUnbound ∧
        fault.message = "error[REFERENCE_UNBOUND]: Forward reference " ++
          ", ".intercalate (refs.map s.grammar.label) ++
          " was never bound\n  = help: Call bind() on every forward reference before compressing" ∧
        (prepareParser root config s).2 = s := by
  have hcause : ∀ fault, (prepareParser root config s).1 = .error fault →
      fault.category = .classified .unboundReference → s.grammar.unboundReferences root ≠ [] := by
    intro fault hf hc hnone
    rw [prepareParser_fst] at hf
    exact prepare_of_bound hnone hf hc
  refine ⟨⟨?_, ?_⟩, ?_⟩
  · rintro ⟨fault, hf, hc⟩
    obtain ⟨n, hn⟩ := List.exists_mem_of_ne_nil _ (hcause fault hf hc)
    exact ⟨n, mem_unboundReferences_iff.1 hn⟩
  · rintro ⟨n, hn⟩
    have hsome := List.ne_nil_of_mem (mem_unboundReferences_iff.2 hn)
    exact ⟨_, congrArg Prod.fst (prepareParser_of_unbound hsome), rfl⟩
  · intro fault hf hc
    let refs := s.grammar.unboundReferences root
    have hprep : prepareParser root config s =
        (.error (.unboundReference (refs.map s.grammar.label)), s) :=
      prepareParser_of_unbound (hcause fault hf hc)
    rw [hprep] at hf ⊢
    cases hf
    exact ⟨refs, unboundReferences_eq_preorder .., nodup_unboundReferences ..,
      fun n => mem_unboundReferences_iff, rfl, Fault.message_unboundReference _, rfl⟩

/-- A marked sequence (0) over a ring of references (1, 2), a chain (6) to a reference
without a target (7), one without a name (3) that is shared, and a loop (5). Nothing
leads to the last reference (8). -/
def tangled : Session :=
  { empty with grammar := ⟨#[.sequence [1, 4, 3, 5] true, .reference (some "a") (some 2),
      .reference (some "b") (some 1), .reference none none, .choice 6 3 false,
      .repetition 0 false, .reference (some "late") (some 7), .reference (some "x") none,
      .reference (some "never") none]⟩ }

/-- The two references are named, the shared one once, although the walk meets the ring
first. -/
theorem prepareParser_unbound_tangled :
    (prepareParser 0 .default tangled).1 =
        .error (.unboundReference [Node.labelOf 7 (some "x"), Node.labelOf 3 none]) ∧
      (∃ n, tangled.grammar.Reaches 0 n ∧ tangled.grammar.isUnbound n = true) ∧
      (tangled.grammar.preorder 0).filter tangled.grammar.isUnbound = [7, 3] ∧
      (∀ n, n ∈ [7, 3] ↔ tangled.grammar.Reaches 0 n ∧ tangled.grammar.isUnbound n = true) ∧
      (Fault.unboundReference [Node.labelOf 7 (some "x"), Node.labelOf 3 none]).message =
        "error[REFERENCE_UNBOUND]: Forward reference " ++
          ", ".intercalate ([7, 3].map tangled.grammar.label) ++
          " was never bound\n  = help: Call bind() on every forward reference before compressing" ∧
      (prepareParser 0 .default tangled).2 = tangled ∧
      tangled.grammar.obstacle? 1 =
        some (.cyclicReference
          [Node.labelOf 1 (some "a"), Node.labelOf 2 (some "b"), Node.labelOf 1 (some "a")]) := by
  have hf : (prepareParser 0 .default tangled).1 =
      .error (.unboundReference [Node.labelOf 7 (some "x"), Node.labelOf 3 none]) := rfl
  obtain ⟨hiff, hnames⟩ := prepareParser_unbound tangled 0 .default
  obtain ⟨refs, hrefs, -, hmem, -, hmessage, hsame⟩ := hnames _ hf rfl
  have hlist : (tangled.grammar.preorder 0).filter tangled.grammar.isUnbound = [7, 3] := rfl
  rw [hlist] at hrefs
  subst hrefs
  exact ⟨hf, hiff.1 ⟨_, hf, rfl⟩, hlist, hmem, hmessage, hsame, rfl⟩

/-- A complaint tells which references without a name it is about: one is named in it
exactly if it is reached and unbound. -/
theorem prepareParser_names {labels : List String} {n : NodeId} {target : Option NodeId}
    (hf : (prepareParser root config s).1 = .error (.unboundReference labels))
    (hn : s.grammar.node n = .reference none target) :
    s.grammar.label n ∈ labels ↔ s.grammar.Reaches root n ∧ s.grammar.isUnbound n = true := by
  have hsome : s.grammar.unboundReferences root ≠ [] := by
    rw [prepareParser_fst] at hf
    exact fun hnone => prepare_of_bound hnone hf rfl
  rw [prepareParser_of_unbound hsome] at hf
  cases hf
  rw [mem_labels_iff hn, mem_unboundReferences_iff]

end Session

end PegGraph
