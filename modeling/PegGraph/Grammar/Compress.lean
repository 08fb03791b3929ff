/-
PegGraph.Grammar.Compress — taking the references out of a grammar.

Compression replaces every link to a reference by a link to the node that the
reference stands for. It works in place and marks each composite on entry, so
that it does not enter one twice and ends on cyclic grammars too. When it
stops with a fault, the composites that it was inside lose their marks again;
links that were already replaced stay replaced.

The pass nests one call for each composite inside another, and the stack of the
host is idealised: it always has room for one more. `Limits.callDepth` bounds the
nesting of a parse alone, so a grammar too deep for the host is compressed here
like any other.
-/
import PegGraph.Grammar.Resolve

namespace PegGraph.Grammar

/-- Sets or clears the mark of a node. -/
def mark (g : Grammar) (id : NodeId) (value : Bool) : Grammar :=
  g.set id ((g.node id).setCompressed value)

/-- Replaces one link of a node. -/
def relink (g : Grammar) (id : NodeId) (index : Nat) (link : NodeId) : Grammar :=
  g.set id ((g.node id).setLink index link)

/-- Compresses the links of a node from an index on, one after another, each
by the given pass. -/
def compressLinks (pass : NodeId → Grammar → Except Fault NodeId × Grammar) (id : NodeId) :
    Nat → List NodeId → Grammar → Except Fault Unit × Grammar
  | _, [], g => (.ok (), g)
  | index, link :: rest, g =>
    match pass link g with
    | (.error fault, g) => (.error fault, g)
    | (.ok link, g) => compressLinks pass id (index + 1) rest (g.relink id index link)

/-- Compresses what is below a node and yields the node that should stand in
its place. Each level enters one composite that was not marked before. -/
def compressWithin : Nat → NodeId → Grammar → Except Fault NodeId × Grammar
  | 0, id, g => (.ok id, g)
  | levels + 1, id, g =>
    match g.resolve id with
    | .error fault => (.error fault, g)
    | .ok target =>
      match g.node target with
      | .abstract => (.error (.abstractOperation .compress), g)
      | node =>
        if node.isComposite && !node.compressed then
          match compressLinks (compressWithin levels) target 0 node.links (g.mark target true) with
          | (.ok (), g) => (.ok target, g)
          | (.error fault, g) => (.error fault, g.mark target false)
        else (.ok target, g)

/-- Compresses a grammar from a root. The result is the root to parse with, or
the fault that stopped the work, and the nodes as they are left. -/
def compress (g : Grammar) (root : NodeId) : Except Fault NodeId × Grammar :=
  compressWithin (g.size + 1) root g

end PegGraph.Grammar
