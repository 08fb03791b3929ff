import PegGraph.Arithmetic.Grammar
import PegGraph.Arithmetic.Sample
import PegGraph.NestedList
import PegGraph.Proofs.Trace
import PegGraph.Proofs.Trial
import PegGraph.Proofs.Shift
import PegGraph.Proofs.Dispatch
import PegGraph.Proofs.Record
import PegGraph.Proofs.Chain
import PegGraph.Proofs.Pass
import PegGraph.Proofs.Splice
import PegGraph.Proofs.Marking
import PegGraph.Proofs.Compression
import PegGraph.Proofs.Transparency
import PegGraph.Proofs.Backtracking
import PegGraph.Proofs.History
import PegGraph.Proofs.Preparation
import PegGraph.Proofs.Akin
import PegGraph.Proofs.Preorder
import PegGraph.Proofs.Resumption
import PegGraph.Proofs.Recognition
import PegGraph.Proofs.Headroom
import PegGraph.Proofs.LeftRecursion
import PegGraph.Proofs.Containment
import PegGraph.Proofs.Accounting
import PegGraph.Proofs.Spelling
import PegGraph.Proofs.Layout
import PegGraph.Proofs.Arithmetic.Definition
import PegGraph.Proofs.Arithmetic.Expression
import PegGraph.Proofs.Arithmetic.Reading
import PegGraph.Proofs.Arithmetic.Evaluation
import PegGraph.Proofs.Obstacle
import PegGraph.Proofs.Contraction
import PegGraph.Proofs.Survey
import PegGraph.Proofs.Suffix
import PegGraph.Proofs.Stability
import PegGraph.Proofs.Arithmetic.Budget
import PegGraph.Proofs.Roots
import PegGraph.Proofs.Arithmetic.Generation
import PegGraph.Proofs.Resolution
import PegGraph.Proofs.Cursor
import PegGraph.Proofs.Repetition
import PegGraph.Proofs.NestedList.Definition
import PegGraph.Proofs.NestedList.Document
import PegGraph.Proofs.NestedList.Reading
import PegGraph.Proofs.NestedList.Parsing
import PegGraph.Proofs.NestedList.RoundTrip
import PegGraph.Proofs.Machine
import PegGraph.Proofs.Choice
