import Waymark.Main
import Waymark.Proofs.Encoding.Agreement
import Waymark.Proofs.Encoding.CompiledText
import Waymark.Proofs.Encoding.Composition
import Waymark.Proofs.Encoding.Freshness
import Waymark.Proofs.Expr.Grammar
import Waymark.Proofs.Ground.Costs
import Waymark.Proofs.Ground.InitialFacts
import Waymark.Proofs.Ground.Layering
import Waymark.Proofs.Ground.Refinement
import Waymark.Proofs.Ground.TypeAncestry
import Waymark.Proofs.Landmark.TopologicalOrder
import Waymark.Proofs.Landmark.Validity
import Waymark.Proofs.Plan.ActionText
import Waymark.Proofs.Plan.Fingerprint
import Waymark.Proofs.Plan.TopQuality
import Waymark.Proofs.Plan.Trie
import Waymark.Proofs.Plan.Truncation
import Waymark.Proofs.Safety
import Waymark.Proofs.Translation.Layout
import Waymark.Proofs.Translation.Ranking
import Waymark.Proofs.View.Consistency
import Waymark.Proofs.View.FlowAgreement
import Waymark.Proofs.View.GreedySweep
import Waymark.Proofs.View.Reordered
import Waymark.Proofs.View.Resolution
