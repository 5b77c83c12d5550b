import Nominal.Fabricated.Matching
import Nominal.Fabricated.Reachable
import Nominal.Host.Json
import Nominal.Json.Request
import Nominal.Proofs.Compilation.Accepting
import Nominal.Proofs.Compilation.Analysis
import Nominal.Proofs.Compilation.Refusing
import Nominal.Proofs.Fabricated.Reaching
import Nominal.Proofs.Host.LifeCycle
import Nominal.Proofs.Order.Deepening
import Nominal.Proofs.Recipe.Crowded
import Nominal.Proofs.Recipe.Durable
import Nominal.Proofs.Recipe.Ending
import Nominal.Proofs.Recipe.Reloading
import Nominal.Proofs.Store.Arranging
import Nominal.Proofs.Store.Exhausting
import Nominal.Proofs.Store.Outward
import Nominal.Proofs.Store.Scoped
import Nominal.Proofs.Types.Arrays
import Nominal.Proofs.Types.Belonging
import Nominal.Proofs.Types.Composing
import Nominal.Proofs.Types.Congruence
import Nominal.Proofs.Types.Ending
import Nominal.Proofs.Types.Equivalence
import Nominal.Proofs.Types.Founded
import Nominal.Proofs.Types.Freeing
import Nominal.Proofs.Types.Immediate
import Nominal.Proofs.Workspace.Views
import Nominal.Summary.Compilation
import Nominal.Summary.Kind
import Nominal.Summary.Recipe
import Nominal.Summary.TypeView
import Nominal.Workspace.Describe
