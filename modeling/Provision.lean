import Provision.Main
import Provision.Proofs.EvaluationOrder
import Provision.Proofs.Externals
import Provision.Proofs.Decorations
import Provision.Proofs.Symmetry
import Provision.Proofs.FailFast
import Provision.Proofs.Ty.Judgements
import Provision.Proofs.Scope.Histories
import Provision.Proofs.Grouping
import Provision.Proofs.Aliases
import Provision.Proofs.Inputs
import Provision.Proofs.Values
import Provision.Proofs.StringLiterals
import Provision.Proofs.Integers
import Provision.Proofs.Progress
import Provision.Proofs.Dependency.Content
import Provision.Proofs.Presets
import Provision.Proofs.ImportRefs
