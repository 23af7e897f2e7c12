import Provision.Decorator.Allowed
import Provision.Decorator.Bounds
import Provision.Decorator.DependsOn
import Provision.Decorator.Existing
import Provision.Decorator.Flags
import Provision.Decorator.Labels
import Provision.Decorator.Validate

/-!
# The decorators of the language
-/

namespace Provision

variable (engine : Pattern.Engine := .standard)

def Decorator.builtins : List Decorator :=
  [allowed, minValue, maxValue, minLength, maxLength, nonEmpty, unique, sensitive, tags, provider,
    existing, validate engine, dependsOn, count, description]

def Registry.builtin : Registry := ⟨Decorator.builtins engine⟩

end Provision
