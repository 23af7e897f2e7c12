import Provision.Pattern.Parser

/-!
# Import references

References to things that exist already, told apart by their form. The kinds are tried in a fixed
order and the first whose pattern matches counts.
-/

namespace Provision

inductive ImportRef where
  | arn
  | s3Url
  | url
  | tagClause
  | ec2Id
  | kmsAlias
  | logGroup
  | name
deriving Repr, DecidableEq

namespace ImportRef

/-- All kinds, in the order in which they are tried. -/
def all : List ImportRef :=
  [.arn, .s3Url, .url, .tagClause, .ec2Id, .kmsAlias, .logGroup, .name]

def source : ImportRef → String
  | .arn => "^arn:aws[a-z-]*:[a-z0-9-]+:[a-z0-9-]*:(\\d\x7b12\x7d)?:.+$"
  | .s3Url => "^s3://[a-z0-9][a-z0-9.-]\x7b1,61\x7d[a-z0-9](/\\S*)?$"
  | .url => "^https?://[^\\s/?#]+[^\\s]*$"
  | .tagClause => "^tag:[A-Za-z0-9_.:/+@-]+=\\S*$"
  | .ec2Id =>
    "^(i|vol|sg|subnet|vpc|ami|eni|igw|rtb|snap|nat|eipalloc)-" ++
      "([0-9a-f]\x7b8\x7d|[0-9a-f]\x7b17\x7d)$"
  | .kmsAlias => "^alias/[A-Za-z0-9/_-]+$"
  | .logGroup => "^/[A-Za-z0-9_./#-]+$"
  | .name => "^[A-Za-z0-9][A-Za-z0-9_.-]*$"

/-- Whether a text has the form of the references of a kind. -/
def accepts (kind : ImportRef) (reference : String) : Bool :=
  match Pattern.parse? {} kind.source with
  | some pattern => pattern.isMatch reference
  | none => false

def classify? (reference : String) : Option ImportRef := all.find? (·.accepts reference)

def describe : ImportRef → String
  | .arn => "ARN"
  | .s3Url => "S3 URL"
  | .url => "URL"
  | .tagClause => "tag clause"
  | .ec2Id => "EC2 id"
  | .kmsAlias => "KMS alias"
  | .logGroup => "log group"
  | .name => "name"

def label : ImportRef → String
  | .arn => "Arn"
  | .s3Url => "S3Url"
  | .url => "Url"
  | .tagClause => "TagClause"
  | .ec2Id => "Ec2Id"
  | .kmsAlias => "KmsAlias"
  | .logGroup => "LogGroup"
  | .name => "Name"

end ImportRef

end Provision
