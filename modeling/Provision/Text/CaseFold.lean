import Provision.Text.Ranges

/-!
# Letters that differ in case only

Simple case folding of Unicode 16 as a relation: the table lists, run by run, which later characters
a character folds together with. A run goes from `first` to `last` in steps of `step`, and the
partner of each of its characters lies `shift` code points further. The relation is symmetric and
transitive, so the partners of a character in the runs of both directions are the rest of its class.
-/

namespace Provision.Text

/-- A run of characters that have a case partner at the same distance. -/
structure FoldRun where
  first : Nat
  last : Nat
  step : Nat
  shift : Int

/-- A run by how far it starts from the start of the one before, how far it goes, its step and its
shift. -/
abbrev FoldStep := Nat × Nat × Nat × Int

def FoldRun.follow (start : Nat) : List FoldStep → List FoldRun
  | (away, extent, step, shift) :: rest =>
    ⟨start + away, start + away + extent, step, shift⟩ :: follow (start + away) rest
  | [] => []

def latinRuns : List FoldStep := [
  (65,25,1,32),(10,0,1,8415),(8,0,1,300),(24,0,1,8383),(8,0,1,268),(66,0,1,743),(0,0,1,775),
  (11,22,1,32),(5,0,1,8294),(19,6,1,32),(7,0,1,7615),(6,0,1,8262),(26,0,1,121),(1,46,2,1),
  (50,4,2,1),(7,14,2,1),(17,44,2,1),(47,4,2,1),(7,0,1,195),(1,0,1,210),(1,2,2,1),(4,0,1,206),
  (1,0,1,1),(2,1,1,205),(2,0,1,1),(3,0,1,79),(1,0,1,202),(1,0,1,203),(1,0,1,1),(2,0,1,205),
  (1,0,1,207),(1,0,1,97),(1,0,1,211),(1,0,1,209),(1,0,1,1),(2,0,1,163),(1,0,1,42561),(1,0,1,211),
  (1,0,1,213),(1,0,1,130),(1,0,1,214),(1,4,2,1),(6,0,1,218),(1,0,1,1),(2,0,1,218),(3,0,1,1),
  (2,0,1,218),(1,0,1,1),(2,1,1,217),(2,2,2,1),(4,0,1,219),(1,0,1,1),(4,0,1,1),(3,0,1,56),(5,0,1,2),
  (0,1,1,1),(3,0,1,2),(0,1,1,1),(3,0,1,2),(0,1,1,1),(3,14,2,1),(17,16,2,1),(19,0,1,2),(0,1,1,1),
  (3,0,1,1),(4,38,2,1),(42,16,2,1),(24,0,1,10795),(1,0,1,1),(3,0,1,10792),(1,1,1,10815),(2,0,1,1),
  (3,0,1,69),(1,0,1,71),(1,8,2,1)]

/-- Runs of the Greek, Cyrillic and Armenian letters. -/
def greekRuns : List FoldStep := [
  (10,0,1,10783),(1,0,1,10780),(1,0,1,10782),(10,0,1,42319),(5,0,1,42315),(3,0,1,42343),
  (1,0,1,42280),(1,0,1,42308),(4,0,1,42308),(1,0,1,10743),(1,0,1,42305),(5,0,1,10749),
  (12,0,1,10727),(5,0,1,42307),(5,0,1,42282),(22,0,1,42261),(1,0,1,42258),(167,0,1,84),(0,0,1,116),
  (0,0,1,7289),(43,2,2,1),(6,0,1,1),(5,2,1,130),(4,0,1,116),(7,0,1,38),(2,2,1,37),(4,0,1,64),
  (2,1,1,63),(2,0,1,7235),(1,16,1,32),(1,0,1,62),(3,0,1,96),(3,0,1,57),(0,0,1,92),(1,0,1,7205),
  (1,0,1,86),(6,0,1,54),(1,0,1,80),(2,0,1,31),(0,8,1,32),(3,0,1,47),(3,0,1,7549),(7,0,1,7219),
  (2,0,1,30),(3,0,1,64),(3,0,1,25),(0,0,1,60),(1,0,1,7173),(1,0,1,54),(6,0,1,22),(1,0,1,48),
  (1,0,1,1),(4,0,1,15),(3,0,1,7517),(6,0,1,8),(2,0,1,35),(7,22,2,1),(26,0,1,7),(5,0,1,1),(3,0,1,1),
  (6,15,1,80),(16,31,1,32),(2,0,1,6254),(2,0,1,6253),(10,0,1,6244),(3,1,1,6242),(1,0,1,6243),
  (8,0,1,6236),(8,0,1,6222),(2,0,1,6221),(10,0,1,6212),(3,1,1,6210),(1,0,1,6211),(8,0,1,6204),
  (22,32,2,1),(2,0,1,6181),(1,0,1,6180),(39,52,2,1),(54,0,1,15),(1,12,2,1),(15,94,2,1),(97,37,1,48)]

/-- Runs of the letters from Georgian to the circled ones. -/
def additionalRuns : List FoldStep := [
  (2927,37,1,7264),(39,0,1,7264),(6,0,1,7264),(3,42,1,3008),(45,2,1,3008),(675,79,1,38864),
  (80,5,1,8),(2196,0,1,1),(4,0,1,35266),(0,0,1,35267),(1,0,1,1),(240,0,1,35332),(4,0,1,3814),
  (17,0,1,35384),(114,148,2,1),(96,0,1,59),(1,0,1,58),(63,94,2,1),(96,7,1,8),(16,5,1,8),(16,7,1,8),
  (16,7,1,8),(16,5,1,8),(17,6,2,8),(15,7,1,8),(16,1,1,74),(2,3,1,86),(4,1,1,100),(2,1,1,128),
  (2,1,1,112),(2,1,1,126),(4,7,1,8),(16,7,1,8),(16,7,1,8),(16,1,1,8),(3,0,1,9),(16,0,1,9),
  (13,1,1,8),(16,1,1,8),(5,0,1,7),(14,0,1,9),(319,0,1,28),(46,15,1,16),(35,0,1,1),(819,25,1,26)]

def laterRuns : List FoldStep := [
  (1866,47,1,48),(96,0,1,1),(7,4,2,1),(11,0,1,1),(3,0,1,1),(11,98,2,1),(107,2,2,1),(7,0,1,1),
  (31054,44,2,1),(64,26,2,1),(162,12,2,1),(16,60,2,1),(71,2,2,1),(5,8,2,1),(13,0,1,1),(5,2,2,1),
  (4,0,1,48),(2,18,2,1),(29,0,1,928),(1,14,2,1),(19,2,2,1),(5,0,1,1),(4,0,1,1),(6,4,2,1),(31,0,1,1),
  (21264,0,1,1),(1052,25,1,32),(1247,39,1,40),(176,35,1,40),(192,10,1,39),(12,14,1,39),(16,6,1,39),
  (8,1,1,39),(1772,50,1,64),(208,21,1,32),(2896,31,1,32),(21920,31,1,32),(31424,33,1,34)]

def FoldRun.partner (r : FoldRun) (n : Nat) : Nat := (n + r.shift).toNat

/-- Runs with the runs that lead back from their partners. -/
def FoldRun.bothWays (rs : List FoldRun) : List FoldRun :=
  rs ++ rs.map fun r => ⟨r.partner r.first, r.partner r.last, r.step, -r.shift⟩

/-- The runs of simple case folding, in both directions. -/
def foldRuns : List FoldRun :=
  FoldRun.bothWays (FoldRun.follow 0 (latinRuns ++ greekRuns ++ additionalRuns ++ laterRuns))

def asciiFoldRuns : List FoldRun := FoldRun.bothWays [⟨0x41, 0x5A, 1, 32⟩]

/-- The partners of the code points from `first` to `last` that belong to a run, as ranges. -/
def FoldRun.partners (r : FoldRun) (first last : Nat) : Ranges :=
  let lo := max r.first first
  let hi := min r.last last
  if hi < lo then []
  else if r.step = 1 then [(r.partner lo, r.partner hi)]
  else
    (List.range (hi - lo + 1)).filterMap fun k =>
      if (lo + k - r.first) % r.step = 0 then some (r.partner (lo + k), r.partner (lo + k))
      else none

end Provision.Text
