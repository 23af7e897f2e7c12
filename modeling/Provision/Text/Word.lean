import Provision.Text.Ranges

/-!
# Word characters

Words are made of letters, marks, decimal digits, connector punctuation and the two joiners, as of
Unicode 16. Letters and combining marks are listed as of Unicode 17, which has some more.
-/

namespace Provision.Text

/-- Ranges of connectors and joiners, and of marks that are no letters and do not combine. -/
def connectors : Ranges := Ranges.ofLengths 0 [
  95, 1, 3806, 2, 3489, 1, 21, 1, 788, 2, 49, 2, 19, 1, 35735, 1, 21062, 2, 24, 3, 239, 1]

/-- The ranges of letters and marks that are new in Unicode 17. -/
def newcomers : Ranges := Ranges.ofLengths 0 [
  2191, 1, 972, 1, 127, 1, 3570, 15, 2, 12, 36066, 2, 2, 1, 1, 1, 28, 1, 24910, 26, 1387, 3, 50, 2,
  3172, 8, 584, 44, 20676, 25, 2, 25, 286, 5, 6145, 8, 1289, 22, 97, 115, 22733, 31, 1, 22, 8, 2,
  53306, 6, 5986, 12, 21762, 4298]

end Provision.Text
