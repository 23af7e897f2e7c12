import Provision.Number.Read
import Provision.Pattern.Automaton
import Provision.Text.Numeral

/-!
# Reading patterns

`Pattern.parse?` reads the text of a pattern, or finds that it is none. A pattern is a list of
branches with `|` between them, a branch a list of items, each of which repetition operators may
follow. Flags in a group, `(?i)`, hold to the end of the group around them. A pattern must not be
nested too deeply, nor its automata be too large.
-/

namespace Provision.Pattern

/-- The settings that change what a pattern means. -/
structure Flags where
  /-- Letters match in either case. -/
  ignoreCase : Bool := false
  /-- `^` and `$` match at the ends of lines. -/
  multiLine : Bool := false
  /-- `.` matches a newline. -/
  dotAll : Bool := false
  /-- White space and comments in the pattern do not count. -/
  extended : Bool := false
  /-- Lines may end in a carriage return. -/
  crlf : Bool := false
  /-- Repetitions prefer fewer times. -/
  swapGreed : Bool := false
  /-- Classes go beyond the first 128 characters. -/
  unicode : Bool := true
deriving Repr, DecidableEq

/-- What is left of a pattern, the settings that hold there, the number of groups so far, and the
names among them. -/
structure Reader where
  rest : List Char
  flags : Flags
  groups : Nat
  names : List (List Char)

/-- A reader of patterns; it fails on a text that is none. -/
abbrev Read := StateT Reader Option

/-- What an item of a pattern can be. -/
inductive Item where
  | char (c : Char)
  | cond (a : Assertion)
  | among (chars : CharSet)

/-- A part of a pattern and how many levels it has as it is written. -/
structure Part where
  pattern : Pattern
  height : Nat

/-- The levels of things side by side; a single one needs no level for itself. -/
def levels : List Nat → Nat
  | [] => 0
  | [h] => h
  | hs => hs.foldl max 0 + 1

/-! ### Characters -/

/-- Drops white space and comments; the flag says that a comment has begun. -/
def dropSpace : Bool → List Char → List Char
  | _, [] => []
  | true, c :: rest => dropSpace (c != '\n') rest
  | false, c :: rest =>
    if Text.isBlank c then dropSpace false rest
    else if c = '#' then dropSpace true rest
    else c :: rest

/-- What is left once white space that does not count is dropped. -/
def skim (flags : Flags) (cs : List Char) : List Char :=
  if flags.extended then dropSpace false cs else cs

def goTo (rest : List Char) : Read Unit := modify fun r => { r with rest }

def rest : Read (List Char) := return (← get).rest

def skipSpace : Read Unit := modify fun r => { r with rest := skim r.flags r.rest }

def peek : Read Char := do
  match ← rest with
  | c :: _ => return c
  | [] => failure

def isAt (c : Char) : Read Bool := return (← rest).head? == some c

def bump : Read Unit := do goTo (← rest).tail

/-- Moves behind the next character and white space that does not count. -/
def bumpSpace : Read Unit := do
  bump
  skipSpace

/-- Moves to the next character that counts; there has to be one. -/
def bumpInside : Read Unit := do
  bumpSpace
  let _ ← peek

/-! ### Escapes -/

def isMeta (c : Char) : Bool := "\\.+*?()|[]\x7b\x7d^$#&-~".toList.contains c

/-- Whether a backslash before a character stands for the character. -/
def isEscapable (c : Char) : Bool :=
  isMeta c || (c.toNat < 128 && !c.isAlphanum && c != '<' && c != '>')

def isHex (c : Char) : Bool :=
  c.isDigit || ('a' ≤ c && c ≤ 'f') || ('A' ≤ c && c ≤ 'F')

def hexValue (c : Char) : Nat :=
  if c.isDigit then c.toNat - '0'.toNat
  else if 'a' ≤ c then c.toNat - 'a'.toNat + 10
  else c.toNat - 'A'.toNat + 10

/-- The character of a code point in hexadecimal digits. -/
def ofHex (ds : List Char) : Read Item := do
  let n := ds.foldl (fun n d => 16 * n + hexValue d) 0
  if ds.isEmpty then failure
  else if n.isValidChar then return .char (Char.ofNat n)
  else failure

def hexDigits : Nat → Read (List Char)
  | 0 => return []
  | n + 1 => do
    let c ← peek
    if isHex c then
      bumpSpace
      return c :: (← hexDigits n)
    else failure

def hexBraced : (steps : Nat) → Read (List Char)
  | 0 => failure
  | steps + 1 => do
    let c ← peek
    if c = '\x7d' then
      bumpSpace
      return []
    else if isHex c then
      bumpSpace
      return c :: (← hexBraced steps)
    else failure

/-- Reads a code point behind `\x`, `\u` or `\U`, which take the given number of digits. Two digits
without braces are a byte, and with classes for the first 128 characters only it has to be one of
them. -/
def hexCode (width : Nat) : Read Item := do
  bumpSpace
  if ← isAt '\x7b' then
    bumpSpace
    ofHex (← hexBraced ((← rest).length + 1))
  else
    let item ← ofHex (← hexDigits width)
    match item with
    | .char c =>
      if width = 2 && 128 ≤ c.toNat && !(← get).flags.unicode then failure else return item
    | _ => return item

/-- Restricts a set to where it may be used without wide classes. -/
def unlessWide (chars : CharSet) : Read Item := do
  if (← get).flags.unicode then return .among chars else failure

/-- One of two sets, for wide classes and without them. -/
def byWidth (wide narrow : CharSet) : Read Item :=
  return .among (if (← get).flags.unicode then wide else narrow)

def wordChars : Read CharSet :=
  return if (← get).flags.unicode then .word else .asciiWord

/-- Whether a character can stand in the name of a boundary. -/
def isBoundaryChar (c : Char) : Bool := c.isAlpha || c == '-'

/-- Reads the name of a boundary up to its closing brace. -/
def boundaryName : (steps : Nat) → Read (List Char)
  | 0 => failure
  | steps + 1 => do
    let c ← peek
    if c = '\x7d' then
      bump
      return []
    else if isBoundaryChar c then
      bumpSpace
      return c :: (← boundaryName steps)
    else failure

/-- Reads what follows `\b`: the name of a boundary in braces, unless the brace begins a
repetition. -/
def boundary : Read Item := do
  let w ← wordChars
  let start ← rest
  if ← isAt '\x7b' then
    bumpSpace
    if isBoundaryChar (← peek) then
      match String.ofList (← boundaryName ((← rest).length + 1)) with
      | "start" => return .cond (.wordStart w)
      | "end" => return .cond (.wordEnd w)
      | "start-half" => return .cond (.wordStartHalf w)
      | "end-half" => return .cond (.wordEndHalf w)
      | _ => failure
    else
      goTo start
      return .cond (.wordBoundary w)
  else return .cond (.wordBoundary w)

def escape : Read Item := do
  bump
  let c ← peek
  match c with
  | 'x' => hexCode 2
  | 'u' => hexCode 4
  | 'U' => hexCode 8
  | 'd' => bump; byWidth .digit .asciiDigit
  | 's' => bump; byWidth .blank .asciiBlank
  | 'w' => bump; byWidth .word .asciiWord
  | 'D' => bump; unlessWide CharSet.digit.compl
  | 'S' => bump; unlessWide CharSet.blank.compl
  | 'W' => bump; unlessWide CharSet.word.compl
  | _ =>
    bump
    if isEscapable c then return .char c
    else
      match c with
      | 'a' => return .char '\x07'
      | 'f' => return .char '\x0c'
      | 't' => return .char '\t'
      | 'n' => return .char '\n'
      | 'r' => return .char '\r'
      | 'v' => return .char '\x0b'
      | 'A' => return .cond .textStart
      | 'z' => return .cond .textEnd
      | 'b' => boundary
      | 'B' => return .cond (.notWordBoundary (← wordChars))
      | '<' => return .cond (.wordStart (← wordChars))
      | '>' => return .cond (.wordEnd (← wordChars))
      | _ => failure

/-! ### Classes -/

/-- A set closed under case if letters match in either case. -/
def foldSet (flags : Flags) (chars : CharSet) : CharSet :=
  if !flags.ignoreCase then chars
  else if flags.unicode then chars.folded
  else chars.asciiFolded

def closeSet (negated : Bool) (chars : CharSet) : Read CharSet := do
  let flags := (← get).flags
  let folded := foldSet flags chars
  if negated then
    if flags.unicode then return folded.compl else failure
  else return folded

/-- A set in a class, which must not go beyond the first 128 characters unless classes do. -/
def checkWidth (chars : CharSet) : Read CharSet := do
  if (← get).flags.unicode || chars.isAscii then return chars else failure

def itemSet : Item → Read CharSet
  | .char c => checkWidth (.single c)
  | .among chars => return chars
  | .cond _ => failure

def classItem : Read Item := do
  let c ← peek
  if c = '\\' then escape
  else
    bump
    return .char c

/-- The character behind the next one. White space that does not count is passed over, and with it
the mark of one comment, but not the comment; if nothing follows, it counts after all. -/
def peekBehind : Read (Option Char) := do
  let r ← get
  let behind := r.rest.tail
  if !r.flags.extended then return behind.head?
  else
    let seen := match behind.dropWhile Text.isBlank with
      | '#' :: comment => comment.dropWhile Text.isBlank
      | seen => seen
    return seen.head?.or behind.head?

/-- Reads a character, a class or a range of characters in a class. -/
def classRange : Read CharSet := do
  let first ← classItem
  skipSpace
  let c ← peek
  let behind ← peekBehind
  if c != '-' || behind == some ']' || behind == some '-' then itemSet first
  else
    bumpInside
    let last ← classItem
    match first, last with
    | .char a, .char b => if a ≤ b then checkWidth (.range a b) else failure
    | _, _ => failure

/-- The ways to combine two sets in a class. -/
inductive SetOp where
  | inter
  | diff
  | symmDiff

def SetOp.apply (op : SetOp) (flags : Flags) (a b : CharSet) : CharSet :=
  match op with
  | .inter => (foldSet flags a).inter (foldSet flags b)
  | .diff => (foldSet flags a).diff (foldSet flags b)
  | .symmDiff => (foldSet flags a).symmDiff (foldSet flags b)

def setOp? : List Char → Option SetOp
  | '&' :: '&' :: _ => some .inter
  | '-' :: '-' :: _ => some .diff
  | '~' :: '~' :: _ => some .symmDiff
  | _ => none

/-- The class with a name that comes next, `[:name:]` or `[:^name:]`, and what follows it. -/
def namedClass? : List Char → Option ((Bool × CharSet) × List Char)
  | '[' :: ':' :: rest => do
    let (negated, rest) := match rest with
      | '^' :: tail => (true, tail)
      | tail => (false, tail)
    let name := rest.takeWhile (· != ':')
    match rest.dropWhile (· != ':') with
    | ':' :: ']' :: tail => do
      let chars ← CharSet.named? (String.ofList name)
      return ((negated, chars), tail)
    | _ => none
  | _ => none

/-- What a class has so far: the set, and the levels of the items it is made of. -/
structure ClassPart where
  chars : CharSet
  heights : List Nat

def ClassPart.start : ClassPart := ⟨.none, []⟩

def ClassPart.add (part : ClassPart) (chars : CharSet) (height : Nat) : ClassPart :=
  ⟨part.chars.union chars, height :: part.heights⟩

/-- What is combined by an operator with what follows it. -/
structure Pending where
  op : SetOp
  chars : CharSet
  height : Nat

/-- The items of a class together with what stands before the last operator. -/
def ClassPart.combine (flags : Flags) (pending : Option Pending) (part : ClassPart) :
    CharSet × Nat :=
  let height := levels part.heights
  match pending with
  | some before => (before.op.apply flags before.chars part.chars, max before.height height + 1)
  | none => (part.chars, height)

def leadingHyphens : (steps : Nat) → ClassPart → Read ClassPart
  | 0, _ => failure
  | steps + 1, part => do
    if ← isAt '-' then
      bumpInside
      leadingHyphens steps (part.add (.single '-') 0)
    else return part

mutual

/-- Reads a class from its opening bracket on, and gives the levels inside it. A bracket that
closes it at once stands for itself. -/
def bracketed : (steps : Nat) → Read (CharSet × Nat)
  | 0 => failure
  | steps + 1 => do
    bumpInside
    let negated ← isAt '^'
    if negated then bumpInside
    let part ← leadingHyphens ((← rest).length + 1) .start
    let part ← do
      if part.heights.isEmpty && (← isAt ']') then
        bumpInside
        pure (part.add (.single ']') 0)
      else pure part
    let (chars, height) ← classBody steps none part
    return (← closeSet negated chars, height)

/-- Reads the items of a class up to its closing bracket. `part` has those read since the last
operator, and `pending` that operator with what stands before it. -/
def classBody : (steps : Nat) → (pending : Option Pending) → ClassPart → Read (CharSet × Nat)
  | 0, _, _ => failure
  | steps + 1, pending, part => do
    skipSpace
    let r ← get
    match r.rest with
    | [] => failure
    | ']' :: tail =>
      goTo tail
      return part.combine r.flags pending
    | c :: tail =>
      match setOp? r.rest with
      | some op =>
        goTo tail.tail
        let (chars, height) := part.combine r.flags pending
        classBody steps (some ⟨op, chars, height⟩) .start
      | none =>
        if c = '[' then
          match namedClass? r.rest with
          | some ((negated, chars), behind) =>
            goTo behind
            classBody steps pending (part.add (← closeSet negated chars) 0)
          | none =>
            let (chars, height) ← bracketed steps
            classBody steps pending (part.add chars (height + 1))
        else classBody steps pending (part.add (← classRange) 0)

end

/-! ### Groups and repetitions -/

def setFlag? (flags : Flags) (on : Bool) : Char → Option Flags
  | 'i' => some { flags with ignoreCase := on }
  | 'm' => some { flags with multiLine := on }
  | 's' => some { flags with dotAll := on }
  | 'x' => some { flags with extended := on }
  | 'R' => some { flags with crlf := on }
  | 'u' => some { flags with unicode := on }
  | 'U' => some { flags with swapGreed := on }
  | _ => none

/-- Reads the letters of a flag group up to `:` or `)`; `seen` are those before, the last first. A
letter or the minus sign stands there once at most, and the minus sign not at the end. -/
def flagLetters (flags : Flags) (on : Bool) (seen : List Char) :
    List Char → Option (Flags × Bool × Char × List Char)
  | [] => none
  | c :: rest =>
    if c = ':' ∨ c = ')' then
      if seen.head? = some '-' then none else some (flags, seen.isEmpty, c, rest)
    else if seen.contains c then none
    else if c = '-' then flagLetters flags false (c :: seen) rest
    else do flagLetters (← setFlag? flags on c) on (c :: seen) rest

/-- Whether a character may stand in a group name, first or later. -/
def isNameChar (first : Bool) (c : Char) : Bool :=
  c == '_' || Text.isLetter c || (!first && (Text.isNumeral c || ['.', '[', ']'].contains c))

/-- Reads the name of a group up to `>`; no two groups have the same name. -/
def groupName : Read Unit := do
  let r ← get
  let name := r.rest.takeWhile (· != '>')
  match name, r.rest.dropWhile (· != '>') with
  | first :: others, _ :: behind =>
    if isNameChar true first && others.all (isNameChar false) && !r.names.contains name then
      StateT.set { r with rest := behind, names := name :: r.names }
    else failure
  | _, _ => failure

/-- What an opening parenthesis begins: a group, with the flags inside it and its number if it has
one, or a change of flags. -/
inductive Opening where
  | group (flags : Flags) (index : Option Nat)
  | setFlags (flags : Flags)

def nextIndex : Read Nat :=
  modifyGet fun r => (r.groups + 1, { r with groups := r.groups + 1 })

/-- Reads the start of a group from its parenthesis on. -/
def opening : Read Opening := do
  bumpSpace
  let flags := (← get).flags
  match ← rest with
  | '?' :: 'P' :: '<' :: behind =>
    goTo behind
    groupName
    return .group flags (← nextIndex)
  | '?' :: '<' :: behind =>
    goTo behind
    groupName
    return .group flags (← nextIndex)
  | '?' :: letters =>
    match flagLetters flags true [] letters with
    | some (flags, isEmpty, stop, behind) =>
      goTo behind
      if stop = ':' then return .group flags none
      else if isEmpty then failure
      else return .setFlags flags
    | none => failure
  | _ => return .group flags (← nextIndex)

/-- How many times something is repeated, at least and at most. -/
abbrev Bounds := Nat × Option Nat

/-- The first number that is too large for a repetition. -/
def countCeiling : Nat := Nat.pow 2 32

/-- Moves behind white space, whether it counts or not. -/
def dropBlanks : Read Unit := do
  goTo ((← rest).dropWhile Text.isBlank)

def digits : (steps : Nat) → Read (List Char)
  | 0 => failure
  | steps + 1 => do
    match (← rest).head? with
    | some c =>
      if c.isDigit then
        bumpSpace
        return c :: (← digits steps)
      else return []
    | none => return []

/-- Reads a number of repetitions with white space around it; there may be none. -/
def count? : Read (Option Nat) := do
  dropBlanks
  let ds ← digits ((← rest).length + 1)
  dropBlanks
  skipSpace
  if ds.isEmpty then return none
  else
    let n := Number.digitsValue ds
    if n < countCeiling then return some n else failure

/-- Reads the bounds of a repetition from its opening brace on. -/
def braced : Read Bounds := do
  bumpInside
  let least ← count?
  if ← isAt ',' then
    bumpInside
    match least with
    | none => failure
    | some least =>
      if ← isAt '\x7d' then
        bumpSpace
        return (least, none)
      else
        match ← count? with
        | none => failure
        | some most =>
          if (← isAt '\x7d') && least ≤ most then
            bumpSpace
            return (least, some most)
          else failure
  else
    match least with
    | none => failure
    | some n =>
      if ← isAt '\x7d' then
        bumpSpace
        return (n, some n)
      else failure

/-- Reads the mark that turns round which number of times is preferred, if it is there, and says
whether more are. -/
def greedy : Read Bool := do
  let flags := (← get).flags
  if ← isAt '?' then
    bump
    return flags.swapGreed
  else return !flags.swapGreed

/-- Repeats the item read last; there has to be one, and it must not be a change of flags. -/
def repeatLast (bounds : Bounds) : List (Option Part) → Read (List (Option Part))
  | some part :: before => do
    let p := part.pattern.repeated bounds.1 bounds.2 (← greedy)
    return some ⟨p, part.height + 1⟩ :: before
  | _ => failure

def ofChar (flags : Flags) (c : Char) : Pattern := ofSet (foldSet flags (.single c))

/-- The condition or the set that a single item stands for. -/
def ofItem (flags : Flags) : Item → Pattern
  | .char c => ofChar flags c
  | .cond a => .assert a
  | .among chars => ofSet chars

def dot : Read Pattern := do
  let flags := (← get).flags
  if !flags.unicode then failure
  else if flags.dotAll then return .set .all
  else if flags.crlf then return .set (CharSet.compl ⟨[(10, 10), (13, 13)]⟩)
  else return .set (CharSet.single '\n').compl

def caret (flags : Flags) : Assertion :=
  if !flags.multiLine then .textStart else if flags.crlf then .lineStartCrlf else .lineStart

def dollar (flags : Flags) : Assertion :=
  if !flags.multiLine then .textEnd else if flags.crlf then .lineEndCrlf else .lineEnd

/-- The items of a branch, the last first, one after the other. -/
def ofBranch (parts : List (Option Part)) : Part :=
  ⟨concat (parts.reverse.filterMap (·.map Part.pattern)),
    levels (parts.map fun part => (part.map Part.height).getD 0)⟩

def ofChoice (parts : List Part) : Part :=
  ⟨choice (parts.map Part.pattern), levels (parts.map Part.height)⟩

def ofGroup (index : Option Nat) (part : Part) : Part :=
  match index with
  | some n => ⟨.group n part.pattern, part.height + 1⟩
  | none => ⟨part.pattern, part.height + 1⟩

mutual

/-- Reads branches up to the end of a group or of the pattern. -/
def branchList : (steps : Nat) → Read (List Part)
  | 0 => failure
  | steps + 1 => do
    let first := ofBranch (← branch steps [])
    if ← isAt '|' then
      bump
      return first :: (← branchList steps)
    else return [first]

/-- Reads the items of a branch; `parts` are those before, the last first. A change of flags takes
a place among them. -/
def branch : (steps : Nat) → List (Option Part) → Read (List (Option Part))
  | 0, _ => failure
  | steps + 1, parts => do
    skipSpace
    let flags := (← get).flags
    match (← rest).head? with
    | none => return parts
    | some '|' => return parts
    | some ')' => return parts
    | some '(' =>
      match ← opening with
      | .setFlags inner =>
        modify fun r => { r with flags := inner }
        branch steps (none :: parts)
      | .group inner index =>
        modify fun r => { r with flags := inner }
        let body := ofChoice (← branchList steps)
        if ← isAt ')' then
          bump
          modify fun r => { r with flags }
          branch steps (some (ofGroup index body) :: parts)
        else failure
    | some '[' =>
      let (chars, height) ← bracketed steps
      branch steps (some ⟨ofSet chars, height + 1⟩ :: parts)
    | some '?' =>
      bump
      branch steps (← repeatLast (0, some 1) parts)
    | some '*' =>
      bump
      branch steps (← repeatLast (0, none) parts)
    | some '+' =>
      bump
      branch steps (← repeatLast (1, none) parts)
    | some '\x7b' =>
      let bounds ← braced
      branch steps (← repeatLast bounds parts)
    | some '\\' =>
      let item ← escape
      branch steps (some ⟨ofItem flags item, 0⟩ :: parts)
    | some '.' =>
      bump
      let p ← dot
      branch steps (some ⟨p, 0⟩ :: parts)
    | some '^' =>
      bump
      branch steps (some ⟨.assert (caret flags), 0⟩ :: parts)
    | some '$' =>
      bump
      branch steps (some ⟨.assert (dollar flags), 0⟩ :: parts)
    | some c =>
      bump
      branch steps (some ⟨ofChar flags c, 0⟩ :: parts)

end

def maxHeight : Nat := 250

def parse? (flags : Flags) (s : String) : Option Pattern := do
  let text := s.toList
  let (parts, r) ← (branchList (2 * text.length + 4)).run ⟨text, flags, 0, []⟩
  let whole := ofChoice parts
  if r.rest.isEmpty && whole.height ≤ maxHeight && whole.pattern.fits then return whole.pattern
  else none

/-- An engine of patterns: which texts are patterns, and which strings they have a match in. -/
structure Engine where
  compile? : Flags → String → Option (String → Bool)

/-- The engine of this library. It knows no classes by Unicode property, such as `\p{L}`. -/
def Engine.standard : Engine := ⟨fun flags text => (parse? flags text).map isMatch⟩

end Provision.Pattern
