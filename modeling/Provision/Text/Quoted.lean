import Provision.Text.Extend
import Provision.Text.Hidden

/-!
# Quoted text

The form in which messages and listings show a text: between double quotes, with escapes for the
quote, the backslash, the common control characters, and by code point for every character that
has no glyph of its own.
-/

namespace Provision.Text

def escapeCode (c : Char) : List Char :=
  ['\\', 'u', '\x7b'] ++ Nat.toDigits 16 c.toNat ++ ['\x7d']

def quoteChar (c : Char) : List Char :=
  if c = '"' ∨ c = '\\' then ['\\', c]
  else if c = '\n' then ['\\', 'n']
  else if c = '\t' then ['\\', 't']
  else if c = '\r' then ['\\', 'r']
  else if c.toNat = 0 then ['\\', '0']
  else if isExtender c || isHidden c then escapeCode c
  else [c]

def quote (s : String) : String :=
  String.ofList ('"' :: s.toList.flatMap quoteChar ++ ['"'])

end Provision.Text
