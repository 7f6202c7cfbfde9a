/-!
# Addresses in messages

Texts that name an object end in `@` and its address. Addresses differ from run to run, so a message
that is shown has each of them replaced by a fixed word.
-/

namespace ManagedCore.Text

def isAddressDigit (c : Char) : Bool := c.isDigit || ('a' ≤ c && c ≤ 'f')

def minAddressDigits : Nat := 6

def addressMark : List Char := ['@', 'A', 'D', 'D', 'R']

/-- Replaces every address; `pending` are the digits read since the last `@`, latest first. -/
def maskFrom : Option (List Char) → List Char → List Char
  | none, [] => []
  | none, c :: rest => if c = '@' then maskFrom (some []) rest else c :: maskFrom none rest
  | some digits, rest =>
    let written := if minAddressDigits ≤ digits.length then addressMark else '@' :: digits.reverse
    match rest with
    | [] => written
    | c :: rest =>
      if isAddressDigit c then maskFrom (some (c :: digits)) rest
      else if c = '@' then written ++ maskFrom (some []) rest
      else written ++ c :: maskFrom none rest

def maskAddresses (s : String) : String := String.ofList (maskFrom none s.toList)

end ManagedCore.Text
