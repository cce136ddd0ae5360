import Backend.Markup.Position
import Backend.Markup.Value

/-! # Scalars in block documents

A text stands plain where a plain scalar reads back as the same text. Text that would
read back as another kind of value, or that the punctuation of the document would cut,
is put between single quotes. Text of several lines is written line by line, and text
that no other form can show stands between double quotes.
-/

namespace Backend.Markup.Scalar

/-- Whether a plain scalar of this text reads back, or seems to, as something else
than text. -/
def isOtherKind (s : String) : Bool :=
  Numeral.isPadded s.toList ||
    match Value.ofPlain s with
    | .text _ => false
    | _ => true

def isSpace (c : Char) : Bool := c = ' '

/-- Characters that only a double-quoted scalar can show. -/
def isSpecial (c : Char) : Bool :=
  let n := c.toNat
  (n < 0x20 && n ≠ 0xa) || (0x7f ≤ n && n < 0xa0) || n = 0xfeff || n = 0xfffe || n = 0xffff

/-- Whether some character of the first sort is directly followed by one of the second. -/
def hasPair (first second : Char → Bool) : List Char → Bool
  | a :: b :: rest => (first a && second b) || hasPair first second (b :: rest)
  | _ => false

/-- Characters that a scalar may not start with. -/
def indicators : List Char := "#,[]\x7b\x7d&*!|>'\"%@\x60".toList

def spaceOrEnd : List Char → Bool
  | [] => true
  | c :: _ => isSpace c

/-- Whether punctuation inside a scalar would end it: a colon before a blank, or a
number sign after one. -/
def isCut : Char → List Char → Bool
  | _, [] => false
  | before, c :: rest =>
      (c = ':' && spaceOrEnd rest) || (c = '#' && isSpace before) || isCut c rest

/-- Whether text on one line can stand as a plain scalar. -/
def fitsBlock (cs : List Char) : Bool :=
  match cs with
  | [] => false
  | c :: rest =>
      !indicators.contains c
        && !((c = '-' || c = '?' || c = ':') && spaceOrEnd rest)
        && !isSpace c && !cs.getLast?.any isSpace
        && !(cs.take 3 = ['-', '-', '-']) && !(cs.take 3 = ['.', '.', '.'])
        && !isCut c rest

inductive Style where
  | plain
  | single
  | double
  /-- Line by line, under a mark for what surrounds the lines. -/
  | lines
deriving DecidableEq, Repr

/-- How a text is written. A blank before the end of a line would be lost in every
form but the double-quoted one, and so would a blank behind it where the lines are
folded. -/
def style (s : String) : Style :=
  let cs := s.toList
  if cs.any isSpecial || hasPair isSpace isBreak cs then .double
  else if cs.contains '\n' then
    if cs.getLast?.any isSpace then .double else .lines
  else if hasPair isBreak isSpace cs then .double
  else if isOtherKind s || cs.any isBreak || !fitsBlock cs then .single
  else .plain

def hexDigits (width n : Nat) : List Char :=
  let digits := (Nat.toDigits 16 n).map Char.toUpper
  List.replicate (width - digits.length) '0' ++ digits

/-- The text of one character between double quotes. -/
def escapeChar (c : Char) : List Char :=
  let n := c.toNat
  if c = '"' then ['\\', '"']
  else if c = '\\' then ['\\', '\\']
  else if n = 0 then ['\\', '0']
  else if n = 7 then ['\\', 'a']
  else if n = 8 then ['\\', 'b']
  else if n = 9 then ['\\', 't']
  else if n = 10 then ['\\', 'n']
  else if n = 11 then ['\\', 'v']
  else if n = 12 then ['\\', 'f']
  else if n = 13 then ['\\', 'r']
  else if n = 0x1b then ['\\', 'e']
  else if n = 0x85 then ['\\', 'N']
  else if n = 0x2028 then ['\\', 'L']
  else if n = 0x2029 then ['\\', 'P']
  else if isSpecial c then
    if n < 0x100 then '\\' :: 'x' :: hexDigits 2 n else '\\' :: 'u' :: hexDigits 4 n
  else [c]

/-- The text of one character between single quotes. -/
def doubleQuote (c : Char) : List Char :=
  if c = '\'' then ['\'', '\''] else [c]

/-- Text with its lines moved to the right. `fresh` tells whether a line starts here;
lines with nothing in them are left alone. -/
def shift (indent : Nat) (write : Char → List Char) : (fresh : Bool) → List Char → List Char
  | _, [] => []
  | fresh, c :: rest =>
      if isBreak c then c :: shift indent write true rest
      else (if fresh then List.replicate indent ' ' else []) ++ write c ++
        shift indent write false rest

/-- The mark above lines. It gives their indentation where the first of them does not
show it, and tells a text that ends in no line break, or in more than one, from a text
that ends in a single one. -/
def header (cs : List Char) : List Char :=
  let start := if cs.head?.any fun c => isSpace c || isBreak c then ['2'] else []
  let stop := match cs.reverse with
    | [] => ['-']
    | c :: rest =>
        if !isBreak c then ['-']
        else if rest.head?.all isBreak then ['+']
        else []
  '|' :: start ++ stop

/-- A text as a scalar of a block document, whose further lines have the given
indentation. -/
def render (indent : Nat) (s : String) : String :=
  let cs := s.toList
  match style s with
  | .plain => s
  | .single =>
      let close := if cs.getLast?.any isBreak then List.replicate indent ' ' else []
      String.ofList ('\'' :: shift indent doubleQuote false cs ++ close ++ ['\''])
  | .double => String.ofList ('"' :: cs.flatMap escapeChar ++ ['"'])
  | .lines => String.ofList (header cs ++ '\n' :: shift indent (fun c => [c]) true cs)

/-- End a line, unless its text has ended it already. -/
def endLine (text : String) : String :=
  if text.toList.getLast?.any isBreak then text else text ++ "\n"

/-- Whether a text can stand before the colon of its entry: on one line, and of at
most 128 bytes. -/
def isKey (s : String) : Bool :=
  s.utf8ByteSize ≤ 128 && !s.toList.any isBreak

end Backend.Markup.Scalar
