import Backend.Markup.Position

/-! # Source text

The characters that a text may hold, with one sort of line break: a carriage return,
alone or before a line feed, and a next-line character stand for a line feed. A text is
read in portions, and a portion with a character that it may not hold cannot be read.
-/

namespace Backend.Markup.Source

def isAllowed (c : Char) : Bool :=
  let n := c.toNat
  n = 0x9 || n = 0xa || n = 0xd || (0x20 ≤ n && n ≤ 0x7e) || n = 0x85 ||
    (0xa0 ≤ n && n ≤ 0xfffd) || 0x10000 ≤ n

/-- The mark that some lines start with. It says nothing, but takes up a column. -/
def isByteOrderMark (c : Char) : Bool := c.toNat = 0xfeff

/-- The most bytes that a portion has. -/
def portionSize : Nat := 16384

/-- The portions of a text, without the first that cannot be read and those behind it,
and the bytes before the character because of which it cannot. Both `read`, which is in
whole portions, and the `portion` that has been started are in reverse order, and
`offset` bytes are before the rest, `size` of them in that portion. -/
def portions (offset size : Nat) (read portion : List Char) :
    List Char → List Char × Option Nat
  | [] => ((portion ++ read).reverse, none)
  | c :: rest =>
      if size + c.utf8Size ≤ portionSize then
        if isAllowed c then
          portions (offset + c.utf8Size) (size + c.utf8Size) read (c :: portion) rest
        else (read.reverse, some offset)
      else if isAllowed c then
        portions (offset + c.utf8Size) c.utf8Size (portion ++ read) [c] rest
      else ((portion ++ read).reverse, some offset)

/-- The characters with one sort of line break, behind those that have been read, which
are in reverse order. -/
def unifyBreaks (read : List Char) : List Char → List Char
  | [] => read.reverse
  | '\r' :: '\n' :: rest => unifyBreaks ('\n' :: read) rest
  | c :: rest => unifyBreaks ((if c = '\r' || c.toNat = 0x85 then '\n' else c) :: read) rest

/-- The characters of a text as far as it can be read, and why they are not all. -/
def read (text : String) : List Char × Option Fault :=
  let (cs, refused) := portions 0 0 [] [] text.toList
  (unifyBreaks [] cs,
    refused.map fun offset => { problem := "control characters are not allowed", offset })

end Backend.Markup.Source
