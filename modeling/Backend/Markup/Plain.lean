import Backend.Markup.Cursor
import Backend.Markup.Gap

/-! # Plain scalars

A plain scalar has no quotes around it. It goes on over lines that are indented more
than what surrounds it, up to punctuation that cannot be part of it.
-/

namespace Backend.Markup.Plain

/-- What surrounds a plain scalar. -/
structure Setting where
  inFlow : Bool
  /-- The least column of its further lines. -/
  indent : Int
  start : Position

structure Result where
  text : List Char
  /-- Whether the cursor stands on a later line than the scalar. -/
  brokeLine : Bool
  behind : Cursor

def isFlowMark (c : Char) : Bool :=
  c = ',' || c = '[' || c = ']' || c = '\x7b' || c = '\x7d'

/-- Whether a scalar ends before a character that is neither blank nor a break. -/
def endsBefore (s : Setting) (gap : Gap) (position : Position) (c : Char) (rest : List Char) :
    Bool :=
  (gap ≠ .none && ((!s.inFlow && (position.column : Int) < s.indent) || c = '#')) ||
    (position.column = 0 && atDocumentMark (c :: rest))

/-- Whether punctuation ends a scalar. -/
def isEnd (s : Setting) (c : Char) (rest : List Char) : Bool :=
  (c = ':' && atWordEnd rest) || (s.inFlow && isFlowMark c)

/-- Read on behind the given gap and text, which is in reverse order. -/
def scan (s : Setting) (text : List Char) (gap : Gap) (position : Position) :
    List Char → Except Fault Result
  | [] =>
      .ok { text := text.reverse, brokeLine := gap.hasBreak, behind := { position, rest := [] } }
  | c :: rest =>
      if isBlank c then
        if gap.hasBreak && (position.column : Int) < s.indent && c = '\t' then
          .error {
            problem := "found a tab character that violates indentation"
            position
            context := some ("while scanning a plain scalar", s.start) }
        else scan s text (gap.addBlank c) (position.after c) rest
      else if isBreak c then scan s text (gap.addBreak c) (position.after c) rest
      else if endsBefore s gap position c rest then
        .ok {
          text := text.reverse
          brokeLine := gap.hasBreak
          behind := { position, rest := c :: rest } }
      else if s.inFlow && c = ':' && rest.head?.any fun d => d = '?' || isFlowMark d then
        .error {
          problem := "found unexpected ':'"
          position
          context := some ("while scanning a plain scalar", s.start) }
      else if isEnd s c rest then
        .ok {
          text := text.reverse
          brokeLine := gap.hasBreak
          behind := { position, rest := c :: rest } }
      else scan s (c :: gap.text.reverseAux text) .none (position.after c) rest

end Backend.Markup.Plain
