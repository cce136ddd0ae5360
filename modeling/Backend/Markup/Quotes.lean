import Backend.Markup.Cursor
import Backend.Markup.Gap
import Backend.Text.Numeral

/-! # Quoted scalars

Between single quotes only the quote itself is special, and is written twice. Between
double quotes a backslash and what follows it stand for a character, or join two lines.
-/

namespace Backend.Markup.Quotes

/-- What a backslash and a character stand for. -/
inductive Escape where
  | char (code : Nat)
  /-- A code of that many hexadecimal digits. -/
  | digits (count : Nat)

def escape? : Char → Option Escape
  | '0' => some (.char 0)
  | 'a' => some (.char 7)
  | 'b' => some (.char 8)
  | 't' | '\t' => some (.char 9)
  | 'n' => some (.char 10)
  | 'v' => some (.char 11)
  | 'f' => some (.char 12)
  | 'r' => some (.char 13)
  | 'e' => some (.char 0x1b)
  | ' ' => some (.char 0x20)
  | '"' => some (.char 0x22)
  | '/' => some (.char 0x2f)
  | '\\' => some (.char 0x5c)
  | 'N' => some (.char 0x85)
  | '_' => some (.char 0xa0)
  | 'L' => some (.char 0x2028)
  | 'P' => some (.char 0x2029)
  | 'x' => some (.digits 2)
  | 'u' => some (.digits 4)
  | 'U' => some (.digits 8)
  | _ => none

/-- Whether a code is that of a character. -/
def isCharacter (code : Nat) : Bool := code < 0xd800 || (0xdfff < code && code ≤ 0x10ffff)

def fault (position start : Position) (what problem : String) : Fault :=
  { problem, position, context := some (what, start) }

/-- Read on between single quotes, behind the given gap and text, which is in reverse
order. -/
def single (start : Position) (text : List Char) (gap : Gap) (position : Position) :
    List Char → Except Fault (List Char × Cursor)
  | [] =>
      .error (fault position start "while scanning a quoted scalar"
        "found unexpected end of stream")
  | c :: rest =>
      if isBlank c then single start text (gap.addBlank c) (position.after c) rest
      else if isBreak c then single start text (gap.addBreak c) (position.after c) rest
      else if position.column = 0 && atDocumentMark (c :: rest) then
        .error (fault position start "while scanning a quoted scalar"
          "found unexpected document indicator")
      else if c = '\'' then
        match rest with
        | '\'' :: rest =>
            single start (c :: gap.text.reverseAux text) .none ((position.after c).after c) rest
        | rest => .ok ((gap.text.reverseAux text).reverse, { position := position.after c, rest })
      else single start (c :: gap.text.reverseAux text) .none (position.after c) rest

/-- Take the digits of a code, and go on behind them. -/
def code? (count : Nat) (rest : List Char) : Option Nat :=
  if (rest.take count).length = count then Numeral.value? 16 (rest.take count) else none

/-- Read on between double quotes, behind the given gap and text, which is in reverse
order. The first characters are part of an escape that has been read. -/
def double (start : Position) (text : List Char) (gap : Gap) (position : Position) :
    (escaped : Nat) → List Char → Except Fault (List Char × Cursor)
  | _, [] =>
      .error (fault position start "while scanning a quoted scalar"
        "found unexpected end of stream")
  | escaped + 1, c :: rest => double start text gap (position.after c) escaped rest
  | 0, c :: rest =>
      if isBlank c then double start text (gap.addBlank c) (position.after c) 0 rest
      else if isBreak c then double start text (gap.addBreak c) (position.after c) 0 rest
      else if position.column = 0 && atDocumentMark (c :: rest) then
        .error (fault position start "while scanning a quoted scalar"
          "found unexpected document indicator")
      else if c = '"' then
        .ok ((gap.text.reverseAux text).reverse, { position := position.after c, rest })
      else if c = '\\' then
        if rest.head?.any isBreak then
          double start (gap.text.reverseAux text) (.lines none []) (position.after c) 1 rest
        else
          match rest.head?.bind escape? with
          | none =>
              .error (fault position start "while parsing a quoted scalar"
                "found unknown escape character")
          | some (.char code) =>
              double start (Char.ofNat code :: gap.text.reverseAux text) .none (position.after c)
                1 rest
          | some (.digits count) =>
              let place := { position with column := position.column + 2 }
              match code? count rest.tail with
              | none =>
                  .error (fault place start "while parsing a quoted scalar"
                    "did not find expected hexadecimal number")
              | some code =>
                  if isCharacter code then
                    double start (Char.ofNat code :: gap.text.reverseAux text) .none
                      (position.after c) (count + 1) rest
                  else
                    .error (fault place start "while parsing a quoted scalar"
                      "found invalid Unicode character escape code")
      else double start (c :: gap.text.reverseAux text) .none (position.after c) 0 rest

end Backend.Markup.Quotes
